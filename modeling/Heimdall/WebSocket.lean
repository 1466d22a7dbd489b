/-
WebSocket frames, `internal/rendezvous/ws.go`.

`writeFrame` has three encodings of the length and masks on the client's side; `nextFrame` reads one
frame's header, and the payload of a control frame with it, and leaves the payload of a data frame
to `Read`, which takes it in pieces and goes on unmasking where it stopped. A frame that was written
is read as it was written (`nextFrame_bytes`), on a stream that is still growing as well, as
`nextFrame` is stable (`stable_nextFrame`).
-/
import Heimdall.BigEndian
import Heimdall.Streams

set_option autoImplicit false

namespace Heimdall.Rendezvous

open Heimdall.BigEndian
open Heimdall.Streams (Parser Stable Eats)

/-! ## Writing -/

def maxWSPayload : ℕ := 2 ^ 20 + 1024

def maxControlPayload : ℕ := 125

/-- The opcodes that are written. -/
inductive Opcode where
  | binary
  | close
  | ping
  | pong
  deriving DecidableEq

def Opcode.byte : Opcode → UInt8
  | binary => 0x2
  | close => 0x8
  | ping => 0x9
  | pong => 0xA

abbrev MaskKey := { k : List UInt8 // k.length = 4 }

/-- Mask, or unmask, from position `pos` on. -/
def xorMask (key : List UInt8) : ℕ → List UInt8 → List UInt8
  | _, [] => []
  | pos, b :: bs => (b ^^^ key.getD (pos % 4) 0) :: xorMask key (pos + 1) bs

def maskBit (masked : Bool) : UInt8 := if masked then 0x80 else 0

def lengthHeader (opcode : UInt8) (masked : Bool) (n : ℕ) : List UInt8 :=
  let b0 := 0x80 ||| opcode
  if n < 126 then [b0, UInt8.ofNat n ||| maskBit masked]
  else if n ≤ 0xFFFF then [b0, 126 ||| maskBit masked] ++ beBytes 2 n
  else [b0, 127 ||| maskBit masked] ++ beBytes 8 n

def writeFrame (key : Option MaskKey) (opcode : UInt8) (payload : List UInt8) : List UInt8 :=
  match key with
  | some k => lengthHeader opcode true payload.length ++ k.val ++ xorMask k.val 0 payload
  | none => lengthHeader opcode false payload.length ++ payload

/-! ## Reading

The parser in the steps of the source, with its checks in their order. A frame that has not arrived
as a whole is not an error: the parser is short of input and waits. -/

inductive WSError where
  | reservedBits
  | tooLong (n : ℕ)
  | unmasked
  | masked
  | text
  | malformedPing
  | malformedPong
  | unknownOpcode (opcode : UInt8)
  deriving DecidableEq

/-- The header of a frame. -/
structure FrameHeader where
  fin : Bool
  opcode : UInt8
  masked : Bool
  length : ℕ
  key : List UInt8

/-- What one round of the loop of `nextFrame` has read. -/
inductive Incoming where
  /-- A data frame; its payload is yet to be read. -/
  | data (length : ℕ) (key : List UInt8) (masked : Bool)
  | ping (payload : List UInt8)
  | pong
  | close
  deriving DecidableEq

/-- The length, which is in the second byte or in the bytes that follow. -/
def readLength (b1 : UInt8) : Parser UInt8 WSError ℕ :=
  if (b1 &&& 0x7F).toNat = 126 then do
    let ext ← Streams.take 2
    return beNat ext
  else if (b1 &&& 0x7F).toNat = 127 then do
    let ext ← Streams.take 8
    if beNat ext > maxWSPayload then Streams.fail (.tooLong (beNat ext)) else return beNat ext
  else return (b1 &&& 0x7F).toNat

def checkMask (client masked : Bool) : Parser UInt8 WSError Unit :=
  if client = false ∧ masked = false then Streams.fail .unmasked
  else if client = true ∧ masked = true then Streams.fail .masked
  else return ()

def readKey (masked : Bool) : Parser UInt8 WSError (List UInt8) :=
  if masked then Streams.take 4 else return [0, 0, 0, 0]

/-- The part of `nextFrame` up to the mask key. -/
def readHeader (client : Bool) : Parser UInt8 WSError FrameHeader := do
  let hdr ← Streams.take 2
  let b0 := hdr.getD 0 0
  let b1 := hdr.getD 1 0
  if b0 &&& 0x70 ≠ 0 then Streams.fail .reservedBits
  else do
    let length ← readLength b1
    if length > maxWSPayload then Streams.fail (.tooLong length)
    else do
      checkMask client (b1 &&& 0x80 ≠ 0)
      let key ← readKey (b1 &&& 0x80 ≠ 0)
      return ⟨b0 &&& 0x80 ≠ 0, b0 &&& 0x0F, b1 &&& 0x80 ≠ 0, length, key⟩

def readPayload (h : FrameHeader) : Parser UInt8 WSError (List UInt8) := do
  let buf ← Streams.take h.length
  return if h.masked then xorMask h.key 0 buf else buf

/-- The part of `nextFrame` after the header. -/
def readBody (h : FrameHeader) : Parser UInt8 WSError Incoming :=
  if h.opcode = 0x2 ∨ h.opcode = 0x0 then return .data h.length h.key h.masked
  else if h.opcode = 0x1 then Streams.fail .text
  else if h.opcode = 0x8 then do
    let _ ← readPayload h
    return .close
  else if h.opcode = 0x9 then
    if h.length > maxControlPayload ∨ h.fin = false then Streams.fail .malformedPing
    else do
      let payload ← readPayload h
      return .ping payload
  else if h.opcode = 0xA then
    if h.length > maxControlPayload ∨ h.fin = false then Streams.fail .malformedPong
    else do
      let _ ← readPayload h
      return .pong
  else Streams.fail (.unknownOpcode h.opcode)

def nextFrame (client : Bool) : Parser UInt8 WSError Incoming := readHeader client >>= readBody

/-! ## More input changes nothing -/

theorem stable_readLength (b1 : UInt8) : Stable (readLength b1) := by
  unfold readLength
  apply Stable.ite
  · exact (Stable.take 2).bind fun _ => .pure _
  · apply Stable.ite
    · exact (Stable.take 8).bind fun _ => Stable.ite (.fail _) (.pure _)
    · exact .pure _

theorem stable_checkMask (client masked : Bool) : Stable (checkMask client masked) :=
  Stable.ite (.fail _) (Stable.ite (.fail _) (.pure _))

theorem stable_readKey (masked : Bool) : Stable (readKey masked) := Stable.ite (.take 4) (.pure _)

/-- The parser is put together from stable ones, so it does not matter where the network cuts the
stream. -/
theorem stable_readHeader (client : Bool) : Stable (readHeader client) := by
  unfold readHeader
  apply (Stable.take 2).bind
  intro hdr
  apply Stable.ite (.fail _)
  apply (stable_readLength _).bind
  intro length
  apply Stable.ite (.fail _)
  apply (stable_checkMask _ _).bind
  intro _
  exact (stable_readKey _).bind fun _ => .pure _

theorem stable_readPayload (h : FrameHeader) : Stable (readPayload h) :=
  (Stable.take _).bind fun _ => .pure _

theorem stable_readBody (h : FrameHeader) : Stable (readBody h) := by
  have hpay : ∀ {α : Type} (f : List UInt8 → α),
      Stable (readPayload h >>= fun x => (pure (f x) : Parser UInt8 WSError α)) :=
    fun f => (stable_readPayload h).bind fun _ => .pure _
  unfold readBody
  apply Stable.ite (.pure _)
  apply Stable.ite (.fail _)
  apply Stable.ite (hpay _)
  apply Stable.ite (Stable.ite (.fail _) (hpay _))
  exact Stable.ite (Stable.ite (.fail _) (hpay _)) (.fail _)

/-- **A frame is read the same, however the stream is cut.** -/
theorem stable_nextFrame (client : Bool) : Stable (nextFrame client) :=
  (stable_readHeader client).bind stable_readBody

/-! ## Every frame takes two bytes at least -/

theorem eats_readLength (b1 : UInt8) : Eats 0 (readLength b1) := by
  unfold readLength
  apply Eats.ite
  · exact ((Eats.take 2).mono (Nat.zero_le 2)).bind fun _ => .pure _
  · apply Eats.ite
    · exact ((Eats.take 8).mono (Nat.zero_le 8)).bind fun _ => Eats.ite (.fail _) (.pure _)
    · exact .pure _

theorem eats_readHeader (client : Bool) : Eats 2 (readHeader client) := by
  unfold readHeader
  apply (Eats.take 2).bind
  intro hdr
  apply Eats.ite (.fail _)
  apply (eats_readLength _).bind
  intro length
  apply Eats.ite (.fail _)
  -- the rest of the header may be empty
  have hmask : Eats 0 (checkMask client ((hdr.getD 1 0) &&& 0x80 ≠ 0)) :=
    Eats.ite (.fail _) (Eats.ite (.fail _) (.pure _))
  apply hmask.bind
  intro _
  have hkey : Eats 0 (readKey ((hdr.getD 1 0) &&& 0x80 ≠ 0)) :=
    Eats.ite ((Eats.take 4).mono (Nat.zero_le 4)) (.pure _)
  exact hkey.bind fun _ => .pure _

theorem eats_readBody (h : FrameHeader) : Eats 0 (readBody h) := by
  have hpay : ∀ {α : Type} (f : List UInt8 → α),
      Eats 0 (readPayload h >>= fun x => (pure (f x) : Parser UInt8 WSError α)) := by
    intro α f
    apply Eats.bind _ fun _ => .pure _
    exact ((Eats.take _).mono (Nat.zero_le _)).bind fun _ => .pure _
  unfold readBody
  apply Eats.ite (.pure _)
  apply Eats.ite (.fail _)
  apply Eats.ite (hpay _)
  apply Eats.ite (Eats.ite (.fail _) (hpay _))
  exact Eats.ite (Eats.ite (.fail _) (hpay _)) (.fail _)

/-- Every frame takes two bytes at least. So a loop over frames ends on every finite stream, and
the length of the stream is fuel enough. -/
theorem eats_nextFrame (client : Bool) : Eats 2 (nextFrame client) :=
  (eats_readHeader client).bind eats_readBody

/-! ## What is written is read -/

theorem length_xorMask (key : List UInt8) (pos : ℕ) (bs : List UInt8) :
    (xorMask key pos bs).length = bs.length := by
  induction bs generalizing pos with
  | nil => rfl
  | cons b bs ih => simp [xorMask, ih]

theorem xorMask_xorMask (key : List UInt8) (pos : ℕ) (bs : List UInt8) :
    xorMask key pos (xorMask key pos bs) = bs := by
  induction bs generalizing pos with
  | nil => rfl
  | cons b bs ih =>
    rw [xorMask, xorMask, ih, UInt8.xor_assoc, UInt8.xor_self, UInt8.xor_zero]

/-- The mask position goes on from one piece to the next, so a payload may be unmasked in parts. -/
theorem xorMask_append (key : List UInt8) (pos : ℕ) (as bs : List UInt8) :
    xorMask key pos (as ++ bs) = xorMask key pos as ++ xorMask key (pos + as.length) bs := by
  induction as generalizing pos with
  | nil => rfl
  | cons a as ih =>
    simp only [List.cons_append, xorMask, ih, List.length_cons]
    congr 3
    omega

theorem second_byte (n : ℕ) (hn : n < 128) (masked : Bool) :
    ((UInt8.ofNat n ||| maskBit masked) &&& 0x7F).toNat = n ∧
      (decide ((UInt8.ofNat n ||| maskBit masked) &&& 0x80 ≠ 0) = masked) := by
  have hall : ∀ n : Fin 128, ∀ masked : Bool,
      ((UInt8.ofNat n ||| maskBit masked) &&& 0x7F).toNat = n ∧
        (decide ((UInt8.ofNat n ||| maskBit masked) &&& 0x80 ≠ 0) = masked) := by decide
  exact hall ⟨n, hn⟩ masked

/-- **Each of the three encodings** of a length is read back, whatever follows. -/
theorem readLength_lengthHeader (opcode : UInt8) (masked : Bool) {n : ℕ} (hn : n ≤ maxWSPayload) :
    ∃ b1 ext, lengthHeader opcode masked n = [0x80 ||| opcode, b1] ++ ext ∧
      decide (b1 &&& 0x80 ≠ 0) = masked ∧
      ∀ rest, (readLength b1).run (ext ++ rest) = .ok (n, rest) := by
  unfold lengthHeader
  split_ifs with hshort hmid
  · -- the length is the second byte itself
    obtain ⟨hlen, hmask⟩ := second_byte n (by omega) masked
    refine ⟨_, [], rfl, hmask, fun rest => ?_⟩
    unfold readLength
    rw [hlen, if_neg (by omega), if_neg (by omega)]
    rfl
  · obtain ⟨hlen, hmask⟩ := second_byte 126 (by omega) masked
    refine ⟨126 ||| maskBit masked, _, rfl, hmask, fun rest => ?_⟩
    have hcode : ((126 ||| maskBit masked : UInt8) &&& 0x7F).toNat = 126 := hlen
    have hval : beNat (beBytes 2 n) = n := by
      rw [beNat_beBytes]
      omega
    unfold readLength
    rw [if_pos hcode, Streams.run_bind_ok (Streams.run_take_append (length_beBytes 2 n) rest), hval]
    rfl
  · obtain ⟨hlen, hmask⟩ := second_byte 127 (by omega) masked
    refine ⟨127 ||| maskBit masked, _, rfl, hmask, fun rest => ?_⟩
    have hcode : ((127 ||| maskBit masked : UInt8) &&& 0x7F).toNat = 127 := hlen
    have hval : beNat (beBytes 8 n) = n := by
      rw [beNat_beBytes]
      unfold maxWSPayload at hn
      omega
    unfold readLength
    rw [if_neg (by omega), if_pos hcode,
      Streams.run_bind_ok (Streams.run_take_append (length_beBytes 8 n) rest), hval,
      if_neg (by omega)]
    rfl

/-- A frame as it is handed to `writeFrame`. -/
structure WSFrame where
  op : Opcode
  key : Option MaskKey
  payload : List UInt8

namespace WSFrame

variable (f : WSFrame)

def bytes : List UInt8 := writeFrame f.key f.op.byte f.payload

def keyBytes : List UInt8 :=
  match f.key with
  | some k => k.val
  | none => [0, 0, 0, 0]

def body : List UInt8 :=
  match f.key with
  | some k => xorMask k.val 0 f.payload
  | none => f.payload

def incoming : Incoming :=
  match f.op with
  | .binary => .data f.payload.length f.keyBytes f.key.isSome
  | .ping => .ping f.payload
  | .pong => .pong
  | .close => .close

/-- The frame is one that the other side takes: masked if it comes from a client, and not too
long. -/
structure Fits (client : Bool) : Prop where
  key : f.key.isSome = !client
  length : f.payload.length ≤ maxWSPayload
  control : f.op ≠ .binary → f.payload.length ≤ maxControlPayload

variable {f} {client : Bool}

theorem length_body : f.body.length = f.payload.length := by
  unfold body
  split
  · exact length_xorMask _ _ _
  · rfl

theorem length_bytes_le (h : f.key = none) : f.bytes.length ≤ f.payload.length + 10 := by
  unfold bytes writeFrame lengthHeader
  rw [h]
  dsimp only
  split_ifs <;>
    simp only [List.length_append, List.length_cons, List.length_nil, length_beBytes] <;>
    omega

theorem readHeader_bytes (hf : f.Fits client) (rest : List UInt8) :
    (readHeader client).run (f.bytes ++ rest) =
      .ok (⟨true, f.op.byte, f.key.isSome, f.payload.length, f.keyBytes⟩, f.body ++ rest) := by
  obtain ⟨b1, ext, hhdr, hmask, hlen⟩ :=
    readLength_lengthHeader f.op.byte f.key.isSome hf.length
  -- what follows the length: the key, if there is one, and the payload
  obtain ⟨keyPart, hbytes, hkey⟩ : ∃ keyPart,
      f.bytes = lengthHeader f.op.byte f.key.isSome f.payload.length ++ keyPart ++ f.body ∧
        ∀ r, (readKey f.key.isSome).run (keyPart ++ r) = .ok (f.keyBytes, r) := by
    unfold bytes writeFrame body keyBytes readKey
    cases f.key with
    | some k => exact ⟨k.val, rfl, fun r => Streams.run_take_append k.property r⟩
    | none => exact ⟨[], by simp, fun r => rfl⟩
  have hcheck : ∀ r, (checkMask client f.key.isSome).run r = .ok ((), r) := by
    intro r
    unfold checkMask
    rw [hf.key]
    cases client <;> rfl
  have hbits : (0x80 ||| f.op.byte) &&& 0x70 = 0 ∧ (0x80 ||| f.op.byte) &&& 0x80 ≠ 0 ∧
      (0x80 ||| f.op.byte) &&& 0x0F = f.op.byte := by
    cases f.op <;> decide
  rw [hbytes, hhdr, List.append_assoc, List.append_assoc, List.append_assoc]
  have htake : ∀ r, (Streams.take 2 : Parser UInt8 WSError _).run ([0x80 ||| f.op.byte, b1] ++ r) =
      .ok ([0x80 ||| f.op.byte, b1], r) := Streams.run_take_append rfl
  unfold readHeader
  rw [Streams.run_bind_ok (htake _)]
  simp only [List.getD_cons_zero, List.getD_cons_succ]
  rw [if_neg (by simp [hbits.1]), Streams.run_bind_ok (hlen _),
    if_neg (by have := hf.length; omega),
    hmask, Streams.run_bind_ok (hcheck _), Streams.run_bind_ok (hkey _), hbits.2.2,
    decide_eq_true hbits.2.1]
  rfl

theorem readPayload_body (fin : Bool) (opcode : UInt8) (rest : List UInt8) :
    (readPayload ⟨fin, opcode, f.key.isSome, f.payload.length, f.keyBytes⟩).run (f.body ++ rest) =
      .ok (f.payload, rest) := by
  unfold readPayload
  rw [Streams.run_bind_ok (Streams.run_take_append length_body rest)]
  unfold body keyBytes
  cases f.key with
  | some k =>
    simp only [Option.isSome_some, if_true, xorMask_xorMask]
    rfl
  | none => rfl

/-- **A frame that was written is read as it was written**: of a data frame the header, of a
control frame all of it. The payload of a data frame is left in the stream, as `Read` hands it out
in parts. -/
theorem nextFrame_bytes (hf : f.Fits client) (rest : List UInt8) :
    (nextFrame client).run (f.bytes ++ rest) =
      .ok (f.incoming, if f.op = .binary then f.body ++ rest else rest) := by
  unfold nextFrame
  rw [Streams.run_bind_ok (readHeader_bytes hf rest)]
  have hpay := fun opcode => readPayload_body (f := f) true opcode rest
  -- a control frame is short and not fragmented
  have hcontrol : f.op ≠ .binary → ¬ (f.payload.length > maxControlPayload ∨ true = false) := by
    rintro hop (hlong | hfin)
    · have := hf.control hop
      omega
    · exact absurd hfin nofun
  unfold readBody incoming
  dsimp only
  cases hop : f.op with
  | binary => rfl
  | close =>
    rw [if_neg (by decide), if_neg (by decide), if_pos (by decide), Streams.run_bind_ok (hpay _)]
    rfl
  | ping =>
    rw [if_neg (by decide), if_neg (by decide), if_neg (by decide), if_pos (by decide),
      if_neg (hcontrol (by simp [hop])), Streams.run_bind_ok (hpay _)]
    rfl
  | pong =>
    rw [if_neg (by decide), if_neg (by decide), if_neg (by decide), if_neg (by decide),
      if_pos (by decide), if_neg (hcontrol (by simp [hop])), Streams.run_bind_ok (hpay _)]
    rfl

end WSFrame

end Heimdall.Rendezvous
