/-
Reading a WebSocket stream, `WSConn.Read` of `internal/rendezvous/ws.go`.

`Read` hands out the payload of data frames in whatever pieces its callers ask for. It stops in the
middle of a frame and goes on there with the mask at the position it had reached, and it answers
pings on the way. So what the callers get must not depend on the sizes they read with.

What they should get is said without `Read`: `refFrame` takes one whole frame off a stream by the
rules of the format, in arithmetic on the bytes, and `decode` goes from frame to frame up to the
first violation, close frame or end. `refFrame_eq` says that the parser of the code has the same
idea of a frame, `Returns.ok` what one call of `Read` does, and `reads_refine` what all of them do.

The stream is finite, and the writes of `Read` succeed.
-/
import Heimdall.Hop

set_option autoImplicit false

namespace Heimdall.Rendezvous

open Heimdall.BigEndian

/-! ## The reference decoder

Written from the format and not from the code: a function of the whole stream, with the fields of a
header as arithmetic on its bytes. It has no reader, no buffers and no position in a mask. -/

def refUnmask (key payload : List UInt8) : List UInt8 :=
  if key = [] then payload else payload.mapIdx fun i b => b ^^^ key.getD (i % 4) 0

/-- A frame of the stream. -/
inductive RefFrame where
  | data (payload : List UInt8)
  | ping (payload : List UInt8)
  | pong
  | close

/-- What a stream starts with. -/
inductive RefResult where
  | violation
  /-- The stream ends within the frame; so much of the payload of a data frame is there. -/
  | truncated (payload : List UInt8)
  | frame (f : RefFrame) (rest : List UInt8)

def refBody (fin : Bool) (opcode length : ℕ) (key body : List UInt8) : RefResult :=
  if opcode = 0 ∨ opcode = 2 then
    if body.length < length then .truncated (refUnmask key body)
    else .frame (.data (refUnmask key (body.take length))) (body.drop length)
  else if opcode = 8 then
    if body.length < length then .truncated [] else .frame .close (body.drop length)
  else if (opcode = 9 ∨ opcode = 10) ∧ length ≤ maxControlPayload ∧ fin = true then
    if body.length < length then .truncated []
    else .frame (if opcode = 9 then .ping (refUnmask key (body.take length)) else .pong)
      (body.drop length)
  else .violation

def extSize (len7 : ℕ) : ℕ := if len7 = 126 then 2 else if len7 = 127 then 8 else 0

/-- The length of the payload, by the second byte and what follows it. -/
def refLength (b1 : UInt8) (s : List UInt8) : ℕ :=
  if extSize (b1.toNat % 128) = 0 then b1.toNat % 128 else beNat (s.take (extSize (b1.toNat % 128)))

/-- The frame that a stream starts with: a byte with `fin`, three reserved bits and the opcode,
a byte with the mask bit and a length, the extended length, the key, the payload. -/
def refFrame (client : Bool) : List UInt8 → RefResult
  | b0 :: b1 :: s =>
    let ext := extSize (b1.toNat % 128)
    let keySize := if client then 0 else 4
    if b0.toNat / 16 % 8 ≠ 0 then .violation
    else if s.length < ext then .truncated []
    else if refLength b1 s > maxWSPayload then .violation
    -- the frames of a client are masked, those of a server are not
    else if decide (128 ≤ b1.toNat) = client then .violation
    else if (s.drop ext).length < keySize then .truncated []
    else refBody (128 ≤ b0.toNat) (b0.toNat % 16) (refLength b1 s) ((s.drop ext).take keySize)
      ((s.drop ext).drop keySize)
  | _ => .truncated []

/-- What a stream carries up to its first violation, close frame or end. -/
structure Decoded where
  payload : List UInt8 := []
  pings : List (List UInt8) := []

def Decoded.cons (f : RefFrame) (d : Decoded) : Decoded :=
  match f with
  | .data payload => { d with payload := payload ++ d.payload }
  | .ping payload => { d with pings := payload :: d.pings }
  | .pong | .close => d

def RefResult.decode (next : List UInt8 → Decoded) : RefResult → Decoded
  | .violation => {}
  | .truncated payload => { payload := payload }
  | .frame .close _ => {}
  | .frame f rest => (next rest).cons f

def decodeUpTo (client : Bool) : ℕ → List UInt8 → Decoded
  | 0, _ => {}
  | fuel + 1, s => (refFrame client s).decode (decodeUpTo client fuel)

/-- **The reference decoder**; a frame has two bytes at least. -/
def decode (client : Bool) (s : List UInt8) : Decoded := decodeUpTo client s.length s

/-! ## `Read`

The calls of the source: `Read` takes what fits into the buffer from the current frame, and goes on
to the next one when that is used up. `nextFrame` is a loop, as it passes over control frames and
frames without data. -/

/-- Why `Read` returns an error. -/
inductive Halt where
  | protocol (e : WSError)
  /-- After a close frame. -/
  | closed
  /-- The stream has ended. -/
  | ended
  deriving DecidableEq

def writeControl (op : Opcode) (payload : List UInt8) : Opcode × List UInt8 :=
  (op, payload.take maxControlPayload)

/-- What `nextFrame` leaves: the control frames it has written, the reader, and the rest of the
stream or an error. -/
structure Advanced where
  written : List (Opcode × List UInt8) := []
  reader : Reader
  rest : Except Halt (List UInt8)

/-- The loop of `nextFrame`, at most `fuel` times around. -/
def Reader.nextFrames : ℕ → Reader → List UInt8 → Option Advanced
  | 0, _, _ => none
  | fuel + 1, r, s =>
    match (nextFrame r.client).run s with
    | .error .short => some { reader := r, rest := .error .ended }
    | .error (.failed e) => some { reader := r, rest := .error (.protocol e) }
    | .ok (.data length key masked, rest) =>
      -- an empty frame has nothing to hand back
      if length = 0 then nextFrames fuel (r.start length key masked) rest
      else some { reader := r.start length key masked, rest := .ok rest }
    | .ok (.ping payload, rest) =>
      (nextFrames fuel r rest).map fun a =>
        { a with written := writeControl .pong payload :: a.written }
    | .ok (.pong, rest) => nextFrames fuel r rest
    | .ok (.close, _) =>
      some { written := [writeControl .close []], reader := r, rest := .error .closed }

/-- What one call of `Read` returns and leaves: `pending` is the counter when the bytes are
taken. -/
structure Chunk where
  bytes : List UInt8 := []
  err : Option Halt
  written : List (Opcode × List UInt8) := []
  pending : ℕ
  reader : Reader
  rest : List UInt8

/-- The part of `Read` that takes bytes of the current frame, into a buffer of `n` bytes. -/
def Reader.take (r : Reader) (s : List UInt8) (n : ℕ) (written : List (Opcode × List UInt8)) :
    Chunk :=
  let got := s.take (min n r.rem)
  { bytes := r.unmask got
    err := if got.length < min n r.rem then some .ended else none
    written := written
    pending := r.rem
    reader := r.read got.length
    rest := s.drop (min n r.rem) }

/-- `Read` with a buffer of `n` bytes, on a stream of which `s` is left. -/
def Reader.readCall (r : Reader) (fuel : ℕ) (s : List UInt8) (n : ℕ) : Option Chunk :=
  if r.rem > 0 then some (r.take s n [])
  else
    (r.nextFrames fuel s).map fun a =>
      match a.rest with
      | .ok rest => a.reader.take rest n a.written
      | .error e =>
        { err := some e, written := a.written, pending := a.reader.rem, reader := a.reader,
          rest := [] }

/-- **The call returns**, after no more rounds than there are bytes. -/
def Reader.Returns (r : Reader) (s : List UInt8) (n : ℕ) (c : Chunk) : Prop :=
  ∀ fuel, s.length < fuel → r.readCall fuel s n = some c

/-- Calls of `Read` with buffers of these sizes, up to the first that returns an error. -/
inductive Reads : Reader → List UInt8 → (ℕ → ℕ) → List Chunk → Prop
  | last {r : Reader} {s : List UInt8} {sizes : ℕ → ℕ} {c : Chunk} (hc : r.Returns s (sizes 0) c)
      (herr : c.err.isSome = true) : Reads r s sizes [c]
  | more {r : Reader} {s : List UInt8} {sizes : ℕ → ℕ} {c : Chunk} {cs : List Chunk}
      (hc : r.Returns s (sizes 0) c) (herr : c.err = none)
      (hcs : Reads c.reader c.rest (fun i => sizes (i + 1)) cs) : Reads r s sizes (c :: cs)

/-- The payloads of the pongs among control frames. -/
def pongs (ws : List (Opcode × List UInt8)) : List (List UInt8) :=
  (ws.filter fun w => w.1 = .pong).map Prod.snd

/-! ## The parser has the same idea of a frame -/

theorem byte_fields (b : UInt8) :
    (b &&& 0x7F).toNat = b.toNat % 128 ∧ (b &&& 0x0F).toNat = b.toNat % 16 ∧
      (b &&& 0x70 ≠ 0 ↔ b.toNat / 16 % 8 ≠ 0) ∧ (b &&& 0x80 ≠ 0 ↔ 128 ≤ b.toNat) := by
  have hall : ∀ n : Fin 256,
      (UInt8.ofNat n &&& 0x7F).toNat = n % 128 ∧ (UInt8.ofNat n &&& 0x0F).toNat = n % 16 ∧
        (UInt8.ofNat n &&& 0x70 ≠ 0 ↔ n.val / 16 % 8 ≠ 0) ∧
        (UInt8.ofNat n &&& 0x80 ≠ 0 ↔ 128 ≤ n.val) := by decide +kernel
  have hb := hall ⟨b.toNat, b.toNat_lt⟩
  rwa [UInt8.ofNat_toNat] at hb

theorem xorMask_eq_mapIdx (key : List UInt8) (pos : ℕ) (bs : List UInt8) :
    xorMask key pos bs = bs.mapIdx fun i b => b ^^^ key.getD ((pos + i) % 4) 0 := by
  induction bs generalizing pos with
  | nil => rfl
  | cons b bs ih =>
    rw [xorMask, ih, List.mapIdx_cons]
    simp only [Nat.add_assoc, Nat.add_comm 1, Nat.add_zero]

/-- The payload of a frame with this header, of which `bs` is there. -/
def unmaskWith (key : List UInt8) (masked : Bool) (bs : List UInt8) : List UInt8 :=
  if masked then xorMask key 0 bs else bs

theorem refUnmask_eq {key : List UInt8} {masked : Bool} (hkey : masked = true → key.length = 4)
    (bs : List UInt8) : refUnmask (if masked then key else []) bs = unmaskWith key masked bs := by
  unfold refUnmask unmaskWith
  cases masked with
  | false => rfl
  | true =>
    have hne : key ≠ [] := List.ne_nil_of_length_pos (by rw [hkey rfl]; omega)
    simp only [if_true, if_neg hne, xorMask_eq_mapIdx, Nat.zero_add]

/-- A round of `nextFrame`, with the payload of a data frame, as the reference decoder puts it. -/
def refOf : Except (Streams.Stop WSError) (Incoming × List UInt8) → RefResult
  | .error .short => .truncated []
  | .error (.failed _) => .violation
  | .ok (.data length key masked, rest) =>
    if rest.length < length then .truncated (unmaskWith key masked rest)
    else .frame (.data (unmaskWith key masked (rest.take length))) (rest.drop length)
  | .ok (.ping payload, rest) => .frame (.ping payload) rest
  | .ok (.pong, rest) => .frame .pong rest
  | .ok (.close, rest) => .frame .close rest

theorem run_readPayload_bind {α : Type} (h : FrameHeader) (f : List UInt8 → α) (s : List UInt8) :
    (readPayload h >>= fun x => (pure (f x) : Streams.Parser UInt8 WSError α)).run s =
      if s.length < h.length then .error .short
      else .ok (f (unmaskWith h.key h.masked (s.take h.length)), s.drop h.length) := by
  by_cases hlt : s.length < h.length
  · have htake : (Streams.take h.length : Streams.Parser UInt8 WSError _).run s = .error .short :=
      if_pos hlt
    rw [if_pos hlt]
    exact Streams.run_bind_error (Streams.run_bind_error htake)
  · have htake : (Streams.take h.length : Streams.Parser UInt8 WSError _).run s =
        .ok (s.take h.length, s.drop h.length) := if_neg hlt
    have hpay : (readPayload h).run s =
        .ok (unmaskWith h.key h.masked (s.take h.length), s.drop h.length) :=
      Streams.run_bind_ok htake
    rw [if_neg hlt]
    exact Streams.run_bind_ok hpay

theorem refBody_eq {h : FrameHeader} (hkey : h.masked = true → h.key.length = 4)
    (s : List UInt8) :
    refBody h.fin h.opcode.toNat h.length (if h.masked then h.key else []) s =
      refOf ((readBody h).run s) := by
  have hnat : ∀ c : UInt8, h.opcode.toNat = c.toNat ↔ h.opcode = c := fun c => UInt8.toNat_inj
  have h0 := hnat 0
  have h2 := hnat 2
  have h8 := hnat 8
  have h9 := hnat 9
  have h10 := hnat 10
  simp only [UInt8.reduceToNat] at h0 h2 h8 h9 h10
  unfold refBody readBody
  simp only [refUnmask_eq hkey, h0, h2, h8, h9, h10, or_comm (a := h.opcode = 2)]
  by_cases hdata : h.opcode = 0 ∨ h.opcode = 2
  · rw [if_pos hdata, if_pos hdata]
    rfl
  rw [if_neg hdata, if_neg hdata]
  by_cases hclose : h.opcode = 8
  · have htext : h.opcode ≠ 1 := by rw [hclose]; decide
    rw [if_pos hclose, if_neg htext, if_pos hclose, run_readPayload_bind]
    split_ifs <;> rfl
  rw [if_neg hclose, if_neg hclose]
  by_cases hctl : h.opcode = 9 ∨ h.opcode = 10
  · -- a ping or a pong is short and not fragmented
    have htext : h.opcode ≠ 1 := by rcases hctl with h | h <;> rw [h] <;> decide
    rw [if_neg htext]
    by_cases hbad : h.length > maxControlPayload ∨ h.fin = false
    · have hgood : ¬ ((h.opcode = 9 ∨ h.opcode = 10) ∧ h.length ≤ maxControlPayload ∧
          h.fin = true) := by
        rintro ⟨-, hlen, hfin⟩
        rcases hbad with hbad | hbad
        · omega
        · simp [hfin] at hbad
      rw [if_neg hgood]
      simp only [if_pos hbad]
      rcases hctl with h | h <;> rw [h] <;> rfl
    · have hgood : h.length ≤ maxControlPayload ∧ h.fin = true := by simpa using hbad
      rw [if_pos ⟨hctl, hgood⟩]
      simp only [if_neg hbad]
      rcases hctl with h9 | h10
      · rw [if_pos h9, if_pos h9, run_readPayload_bind]
        split_ifs <;> rfl
      · have hne : h.opcode ≠ 9 := by rw [h10]; decide
        rw [if_neg hne, if_neg hne, if_pos h10, run_readPayload_bind]
        split_ifs <;> rfl
  · rw [if_neg fun hgood => hctl hgood.1]
    obtain ⟨hne9, hne10⟩ := not_or.mp hctl
    rw [if_neg hne9, if_neg hne10]
    split_ifs <;> rfl

theorem run_take (n : ℕ) (s : List UInt8) :
    (Streams.take n : Streams.Parser UInt8 WSError _).run s =
      if s.length < n then .error .short else .ok (s.take n, s.drop n) := rfl

/-- The length is read; where it is in eight bytes, one that is too large fails here already.
Otherwise the check comes later, which makes no difference to what is a frame. -/
theorem run_readLength (b1 : UInt8) (s : List UInt8) :
    (s.length < extSize (b1.toNat % 128) ∧ (readLength b1).run s = .error .short) ∨
      (extSize (b1.toNat % 128) ≤ s.length ∧
        ((readLength b1).run s = .ok (refLength b1 s, s.drop (extSize (b1.toNat % 128))) ∨
          (maxWSPayload < refLength b1 s ∧ ∃ e, (readLength b1).run s = .error (.failed e)))) := by
  unfold readLength refLength extSize
  rw [(byte_fields b1).1]
  -- the three forms of a length: in two more bytes, in eight, or in the second byte itself
  by_cases h126 : b1.toNat % 128 = 126
  · simp only [if_pos h126]
    by_cases hlt : s.length < 2
    · exact .inl ⟨hlt, Streams.run_bind_error (by rw [run_take, if_pos hlt])⟩
    · exact .inr ⟨by omega, .inl (Streams.run_bind_ok (by rw [run_take, if_neg hlt]))⟩
  simp only [if_neg h126]
  by_cases h127 : b1.toNat % 128 = 127
  · simp only [if_pos h127]
    by_cases hlt : s.length < 8
    · exact .inl ⟨hlt, Streams.run_bind_error (by rw [run_take, if_pos hlt])⟩
    · refine .inr ⟨by omega, ?_⟩
      rw [Streams.run_bind_ok (by rw [run_take, if_neg hlt])]
      by_cases hbig : beNat (s.take 8) > maxWSPayload
      · rw [if_pos hbig]
        exact .inr ⟨hbig, _, rfl⟩
      · rw [if_neg hbig]
        exact .inl rfl
  · simp only [if_neg h127]
    exact .inr ⟨Nat.zero_le _, .inl rfl⟩

theorem run_readKey (masked : Bool) (s : List UInt8) :
    (readKey masked).run s =
      if masked then
        if s.length < 4 then .error .short else .ok (s.take 4, s.drop 4)
      else .ok ([0, 0, 0, 0], s) := by
  cases masked <;> rfl

def readRest (client : Bool) (b0 b1 : UInt8) (length : ℕ) : Streams.Parser UInt8 WSError Incoming :=
  if length > maxWSPayload then Streams.fail (.tooLong length)
  else do
    checkMask client (b1 &&& 0x80 ≠ 0)
    let key ← readKey (b1 &&& 0x80 ≠ 0)
    readBody ⟨b0 &&& 0x80 ≠ 0, b0 &&& 0x0F, b1 &&& 0x80 ≠ 0, length, key⟩

theorem run_nextFrame (client : Bool) (b0 b1 : UInt8) (s : List UInt8) :
    (nextFrame client).run (b0 :: b1 :: s) =
      if b0 &&& 0x70 ≠ 0 then .error (.failed .reservedBits)
      else (readLength b1 >>= readRest client b0 b1).run s := by
  have htake : (Streams.take 2 : Streams.Parser UInt8 WSError _).run (b0 :: b1 :: s) =
      .ok ([b0, b1], s) := Streams.run_take_append (x := [b0, b1]) rfl s
  unfold nextFrame readHeader
  rw [bind_assoc, Streams.run_bind_ok htake]
  simp only [List.getD_cons_zero, List.getD_cons_succ]
  split_ifs with hrsv
  · rfl
  · -- the same parser with its parts in another grouping
    rw [bind_assoc]
    congr 2
    funext length
    unfold readRest
    split_ifs
    · rfl
    · simp only [bind_assoc, pure_bind]

theorem refOf_readRest (client : Bool) (b0 b1 : UInt8) (length : ℕ) (s : List UInt8) :
    refOf ((readRest client b0 b1 length).run s) =
      if length > maxWSPayload then .violation
      else if decide (128 ≤ b1.toNat) = client then .violation
      else if s.length < (if client then 0 else 4) then .truncated []
      else refBody (128 ≤ b0.toNat) (b0.toNat % 16) length (s.take (if client then 0 else 4))
        (s.drop (if client then 0 else 4)) := by
  obtain ⟨-, hop, -, hfin⟩ := byte_fields b0
  obtain ⟨-, -, -, hmask⟩ := byte_fields b1
  unfold readRest
  simp only [hfin, hmask]
  by_cases hbig : length > maxWSPayload
  · rw [if_pos hbig, if_pos hbig]
    rfl
  rw [if_neg hbig, if_neg hbig]
  by_cases hbad : decide (128 ≤ b1.toNat) = client
  · rw [if_pos hbad, hbad]
    cases client <;> rfl
  rw [if_neg hbad]
  -- from here on the mask bit is the one that the role asks for
  cases client with
  | true =>
    have hun : decide (128 ≤ b1.toNat) = false := by simpa using hbad
    rw [hun, ← hop]
    exact (refBody_eq (h := ⟨_, _, false, length, [0, 0, 0, 0]⟩) nofun s).symm
  | false =>
    have hun : decide (128 ≤ b1.toNat) = true := by simpa using hbad
    have hcheck : (checkMask false true).run s = .ok ((), s) := rfl
    rw [hun, ← hop, Streams.run_bind_ok hcheck]
    by_cases hlt : s.length < 4
    · have hkey : (readKey true).run s = .error .short := by
        rw [run_readKey, if_pos rfl, if_pos hlt]
      rw [Streams.run_bind_error hkey, if_pos (by simpa using hlt)]
      rfl
    · have hkey : (readKey true).run s = .ok (s.take 4, s.drop 4) := by
        rw [run_readKey, if_pos rfl, if_neg hlt]
      have hlen : (s.take 4).length = 4 := by
        rw [List.length_take]
        omega
      rw [Streams.run_bind_ok hkey, if_neg (by simpa using hlt)]
      exact (refBody_eq (h := ⟨_, _, true, length, s.take 4⟩) (fun _ => hlen) (s.drop 4)).symm

/-- **The parser of the code has the same idea of a frame**, of a violation and of a stream that
ends too early. This is the only place where the two are compared. -/
theorem refFrame_eq (client : Bool) (s : List UInt8) :
    refFrame client s = refOf ((nextFrame client).run s) := by
  match s with
  | [] => rfl
  | [_] => rfl
  | b0 :: b1 :: s =>
    rw [run_nextFrame]
    simp only [refFrame, (byte_fields b0).2.2.1]
    by_cases hrsv : b0.toNat / 16 % 8 ≠ 0
    · rw [if_pos hrsv, if_pos hrsv]
      rfl
    rw [if_neg hrsv, if_neg hrsv]
    -- the length is missing, is read, or is refused at once
    rcases run_readLength b1 s with ⟨hlt, hrun⟩ | ⟨hle, hrun | ⟨hbig, e, hrun⟩⟩
    · rw [if_pos hlt, Streams.run_bind_error hrun]
      rfl
    · rw [if_neg (by omega), Streams.run_bind_ok hrun, refOf_readRest]
    · rw [if_neg (by omega), if_pos hbig, Streams.run_bind_error hrun]
      rfl

/-! ## What a round of `nextFrame` can read -/

theorem readBody_cases {h : FrameHeader} {s rest : List UInt8} {i : Incoming}
    (hrun : (readBody h).run s = .ok (i, rest)) :
    i = .data h.length h.key h.masked ∨ i = .close ∨ i = .pong ∨
      h.length ≤ maxControlPayload ∧ i = .ping (unmaskWith h.key h.masked (s.take h.length)) := by
  have hpay : ∀ {f : List UInt8 → Incoming},
      (readPayload h >>= fun x => (pure (f x) : Streams.Parser UInt8 WSError Incoming)).run s =
        .ok (i, rest) → i = f (unmaskWith h.key h.masked (s.take h.length)) := by
    intro f hf
    rw [run_readPayload_bind] at hf
    split_ifs at hf
    cases hf
    rfl
  -- in the order of the code: data, text, close, ping, pong, anything else
  unfold readBody at hrun
  split_ifs at hrun with hdata htext hclose hping hbad hpong hbad'
  · cases hrun
    exact .inl rfl
  · exact absurd hrun nofun
  · exact .inr (.inl (hpay hrun))
  · exact absurd hrun nofun
  · have hlen : h.length ≤ maxControlPayload := by
      have := (not_or.mp hbad).1
      omega
    exact .inr (.inr (.inr ⟨hlen, hpay hrun⟩))
  · exact absurd hrun nofun
  · exact .inr (.inr (.inl (hpay hrun)))
  · exact absurd hrun nofun

theorem readHeader_length_le {client : Bool} {s rest : List UInt8} {h : FrameHeader}
    (hrun : (readHeader client).run s = .ok (h, rest)) : h.length ≤ maxWSPayload := by
  unfold readHeader at hrun
  obtain ⟨hdr, s₁, -, hrun⟩ := Streams.run_bind_eq_ok hrun
  dsimp only at hrun
  split_ifs at hrun with hrsv
  · exact absurd hrun nofun
  obtain ⟨length, s₂, -, hrun⟩ := Streams.run_bind_eq_ok hrun
  split_ifs at hrun with hbig
  · exact absurd hrun nofun
  obtain ⟨_, s₃, -, hrun⟩ := Streams.run_bind_eq_ok hrun
  obtain ⟨key, s₄, -, hrun⟩ := Streams.run_bind_eq_ok hrun
  cases hrun
  exact Nat.le_of_not_lt hbig

theorem nextFrame_data_le {client : Bool} {s rest key : List UInt8} {length : ℕ} {masked : Bool}
    (hrun : (nextFrame client).run s = .ok (.data length key masked, rest)) :
    length ≤ maxWSPayload := by
  obtain ⟨h, m, hhdr, hbody⟩ := Streams.run_bind_eq_ok hrun
  have hle := readHeader_length_le hhdr
  rcases readBody_cases hbody with hi | hi | hi | ⟨-, hi⟩
  · cases hi
    exact hle
  all_goals exact absurd hi nofun

theorem writeControl_pong {client : Bool} {s rest payload : List UInt8}
    (hrun : (nextFrame client).run s = .ok (.ping payload, rest)) :
    writeControl .pong payload = (.pong, payload) := by
  obtain ⟨h, m, -, hbody⟩ := Streams.run_bind_eq_ok hrun
  rcases readBody_cases hbody with hi | hi | hi | ⟨hlen, hi⟩
  · exact absurd hi nofun
  · exact absurd hi nofun
  · exact absurd hi nofun
  · cases hi
    have hpay : (unmaskWith h.key h.masked (m.take h.length)).length ≤ maxControlPayload := by
      unfold unmaskWith
      split_ifs
      · rw [length_xorMask, List.length_take]
        omega
      · rw [List.length_take]
        omega
    unfold writeControl
    rw [List.take_of_length_le hpay]

/-! ## The decoder from frame to frame -/

/-- What comes before what is decoded later. -/
def Decoded.after (payload : List UInt8) (pings : List (List UInt8)) (d : Decoded) : Decoded :=
  ⟨payload ++ d.payload, pings ++ d.pings⟩

theorem length_lt_of_refFrame {client : Bool} {s rest : List UInt8} {f : RefFrame}
    (h : refFrame client s = .frame f rest) : rest.length < s.length := by
  rw [refFrame_eq] at h
  rcases hrun : (nextFrame client).run s with (_ | e) | ⟨i, rest'⟩
  · rw [hrun] at h
    exact absurd h nofun
  · rw [hrun] at h
    exact absurd h nofun
  · -- the parser has eaten two bytes, and of a data frame the payload goes as well
    have heats := eats_nextFrame client s i rest' hrun
    rw [hrun] at h
    cases i with
    | data length key masked =>
      unfold refOf at h
      dsimp only at h
      split_ifs at h
      cases h
      rw [List.length_drop]
      omega
    | ping payload | pong | close =>
      cases h
      omega

/-- `F` goes from frame to frame with fuel, and `step` is one round of it: with nothing left it
stops, and a round needs `F` only for the rest of the stream after its frame. -/
structure Walks {α : Type} (client : Bool) (F : ℕ → List UInt8 → α)
    (step : (List UInt8 → α) → RefResult → α) : Prop where
  nil : ∀ n, F n [] = F 0 []
  succ : ∀ n s, F (n + 1) s = step (F n) (refFrame client s)
  rest : ∀ f g r, (∀ fr rest, r = .frame fr rest → f rest = g rest) → step f r = step g r

section Walks

variable {α : Type} {client : Bool} {F : ℕ → List UInt8 → α}
  {step : (List UInt8 → α) → RefResult → α}

/-- More fuel than there are bytes changes nothing. So the decoders are used through one unfolding
each, and their fuel is not mentioned again. -/
theorem Walks.fuel_eq (h : Walks client F step) {m n : ℕ} {s : List UInt8} (hm : s.length ≤ m)
    (hn : s.length ≤ n) : F m s = F n s := by
  induction m generalizing n s with
  | zero =>
    obtain rfl := List.length_eq_zero_iff.mp (Nat.le_zero.mp hm)
    exact (h.nil n).symm
  | succ m ih =>
    cases n with
    | zero =>
      obtain rfl := List.length_eq_zero_iff.mp (Nat.le_zero.mp hn)
      exact h.nil (m + 1)
    | succ n =>
      rw [h.succ, h.succ]
      refine h.rest _ _ _ fun f rest hf => ?_
      have hlt := length_lt_of_refFrame hf
      exact ih (by omega) (by omega)

/-- **One round unfolded**, with the length of what is left for the fuel. -/
theorem Walks.unfold (h : Walks client F step) (s : List UInt8) :
    F s.length s = step (fun t => F t.length t) (refFrame client s) := by
  rw [h.fuel_eq (le_refl s.length) (Nat.le_succ s.length), h.succ]
  refine h.rest _ _ _ fun f rest hf => ?_
  have hlt := length_lt_of_refFrame hf
  exact h.fuel_eq (by omega) le_rfl

end Walks

/-- **The decoder, one frame unfolded.** With this the fuel is not mentioned any more. -/
theorem decode_eq (client : Bool) (s : List UInt8) :
    decode client s = (refFrame client s).decode (decode client) := by
  have hwalks : Walks client (decodeUpTo client) RefResult.decode := by
    refine ⟨fun n => by cases n <;> rfl, fun _ _ => rfl, fun f g r h => ?_⟩
    rcases r with _ | payload | ⟨fr, rest⟩
    · rfl
    · rfl
    · have hrest := h fr rest rfl
      cases fr <;> simp only [RefResult.decode, hrest]
  exact hwalks.unfold s

theorem decode_nextFrame (client : Bool) (s : List UInt8) :
    decode client s = (refOf ((nextFrame client).run s)).decode (decode client) := by
  rw [decode_eq, refFrame_eq]

/-- What is still to come for a reader within a frame. -/
def Reader.expect (r : Reader) (s : List UInt8) : Decoded :=
  if s.length < r.rem then { payload := r.unmask s }
  else (decode r.client (s.drop r.rem)).after (r.unmask (s.take r.rem)) []

theorem Reader.expect_zero {r : Reader} (hrem : r.rem = 0) (s : List UInt8) :
    r.expect s = decode r.client s := by
  have hnil : r.unmask [] = [] := List.length_eq_zero_iff.mp (Stream.length_unmask r [])
  unfold Reader.expect
  rw [hrem, if_neg (Nat.not_lt_zero _), List.drop_zero, List.take_zero, hnil]
  rfl

theorem Reader.decode_data {r : Reader} {s rest key : List UInt8} {length : ℕ} {masked : Bool}
    (hrun : (nextFrame r.client).run s = .ok (.data length key masked, rest)) :
    decode r.client s = (r.start length key masked).expect rest := by
  rw [decode_nextFrame, hrun]
  have hrem : (r.start length key masked).rem = length := rfl
  unfold refOf Reader.expect
  rw [hrem]
  dsimp only
  by_cases hlt : rest.length < length
  · rw [if_pos hlt, if_pos hlt]
    rfl
  · rw [if_neg hlt, if_neg hlt]
    rfl

theorem Reader.expect_read {r : Reader} {s : List UInt8} {k : ℕ} (hkr : k ≤ r.rem)
    (hks : k ≤ s.length) :
    r.expect s = ((r.read k).expect (s.drop k)).after (r.unmask (s.take k)) [] := by
  have hsplit : ∀ bs : List UInt8, k ≤ bs.length →
      r.unmask bs = r.unmask (bs.take k) ++ (r.read k).unmask (bs.drop k) := by
    intro bs hbs
    have hlen : (bs.take k).length = k := by
      rw [List.length_take]
      omega
    have happ := Stream.unmask_append r (bs.take k) (bs.drop k)
    rwa [List.take_append_drop, hlen] at happ
  have hrem : (r.read k).rem = r.rem - k := rfl
  have hclient : (r.read k).client = r.client := rfl
  unfold Reader.expect
  rw [hrem, hclient, List.length_drop, List.drop_drop]
  -- the stream ends within the frame, or the frame is there as a whole
  by_cases hend : s.length < r.rem
  · rw [if_pos hend, if_pos (by omega), hsplit s hks]
    simp [Decoded.after]
  · have htake : (s.take r.rem).take k = s.take k := by rw [List.take_take, Nat.min_eq_left hkr]
    have hdrop : (s.take r.rem).drop k = (s.drop k).take (r.rem - k) := List.drop_take
    have hlen : k ≤ (s.take r.rem).length := by
      rw [List.length_take]
      omega
    have hsum : k + (r.rem - k) = r.rem := by omega
    rw [if_neg hend, if_neg (by omega), hsplit (s.take r.rem) hlen, htake, hdrop, hsum]
    simp [Decoded.after]

/-! ## One call of `Read` -/

theorem Reader.nextFrames_succ {fuel : ℕ} {r : Reader} {s : List UInt8} {a : Advanced}
    (h : r.nextFrames fuel s = some a) : r.nextFrames (fuel + 1) s = some a := by
  induction fuel generalizing r s a with
  | zero => exact absurd h nofun
  | succ fuel ih =>
    rw [Reader.nextFrames] at h ⊢
    rcases hrun : (nextFrame r.client).run s with (_ | e) | ⟨i, rest⟩
    · rwa [hrun] at h
    · rwa [hrun] at h
    · rw [hrun] at h
      cases i with
      | data length key masked =>
        dsimp only at h ⊢
        split_ifs at h ⊢
        · exact ih h
        · exact h
      | ping payload =>
        obtain ⟨a', ha', rfl⟩ := Option.map_eq_some_iff.mp h
        exact Option.map_eq_some_iff.mpr ⟨a', ih ha', rfl⟩
      | pong => exact ih h
      | close => exact h

/-- What `nextFrame` leaves behind it: the reader at a frame that is not empty, or an error with
nothing pending; and the pings so far are answered. -/
structure Advanced.Ok (a : Advanced) (r : Reader) (s : List UInt8) : Prop where
  client : a.reader.client = r.client
  le : a.reader.rem ≤ maxWSPayload
  moved : ∀ rest, a.rest = .ok rest →
    0 < a.reader.rem ∧ decode r.client s = (a.reader.expect rest).after [] (pongs a.written)
  stopped : ∀ e, a.rest = .error e → decode r.client s = ⟨[], pongs a.written⟩

theorem Advanced.Ok.pass {a : Advanced} {r r' : Reader} {s rest : List UInt8} (h : a.Ok r' rest)
    (written : List (Opcode × List UInt8)) (hclient : r'.client = r.client)
    (hdec : decode r.client s = (decode r.client rest).after [] (pongs written)) :
    Advanced.Ok { a with written := written ++ a.written } r s where
  client := h.client.trans hclient
  le := h.le
  moved rest' hrest := by
    obtain ⟨hpos, hd⟩ := h.moved rest' hrest
    refine ⟨hpos, ?_⟩
    rw [hdec, ← hclient, hd]
    simp [Decoded.after, pongs]
  stopped e hrest := by
    rw [hdec, ← hclient, h.stopped e hrest]
    simp [Decoded.after, pongs]

/-- **`nextFrame` returns**: every round takes two bytes at least. By induction on the fuel, which
is more than there are bytes. -/
theorem Reader.nextFrames_spec {fuel : ℕ} {r : Reader} {s : List UInt8} (hfuel : s.length < fuel)
    (hrem : r.rem = 0) : ∃ a, r.nextFrames fuel s = some a ∧ a.Ok r s := by
  induction fuel generalizing r s with
  | zero => omega
  | succ fuel ih =>
    rw [Reader.nextFrames]
    -- the end of the stream and a violation: the reference decoder stops there, too
    rcases hrun : (nextFrame r.client).run s with (_ | e) | ⟨i, rest⟩
    · refine ⟨_, rfl, rfl, by simp [hrem], nofun, fun e' _ => ?_⟩
      rw [decode_nextFrame, hrun]
      rfl
    · refine ⟨_, rfl, rfl, by simp [hrem], nofun, fun e' _ => ?_⟩
      rw [decode_nextFrame, hrun]
      rfl
    have heats := eats_nextFrame r.client s i rest hrun
    cases i with
    | data length key masked =>
      have hdec := Reader.decode_data hrun
      dsimp only
      split_ifs with hzero
      · -- an empty frame: the reader is between two frames again
        obtain ⟨a, ha, hok⟩ := ih (r := r.start length key masked) (s := rest) (by omega) hzero
        refine ⟨a, ha, ?_⟩
        rw [Reader.expect_zero hzero] at hdec
        exact hok.pass [] rfl hdec
      · refine ⟨_, rfl, rfl, nextFrame_data_le hrun, ?_, nofun⟩
        rintro rest' ⟨⟩
        exact ⟨Nat.pos_of_ne_zero hzero, hdec⟩
    | ping payload =>
      obtain ⟨a, ha, hok⟩ := ih (r := r) (s := rest) (by omega) hrem
      refine ⟨_, Option.map_eq_some_iff.mpr ⟨a, ha, rfl⟩, ?_⟩
      apply hok.pass [writeControl .pong payload] rfl
      rw [decode_nextFrame, hrun, writeControl_pong hrun]
      rfl
    | pong =>
      obtain ⟨a, ha, hok⟩ := ih (r := r) (s := rest) (by omega) hrem
      refine ⟨a, ha, ?_⟩
      apply hok.pass [] rfl
      rw [decode_nextFrame, hrun]
      rfl
    | close =>
      refine ⟨_, rfl, rfl, by simp [hrem], nofun, fun e' _ => ?_⟩
      rw [decode_nextFrame, hrun]
      rfl

/-- What one call of `Read` does, of what was still to come. The counter goes down by what is
delivered, exactly. -/
structure Chunk.Ok (c : Chunk) (r : Reader) (s : List UInt8) : Prop where
  counter : c.bytes.length + c.reader.rem = c.pending
  le : c.pending ≤ maxWSPayload
  more : c.err = none →
    c.bytes ≠ [] ∧ r.expect s = (c.reader.expect c.rest).after c.bytes (pongs c.written)
  last : c.err.isSome = true → r.expect s = ⟨c.bytes, pongs c.written⟩

theorem Chunk.Ok.reader_le {c : Chunk} {r : Reader} {s : List UInt8} (h : c.Ok r s) :
    c.reader.rem ≤ maxWSPayload := by
  have hcounter := h.counter
  have hle := h.le
  omega

/-- Bytes of the current frame are taken: as many as fit into the buffer, are left of the frame
and are there. If there are fewer than asked for, the stream has ended. -/
theorem Reader.take_ok {r r₀ : Reader} {s s₀ : List UInt8} {n : ℕ}
    {written : List (Opcode × List UInt8)} (hn : 0 < n) (hpos : 0 < r.rem)
    (hle : r.rem ≤ maxWSPayload)
    (hexp : r₀.expect s₀ = (r.expect s).after [] (pongs written)) :
    (r.take s n written).Ok r₀ s₀ := by
  have hk : 0 < min n r.rem := Nat.lt_min.mpr ⟨hn, hpos⟩
  have hkr : min n r.rem ≤ r.rem := Nat.min_le_right _ _
  unfold Reader.take
  generalize min n r.rem = k at hk hkr
  have hcount : (r.unmask (s.take k)).length + (r.read (s.take k).length).rem = r.rem := by
    rw [Stream.length_unmask, List.length_take]
    dsimp only [Reader.read]
    omega
  by_cases hlt : s.length < k
  · -- the stream ends within the frame
    have hall : s.take k = s := List.take_of_length_le (by omega)
    refine ⟨hcount, hle, fun herr => ?_, fun _ => ?_⟩
    · simp [hlt] at herr
    · rw [hexp, Reader.expect, if_pos (by omega), hall]
      simp [Decoded.after]
  · have hlen : (s.take k).length = k := by
      rw [List.length_take]
      omega
    refine ⟨hcount, hle, fun _ => ⟨?_, ?_⟩, fun herr => ?_⟩
    · apply List.ne_nil_of_length_pos
      rw [Stream.length_unmask, hlen]
      exact hk
    · dsimp only
      rw [hexp, hlen, Reader.expect_read hkr (by omega)]
      simp [Decoded.after]
    · simp only [hlen] at herr
      simp at herr

/-- A call of `Read` passes over control frames until there is data, which takes no more rounds
than there are bytes. -/
theorem Reader.exists_returns (r : Reader) (s : List UInt8) (n : ℕ) : ∃ c, r.Returns s n c := by
  by_cases hpos : r.rem > 0
  · exact ⟨r.take s n [], fun fuel _ => if_pos hpos⟩
  · obtain ⟨a, ha, -⟩ :=
      Reader.nextFrames_spec (r := r) (Nat.lt_succ_self s.length) (by omega)
    have hall : ∀ fuel, s.length < fuel → r.nextFrames fuel s = some a := by
      intro fuel hfuel
      induction fuel, hfuel using Nat.le_induction with
      | base => exact ha
      | succ fuel _ ih => exact Reader.nextFrames_succ ih
    exact ⟨_, fun fuel hfuel =>
      by rw [Reader.readCall, if_neg hpos, hall fuel hfuel, Option.map_some]⟩

/-- **One call of `Read`**: it delivers a byte at least, or the rest of what there is to deliver
and an error. -/
theorem Reader.Returns.ok {r : Reader} {s : List UInt8} {n : ℕ} {c : Chunk} (h : r.Returns s n c)
    (hn : 0 < n) (hle : r.rem ≤ maxWSPayload) : c.Ok r s := by
  have hc := h _ (Nat.lt_succ_self s.length)
  unfold Reader.readCall at hc
  split_ifs at hc with hpos
  · obtain rfl := Option.some.inj hc
    exact Reader.take_ok hn hpos hle (by simp [Decoded.after, pongs])
  · have hrem : r.rem = 0 := by omega
    obtain ⟨a, ha, hok⟩ := Reader.nextFrames_spec (r := r) (Nat.lt_succ_self s.length) hrem
    rw [ha, Option.map_some] at hc
    obtain rfl := Option.some.inj hc
    have hexp := Reader.expect_zero hrem s
    -- `nextFrame` has found a frame with data, or an error
    cases hrest : a.rest with
    | ok rest =>
      obtain ⟨hpos', hdec⟩ := hok.moved rest hrest
      exact Reader.take_ok hn hpos' hok.le (hexp.trans hdec)
    | error e =>
      refine ⟨Nat.zero_add _, hok.le, nofun, fun _ => ?_⟩
      rw [hexp, hok.stopped e hrest]

/-! ## All calls -/

theorem exists_reads (r : Reader) (s : List UInt8) {sizes : ℕ → ℕ} (hsizes : ∀ i, 0 < sizes i)
    (hle : r.rem ≤ maxWSPayload) : ∃ cs, Reads r s sizes cs := by
  induction hlen : (r.expect s).payload.length using Nat.strong_induction_on
    generalizing r s sizes with
  | _ len ih =>
    obtain ⟨c, hc⟩ := r.exists_returns s (sizes 0)
    have hok := hc.ok (hsizes 0) hle
    cases herr : c.err with
    | some e => exact ⟨[c], .last hc (by rw [herr]; rfl)⟩
    | none =>
      obtain ⟨hne, hexp⟩ := hok.more herr
      have hbytes := List.length_pos_iff.mpr hne
      have hsum : c.bytes.length + (c.reader.expect c.rest).payload.length = len := by
        rw [← hlen, hexp, Decoded.after, List.length_append]
      -- there is less to come for the other calls
      obtain ⟨cs, hcs⟩ :=
        ih _ (by omega) c.reader c.rest (fun i => hsizes (i + 1)) hok.reader_le rfl
      exact ⟨c :: cs, .more hc herr hcs⟩

namespace Reads

variable {r : Reader} {s : List UInt8} {sizes : ℕ → ℕ} {cs : List Chunk}

theorem eq_expect (h : Reads r s sizes cs) (hsizes : ∀ i, 0 < sizes i)
    (hle : r.rem ≤ maxWSPayload) :
    r.expect s = ⟨cs.flatMap Chunk.bytes, pongs (cs.flatMap Chunk.written)⟩ ∧
      ∀ c ∈ cs, c.bytes.length + c.reader.rem = c.pending ∧ c.pending ≤ maxWSPayload := by
  induction h with
  | @last r s sizes c hc herr =>
    have hok := hc.ok (hsizes 0) hle
    refine ⟨?_, ?_⟩
    · rw [hok.last herr]
      simp
    · intro c' hc'
      obtain rfl := List.mem_singleton.mp hc'
      exact ⟨hok.counter, hok.le⟩
  | @more r s sizes c cs hc herr hcs ih =>
    have hok := hc.ok (hsizes 0) hle
    obtain ⟨hexp, hall⟩ := ih (fun i => hsizes (i + 1)) hok.reader_le
    refine ⟨?_, ?_⟩
    · rw [(hok.more herr).2, hexp]
      simp [Decoded.after, pongs]
    · intro c' hc'
      rcases List.mem_cons.mp hc' with rfl | hc'
      · exact ⟨hok.counter, hok.le⟩
      · exact hall c' hc'

end Reads

/-- **Decoding does not depend on how it is read.** Whatever the sizes of the buffers, every call
returns, the calls reach an error, and up to there they have delivered the payload of the reference
decoder and answered its pings; the counter stays within its bounds. -/
theorem reads_refine (client : Bool) (s : List UInt8) (sizes : ℕ → ℕ) (hsizes : ∀ i, 0 < sizes i) :
    (∀ (r : Reader) (s' : List UInt8) (n : ℕ), ∃ c, r.Returns s' n c) ∧
      (∃ cs, Reads { client := client } s sizes cs) ∧
      ∀ cs, Reads { client := client } s sizes cs →
        cs.flatMap Chunk.bytes = (decode client s).payload ∧
          pongs (cs.flatMap Chunk.written) = (decode client s).pings ∧
          ∀ c ∈ cs, c.bytes.length + c.reader.rem = c.pending ∧ c.pending ≤ maxWSPayload := by
  have hzero : ({ client := client } : Reader).rem = 0 := rfl
  have hle : ({ client := client } : Reader).rem ≤ maxWSPayload := Nat.zero_le _
  refine ⟨Reader.exists_returns, exists_reads _ s hsizes hle, ?_⟩
  intro cs hcs
  obtain ⟨hexp, hall⟩ := hcs.eq_expect hsizes hle
  rw [Reader.expect_zero hzero] at hexp
  have hdec : decode client s = ⟨cs.flatMap Chunk.bytes, pongs (cs.flatMap Chunk.written)⟩ := hexp
  rw [hdec]
  exact ⟨rfl, rfl, hall⟩

/-- A masked frame, a ping, a continuation frame and a close frame, read two bytes at a time. -/
theorem reads_refine_two_bytes :
    (∀ i, 0 < (fun _ : ℕ => 2) i) ∧
      ∃ cs, Reads { client := false }
          [0x82, 0x83, 1, 2, 3, 4, 11, 22, 29, 0x89, 0x81, 9, 9, 9, 9, 14,
            0x80, 0x81, 0, 0, 0, 0, 40, 0x88, 0x80, 0, 0, 0, 0, 5] (fun _ => 2) cs ∧
        cs.flatMap Chunk.bytes = [10, 20, 30, 40] ∧ pongs (cs.flatMap Chunk.written) = [[7]] := by
  have hsizes : ∀ i, 0 < (fun _ : ℕ => 2) i := fun _ => Nat.two_pos
  refine ⟨hsizes, ?_⟩
  obtain ⟨-, ⟨cs, hcs⟩, hall⟩ := reads_refine false
    [0x82, 0x83, 1, 2, 3, 4, 11, 22, 29, 0x89, 0x81, 9, 9, 9, 9, 14,
      0x80, 0x81, 0, 0, 0, 0, 40, 0x88, 0x80, 0, 0, 0, 0, 5] _ hsizes
  obtain ⟨hbytes, hpongs, -⟩ := hall cs hcs
  exact ⟨cs, hcs, hbytes.trans (by decide), hpongs.trans (by decide)⟩

end Heimdall.Rendezvous
