/-
A relayed circuit, in one direction: `FrameIO.Send` of one client, `pump` of the relay, and
`FrameIO.Recv` of the other client.

Three streams are cut up anew at each stage: a frame of `FrameIO` is two writes, each write is a
WebSocket frame, `pump` reads at most 32 KiB of one and writes what it has read as a frame of its
own, and `Recv` reads up to four bytes and then up to the length they announce. Writes put all, some
or none of their bytes on the connection, reads fail when they like, and control frames can be
written at any time.
-/
import Heimdall.Hop

set_option autoImplicit false

namespace Heimdall.Circuits

open Heimdall.BigEndian
open Heimdall.Rendezvous

/-! ## Frames of `FrameIO` -/

def maxFrameSize : ℕ := 2 ^ 20

/-- What `Send` writes, in two writes. -/
def frame (p : List UInt8) : List UInt8 := beBytes 4 p.length ++ p

/-- Where `RecvBefore` stands: what it has read of the header, or of a payload of `n` bytes. -/
inductive Recv where
  | header (got : List UInt8)
  | payload (n : ℕ) (got : List UInt8)
  deriving DecidableEq

inductive Received where
  | more (r : Recv)
  | frame (p : List UInt8)
  | tooLarge

namespace Recv

/-- How many bytes `io.ReadFull` still asks for. -/
def want : Recv → ℕ
  | header got => 4 - got.length
  | payload n got => n - got.length

def push : Recv → List UInt8 → Received
  | header got, bs =>
    if (got ++ bs).length < 4 then .more (.header (got ++ bs))
    else if beNat (got ++ bs) > maxFrameSize then .tooLarge
    else if beNat (got ++ bs) = 0 then .frame []
    else .more (.payload (beNat (got ++ bs)) [])
  | payload n got, bs =>
    if (got ++ bs).length < n then .more (.payload n (got ++ bs)) else .frame (got ++ bs)

def got : Recv → List UInt8
  | header got => got
  | payload n got => beBytes 4 n ++ got

/-- The current frame is not complete, and not too large. -/
def Sound : Recv → Prop
  | header got => got.length < 4
  | payload n got => got.length < n ∧ n ≤ maxFrameSize

end Recv

/-- A frame is as long as it says, so two streams that are equal have equal first frames. The
bound is needed: the header holds a length only up to 2 ^ 32. -/
theorem frame_free {p q s t : List UInt8} (hp : p.length ≤ maxFrameSize)
    (hq : q.length ≤ maxFrameSize)
    (h : frame p ++ s = frame q ++ t) : p = q ∧ s = t := by
  unfold frame at h
  rw [List.append_assoc, List.append_assoc] at h
  obtain ⟨hlen, hrest⟩ := List.append_inj h (by rw [length_beBytes, length_beBytes])
  unfold maxFrameSize at hp hq
  have hpq : p.length = q.length := beBytes_inj (by omega) (by omega) hlen
  exact List.append_inj hrest hpq

theorem frame_ne_nil (p : List UInt8) : frame p ≠ [] := by
  intro h
  have hlen := congrArg List.length h
  rw [frame, List.length_append, length_beBytes, List.length_nil] at hlen
  omega

/-- Whole frames at the front of a list of frames are its first frames. This is the general fact
about codes in which no word starts another, for the words `frame p`. -/
theorem prefix_of_frames {ps qs : List (List UInt8)} (hps : ∀ p ∈ ps, p.length ≤ maxFrameSize)
    (hqs : ∀ q ∈ qs, q.length ≤ maxFrameSize) (h : ps.flatMap frame <+: qs.flatMap frame) :
    ps <+: qs :=
  Streams.prefix_of_flatMap frame_free frame_ne_nil hps hqs h

namespace Recv

variable {r : Recv}

/-- A frame in progress is not the start of another one. What was read of it is shorter than its
own header says, and the header is the one it has. -/
theorem got_ne_frame (h : r.Sound) {p t : List UInt8} (hp : p.length ≤ maxFrameSize) :
    r.got ≠ frame p ++ t := by
  intro heq
  cases r with
  | header got =>
    have hlen := congrArg List.length heq
    have hgot : got.length < 4 := h
    rw [frame, List.length_append, List.length_append, length_beBytes] at hlen
    change got.length = _ at hlen
    omega
  | payload n got =>
    obtain ⟨hlt, hn⟩ := h
    change beBytes 4 n ++ got = beBytes 4 p.length ++ p ++ t at heq
    rw [List.append_assoc] at heq
    obtain ⟨hhdr, hrest⟩ := List.append_inj heq (by rw [length_beBytes, length_beBytes])
    unfold maxFrameSize at hn hp
    have hnp : n = p.length := beBytes_inj (by omega) (by omega) hhdr
    -- the payload would be there already
    rw [hrest, List.length_append] at hlt
    omega

/-- **What `Recv` makes of bytes**: a longer part of the same frame, or the frame, or a header that
announces too much. -/
theorem push_spec (h : r.Sound) {bs : List UInt8} (hbs : bs.length ≤ r.want) :
    match r.push bs with
    | .more r' => r'.Sound ∧ r'.got = r.got ++ bs
    | .frame p => p.length ≤ maxFrameSize ∧ frame p = r.got ++ bs
    | .tooLarge => (r.got ++ bs).length = 4 ∧ beNat (r.got ++ bs) > maxFrameSize := by
  cases r with
  | header got =>
    have hgot : got.length < 4 := h
    have hwant : bs.length ≤ 4 - got.length := hbs
    have hlen : (got ++ bs).length ≤ 4 := by
      rw [List.length_append]
      omega
    unfold push
    dsimp only
    split_ifs with hshort hlarge hzero
    · exact ⟨hshort, rfl⟩
    · exact ⟨by change (got ++ bs).length = 4; omega, hlarge⟩
    · -- an empty frame is its header
      refine ⟨Nat.zero_le _, ?_⟩
      have hfour : (got ++ bs).length = 4 := by omega
      have hback := beBytes_beNat (got ++ bs)
      rw [hfour, hzero] at hback
      rw [frame, List.append_nil]
      exact hback
    · have hfour : (got ++ bs).length = 4 := by omega
      have hback := beBytes_beNat (got ++ bs)
      rw [hfour] at hback
      refine ⟨⟨by rw [List.length_nil]; omega, by omega⟩, ?_⟩
      change beBytes 4 (beNat (got ++ bs)) ++ [] = got ++ bs
      rw [List.append_nil, hback]
  | payload n got =>
    obtain ⟨hlt, hn⟩ := h
    have hwant : bs.length ≤ n - got.length := hbs
    have hlen : (got ++ bs).length ≤ n := by
      rw [List.length_append]
      omega
    unfold push
    dsimp only
    split_ifs with hshort
    · exact ⟨⟨hshort, hn⟩, (List.append_assoc _ _ _).symm⟩
    · refine ⟨by omega, ?_⟩
      have hfull : (got ++ bs).length = n := by omega
      rw [frame, hfull]
      exact (List.append_assoc _ _ _).symm

theorem want_pos (h : r.Sound) : 0 < r.want := by
  cases r with
  | header got =>
    have hgot : got.length < 4 := h
    change 0 < 4 - got.length
    omega
  | payload n got =>
    have hgot := h.1
    change 0 < n - got.length
    omega

end Recv

/-! ## The circuit

One direction of a circuit has five parts: the sender's `FrameIO` and `WSConn`, the connection to
the relay, `pump`, the connection to the receiver, and the receiver's `WSConn` and `FrameIO`. A
write takes effect at once, and a read whenever its bytes are there. -/

/-- The bytes on a connection that have not been read, and whether a write has failed partway. -/
structure Wire where
  bytes : List UInt8 := []
  broken : Bool := false

/-- `conn.Write(out)`, of which `n` bytes are written. -/
def Wire.write (w : Wire) (out : List UInt8) (n : ℕ) : Wire :=
  ⟨w.bytes ++ out.take n, w.broken || decide (0 < n ∧ n < out.length)⟩

/-- One direction of a circuit. -/
structure Pipe where
  /-- The payloads given to `Send`, and the bytes it has given to `WSConn.Write`. -/
  sent : List (List UInt8) := []
  out : List UInt8 := []
  /-- The payload of a `Send` that has written its header. -/
  body : Option (List UInt8) := none
  /-- No `Send` has failed. -/
  sending : Bool := true
  /-- The sender has written a close frame. -/
  closed : Bool := false
  up : Wire := {}
  src : Reader := { client := false }
  /-- `pump` runs. -/
  pumping : Bool := true
  total : ℕ := 0
  /-- The bytes `pump` has given to `WSConn.Write`. -/
  forwarded : List UInt8 := []
  down : Wire := {}
  dst : Reader := { client := true }
  recv : Recv := .header []
  /-- No `Recv` has failed. -/
  receiving : Bool := true
  received : List (List UInt8) := []
  /-- A read or a write has failed, the sender has gone on after its close frame, or the relay has
  written one while it was pumping. -/
  faulty : Bool := false

/-- Writes come with the number of bytes that are written, and a client's with the mask key. -/
inductive PipeAct where
  /-- `Send` starts, and writes its header. -/
  | send (p : List UInt8) (key : MaskKey) (n : ℕ)
  /-- `Send` writes its payload. -/
  | body (key : MaskKey) (n : ℕ)
  /-- A control frame of the sender. -/
  | upControl (op : Opcode) (payload : List UInt8) (key : MaskKey) (n : ℕ)
  /-- A round of `nextFrame` of the relay. -/
  | pumpFrame (pongOk : Bool)
  /-- A round of `pump` whose `Read` succeeds. -/
  | pumpRead (n : ℕ)
  /-- A round of `pump` whose `Read` fails after `k` bytes. -/
  | pumpFail (k n : ℕ)
  /-- A control frame of the relay. -/
  | downControl (op : Opcode) (payload : List UInt8) (n : ℕ)
  | recvFrame (pongOk : Bool)
  | recvRead
  | recvFail

namespace Pipe

variable (L : ℕ) (s : Pipe)

def upFrame (key : MaskKey) (bs : List UInt8) : WSFrame := ⟨.binary, some key, bs⟩

def downFrame (bs : List UInt8) : WSFrame := ⟨.binary, none, bs⟩

/-- A control frame; `writeControl` cuts its payload. -/
def controlFrame (op : Opcode) (key : Option MaskKey) (payload : List UInt8) : WSFrame :=
  ⟨op, key, payload.take maxControlPayload⟩

def pumpBuffer : ℕ := 32 * 1024

/-- What `pump` does with `k` bytes that were read: it counts them, and forwards them below the
ceiling. The counter stays below `CircuitBytes` and the length of the buffer. -/
def pump (k n : ℕ) : Pipe :=
  let chunk := s.src.unmask (s.up.bytes.take k)
  let s' := { s with
    src := s.src.read k, up := { s.up with bytes := s.up.bytes.drop k }, total := s.total + k }
  -- the bytes that pass the ceiling are counted and not forwarded
  if s.total + k > L then { s' with pumping := false }
  else { s' with
    forwarded := s.forwarded ++ chunk
    down := s.down.write (downFrame chunk).bytes n
    pumping := decide ((downFrame chunk).bytes.length ≤ n)
    faulty := s.faulty || decide (n < (downFrame chunk).bytes.length) }

def next (s : Pipe) : PipeAct → Option Pipe
  | .send p key n =>
    if s.sending = true ∧ s.body = none then
      -- refused before anything is written
      if p.length > maxFrameSize then some { s with sending := false }
      else
        let f := upFrame key (beBytes 4 p.length)
        some { s with
          sent := s.sent ++ [p]
          out := s.out ++ beBytes 4 p.length
          up := s.up.write f.bytes n
          -- an empty payload is not written at all
          body := if f.bytes.length ≤ n ∧ p ≠ [] then some p else none
          sending := decide (f.bytes.length ≤ n)
          faulty := s.faulty || decide (n < f.bytes.length ∨ s.closed = true) }
    else none
  | .body key n =>
    match s.body with
    | some p =>
      let f := upFrame key p
      some { s with
        out := s.out ++ p
        up := s.up.write f.bytes n
        body := none
        sending := decide (f.bytes.length ≤ n)
        faulty := s.faulty || decide (n < f.bytes.length ∨ s.closed = true) }
    | none => none
  | .upControl op payload key n =>
    if op = .binary then none
    else
      let f := controlFrame op (some key) payload
      some { s with
        up := s.up.write f.bytes n
        closed := s.closed || decide (op = .close)
        faulty := s.faulty || decide (n < f.bytes.length) }
  | .pumpFrame pongOk =>
    if s.pumping = true ∧ s.src.rem = 0 then
      match s.src.advance s.up.bytes pongOk with
      | .blocked => none
      | .stopped => some { s with pumping := false, faulty := s.faulty || !pongOk }
      | .moved r rest => some { s with
          src := r, up := { s.up with bytes := rest }, faulty := s.faulty || !pongOk }
    else none
  | .pumpRead n =>
    let k := min pumpBuffer s.src.rem
    if s.pumping = true ∧ 0 < s.src.rem ∧ k ≤ s.up.bytes.length then some (s.pump L k n) else none
  | .pumpFail k n =>
    if s.pumping = true ∧ k ≤ min pumpBuffer s.src.rem ∧ k ≤ s.up.bytes.length then
      some { (if k = 0 then s else s.pump L k n) with pumping := false, faulty := true }
    else none
  | .downControl op payload n =>
    if op = .binary then none
    else
      let f := controlFrame op none payload
      some { s with
        down := s.down.write f.bytes n
        -- a close frame at the end is in order
        faulty := s.faulty || decide (n < f.bytes.length ∨ op = .close ∧ s.pumping = true) }
  | .recvFrame pongOk =>
    if s.receiving = true ∧ s.dst.rem = 0 then
      match s.dst.advance s.down.bytes pongOk with
      | .blocked => none
      | .stopped => some { s with receiving := false, faulty := s.faulty || !pongOk }
      | .moved r rest => some { s with
          dst := r, down := { s.down with bytes := rest }, faulty := s.faulty || !pongOk }
    else none
  | .recvRead =>
    let k := min s.recv.want s.dst.rem
    if s.receiving = true ∧ 0 < s.dst.rem ∧ k ≤ s.down.bytes.length then
      let s' := { s with dst := s.dst.read k, down := { s.down with bytes := s.down.bytes.drop k } }
      match s.recv.push (s.dst.unmask (s.down.bytes.take k)) with
      | .more r => some { s' with recv := r }
      | .frame p => some { s' with recv := .header [], received := s.received ++ [p] }
      | .tooLarge => some { s' with receiving := false }
    else none
  | .recvFail =>
    if s.receiving = true then some { s with receiving := false, faulty := true } else none

/-- Nothing is written on a connection after a write that failed partway. -/
def Tidy : PipeAct → Prop
  | .send _ _ _ | .body _ _ | .upControl _ _ _ _ => s.up.broken = false
  | .pumpRead _ | .pumpFail _ _ | .downControl _ _ _ => s.down.broken = false
  | .pumpFrame _ | .recvFrame _ | .recvRead | .recvFail => True

instance : DecidablePred s.Tidy
  | .send _ _ _ | .body _ _ | .upControl _ _ _ _ =>
    inferInstanceAs (Decidable (s.up.broken = false))
  | .pumpRead _ | .pumpFail _ _ | .downControl _ _ _ =>
    inferInstanceAs (Decidable (s.down.broken = false))
  | .pumpFrame _ | .recvFrame _ | .recvRead | .recvFail => inferInstanceAs (Decidable True)

def StepTidy (s : Pipe) (a : PipeAct) (s' : Pipe) : Prop := s.next L a = some s' ∧ s.Tidy a

/-- The steps in which something is read and passed on. -/
def delivers : PipeAct → Bool
  | .pumpFrame true | .pumpRead _ | .recvFrame true | .recvRead => true
  | _ => false

/-- A step in which something is read and passed on, and nothing fails. -/
def StepDeliver (s : Pipe) (a : PipeAct) (s' : Pipe) : Prop :=
  s.next L a = some s' ∧ delivers a = true ∧ s'.faulty = false

end Pipe

end Heimdall.Circuits
