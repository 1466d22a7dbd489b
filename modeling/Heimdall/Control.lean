/-
The control messages of a connection, `SendMessage` and `RecvMessage` of `internal/rendezvous/ws.go`
and the loops around them.

`RecvMessage` is one `Read` into a buffer of 8 KiB. What it takes for a message is whatever that one
call returns, so a message must not be cut in two, and two must not be run together, whatever pings
stand between them and wherever the connection breaks. `Decoding` says what all calls of `Read`
deliver together; here the frame boundaries matter.

The two ends meet at `frames`, the whole frames of a stream by the reference decoder. `inbox` is
what a list of frames means to a reader of messages. `readPump_inbox` says that the loop gets that
out of any stream at all, and `frames_take` which frames are there when a writer's stream is cut.
-/
import Heimdall.Decoding
import Heimdall.Envelope

set_option autoImplicit false

namespace Heimdall.Rendezvous

open Heimdall.Peers (GoString encodeToString)
open Heimdall.Utf8 (sanitize)

/-! ## Sending and receiving -/

def sendMessage (key : Option MaskKey) (m : Message) : Except MessageErr WSFrame :=
  (encodeMessage m).map fun buf => ⟨.binary, key, buf⟩

/-- The errors of `RecvMessage`: those of `Read`, and those of the message. -/
inductive RecvErr where
  | read (e : Halt)
  | message (e : MessageErr)
  deriving DecidableEq

/-- `RecvMessage` after its `Read`. -/
def Chunk.message (c : Chunk) : Except RecvErr Message :=
  match c.err with
  | some e => .error (.read e)
  | none =>
    -- the residue of a frame that is too large
    if c.reader.rem > 0 then .error (.message .controlTooLarge)
    else (decodeMessage c.bytes).mapError .message

/-- What a loop over `RecvMessage` has got, and why it ended. -/
structure Pumped where
  messages : List Message := []
  written : List (Opcode × List UInt8) := []
  err : RecvErr

/-- `readPump`, for at most `fuel` messages. -/
def Reader.readPump : ℕ → Reader → List UInt8 → Option Pumped
  | 0, _, _ => none
  | fuel + 1, r, s =>
    (r.readCall (s.length + 1) s maxControlFrame).bind fun c =>
      match c.message with
      | .error e => some { written := c.written, err := e }
      | .ok m => (readPump fuel c.reader c.rest).map fun p =>
        { p with messages := m :: p.messages, written := c.written ++ p.written }

/-! ## The frames of a stream -/

/-- One frame, with `next` for the frames of the rest. -/
def RefResult.frames (next : List UInt8 → List RefFrame) : RefResult → List RefFrame
  | .violation | .truncated _ => []
  | .frame .close _ => [.close]
  | .frame f rest => f :: next rest

def framesUpTo (client : Bool) : ℕ → List UInt8 → List RefFrame
  | 0, _ => []
  | fuel + 1, s => (refFrame client s).frames (framesUpTo client fuel)

/-- The whole frames of a stream up to its first violation, close frame or end. -/
def frames (client : Bool) (s : List UInt8) : List RefFrame := framesUpTo client s.length s

theorem frames_eq (client : Bool) (s : List UInt8) :
    frames client s = (refOf ((nextFrame client).run s)).frames (frames client) := by
  rw [← refFrame_eq]
  have hwalks : Walks client (framesUpTo client) RefResult.frames := by
    refine ⟨fun n => by cases n <;> rfl, fun _ _ => rfl, fun f g r h => ?_⟩
    rcases r with _ | payload | ⟨fr, rest⟩
    · rfl
    · rfl
    · have hrest := h fr rest rfl
      cases fr <;> simp only [RefResult.frames, hrest]
  exact hwalks.unfold s

/-! ## What frames mean to a reader of messages

`inbox` is the specification of `readPump`: the messages, the pings to answer, and the frame it
stops at, if it stops because that frame is no message. -/

/-- The messages, the pings to answer, and the error of the first frame that is not a message. -/
structure Inbox where
  messages : List Message := []
  pings : List (List UInt8) := []
  refused : Option MessageErr := none

/-- **A data frame is a message.** Empty ones are passed over, like pings and pongs; the first
data frame that is no message ends the reading, and so does a close frame. -/
def inbox : List RefFrame → Inbox
  | [] => {}
  | .data payload :: fs =>
    if payload = [] then inbox fs
    else
      match decodeMessage payload with
      | .error e => { refused := some e }
      | .ok m => { inbox fs with messages := m :: (inbox fs).messages }
  | .ping payload :: fs => { inbox fs with pings := payload :: (inbox fs).pings }
  | .pong :: fs => inbox fs
  | .close :: _ => {}

def Inbox.answering (x : Inbox) (pings : List (List UInt8)) : Inbox :=
  { x with pings := pings ++ x.pings }

/-- The frames of a stream within a data frame. -/
def Reader.current (r : Reader) (s : List UInt8) : List RefFrame :=
  if s.length < r.rem then []
  else .data (r.unmask (s.take r.rem)) :: frames r.client (s.drop r.rem)

theorem frames_data {r : Reader} {s rest key : List UInt8} {length : ℕ} {masked : Bool}
    (hrun : (nextFrame r.client).run s = .ok (.data length key masked, rest)) :
    frames r.client s = (r.start length key masked).current rest := by
  rw [frames_eq, hrun]
  unfold refOf Reader.current
  have hrem : (r.start length key masked).rem = length := rfl
  rw [hrem]
  dsimp only
  by_cases hlt : rest.length < length
  · rw [if_pos hlt, if_pos hlt]
    rfl
  · rw [if_neg hlt, if_neg hlt]
    rfl

/-- What `nextFrame` has passed over when it returns. If it has found a data frame, the rest means
what the whole did, but for the pings it has answered. If it has failed, there was nothing but
pings. The induction is on the fuel, with one case for each kind of frame. -/
theorem Reader.nextFrames_inbox {fuel : ℕ} {r : Reader} {s : List UInt8} {a : Advanced}
    (h : r.nextFrames fuel s = some a) (hrem : r.rem = 0) :
    a.reader.client = r.client ∧
    (∀ rest, a.rest = .ok rest → 0 < a.reader.rem ∧ rest.length < s.length ∧
      inbox (frames r.client s) = (inbox (a.reader.current rest)).answering (pongs a.written)) ∧
    ∀ e, a.rest = .error e → inbox (frames r.client s) = { pings := pongs a.written } := by
  induction fuel generalizing r s a with
  | zero => exact absurd h (by simp [Reader.nextFrames])
  | succ fuel ih =>
    rw [Reader.nextFrames] at h
    rcases hrun : (nextFrame r.client).run s with (_ | e) | ⟨i, rest⟩
    · rw [hrun] at h
      obtain rfl := Option.some.inj h
      refine ⟨rfl, fun _ hrest => absurd hrest (by simp), fun _ _ => ?_⟩
      rw [frames_eq, hrun]
      rfl
    · rw [hrun] at h
      obtain rfl := Option.some.inj h
      refine ⟨rfl, fun _ hrest => absurd hrest (by simp), fun _ _ => ?_⟩
      rw [frames_eq, hrun]
      rfl
    have heats := eats_nextFrame r.client s i rest hrun
    rw [hrun] at h
    cases i with
    | data length key masked =>
      have hframes := frames_data hrun
      dsimp only at h
      split_ifs at h with hzero
      · -- an empty frame is a frame, and no message
        obtain ⟨hclient, hok, herr⟩ := ih h hzero
        have hempty : inbox (frames r.client s) = inbox (frames r.client rest) := by
          rw [hframes, Reader.current, if_neg (by simp [Reader.start, hzero])]
          have hnil : (r.start length key masked).unmask (rest.take (r.start length key masked).rem)
              = [] := by
            apply List.length_eq_zero_iff.mp
            rw [Stream.length_unmask, List.length_take]
            simp [Reader.start, hzero]
          rw [hnil, inbox, if_pos rfl]
          simp [Reader.start, hzero]
        refine ⟨hclient, fun rest' hrest => ?_, fun e he => hempty.trans (herr e he)⟩
        obtain ⟨hpos, hlen, hin⟩ := hok rest' hrest
        exact ⟨hpos, by omega, hempty.trans hin⟩
      · obtain rfl := Option.some.inj h
        refine ⟨rfl, ?_, fun _ he => absurd he (by simp)⟩
        intro rest' hrest
        obtain rfl := Except.ok.inj hrest
        exact ⟨Nat.pos_of_ne_zero hzero, by omega, congrArg inbox hframes⟩
    | ping payload =>
      obtain ⟨a', ha', rfl⟩ := Option.map_eq_some_iff.mp h
      obtain ⟨hclient, hok, herr⟩ := ih ha' hrem
      have hping : inbox (frames r.client s) =
          (inbox (frames r.client rest)).answering [payload] := by
        rw [frames_eq, hrun]
        rfl
      rw [hping, writeControl_pong hrun]
      refine ⟨hclient, fun rest' hrest => ?_, fun e he => ?_⟩
      · obtain ⟨hpos, hlen, hin⟩ := hok rest' hrest
        refine ⟨hpos, by omega, ?_⟩
        rw [hin]
        simp [Inbox.answering, pongs]
      · rw [herr e he]
        simp [Inbox.answering, pongs]
    | pong =>
      obtain ⟨hclient, hok, herr⟩ := ih h hrem
      have hpong : inbox (frames r.client s) = inbox (frames r.client rest) := by
        rw [frames_eq, hrun]
        rfl
      rw [hpong]
      refine ⟨hclient, fun rest' hrest => ?_, herr⟩
      obtain ⟨hpos, hlen, hin⟩ := hok rest' hrest
      exact ⟨hpos, by omega, hin⟩
    | close =>
      obtain rfl := Option.some.inj h
      refine ⟨rfl, fun _ hrest => absurd hrest (by simp), fun _ _ => ?_⟩
      rw [frames_eq, hrun]
      rfl

/-! ## One message -/

def Inbox.receiving (x : Inbox) (m : Message) : Inbox := { x with messages := m :: x.messages }

/-- The inbox at an error: no message is left, and if the error is about a frame that is no
message, it is the error of decoding that frame. -/
structure Inbox.EndsWith (x : Inbox) (pings : List (List UInt8)) (e : RecvErr) : Prop where
  messages : x.messages = []
  pings : x.pings = pings
  refused : ∀ e', x.refused = some e' → e = .message e'

variable {r : Reader} {s : List UInt8} {written : List (Opcode × List UInt8)}

theorem inbox_current (hpos : 0 < r.rem) (hlen : r.rem ≤ s.length) :
    inbox (r.current s) =
      match decodeMessage (r.unmask (s.take r.rem)) with
      | .error e => { refused := some e }
      | .ok m => (inbox (frames r.client (s.drop r.rem))).receiving m := by
  have hne : r.unmask (s.take r.rem) ≠ [] := by
    apply List.ne_nil_of_length_pos
    rw [Stream.length_unmask, List.length_take]
    omega
  rw [Reader.current, if_neg (by omega), inbox, if_neg hne]
  rfl

/-- `RecvMessage` is one `Read` with a buffer of `MaxControlFrame` bytes. It sees one frame at
most, so a message has to come in a single frame that fits. -/
theorem Reader.take_small (written : List (Opcode × List UInt8)) (hle : r.rem ≤ maxControlFrame)
    (hlen : r.rem ≤ s.length) :
    (r.take s maxControlFrame written).err = none ∧
      (r.take s maxControlFrame written).reader.rem = 0 ∧
      (r.take s maxControlFrame written).bytes = r.unmask (s.take r.rem) ∧
      (r.take s maxControlFrame written).rest = s.drop r.rem := by
  have hmin : min maxControlFrame r.rem = r.rem := Nat.min_eq_right hle
  have htake : (s.take r.rem).length = r.rem := by
    rw [List.length_take]
    omega
  unfold Reader.take
  dsimp only
  rw [hmin, htake]
  exact ⟨if_neg (lt_irrefl _), Nat.sub_self _, rfl, rfl⟩

theorem Reader.take_message_ok {m : Message} (hpos : 0 < r.rem)
    (h : (r.take s maxControlFrame written).message = .ok m) :
    (r.take s maxControlFrame written).reader.rem = 0 ∧
      (r.take s maxControlFrame written).rest = s.drop r.rem ∧
      inbox (r.current s) = (inbox (frames r.client (s.drop r.rem))).receiving m := by
  have hrem : (r.take s maxControlFrame written).reader.rem =
      r.rem - (s.take (min maxControlFrame r.rem)).length := rfl
  rw [List.length_take] at hrem
  unfold Chunk.message at h
  split at h
  · exact absurd h (by simp)
  · split_ifs at h with hres
    -- no residue, so the frame was no longer than the buffer and all of it is there
    have hle : r.rem ≤ maxControlFrame ∧ r.rem ≤ s.length := by omega
    obtain ⟨-, hzero, hbytes, hrest⟩ := Reader.take_small written hle.1 hle.2
    refine ⟨hzero, hrest, ?_⟩
    rw [hbytes] at h
    rw [inbox_current hpos hle.2]
    cases hdec : decodeMessage (r.unmask (s.take r.rem)) with
    | error e =>
      rw [hdec] at h
      exact absurd h (by simp [Except.mapError])
    | ok m' =>
      rw [hdec] at h
      rw [Except.ok.inj h]

theorem Reader.take_message_error {e : RecvErr} (hpos : 0 < r.rem)
    (h : (r.take s maxControlFrame written).message = .error e) :
    (inbox (r.current s)).EndsWith [] e := by
  by_cases hlen : s.length < r.rem
  · -- the frame is not whole
    rw [Reader.current, if_pos hlen]
    exact ⟨rfl, rfl, fun _ he => absurd he (by simp [inbox])⟩
  rw [inbox_current hpos (by omega)]
  by_cases hle : r.rem ≤ maxControlFrame
  · obtain ⟨herr, hzero, hbytes, -⟩ := Reader.take_small written hle (not_lt.mp hlen)
    rw [Chunk.message, herr] at h
    dsimp only at h
    rw [if_neg (by omega), hbytes] at h
    cases hdec : decodeMessage (r.unmask (s.take r.rem)) with
    | ok m =>
      rw [hdec] at h
      exact absurd h (by simp [Except.mapError])
    | error e' =>
      rw [hdec] at h
      obtain rfl := Except.error.inj h
      refine ⟨rfl, rfl, fun _ he => ?_⟩
      rw [Option.some.inj he]
  · -- `DecodeMessage` would refuse it, too
    have hlarge : decodeMessage (r.unmask (s.take r.rem)) = .error .controlTooLarge := by
      apply if_pos
      rw [Stream.length_unmask, List.length_take]
      omega
    have hrem : (r.take s maxControlFrame written).reader.rem =
        r.rem - (s.take (min maxControlFrame r.rem)).length := rfl
    have herr : (r.take s maxControlFrame written).err = none := by
      apply if_neg
      rw [List.length_take]
      omega
    rw [List.length_take] at hrem
    rw [Chunk.message, herr] at h
    dsimp only at h
    rw [if_pos (by omega)] at h
    obtain rfl := Except.error.inj h
    rw [hlarge]
    refine ⟨rfl, rfl, fun _ he => ?_⟩
    rw [Option.some.inj he]

/-- **One `RecvMessage`**, between two frames. A message is the first of the inbox and the rest is
what remains of it; an error is the end of the inbox. The pings on the way have been answered in
both cases. -/
theorem Reader.Returns.message {c : Chunk} (hrem : r.rem = 0) (h : r.Returns s maxControlFrame c) :
    (∀ m, c.message = .ok m → c.reader.client = r.client ∧ c.reader.rem = 0 ∧
      c.rest.length < s.length ∧
      inbox (frames r.client s) =
        ((inbox (frames r.client c.rest)).receiving m).answering (pongs c.written)) ∧
    ∀ e, c.message = .error e → (inbox (frames r.client s)).EndsWith (pongs c.written) e := by
  have hc := h _ (Nat.lt_succ_self s.length)
  rw [Reader.readCall, if_neg (by omega)] at hc
  obtain ⟨a, ha, rfl⟩ := Option.map_eq_some_iff.mp hc
  obtain ⟨hclient, hok, herr⟩ := Reader.nextFrames_inbox ha hrem
  cases hrest : a.rest with
  | error e =>
    refine ⟨fun m hm => absurd hm (by simp [Chunk.message]), fun e' he => ?_⟩
    rw [herr e hrest]
    refine ⟨rfl, rfl, fun _ he' => absurd he' (by simp)⟩
  | ok rest =>
    obtain ⟨hpos, hlen, hin⟩ := hok rest hrest
    refine ⟨fun m hm => ?_, fun e he => ?_⟩
    · obtain ⟨hzero, hdrop, hcur⟩ := Reader.take_message_ok hpos hm
      refine ⟨hclient, hzero, ?_, ?_⟩
      · show (a.reader.take rest maxControlFrame a.written).rest.length < _
        rw [hdrop, List.length_drop]
        omega
      · show _ = ((inbox
          (frames r.client (a.reader.take rest maxControlFrame a.written).rest)).receiving
          m).answering (pongs a.written)
        rw [hin, hcur, hdrop, hclient]
    · obtain ⟨hmsgs, hpings, href⟩ := Reader.take_message_error hpos he
      rw [hin]
      refine ⟨hmsgs, ?_, href⟩
      rw [Inbox.answering, hpings, List.append_nil]
      rfl

/-! ## The loop -/

/-- `readPump` calls `RecvMessage` until it fails. Every message takes at least one byte, so as
many rounds as there are bytes are enough. -/
theorem Reader.exists_readPump (hrem : r.rem = 0) :
    ∃ p : Pumped, (∀ fuel, s.length < fuel → r.readPump fuel s = some p) ∧
      p.messages = (inbox (frames r.client s)).messages ∧
      pongs p.written = (inbox (frames r.client s)).pings ∧
      ∀ e, (inbox (frames r.client s)).refused = some e → p.err = .message e := by
  -- by induction on what is left of the stream
  induction hlen : s.length using Nat.strong_induction_on generalizing r s with
  | _ len ih =>
    subst hlen
    obtain ⟨c, hc⟩ := r.exists_returns s maxControlFrame
    obtain ⟨hok, herr⟩ := hc.message hrem
    have hcall := hc _ (Nat.lt_succ_self s.length)
    cases hm : c.message with
    | error e =>
      obtain ⟨hmsgs, hpings, href⟩ := herr e hm
      refine ⟨{ written := c.written, err := e }, ?_, hmsgs.symm, hpings.symm, href⟩
      intro fuel hfuel
      obtain ⟨n, rfl⟩ := Nat.exists_eq_succ_of_ne_zero (Nat.ne_of_gt (Nat.zero_lt_of_lt hfuel))
      rw [Reader.readPump, hcall, Option.bind_some, hm]
    | ok m =>
      obtain ⟨hclient, hzero, hshort, hin⟩ := hok m hm
      obtain ⟨p, hp, hmsgs, hpings, href⟩ := ih _ hshort hzero rfl
      rw [hclient] at hmsgs hpings href
      rw [hin]
      refine ⟨{ p with messages := m :: p.messages, written := c.written ++ p.written }, ?_,
        congrArg (m :: ·) hmsgs, ?_, href⟩
      · intro fuel hfuel
        obtain ⟨n, rfl⟩ := Nat.exists_eq_succ_of_ne_zero (Nat.ne_of_gt (Nat.zero_lt_of_lt hfuel))
        rw [Reader.readPump, hcall, Option.bind_some, hm]
        dsimp only
        rw [hp n (by omega), Option.map_some]
      · show pongs (c.written ++ p.written) = pongs c.written ++ _
        rw [Inbox.receiving, ← hpings]
        simp [pongs]

/-- **Messages are frames.** Whatever the other side sends, `readPump` returns; up to there it
has got a message for each data frame, whole and alone, until the first that is none, and it has
answered the pings between them. -/
theorem readPump_inbox (client : Bool) (s : List UInt8) :
    ∃ p : Pumped, (∀ fuel, s.length < fuel → Reader.readPump fuel { client := client } s = some p) ∧
      p.messages = (inbox (frames client s)).messages ∧
      pongs p.written = (inbox (frames client s)).pings ∧
      ∀ e, (inbox (frames client s)).refused = some e → p.err = .message e :=
  Reader.exists_readPump (r := { client := client }) rfl

/-! ## The frames of a writer -/

/-- A frame as the reference decoder has it. -/
def WSFrame.ref (f : WSFrame) : RefFrame :=
  match f.op with
  | .binary => .data f.payload
  | .ping => .ping f.payload
  | .pong => .pong
  | .close => .close

section Writer

variable {client : Bool} {f : WSFrame} {fs : List WSFrame}

theorem refFrame_bytes (hf : f.Fits client) (rest : List UInt8) :
    refFrame client (f.bytes ++ rest) = .frame f.ref rest := by
  rw [refFrame_eq, WSFrame.nextFrame_bytes hf]
  unfold WSFrame.incoming WSFrame.ref
  cases hop : f.op with
  | ping | pong | close => rfl
  | binary =>
    have hlen : f.body.length = f.payload.length := WSFrame.length_body
    have hpayload : unmaskWith f.keyBytes f.key.isSome f.body = f.payload := by
      unfold unmaskWith WSFrame.keyBytes WSFrame.body
      cases f.key with
      | none => rfl
      | some k => exact xorMask_xorMask _ _ _
    simp only [refOf, if_true, List.length_append]
    rw [if_neg (by omega), List.take_append_of_le_length hlen.ge, List.take_of_length_le hlen.le,
      List.drop_append_of_le_length hlen.ge, List.drop_of_length_le hlen.le, hpayload,
      List.nil_append]

/-- A part of a frame is not one: no frame starts with another. The cut is in the header or in the
body, and the decoder wants more in both cases. -/
theorem refFrame_cut (hf : f.Fits client) {n : ℕ} (hn : n < f.bytes.length) :
    ∃ payload, refFrame client (f.bytes.take n) = .truncated payload := by
  have hwhole := WSFrame.nextFrame_bytes hf []
  rw [List.append_nil, ← List.take_append_drop n f.bytes] at hwhole
  rw [refFrame_eq]
  -- whatever the parser makes of the part, it makes of the whole
  rcases hrun : (nextFrame client).run (f.bytes.take n) with (_ | e) | ⟨i, rest⟩
  · exact ⟨[], rfl⟩
  · rw [(stable_nextFrame client).failed _ hrun] at hwhole
    exact absurd hwhole (by simp)
  · rw [(stable_nextFrame client).ok _ hrun] at hwhole
    obtain ⟨rfl, hrest⟩ := Prod.mk.inj (Except.ok.inj hwhole)
    have hmissing : 0 < (f.bytes.drop n).length := by
      rw [List.length_drop]
      omega
    have hlen := congrArg List.length hrest
    rw [List.length_append] at hlen
    unfold WSFrame.incoming at *
    cases hop : f.op with
    | ping | pong | close =>
      -- a control frame is read as a whole
      rw [hop] at hlen
      simp only [reduceCtorEq, if_false, List.length_nil] at hlen
      omega
    | binary =>
      rw [hop] at hlen
      simp only [if_true, List.append_nil, WSFrame.length_body] at hlen
      exact ⟨_, if_pos (by omega)⟩

/-- **A stream that is cut** has the frames that are there as a whole. By induction on the frames:
the first is there, and the cut is in the others, or it is cut itself and nothing follows. -/
theorem frames_take (hfs : ∀ f ∈ fs, f.Fits client ∧ f.op ≠ .close) (n : ℕ) :
    ∃ k ≤ fs.length, ((fs.take k).flatMap WSFrame.bytes).length ≤ n ∧
      (k < fs.length → n < ((fs.take (k + 1)).flatMap WSFrame.bytes).length) ∧
      frames client ((fs.flatMap WSFrame.bytes).take n) = (fs.take k).map WSFrame.ref := by
  induction fs generalizing n with
  | nil =>
    exact ⟨0, le_rfl, Nat.zero_le _, fun h => absurd h (lt_irrefl _), by simp [frames, framesUpTo]⟩
  | cons f fs ih =>
    obtain ⟨hf, hop⟩ := hfs f List.mem_cons_self
    by_cases hn : f.bytes.length ≤ n
    · obtain ⟨k, hk, hle, hlt, hframes⟩ :=
        ih (fun g hg => hfs g (List.mem_cons_of_mem _ hg)) (n - f.bytes.length)
      refine ⟨k + 1, Nat.succ_le_succ hk, ?_, ?_, ?_⟩
      · rw [List.take_succ_cons, List.flatMap_cons, List.length_append]
        omega
      · intro hmore
        have hrest := hlt (by simpa using hmore)
        rw [List.take_succ_cons, List.flatMap_cons, List.length_append]
        omega
      · rw [List.flatMap_cons, List.take_append, List.take_of_length_le hn, frames_eq,
          ← refFrame_eq, refFrame_bytes hf, List.take_succ_cons, List.map_cons, ← hframes]
        unfold WSFrame.ref
        cases hkind : f.op with
        | binary | ping | pong => rfl
        | close => exact absurd hkind hop
    · obtain ⟨payload, hcut⟩ := refFrame_cut hf (not_le.mp hn)
      refine ⟨0, Nat.zero_le _, Nat.zero_le _, fun _ => ?_, ?_⟩
      · simpa using not_le.mp hn
      · rw [List.flatMap_cons, List.take_append_of_le_length (by omega), frames_eq, ← refFrame_eq,
          hcut]
        rfl

end Writer

/-! ## From one end to the other -/

/-- What one end writes on a control connection. -/
inductive ControlWrite where
  | message (m : Message)
  | ping
  | pong (payload : List UInt8)

namespace ControlWrite

def frame (key : Option MaskKey) : ControlWrite → Except MessageErr WSFrame
  | message m => sendMessage key m
  | ping => .ok ⟨.ping, key, (writeControl .ping []).2⟩
  | pong payload => .ok ⟨.pong, key, (writeControl .pong payload).2⟩

def message? : ControlWrite → Option Message
  | message m => some m
  | ping | pong _ => none

/-- The write succeeds with this frame, masked as the reader wants it. -/
def Writes (client : Bool) (w : ControlWrite) (f : WSFrame) : Prop :=
  ∃ key : Option MaskKey, key.isSome = !client ∧ w.frame key = .ok f

variable {client : Bool} {w : ControlWrite} {f : WSFrame}

theorem sendMessage_eq_ok {key : Option MaskKey} {m : Message} (h : sendMessage key m = .ok f) :
    ∃ buf, encodeMessage m = .ok buf ∧ buf.length ≤ maxControlFrame ∧ f = ⟨.binary, key, buf⟩ := by
  unfold sendMessage at h
  cases henc : encodeMessage m with
  | error e =>
    rw [henc] at h
    exact absurd h (by simp [Except.map])
  | ok buf =>
    rw [henc] at h
    refine ⟨buf, rfl, ?_, (Except.ok.inj h).symm⟩
    unfold encodeMessage at henc
    split_ifs at henc with hlarge
    rw [← Except.ok.inj henc]
    exact not_lt.mp hlarge

theorem Writes.fits (h : Writes client w f) : f.Fits client ∧ f.op ≠ .close := by
  obtain ⟨key, hkey, hframe⟩ := h
  cases w with
  | message m =>
    obtain ⟨buf, -, hlen, rfl⟩ := sendMessage_eq_ok hframe
    have hmax : maxControlFrame ≤ maxWSPayload := by decide
    exact ⟨⟨hkey, hlen.trans hmax, fun hop => absurd rfl hop⟩, by simp⟩
  | ping =>
    obtain rfl := Except.ok.inj hframe
    exact ⟨⟨hkey, by simp [writeControl], fun _ => by simp [writeControl]⟩, by simp⟩
  | pong payload =>
    obtain rfl := Except.ok.inj hframe
    have hlen : (writeControl .pong payload).2.length ≤ maxControlPayload := by
      unfold writeControl
      rw [List.length_take]
      exact Nat.min_le_left _ _
    have hmax : maxControlPayload ≤ maxWSPayload := by decide
    exact ⟨⟨hkey, hlen.trans hmax, fun _ => hlen⟩, by simp⟩

theorem fits_of_mem {ws : List ControlWrite} {fs : List WSFrame}
    (h : List.Forall₂ (Writes client) ws fs) : ∀ f ∈ fs, f.Fits client ∧ f.op ≠ .close := by
  induction h with
  | nil => exact fun f hf => absurd hf List.not_mem_nil
  | cons hw _ ih =>
    intro f hf
    rcases List.mem_cons.mp hf with rfl | hf
    · exact hw.fits
    · exact ih f hf

/-- The frames of these writes mean the messages in them, as `json` gives them back. A message
with an empty type is excluded, because the reader refuses it. -/
theorem inbox_writes {ws : List ControlWrite} {fs : List WSFrame}
    (h : List.Forall₂ (Writes client) ws fs) (htypes : ∀ m, message m ∈ ws → m.type ≠ []) :
    (inbox (fs.map WSFrame.ref)).messages = (ws.filterMap message?).map Message.sanitized := by
  induction h with
  | nil => rfl
  | @cons w f ws fs hw _ ih =>
    have hrest := ih fun m hm => htypes m (List.mem_cons_of_mem _ hm)
    obtain ⟨key, -, hframe⟩ := hw
    cases w with
    | message m =>
      obtain ⟨buf, henc, -, rfl⟩ := sendMessage_eq_ok hframe
      have hdec := decodeMessage_encodeMessage henc
        (Utf8.sanitize_ne_nil (htypes m List.mem_cons_self))
      have hempty : decodeMessage [] = .error .badControlMessage := rfl
      have hne : buf ≠ [] := by
        rintro rfl
        rw [hempty] at hdec
        exact absurd hdec (by simp)
      show (inbox (RefFrame.data buf :: fs.map WSFrame.ref)).messages = _
      rw [inbox, if_neg hne, hdec]
      exact congrArg (m.sanitized :: ·) hrest
    | ping | pong _ =>
      obtain rfl := Except.ok.inj hframe
      exact hrest

end ControlWrite

/-- **Messages arrive whole and in order, up to where the connection breaks.** After any writes
of one end, if `n` bytes of them arrive, the loop of the other end returns the messages whose
frames are among them, and only those. -/
theorem control_messages_arrive {client : Bool} {ws : List ControlWrite} {fs : List WSFrame}
    (h : List.Forall₂ (ControlWrite.Writes client) ws fs)
    (htypes : ∀ m, ControlWrite.message m ∈ ws → m.type ≠ []) (n : ℕ) :
    ∃ k ≤ ws.length, ((fs.take k).flatMap WSFrame.bytes).length ≤ n ∧
      (k < ws.length → n < ((fs.take (k + 1)).flatMap WSFrame.bytes).length) ∧
      ∃ p : Pumped, (∀ fuel, n < fuel →
          Reader.readPump fuel { client := client } ((fs.flatMap WSFrame.bytes).take n) = some p) ∧
        p.messages = ((ws.take k).filterMap ControlWrite.message?).map Message.sanitized := by
  obtain ⟨k, hk, hle, hlt, hframes⟩ := frames_take (ControlWrite.fits_of_mem h) n
  rw [← h.length_eq] at hk hlt
  refine ⟨k, hk, hle, hlt, ?_⟩
  obtain ⟨p, hp, hmsgs, -, -⟩ :=
    Reader.exists_readPump (r := { client := client }) (s := (fs.flatMap WSFrame.bytes).take n) rfl
  refine ⟨p, fun fuel hfuel => hp fuel ?_, ?_⟩
  · rw [List.length_take]
    omega
  · rw [hmsgs, hframes]
    exact ControlWrite.inbox_writes (List.forall₂_take k h)
      fun m hm => htypes m (List.mem_of_mem_take hm)

def someMessages : Message × Message :=
  ({ type := [98, 121, 101] }, { type := [98, 121, 101], reason := [104, 105] })

def someFrames : List WSFrame :=
  [⟨.binary, none, someMessages.1.json.compact⟩, ⟨.ping, none, []⟩,
    ⟨.binary, none, someMessages.2.json.compact⟩]

/-- Two messages with a ping between them, and the last byte of the second is missing: the first
one is returned. -/
theorem control_messages_arrive_cut :
    ∃ p : Pumped, Reader.readPump 48 { client := true } ((someFrames.flatMap WSFrame.bytes).take 47)
      = some p ∧
      p.messages = [{ type := [98, 121, 101] }] := by
  have hsend : ∀ m : Message, m.json.compact.length ≤ maxControlFrame →
      ControlWrite.Writes true (.message m) ⟨.binary, none, m.json.compact⟩ := by
    intro m hm
    refine ⟨none, rfl, ?_⟩
    rw [ControlWrite.frame, sendMessage, encodeMessage, if_neg (not_lt.mpr hm)]
    rfl
  have hwrites : List.Forall₂ (ControlWrite.Writes true)
      [.message someMessages.1, .ping, .message someMessages.2] someFrames :=
    .cons (hsend _ (by decide +kernel)) (.cons ⟨none, rfl, rfl⟩
      (.cons (hsend _ (by decide +kernel)) .nil))
  obtain ⟨k, hk, hle, hlt, p, hp, hmsgs⟩ :=
    control_messages_arrive hwrites (by simp [someMessages]) 47
  have hall : ((someFrames.take 3).flatMap WSFrame.bytes).length = 48 := by decide +kernel
  have hone : ((someFrames.take 2).flatMap WSFrame.bytes).length = 18 := by decide +kernel
  have hzero : ((someFrames.take 1).flatMap WSFrame.bytes).length = 16 := by decide +kernel
  have htwo : k = 2 := by
    simp only [List.length_cons, List.length_nil] at hk hlt
    interval_cases k <;> simp only [Nat.reduceAdd] at hlt <;> omega
  subst htwo
  exact ⟨p, hp 48 (by decide), hmsgs.trans (by decide +kernel)⟩

/-! ## A circuit -/

def msgCircuitOK : GoString := [99, 105, 114, 99, 117, 105, 116, 95, 111, 107]

def msgError : GoString := [101, 114, 114, 111, 114]

/-- The errors of `OpenCircuit` after its request. -/
inductive CircuitErr where
  | recv (e : RecvErr)
  | relay (reason : GoString)
  | unexpected (type : GoString)

/-- `OpenCircuit` after its request: the answer of the relay is read, and the connection is returned
with what is behind the answer. -/
def Reader.openCircuit (r : Reader) (s : List UInt8) :
    Option (Except CircuitErr (Reader × List UInt8)) :=
  (r.readCall (s.length + 1) s maxControlFrame).map fun c =>
    match c.message with
    | .error e => .error (.recv e)
    | .ok m =>
      if m.type = msgCircuitOK then .ok (c.reader, c.rest)
      else if m.type = msgError then .error (.relay m.reason)
      else .error (.unexpected m.type)

theorem Chunk.message_eq_ok {c : Chunk} {m : Message} (h : c.message = .ok m) :
    c.err = none ∧ decodeMessage c.bytes = .ok m := by
  unfold Chunk.message at h
  split at h
  · exact absurd h (by simp)
  · next herr =>
    split_ifs at h
    refine ⟨herr, ?_⟩
    cases hdec : decodeMessage c.bytes with
    | error e =>
      rw [hdec] at h
      exact absurd h (by simp [Except.mapError])
    | ok m' =>
      rw [hdec] at h
      rw [Except.ok.inj h]

/-- **A circuit starts behind the answer.** Whatever the relay sends, `OpenCircuit` returns, and it
returns a connection just if the first message is `circuit_ok`. What is read of that connection is
what the relay sent behind this message: nothing of the message, and nothing less. -/
theorem openCircuit_stream (s : List UInt8) :
    ∃ res, Reader.openCircuit { client := true } s = some res ∧
      ((∃ conn, res = .ok conn) ↔
        ∃ m, (inbox (frames true s)).messages.head? = some m ∧ m.type = msgCircuitOK) ∧
      ∀ r rest, res = .ok (r, rest) →
        ∃ answer m, decodeMessage answer = .ok m ∧ m.type = msgCircuitOK ∧
          (decode true s).payload = answer ++ (decode true rest).payload ∧
          ∀ sizes : ℕ → ℕ, (∀ i, 0 < sizes i) →
            (∃ cs, Reads r rest sizes cs) ∧
              ∀ cs, Reads r rest sizes cs →
                cs.flatMap Chunk.bytes = (decode true rest).payload := by
  set r₀ : Reader := { client := true } with hr₀
  obtain ⟨c, hc⟩ := r₀.exists_returns s maxControlFrame
  obtain ⟨hok, herr⟩ := hc.message rfl
  have hcall := hc _ (Nat.lt_succ_self s.length)
  rw [Reader.openCircuit, hcall, Option.map_some]
  refine ⟨_, rfl, ?_, ?_⟩
  · cases hm : c.message with
    | error e =>
      have hnone := (herr e hm).messages
      simp [show r₀.client = true from rfl] at hnone
      simp [hnone]
    | ok m =>
      obtain ⟨-, -, -, hin⟩ := hok m hm
      have hhead : (inbox (frames true s)).messages.head? = some m := by
        show (inbox (frames r₀.client s)).messages.head? = some m
        rw [hin]
        rfl
      rw [hhead]
      dsimp only
      split_ifs with hyes hno <;> simp [hyes]
  · intro r rest hres
    cases hm : c.message with
    | error e =>
      rw [hm] at hres
      exact absurd hres (by simp)
    | ok m =>
      rw [hm] at hres
      dsimp only at hres
      split_ifs at hres with hyes
      obtain ⟨rfl, rfl⟩ := Prod.mk.inj (Except.ok.inj hres)
      obtain ⟨hclient, hzero, -, -⟩ := hok m hm
      obtain ⟨hnone, hdec⟩ := Chunk.message_eq_ok hm
      have hread := hc.ok (by decide) (Nat.zero_le _)
      have hmore := (hread.more hnone).2
      have hle : c.reader.rem ≤ maxWSPayload := by omega
      rw [Reader.expect_zero rfl, Reader.expect_zero hzero, hclient] at hmore
      refine ⟨c.bytes, m, hdec, hyes, congrArg Decoded.payload hmore, fun sizes hsizes => ?_⟩
      refine ⟨exists_reads _ _ hsizes hle, fun cs hcs => ?_⟩
      have hexp := (hcs.eq_expect hsizes hle).1
      rw [Reader.expect_zero hzero, hclient] at hexp
      exact (congrArg Decoded.payload hexp).symm

end Heimdall.Rendezvous
