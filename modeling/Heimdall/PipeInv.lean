/-
A relayed circuit is a pipe, but for what `Close` writes.

`Close` writes a close frame, also after a write that has failed partway, and then its bytes are
taken for the rest of the payload: a frame comes out that nobody sent (`closed_into_payload`). If
nothing is written on a connection after a write that failed partway, the circuit is a pipe
(`circuit_transparent`): what comes out is a prefix of what went in, and below `CircuitBytes`
everything arrives if nothing fails, also when the sender has closed in order. No run whatsoever
forwards more than `CircuitBytes`.

The ceiling is an invariant of its own (`Counted`). The invariant `Sound` of the tidy runs has a
`Hop` for each of the two connections, and between them the bytes that `pump` has forwarded. That
everything arrives is about the steps that read and pass on: each leaves less to do (`work_lt`), and
where there is nothing to do nothing is missing (`eq_of_idle`).
-/
import Heimdall.Pipe
import Heimdall.Runs

set_option autoImplicit false

namespace Heimdall.Circuits

open Heimdall.BigEndian
open Heimdall.Rendezvous
open Heimdall.Runs

namespace Pipe

variable (L : ℕ) (s : Pipe)

/-! ## The next frame -/

section Inversion

variable {L s} {s' : Pipe} {pongOk : Bool}

/-- A round of `nextFrame` at the relay, which is between two frames. Either it stops there, or it
goes on to the next frame with what is left of the bytes. A pong that could not be written counts
as a fault. -/
theorem next_pumpFrame (hnext : s.next L (.pumpFrame pongOk) = some s') :
    s.pumping = true ∧ s.src.rem = 0 ∧
      ((s.src.advance s.up.bytes pongOk = .stopped ∧
          s' = { s with pumping := false, faulty := s.faulty || !pongOk }) ∨
        ∃ r rest, s.src.advance s.up.bytes pongOk = .moved r rest ∧
          s' = { s with
            src := r, up := { s.up with bytes := rest }, faulty := s.faulty || !pongOk }) := by
  simp only [next] at hnext
  split_ifs at hnext with hguard
  refine ⟨hguard.1, hguard.2, ?_⟩
  rcases hadv : s.src.advance s.up.bytes pongOk with _ | _ | ⟨r, rest⟩
  · rw [hadv] at hnext
    exact absurd hnext nofun
  · rw [hadv] at hnext
    exact .inl ⟨rfl, (Option.some.inj hnext).symm⟩
  · rw [hadv] at hnext
    exact .inr ⟨r, rest, rfl, (Option.some.inj hnext).symm⟩

/-- The same round at the receiver. The two are all that the proofs need of `Reader.advance`. -/
theorem next_recvFrame (hnext : s.next L (.recvFrame pongOk) = some s') :
    s.receiving = true ∧ s.dst.rem = 0 ∧
      ((s.dst.advance s.down.bytes pongOk = .stopped ∧
          s' = { s with receiving := false, faulty := s.faulty || !pongOk }) ∨
        ∃ r rest, s.dst.advance s.down.bytes pongOk = .moved r rest ∧
          s' = { s with
            dst := r, down := { s.down with bytes := rest }, faulty := s.faulty || !pongOk }) := by
  simp only [next] at hnext
  split_ifs at hnext with hguard
  refine ⟨hguard.1, hguard.2, ?_⟩
  rcases hadv : s.dst.advance s.down.bytes pongOk with _ | _ | ⟨r, rest⟩
  · rw [hadv] at hnext
    exact absurd hnext nofun
  · rw [hadv] at hnext
    exact .inl ⟨rfl, (Option.some.inj hnext).symm⟩
  · rw [hadv] at hnext
    exact .inr ⟨r, rest, rfl, (Option.some.inj hnext).symm⟩

end Inversion

/-! ## The ceiling

`pump` counts before it forwards, so the ceiling holds in every run, also in one that writes after a
failed write. It is kept apart from the larger invariant for that reason. -/

/-- What holds in every state of any run: the counter of `pump` is right, and what was forwarded is
below the ceiling. -/
structure Counted : Prop where
  total : s.pumping = true → s.total = s.forwarded.length
  ceiling : s.forwarded.length ≤ L

namespace Counted

variable {L s} {s' : Pipe} {a : PipeAct}

theorem start : Counted L {} := ⟨fun _ => rfl, Nat.zero_le L⟩

theorem length_chunk {k : ℕ} (hlen : k ≤ s.up.bytes.length) :
    (s.src.unmask (s.up.bytes.take k)).length = k := by
  rw [Stream.length_unmask, List.length_take]
  omega

/-- `pump` counts before it forwards. If the count passes the ceiling nothing is forwarded, and if
it does not, the chunk still fits. -/
theorem pump (h : s.Counted L) (hp : s.pumping = true) {k : ℕ} (hlen : k ≤ s.up.bytes.length)
    (n : ℕ) :
    (s.pump L k n).Counted L := by
  have htotal := h.total hp
  unfold Pipe.pump
  dsimp only
  split_ifs with hover
  · exact ⟨nofun, h.ceiling⟩
  · have hforwarded : (s.forwarded ++ s.src.unmask (s.up.bytes.take k)).length = s.total + k := by
      rw [List.length_append, length_chunk hlen, htotal]
    exact ⟨fun _ => hforwarded.symm, hforwarded.trans_le (not_lt.mp hover)⟩

/-- **Every step** keeps it, a tidy one or not: only `pump` counts and forwards. -/
theorem step (h : s.Counted L) (hnext : s.next L a = some s') : s'.Counted L := by
  cases a with
  | send | upControl | downControl | recvFail =>
    simp only [next] at hnext
    split_ifs at hnext <;> cases hnext <;> exact ⟨h.total, h.ceiling⟩
  | body =>
    simp only [next] at hnext
    split at hnext <;> cases hnext
    exact ⟨h.total, h.ceiling⟩
  | pumpFrame =>
    obtain ⟨-, -, ⟨-, rfl⟩ | ⟨r, rest, -, rfl⟩⟩ := next_pumpFrame hnext
    · exact ⟨nofun, h.ceiling⟩
    · exact ⟨h.total, h.ceiling⟩
  | pumpRead =>
    simp only [next] at hnext
    split_ifs at hnext with hguard
    cases hnext
    exact h.pump hguard.1 hguard.2.2 _
  | pumpFail k n =>
    simp only [next] at hnext
    by_cases hguard : s.pumping = true ∧ k ≤ min pumpBuffer s.src.rem ∧ k ≤ s.up.bytes.length
    · rw [if_pos hguard] at hnext
      cases hnext
      refine ⟨nofun, ?_⟩
      dsimp only
      split_ifs
      · exact h.ceiling
      · exact (h.pump hguard.1 hguard.2.2 n).ceiling
    · rw [if_neg hguard] at hnext
      exact absurd hnext nofun
  | recvFrame =>
    obtain ⟨-, -, ⟨-, rfl⟩ | ⟨r, rest, -, rfl⟩⟩ := next_recvFrame hnext <;>
      exact ⟨h.total, h.ceiling⟩
  | recvRead =>
    simp only [next] at hnext
    split_ifs at hnext
    split at hnext <;> cases hnext <;> exact ⟨h.total, h.ceiling⟩

end Counted

/-! ## What holds in every state of a tidy run

The streams are compared at three places: what the sender was given, what the relay was given to
forward, and what the receiver has. `Hop` is the invariant of each connection between them, and the
rest of the structure is about the ends. -/

/-- What holds in every state of a tidy run: each of the three streams is a prefix of the one
before it, and as long as nothing has failed, all of it is on the way. The relay has stopped only at
the ceiling or at the end, and the receiver only when it has everything that the relay forwards. -/
structure Sound : Prop where
  roles : s.src.client = false ∧ s.dst.client = true
  small : ∀ p ∈ s.sent, p.length ≤ maxFrameSize
  body : ∀ p, s.body = some p → p.length ≤ maxFrameSize ∧ s.sending = true
  given : s.out ++ s.body.getD [] <+: s.sent.flatMap frame
  givenAll : s.sending = true ∨ s.faulty = false → s.out ++ s.body.getD [] = s.sent.flatMap frame
  up : s.pumping = true →
    Hop s.src s.up.bytes s.forwarded s.out s.sending s.closed s.up.broken s.faulty
  forwarded : s.forwarded <+: s.out
  pumping : s.faulty = false →
    s.pumping = true ∨ L < s.out.length ∨ s.closed = true ∧ s.forwarded = s.out
  down : s.receiving = true →
    Hop s.dst s.down.bytes (s.received.flatMap frame ++ s.recv.got) s.forwarded s.pumping
      (!s.pumping) s.down.broken s.faulty
  recv : s.recv.Sound
  received : s.received.flatMap frame <+: s.forwarded
  sizes : ∀ p ∈ s.received, p.length ≤ maxFrameSize
  receiving : s.faulty = false →
    s.receiving = true ∨ s.pumping = false ∧ s.received.flatMap frame ++ s.recv.got = s.forwarded

variable {L} {s} {s' : Pipe} {a : PipeAct}

namespace Sound

theorem start : Sound L {} where
  roles := ⟨rfl, rfl⟩
  small := nofun
  body := nofun
  given := List.prefix_refl _
  givenAll _ := rfl
  up _ := Hop.empty false true false
  forwarded := List.prefix_refl _
  pumping _ := .inl rfl
  down _ := Hop.empty true true false
  recv := Nat.succ_pos 3
  received := List.prefix_refl _
  sizes := nofun
  receiving _ := .inl rfl

/-- **What comes out is a prefix of what went in.** The received frames are a prefix of what the
relay has forwarded, that is one of what was written, and frames can be told apart. -/
theorem prefix_sent (h : s.Sound L) : s.received <+: s.sent := by
  apply prefix_of_frames h.sizes h.small
  calc s.received.flatMap frame <+: s.forwarded := h.received
    _ <+: s.out := h.forwarded
    _ <+: s.out ++ s.body.getD [] := List.prefix_append _ _
    _ <+: s.sent.flatMap frame := h.given

/-- The header of the next frame, if it is there, is that of a frame that was sent. So the
receiver never meets a length above `MaxFrameSize`, although it checks for one. -/
theorem header_le (h : s.Sound L) {hdr : List UInt8} (hlen : hdr.length = 4)
    (hle : s.received.flatMap frame ++ hdr <+: s.forwarded) : beNat hdr ≤ maxFrameSize := by
  obtain ⟨rest, hrest⟩ := h.prefix_sent
  have hsent : s.received.flatMap frame ++ hdr
      <+: s.received.flatMap frame ++ rest.flatMap frame := by
    rw [← List.flatMap_append, hrest]
    calc s.received.flatMap frame ++ hdr <+: s.forwarded := hle
      _ <+: s.out := h.forwarded
      _ <+: s.out ++ s.body.getD [] := List.prefix_append _ _
      _ <+: s.sent.flatMap frame := h.given
  have hhdr : hdr <+: rest.flatMap frame := (List.prefix_append_right_inj _).mp hsent
  cases rest with
  | nil =>
    have := hhdr.length_le
    simp only [List.flatMap_nil, List.length_nil] at this
    omega
  | cons p rest =>
    have hp : p.length ≤ maxFrameSize :=
      h.small p (hrest ▸ List.mem_append_right _ List.mem_cons_self)
    -- both start with four bytes, so the header is that of `p`
    obtain ⟨t, ht⟩ := hhdr
    rw [List.flatMap_cons, frame, List.append_assoc] at ht
    obtain ⟨rfl, -⟩ := List.append_inj ht (by rw [hlen, length_beBytes])
    rw [beNat_beBytes]
    unfold maxFrameSize at hp ⊢
    omega

theorem failed (h : s.Sound L) {faulty' : Bool} (hf : faulty' = false → s.faulty = false) :
    Sound L { s with faulty := faulty' } :=
  { h with
    roles := h.roles
    givenAll := fun hor => h.givenAll (hor.imp_right hf)
    up := fun hp => (h.up hp).weaken id id hf
    pumping := fun hok => h.pumping (hf hok)
    down := fun hr => (h.down hr).weaken id id hf
    receiving := fun hok => h.receiving (hf hok) }

theorem stop_pump (h : s.Sound L) {faulty' : Bool} (hf : faulty' = false →
      s.faulty = false ∧ s.closed = true ∧ s.forwarded = s.out) :
    Sound L { s with pumping := false, faulty := faulty' } :=
  have h' := h.failed fun hok => (hf hok).1
  { h' with
    roles := h.roles
    up := nofun
    pumping := fun hok => .inr (.inr (hf hok).2)
    down := fun hr => (h'.down hr).weaken nofun (fun _ => rfl) id
    receiving := fun hok => (h.receiving (hf hok).1).imp_right fun hend => ⟨rfl, hend.2⟩ }

theorem stop_recv (h : s.Sound L) {faulty' : Bool} (hf : faulty' = false → s.faulty = false ∧
      s.pumping = false ∧ s.received.flatMap frame ++ s.recv.got = s.forwarded) :
    Sound L { s with receiving := false, faulty := faulty' } :=
  have h' := h.failed fun hok => (hf hok).1
  { h' with roles := h.roles, down := nofun, receiving := fun hok => .inr (hf hok).2 }

theorem write_broken {w : Wire} (hw : w.broken = false) (bs : List UInt8) (n : ℕ) :
    (w.write bs n).broken = decide (0 < n ∧ n < bs.length) := by
  unfold Wire.write
  rw [hw, Bool.false_or]

/-- **The sender writes a frame**, of data or for control. The hypotheses are what a step has to
say for itself: what it adds to the stream, and what the flags mean after it. Data and control
frames are two instances. -/
theorem write_up (h : s.Sound L) (hbroken : s.up.broken = false) {f : WSFrame} (hfit : f.Fits false)
    (hdata : f.op = .binary → s.sending = true) {n : ℕ} {sent' : List (List UInt8)}
    {out' : List UInt8} {body' : Option (List UInt8)} {sending' closed' faulty' : Bool}
    (hout : out' = s.out ++ f.data)
    (hw : sending' = true → s.sending = true ∧ (f.op = .binary → f.bytes.length ≤ n))
    (hc : s.closed = true ∨ f.op = .close → closed' = true)
    (hf : faulty' = false →
      s.faulty = false ∧ f.bytes.length ≤ n ∧ (f.op = .binary → s.closed = false))
    (hsmall : ∀ p ∈ sent', p.length ≤ maxFrameSize)
    (hbody : ∀ p, body' = some p → p.length ≤ maxFrameSize ∧ sending' = true)
    (hgiven : out' ++ body'.getD [] <+: sent'.flatMap frame)
    (hall : sending' = true ∨ faulty' = false → out' ++ body'.getD [] = sent'.flatMap frame) :
    Sound L { s with
      sent := sent', out := out', body := body', sending := sending', closed := closed'
      up := s.up.write f.bytes n, faulty := faulty' } where
  roles := h.roles
  small := hsmall
  body := hbody
  given := hgiven
  givenAll := hall
  up hp := by
    have hhop := h.up hp
    rw [hbroken] at hhop
    rw [← h.roles.1] at hfit
    dsimp only
    rw [write_broken hbroken, hout]
    exact hhop.write hfit hdata n hw (fun _ => hc) hf
  forwarded := h.forwarded.trans (hout ▸ List.prefix_append _ _)
  pumping hok := by
    obtain ⟨hno, -, hdata⟩ := hf hok
    refine (h.pumping hno).imp_right (Or.imp (fun hlt => ?_) fun ⟨hclosed, hall⟩ => ?_)
    · dsimp only
      rw [hout]
      exact hlt.trans_le (List.prefix_append _ _).length_le
    · -- after its close frame the sender has written no data
      have hnone : f.data = [] := if_neg fun hop => absurd hclosed (by rw [hdata hop]; exact nofun)
      refine ⟨hc (.inl hclosed), ?_⟩
      dsimp only
      rw [hout, hnone, List.append_nil, hall]
  down hr := (h.down hr).weaken id id fun hok => (hf hok).1
  recv := h.recv
  received := h.received
  sizes := h.sizes
  receiving hok := h.receiving (hf hok).1

theorem write_down (h : s.Sound L) (hbroken : s.down.broken = false) {f : WSFrame}
    (hfit : f.Fits true)
    (hop : f.op ≠ .binary) {n : ℕ} {faulty' : Bool}
    (hf : faulty' = false →
      s.faulty = false ∧ f.bytes.length ≤ n ∧ (f.op = .close → s.pumping = false)) :
    Sound L { s with down := s.down.write f.bytes n, faulty := faulty' } := by
  have h' := h.failed fun hok => (hf hok).1
  refine { h' with roles := h.roles, down := fun hr => ?_ }
  have hhop := h.down hr
  rw [hbroken] at hhop
  rw [← h.roles.2] at hfit
  -- a control frame carries nothing of what the receiver is to read
  have hwritten := hhop.write hfit (fun hbin => absurd hbin hop) n
    (fun hw => ⟨hw, fun hbin => absurd hbin hop⟩)
    (fun hok hor => hor.elim id fun hclose => by rw [(hf hok).2.2 hclose]; rfl)
    fun hok => ⟨(hf hok).1, (hf hok).2.1, fun hbin => absurd hbin hop⟩
  have hnone : f.data = [] := if_neg hop
  rw [hnone, List.append_nil] at hwritten
  dsimp only
  rw [write_broken hbroken]
  exact hwritten

theorem ok_of_or {b : Bool} {c : Prop} [Decidable c] (h : (b || decide c) = false) :
    b = false ∧ ¬ c :=
  (Bool.or_eq_false_iff.mp h).imp_right decide_eq_false_iff_not.mp

theorem data_ok_of_or {f : WSFrame} {n : ℕ}
    (h : (s.faulty || decide (n < f.bytes.length ∨ s.closed = true)) = false) :
    s.faulty = false ∧ f.bytes.length ≤ n ∧ (f.op = .binary → s.closed = false) := by
  obtain ⟨hno, hor⟩ := ok_of_or h
  rw [not_or, not_lt, Bool.not_eq_true] at hor
  exact ⟨hno, hor.1, fun _ => hor.2⟩

/-- **The relay forwards** what it has read, or finds that it is too much. In the first case the
chunk moves from one hop to the other. In the second the relay stops, and more than the ceiling
was written. -/
theorem pump (h : s.Sound L) (hc : s.Counted L) (hp : s.pumping = true)
    (hbroken : s.down.broken = false) {k n : ℕ} (hk : k ≤ min pumpBuffer s.src.rem)
    (hlen : k ≤ s.up.bytes.length) : (s.pump L k n).Sound L := by
  have hread := (h.up hp).read_data (le_trans hk (min_le_right _ _)) hlen
  unfold Pipe.pump
  dsimp only
  split_ifs with hover
  · -- the counter passes the ceiling, so the sender has been given more than that
    refine { h with
      roles := h.roles, up := nofun, pumping := fun _ => .inr (.inl ?_)
      down := fun hr => (h.down hr).weaken nofun (fun _ => rfl) id
      receiving := fun hok => (h.receiving hok).imp_right fun hend => ⟨rfl, hend.2⟩ }
    have hle := hread.read_le.length_le
    rw [List.length_append, Counted.length_chunk hlen, ← hc.total hp] at hle
    dsimp only
    omega
  · set f := downFrame (s.src.unmask (s.up.bytes.take k)) with hf
    have hfit : f.Fits s.dst.client := by
      rw [h.roles.2]
      refine ⟨rfl, ?_, fun hop => absurd rfl hop⟩
      have hbuf := le_trans hk (min_le_left _ _)
      change (s.src.unmask (s.up.bytes.take k)).length ≤ maxWSPayload
      rw [Counted.length_chunk hlen]
      unfold pumpBuffer at hbuf
      unfold maxWSPayload
      omega
    have hok : (s.faulty || decide (n < f.bytes.length)) = false →
        s.faulty = false ∧ f.bytes.length ≤ n := fun hb => (ok_of_or hb).imp_right not_lt.mp
    constructor
    case roles => exact h.roles
    case small => exact h.small
    case body => exact h.body
    case given => exact h.given
    case givenAll => exact fun hor => h.givenAll (hor.imp_right fun hb => (hok hb).1)
    case up => exact fun _ => hread.weaken id id fun hb => (hok hb).1
    case forwarded => exact hread.read_le
    case pumping =>
      intro hb
      exact .inl (decide_eq_true (hok hb).2)
    case down =>
      intro hr
      have hhop := h.down hr
      rw [hbroken, hp] at hhop
      dsimp only
      rw [write_broken hbroken]
      exact hhop.write hfit (fun _ => rfl) n (fun hw => ⟨rfl, fun _ => of_decide_eq_true hw⟩)
        (fun _ hor => hor.elim nofun nofun) fun hb => ⟨(hok hb).1, (hok hb).2, fun _ => rfl⟩
    case recv => exact h.recv
    case received => exact h.received.trans (List.prefix_append _ _)
    case sizes => exact h.sizes
    case receiving =>
      -- the relay pumps, so the receiver has not stopped
      intro hb
      refine (h.receiving (hok hb).1).imp_right fun hend => ?_
      rw [hp] at hend
      exact absurd hend.1 nofun

theorem client_of_moved {r r' : Reader} {bs rest : List UInt8} {pongOk : Bool}
    (hadv : r.advance bs pongOk = .moved r' rest) : r'.client = r.client := by
  unfold Reader.advance at hadv
  split at hadv
  · exact absurd hadv nofun
  · exact absurd hadv nofun
  · cases hadv
    rfl
  · split_ifs at hadv
    cases hadv
    rfl
  · cases hadv
    rfl
  · exact absurd hadv nofun

/-- **The relay goes on to the next frame**, or stops. It stops at something that failed or at the
close frame of the sender, and in the latter case it has forwarded everything. -/
theorem pump_frame (h : s.Sound L) {pongOk : Bool}
    (hnext : s.next L (.pumpFrame pongOk) = some s') : s'.Sound L := by
  obtain ⟨hp, hrem, ⟨hadv, rfl⟩ | ⟨r, rest, hadv, rfl⟩⟩ := next_pumpFrame hnext
  · exact h.stop_pump fun hok => ⟨(Bool.or_eq_false_iff.mp hok).1, (h.up hp).stopped hrem hok hadv⟩
  · have h' : Sound L { s with faulty := s.faulty || !pongOk } :=
      h.failed fun hok => (Bool.or_eq_false_iff.mp hok).1
    exact { h' with
      roles := ⟨(client_of_moved hadv).trans h.roles.1, h.roles.2⟩
      up := fun hp => ((h'.up hp).moved hrem hadv).1 }

/-- **The receiver goes on to the next frame**, or stops. It stops at something that failed or at
the close frame of the relay, and in the latter case it has everything that was forwarded. -/
theorem recv_frame (h : s.Sound L) {pongOk : Bool}
    (hnext : s.next L (.recvFrame pongOk) = some s') : s'.Sound L := by
  obtain ⟨hr, hrem, ⟨hadv, rfl⟩ | ⟨r, rest, hadv, rfl⟩⟩ := next_recvFrame hnext
  · refine h.stop_recv fun hok => ⟨(Bool.or_eq_false_iff.mp hok).1, ?_⟩
    exact ((h.down hr).stopped hrem hok hadv).imp_left (Bool.not_eq_true' _).mp
  · have h' : Sound L { s with faulty := s.faulty || !pongOk } :=
      h.failed fun hok => (Bool.or_eq_false_iff.mp hok).1
    exact { h' with
      roles := ⟨h.roles.1, (client_of_moved hadv).trans h.roles.2⟩
      down := fun hr => ((h'.down hr).moved hrem hadv).1 }

/-- **The receiver reads** bytes of a frame, or the last of them. By `header_le` it never finds a
frame that is too large, so the branch that gives up is not taken in a tidy run. -/
theorem recv_read (h : s.Sound L) (hnext : s.next L .recvRead = some s') : s'.Sound L := by
  simp only [next] at hnext
  split_ifs at hnext with hguard
  obtain ⟨hr, -, hlen⟩ := hguard
  have hread := (h.down hr).read_data (min_le_right s.recv.want _) hlen
  set k := min s.recv.want s.dst.rem with hk
  set chunk := s.dst.unmask (s.down.bytes.take k) with hchunk
  have hbs : chunk.length ≤ s.recv.want := by
    rw [hchunk, Stream.length_unmask, List.length_take]
    omega
  have hspec := Recv.push_spec h.recv hbs
  rw [List.append_assoc] at hread
  split at hnext
  · next r hpush =>
    cases hnext
    rw [hpush] at hspec
    obtain ⟨hsound, hgot⟩ := hspec
    rw [← hgot] at hread
    exact { h with
      roles := h.roles, down := fun _ => hread, recv := hsound, receiving := fun _ => .inl hr }
  · next p hpush =>
    cases hnext
    rw [hpush] at hspec
    obtain ⟨hp, hframe⟩ := hspec
    have hframes : (s.received ++ [p]).flatMap frame =
        s.received.flatMap frame ++ (s.recv.got ++ chunk) := by
      rw [List.flatMap_append, List.flatMap_singleton, hframe]
    refine { h with
      roles := h.roles, down := fun _ => ?_, recv := Nat.succ_pos 3
      received := ?_, sizes := fun q hq => ?_, receiving := fun _ => .inl hr }
    · dsimp only
      rw [hframes]
      change Hop _ _ (s.received.flatMap frame ++ (s.recv.got ++ chunk) ++ []) _ _ _ _ _
      rw [List.append_nil]
      exact hread
    · rw [hframes]
      exact hread.read_le
    · rcases List.mem_append.mp hq with hq | hq
      · exact h.sizes q hq
      · rw [List.mem_singleton.mp hq]
        exact hp
  · next hpush =>
    -- the header is that of a frame that was sent
    rw [hpush] at hspec
    have hsmall := h.header_le hspec.1 hread.read_le
    exact absurd hspec.2 (by omega)

theorem fits_upFrame (key : MaskKey) {bs : List UInt8} (hbs : bs.length ≤ maxFrameSize) :
    (upFrame key bs).Fits false := by
  refine ⟨rfl, ?_, fun hop => absurd rfl hop⟩
  change bs.length ≤ maxWSPayload
  unfold maxFrameSize at hbs
  unfold maxWSPayload
  omega

theorem fits_controlFrame (op : Opcode) (key : Option MaskKey) (payload : List UInt8)
    {client : Bool}
    (hkey : key.isSome = !client) : (controlFrame op key payload).Fits client := by
  have hlen : (controlFrame op key payload).payload.length ≤ maxControlPayload :=
    List.length_take_le _ _
  refine ⟨hkey, ?_, fun _ => hlen⟩
  unfold maxControlPayload at hlen
  unfold maxWSPayload
  omega

/-- **`Send` writes its header.** If the write succeeds the payload is still to come, so what was
given and the payload are together all that was sent. An empty payload is not written, and then
the header is all. -/
theorem send (h : s.Sound L) (hbroken : s.up.broken = false) (hsending : s.sending = true)
    (hbody : s.body = none) {p : List UInt8} (hp : p.length ≤ maxFrameSize) (key : MaskKey)
    (n : ℕ) :
    Sound L { s with
      sent := s.sent ++ [p]
      out := s.out ++ beBytes 4 p.length
      up := s.up.write (upFrame key (beBytes 4 p.length)).bytes n
      body := if (upFrame key (beBytes 4 p.length)).bytes.length ≤ n ∧ p ≠ [] then some p else none
      sending := decide ((upFrame key (beBytes 4 p.length)).bytes.length ≤ n)
      faulty := s.faulty ||
        decide (n < (upFrame key (beBytes 4 p.length)).bytes.length ∨ s.closed = true) } := by
  have hall := h.givenAll (.inl hsending)
  rw [hbody] at hall
  have hout : s.out = s.sent.flatMap frame := (List.append_nil s.out).symm.trans hall
  have hsent : (s.sent ++ [p]).flatMap frame = s.out ++ beBytes 4 p.length ++ p := by
    rw [List.flatMap_append, List.flatMap_singleton, ← hout, List.append_assoc]
    rfl
  have hsize : (beBytes 4 p.length).length ≤ maxFrameSize := by
    rw [length_beBytes]
    decide
  apply h.write_up hbroken (fits_upFrame key hsize) (fun _ => hsending) rfl
  · exact fun hw => ⟨hsending, fun _ => of_decide_eq_true hw⟩
  · exact fun hor => hor.elim id nofun
  · exact data_ok_of_or
  · intro q hq
    rcases List.mem_append.mp hq with hq | hq
    · exact h.small q hq
    · rw [List.mem_singleton.mp hq]
      exact hp
  · intro q hq
    split_ifs at hq with hwritten
    cases hq
    exact ⟨hp, decide_eq_true hwritten.1⟩
  · rw [hsent]
    split_ifs
    · exact List.prefix_refl _
    · rw [Option.getD_none, List.append_nil]
      exact List.prefix_append _ _
  · intro hor
    have hwritten : (upFrame key (beBytes 4 p.length)).bytes.length ≤ n :=
      hor.elim of_decide_eq_true fun hok => (data_ok_of_or (f := upFrame key _) hok).2.1
    rw [hsent]
    by_cases hnil : p = []
    · rw [if_neg (fun hc => hc.2 hnil), hnil]
      rfl
    · rw [if_pos ⟨hwritten, hnil⟩]
      rfl

/-- **`Send` writes its payload.** What was promised by the header is now given, or the write has
failed and `sending` is over. -/
theorem send_body (h : s.Sound L) (hbroken : s.up.broken = false) {p : List UInt8}
    (hbody : s.body = some p) (key : MaskKey) (n : ℕ) :
    Sound L { s with
      out := s.out ++ p
      up := s.up.write (upFrame key p).bytes n
      body := none
      sending := decide ((upFrame key p).bytes.length ≤ n)
      faulty := s.faulty || decide (n < (upFrame key p).bytes.length ∨ s.closed = true) } := by
  obtain ⟨hp, hsending⟩ := h.body p hbody
  have hall := h.givenAll (.inl hsending)
  rw [hbody] at hall
  have hsent : s.out ++ p ++ [] = s.sent.flatMap frame := (List.append_nil _).trans hall
  apply h.write_up hbroken (fits_upFrame key hp) (fun _ => hsending) rfl
  · exact fun hw => ⟨hsending, fun _ => of_decide_eq_true hw⟩
  · exact fun hor => hor.elim id nofun
  · exact data_ok_of_or
  · exact h.small
  · exact nofun
  · exact hsent ▸ List.prefix_refl _
  · exact fun _ => hsent

/-- **Every tidy step** keeps it. The case split is over the actions, and each case is one of the
lemmas above; only the steps that leave the state as it was are closed here. -/
theorem step (h : s.Sound L) (hc : s.Counted L) (hstep : StepTidy L s a s') : s'.Sound L := by
  obtain ⟨hnext, htidy⟩ := hstep
  cases a with
  | send p key n =>
    simp only [next] at hnext
    by_cases hguard : s.sending = true ∧ s.body = none
    · rw [if_pos hguard] at hnext
      by_cases hlarge : p.length > maxFrameSize
      · -- the frame is refused, and nothing is written
        rw [if_pos hlarge] at hnext
        cases hnext
        refine { h with
          roles := h.roles, body := fun q hq => ?_, givenAll := fun _ => h.givenAll (.inl hguard.1)
          up := fun hp => (h.up hp).weaken nofun id id }
        rw [hguard.2] at hq
        exact absurd hq nofun
      · rw [if_neg hlarge] at hnext
        cases hnext
        exact h.send htidy hguard.1 hguard.2 (not_lt.mp hlarge) key n
    · rw [if_neg hguard] at hnext
      exact absurd hnext nofun
  | body key n =>
    simp only [next] at hnext
    split at hnext
    · next p hbody =>
      cases hnext
      exact h.send_body htidy hbody key n
    · exact absurd hnext nofun
  | upControl op payload key n =>
    simp only [next] at hnext
    split_ifs at hnext with hop
    cases hnext
    have hdata : (controlFrame op (some key) payload).data = [] := if_neg hop
    have hnone : s.out = s.out ++ (controlFrame op (some key) payload).data := by
      rw [hdata, List.append_nil]
    refine h.write_up htidy (fits_controlFrame op _ payload rfl) (fun hbin => absurd hbin hop) hnone
      (fun hw => ⟨hw, fun hbin => absurd hbin hop⟩) (fun hor => ?_) (fun hok => ?_) h.small h.body
      h.given fun hor => h.givenAll (hor.imp_right fun hok => (ok_of_or hok).1)
    · rw [Bool.or_eq_true, decide_eq_true_iff]
      exact hor
    · exact ⟨(ok_of_or hok).1, not_lt.mp (ok_of_or hok).2, fun hbin => absurd hbin hop⟩
  | pumpFrame pongOk => exact h.pump_frame hnext
  | pumpRead n =>
    simp only [next] at hnext
    split_ifs at hnext with hguard
    cases hnext
    exact h.pump hc hguard.1 htidy le_rfl hguard.2.2
  | pumpFail k n =>
    simp only [next] at hnext
    by_cases hguard : s.pumping = true ∧ k ≤ min pumpBuffer s.src.rem ∧ k ≤ s.up.bytes.length
    · rw [if_pos hguard] at hnext
      cases hnext
      have hread : Sound L (if k = 0 then s else s.pump L k n) := by
        split_ifs
        · exact h
        · exact h.pump hc hguard.1 htidy hguard.2.1 hguard.2.2
      exact hread.stop_pump nofun
    · rw [if_neg hguard] at hnext
      exact absurd hnext nofun
  | downControl op payload n =>
    simp only [next] at hnext
    split_ifs at hnext with hop
    cases hnext
    refine h.write_down htidy (fits_controlFrame op none payload rfl) hop fun hok => ?_
    obtain ⟨hno, hor⟩ := ok_of_or hok
    exact ⟨hno, not_lt.mp fun hlt => hor (.inl hlt),
      fun hclose => Bool.not_eq_true _ ▸ fun hp => hor (.inr ⟨hclose, hp⟩)⟩
  | recvFrame pongOk => exact h.recv_frame hnext
  | recvRead => exact h.recv_read hnext
  | recvFail =>
    simp only [next] at hnext
    split_ifs at hnext
    cases hnext
    exact h.stop_recv nofun

end Sound

/-! ## Everything arrives -/

/-- What there is left to do for the relay and the receiver: a byte that is forwarded alone has ten
bytes of header at most, and each of the two stops once. -/
def work (s : Pipe) : ℕ :=
  12 * s.up.bytes.length + s.down.bytes.length + s.pumping.toNat + s.receiving.toNat

theorem sent_of_deliver (hstep : StepDeliver L s a s') : s'.sent = s.sent ∧ s'.body = s.body := by
  obtain ⟨hnext, hdel, -⟩ := hstep
  match a, hdel with
  | .pumpFrame true, _ =>
    obtain ⟨-, -, ⟨-, rfl⟩ | ⟨r, rest, -, rfl⟩⟩ := next_pumpFrame hnext <;> exact ⟨rfl, rfl⟩
  | .pumpRead n, _ =>
    simp only [next] at hnext
    split_ifs at hnext
    cases hnext
    unfold Pipe.pump
    dsimp only
    split_ifs <;> exact ⟨rfl, rfl⟩
  | .recvFrame true, _ =>
    obtain ⟨-, -, ⟨-, rfl⟩ | ⟨r, rest, -, rfl⟩⟩ := next_recvFrame hnext <;> exact ⟨rfl, rfl⟩
  | .recvRead, _ =>
    simp only [next] at hnext
    split_ifs at hnext
    split at hnext <;> cases hnext <;> exact ⟨rfl, rfl⟩

namespace Sound

theorem tidy_of_deliver (h : s.Sound L) (hok : s.faulty = false) (hstep : StepDeliver L s a s') :
    StepTidy L s a s' := by
  obtain ⟨hnext, hdel, -⟩ := hstep
  refine ⟨hnext, ?_⟩
  match a, hdel with
  | .pumpFrame true, _ | .recvFrame true, _ | .recvRead, _ => trivial
  | .pumpRead n, _ =>
    simp only [next] at hnext
    split_ifs at hnext with hguard
    -- the relay pumps, so it has not closed, and the receiver is there
    have hr : s.receiving = true := (h.receiving hok).resolve_right fun hend =>
      absurd (hguard.1.symm.trans hend.1) nofun
    have hdown := h.down hr
    rw [hok] at hdown
    exact hdown.not_broken

/-- **Every delivery leaves less to do.** A byte at the relay counts twelve times: forwarded alone
it becomes a frame of eleven bytes at most. Whoever stops counts for one. -/
theorem work_lt (h : s.Sound L) (hstep : StepDeliver L s a s') :
    s'.work < s.work := by
  obtain ⟨hnext, hdel, -⟩ := hstep
  match a, hdel with
  | .pumpFrame true, _ =>
    obtain ⟨hon, hrem, ⟨hadv, rfl⟩ | ⟨r, rest, hadv, rfl⟩⟩ := next_pumpFrame hnext
    · simp [work, hon]
    · have hlt := ((h.up hon).moved hrem hadv).2
      unfold work
      dsimp only
      omega
  | .pumpRead n, _ =>
    simp only [next] at hnext
    split_ifs at hnext with hguard
    cases hnext
    obtain ⟨hon, hrem, hlen⟩ := hguard
    have hpos : 0 < min pumpBuffer s.src.rem := lt_min (by decide) hrem
    set k := min pumpBuffer s.src.rem with hk
    unfold Pipe.pump work
    rw [hon]
    dsimp only
    split_ifs with hover
    · dsimp only
      rw [List.length_drop, Bool.toNat_true, Bool.toNat_false]
      omega
    · -- `k` bytes are taken from one connection, and at most ten more are put on the other
      have hframe := WSFrame.length_bytes_le (f := downFrame (s.src.unmask (s.up.bytes.take k))) rfl
      have hchunk : (downFrame (s.src.unmask (s.up.bytes.take k))).payload.length = k :=
        Counted.length_chunk hlen
      have hwritten := List.length_take_le' n (downFrame (s.src.unmask (s.up.bytes.take k))).bytes
      have hgoes := Bool.toNat_le
        (decide ((downFrame (s.src.unmask (s.up.bytes.take k))).bytes.length ≤ n))
      dsimp only [Wire.write]
      rw [List.length_drop, List.length_append, Bool.toNat_true]
      omega
  | .recvFrame true, _ =>
    obtain ⟨hon, hrem, ⟨hadv, rfl⟩ | ⟨r, rest, hadv, rfl⟩⟩ := next_recvFrame hnext
    · simp [work, hon]
    · have hlt := ((h.down hon).moved hrem hadv).2
      unfold work
      dsimp only
      omega
  | .recvRead, _ =>
    simp only [next] at hnext
    split_ifs at hnext with hguard
    obtain ⟨hr, hrem, hlen⟩ := hguard
    have hpos : 0 < min s.recv.want s.dst.rem := lt_min (Recv.want_pos h.recv) hrem
    have hless : ∀ goes : Bool, 12 * s.up.bytes.length +
        (s.down.bytes.drop (min s.recv.want s.dst.rem)).length + s.pumping.toNat + goes.toNat <
        s.work := by
      intro goes
      have hgoes := Bool.toNat_le goes
      rw [List.length_drop]
      unfold work
      rw [hr, Bool.toNat_true]
      omega
    split at hnext <;> cases hnext <;> exact hless _

/-- A relay with nothing left to do has read everything that the sender has written. Otherwise the
hop would have a next frame or a byte of the current one, and a delivery would be possible. -/
theorem forwarded_of_idle (h : s.Sound L) (hok : s.faulty = false) (hp : s.pumping = true)
    (hidle : ∀ a s', ¬ StepDeliver L s a s') : s.forwarded = s.out := by
  have hup := h.up hp
  rw [hok] at hup
  by_cases hrem : s.src.rem = 0
  · rcases hadv : s.src.advance s.up.bytes true with _ | _ | ⟨r, rest⟩
    · exact hup.eq_of_blocked hrem hadv
    · exact (hup.stopped hrem rfl hadv).2
    · -- there is a next frame to go on to
      exfalso
      apply hidle (.pumpFrame true)
      refine ⟨?_, rfl, ?_⟩
      · simp only [next, if_pos (And.intro hp hrem), hadv]
        rfl
      · simp [hok]
  · -- there are bytes of a frame to read, and the write of the forwarded ones may succeed
    exfalso
    have hguard : s.pumping = true ∧ 0 < s.src.rem ∧
        min pumpBuffer s.src.rem ≤ s.up.bytes.length :=
      ⟨hp, Nat.pos_of_ne_zero hrem, le_trans (min_le_right _ _) hup.rem_le⟩
    set n := (downFrame (s.src.unmask (s.up.bytes.take (min pumpBuffer s.src.rem)))).bytes.length
      with hn
    apply hidle (.pumpRead n)
    refine ⟨by simp only [next, if_pos hguard]; rfl, rfl, ?_⟩
    unfold Pipe.pump
    dsimp only
    split_ifs
    · exact hok
    · simp [hok, hn]

/-- With no delivery left the receiver has read all that was forwarded. -/
theorem got_of_idle (h : s.Sound L) (hok : s.faulty = false)
    (hidle : ∀ a s', ¬ StepDeliver L s a s') :
    s.received.flatMap frame ++ s.recv.got = s.forwarded := by
  rcases h.receiving hok with hr | ⟨-, hall⟩
  swap
  · -- it has stopped at the relay's close frame
    exact hall
  have hdown := h.down hr
  rw [hok] at hdown
  by_cases hrem : s.dst.rem = 0
  · rcases hadv : s.dst.advance s.down.bytes true with _ | _ | ⟨r, rest⟩
    · exact hdown.eq_of_blocked hrem hadv
    · exact (hdown.stopped hrem rfl hadv).2
    · exfalso
      apply hidle (.recvFrame true)
      refine ⟨?_, rfl, ?_⟩
      · simp only [next, if_pos (And.intro hr hrem), hadv]
        rfl
      · simp [hok]
  · exfalso
    have hguard : s.receiving = true ∧ 0 < s.dst.rem ∧
        min s.recv.want s.dst.rem ≤ s.down.bytes.length :=
      ⟨hr, Nat.pos_of_ne_zero hrem, le_trans (min_le_right _ _) hdown.rem_le⟩
    obtain ⟨s', hs', hok'⟩ : ∃ s', s.next L .recvRead = some s' ∧ s'.faulty = false := by
      simp only [next, if_pos hguard]
      split <;> exact ⟨_, rfl, hok⟩
    exact hidle .recvRead s' ⟨hs', rfl, hok'⟩

/-- **A circuit in which nothing is left to do has delivered everything**, if nothing has failed
and the ceiling was not reached. The three streams are then equal, and equal streams of frames are
equal lists of payloads. -/
theorem eq_of_idle (h : s.Sound L) (hok : s.faulty = false) (hbody : s.body = none)
    (hfit : (s.sent.flatMap frame).length ≤ L) (hidle : ∀ a s', ¬ StepDeliver L s a s') :
    s.received = s.sent := by
  have hout : s.out = s.sent.flatMap frame := by
    have hall := h.givenAll (.inr hok)
    rw [hbody] at hall
    exact (List.append_nil s.out).symm.trans hall
  have hforwarded : s.forwarded = s.out := by
    rcases h.pumping hok with hp | hover | ⟨-, hall⟩
    · exact h.forwarded_of_idle hok hp hidle
    · rw [hout] at hover
      omega
    · exact hall
  have hgot := h.got_of_idle hok hidle
  obtain ⟨rest, hrest⟩ := h.prefix_sent
  rw [hforwarded, hout, ← hrest, List.flatMap_append] at hgot
  have hleft : s.recv.got = rest.flatMap frame := List.append_cancel_left hgot
  cases rest with
  | nil => rw [← hrest, List.append_nil]
  | cons p rest =>
    -- what the receiver holds is less than a frame
    exfalso
    have hp : p.length ≤ maxFrameSize :=
      h.small p (hrest ▸ List.mem_append_right _ List.mem_cons_self)
    exact Recv.got_ne_frame h.recv hp (hleft.trans List.flatMap_cons)

/-- **A run of deliveries** takes no more steps than there is work. The invariants and what was
sent are carried along, since the bound uses them at every step. -/
theorem of_deliveries (h : s.Sound L) (hc : s.Counted L) (hok : s.faulty = false)
    {acts : List PipeAct} (hrun : Run (StepDeliver L) s acts s') :
    s'.Sound L ∧ s'.Counted L ∧ s'.faulty = false ∧ s'.sent = s.sent ∧ s'.body = s.body ∧
      acts.length + s'.work ≤ s.work := by
  refine hrun.invariant_trace (fun acts t => t.Sound L ∧ t.Counted L ∧ t.faulty = false ∧
    t.sent = s.sent ∧ t.body = s.body ∧ acts.length + t.work ≤ s.work) ?_ ?_
  · exact ⟨h, hc, hok, rfl, rfl, by simp⟩
  · rintro acts t a u ⟨ht, hct, hokt, hsent, hbody, hwork⟩ hstep
    obtain ⟨hsent', hbody'⟩ := sent_of_deliver hstep
    have hlt := ht.work_lt hstep
    refine ⟨ht.step hct (ht.tidy_of_deliver hokt hstep), hct.step hstep.1, hstep.2.2,
      hsent'.trans hsent, hbody'.trans hbody, ?_⟩
    rw [List.length_append, List.length_singleton]
    omega

/-- Every delivery reduces the work, so deliveries come to an end. -/
theorem exists_idle (h : s.Sound L) (hc : s.Counted L) (hok : s.faulty = false) :
    ∃ acts t, Run (StepDeliver L) s acts t ∧ ∀ a u, ¬ StepDeliver L t a u := by
  -- by induction on what is left to do after a run
  suffices hgo : ∀ m acts t, Run (StepDeliver L) s acts t → t.work ≤ m →
      ∃ acts t, Run (StepDeliver L) s acts t ∧ ∀ a u, ¬ StepDeliver L t a u from
    hgo s.work [] s .nil le_rfl
  intro m
  induction m with
  | zero =>
    intro acts t hrun hm
    obtain ⟨ht, -, hokt, -⟩ := h.of_deliveries hc hok hrun
    refine ⟨acts, t, hrun, fun a u hstep => ?_⟩
    have hlt := ht.work_lt hstep
    omega
  | succ m ih =>
    intro acts t hrun hm
    obtain ⟨ht, -, hokt, -⟩ := h.of_deliveries hc hok hrun
    by_cases hidle : ∀ a u, ¬ StepDeliver L t a u
    · exact ⟨acts, t, hrun, hidle⟩
    · simp only [not_forall, not_not] at hidle
      obtain ⟨a, u, hstep⟩ := hidle
      have hlt := ht.work_lt hstep
      exact ih (acts ++ [a]) u (hrun.snoc hstep) (by omega)

end Sound

/-- **A relayed circuit is a transparent pipe**, as long as nothing is written on a connection
after a write that failed partway. No run forwards more than `CircuitBytes`. In a tidy run, what
is received is a prefix of what was sent. If nothing has failed and the frames fit below the
ceiling, then the relay and the receiver have only so much to do, they can get it done, and
whichever way they do it, everything has been received in the end, also when the sender has
closed by then, and the relay after it. -/
theorem circuit_transparent {acts : List PipeAct} (hrun : Run (ofNext (next L)) {} acts s) :
    s.forwarded.length ≤ L ∧
      (Run (StepTidy L) {} acts s →
        s.received <+: s.sent ∧
          (s.faulty = false → s.body = none → (s.sent.flatMap frame).length ≤ L →
            (∃ more t, Run (StepDeliver L) s more t ∧ t.received = s.sent) ∧
            ∀ more t, Run (StepDeliver L) s more t → more.length ≤ s.work ∧
              ((∀ a u, ¬ StepDeliver L t a u) → t.received = s.sent))) := by
  have hc : s.Counted L := hrun.invariant (Counted L) .start fun _ _ _ h hstep => h.step hstep
  refine ⟨hc.ceiling, fun htidy => ?_⟩
  have h : s.Sound L := (htidy.invariant (fun s => s.Sound L ∧ s.Counted L) ⟨.start, .start⟩
    fun _ _ _ h hstep => ⟨h.1.step h.2 hstep, h.2.step hstep.1⟩).1
  refine ⟨h.prefix_sent, fun hok hbody hfit => ?_⟩
  have hdone : ∀ more t, Run (StepDeliver L) s more t → more.length ≤ s.work ∧
      ((∀ a u, ¬ StepDeliver L t a u) → t.received = s.sent) := by
    intro more t hmore
    obtain ⟨ht, -, hokt, hsent, hbodyt, hwork⟩ := h.of_deliveries hc hok hmore
    refine ⟨by omega, fun hidle => ?_⟩
    rw [← hsent]
    exact ht.eq_of_idle hokt (hbodyt.trans hbody) (hsent ▸ hfit) hidle
  obtain ⟨more, t, hmore, hidle⟩ := h.exists_idle hc hok
  exact ⟨⟨more, t, hmore, (hdone more t hmore).2 hidle⟩, hdone⟩

def someKey : MaskKey := ⟨[1, 2, 3, 4], rfl⟩

/-- A frame of one byte is sent and the sender closes; the header of the frame has come through. -/
def underwayActs : List PipeAct :=
  [.send [65] someKey 100, .body someKey 100, .upControl .close [0x03, 0xE8] someKey 100,
    .pumpFrame true, .pumpRead 100, .recvFrame true, .recvRead]

/-- A frame of one byte is underway, the sender has closed, and only the header has come through.
The rest of it can be delivered. -/
theorem circuit_transparent_underway :
    ∃ s, Run (StepTidy 1000) {} underwayActs s ∧
      (s.faulty = false ∧ s.body = none ∧ s.closed = true ∧ s.sent = [[65]] ∧ s.received = []) ∧
      s.forwarded.length ≤ 1000 ∧
      ∃ more t, Run (StepDeliver 1000) s more t ∧ t.received = [[65]] := by
  obtain ⟨s, htidy, hs⟩ : ∃ s, Run (StepTidy 1000) {} underwayActs s ∧
      (s.faulty = false ∧ s.body = none ∧ s.closed = true ∧ s.sent = [[65]] ∧ s.received = []) :=
    exists_run_guarded _ (by decide)
  have hfit : (s.sent.flatMap frame).length ≤ 1000 := by
    rw [hs.2.2.2.1]
    decide
  obtain ⟨hceiling, hpipe⟩ := circuit_transparent (htidy.mono fun _ _ _ hstep => hstep.1)
  have hdone := ((hpipe htidy).2 hs.1 hs.2.1 hfit).1
  rw [hs.2.2.2.1] at hdone
  exact ⟨s, htidy, hs, hceiling, hdone⟩

/-- The write of the payload fails one byte short, and the close frame of `Close` follows. -/
def closingActs : List PipeAct :=
  [.send [65] someKey 100, .body someKey 6, .upControl .close [0x03, 0xE8] someKey 100,
    .pumpFrame true, .pumpRead 100, .pumpFrame true, .pumpRead 100, .recvFrame true, .recvRead,
    .recvFrame true, .recvRead]

/-- An untidy run. The write of the payload breaks off and the close frame is written behind what
there is of it, so the relay takes the first byte of the close frame for the payload. -/
theorem closed_into_payload :
    ∃ s, Run (ofNext (next 1000)) {} closingActs s ∧
      (s.sent = [[65]] ∧ s.received = [[0x88 ^^^ 1]] ∧ ¬ s.received <+: s.sent) :=
  exists_run_of_any (fun s : Pipe => s.sent = [[65]] ∧ s.received = [[0x88 ^^^ 1]] ∧
    ¬ s.received <+: s.sent) (by decide)

end Pipe

end Heimdall.Circuits
