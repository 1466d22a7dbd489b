/-
What a step of the relay can do.

`Server.next` follows the source; `Effect` says what comes out of it, action by action, as far as
circuits, tickets and handlers are concerned. The pending codes and the connections per address
are left open, because no invariant of the circuits depends on them. All invariants are read off
`Effect`.
-/
import Heimdall.Relay

set_option autoImplicit false

namespace Heimdall.Relay

open Heimdall.Peers (GoString)

/-- Handler `h` goes to `pc` and the others stay where they are. Connections are closed only by
leaving, and those in `also`. -/
structure Moves (hs hs' : Heap Handler) (h : ℕ) (pc : Pc) (also : Set ℕ) : Prop where
  next : hs'.next = hs.next
  pc_self : (hs'.get h).pc = pc
  pc_other : ∀ x, x ≠ h → (hs'.get x).pc = (hs.get x).pc
  shut : ∀ x, (hs'.get x).shut = true → (hs.get x).shut = true ∨ (x = h ∧ pc = .gone) ∨ x ∈ also

section Moves

variable {hs hs' : Heap Handler} {h : ℕ} {pc : Pc} {also : Set ℕ}

/-- A change of one handler's record is a move of that handler. The side condition is the one
thing a record could break: a connection that the change closes must be one whose handler leaves
with it. -/
theorem Moves.of_modify (hs : Heap Handler) (h : ℕ) (f : Handler → Handler)
    (hshut : (f (hs.get h)).shut = true → (hs.get h).shut = true ∨ (f (hs.get h)).pc = .gone) :
    Moves hs (hs.modify h f) h (f (hs.get h)).pc ∅ where
  next := rfl
  pc_self := by rw [Heap.get_modify_self]
  pc_other x hx := by rw [Heap.get_modify_of_ne _ _ hx]
  shut x := by
    by_cases hx : x = h
    · subst hx
      rw [Heap.get_modify_self]
      intro hs'
      exact (hshut hs').imp_right fun hpc => .inl ⟨rfl, hpc⟩
    · rw [Heap.get_modify_of_ne _ _ hx]
      exact Or.inl

/-- A move after a change of the records in which no handler moves. Closing a connection is such a
change, so this is how a step that closes connections and then moves its handler becomes one move,
with the closed ones in `also`. -/
theorem Moves.after {hs₀ : Heap Handler} (hm : Moves hs hs' h pc ∅) (hnext : hs.next = hs₀.next)
    (hpc : ∀ x, (hs.get x).pc = (hs₀.get x).pc)
    (hshut : ∀ x, (hs.get x).shut = true →
      (hs₀.get x).shut = true ∨ (x = h ∧ pc = .gone) ∨ x ∈ also) :
    Moves hs₀ hs' h pc also where
  next := hm.next.trans hnext
  pc_self := hm.pc_self
  pc_other x hx := (hm.pc_other x hx).trans (hpc x)
  shut x hx := by
    rcases hm.shut x hx with hx | hx | hx
    · exact hshut x hx
    · exact .inr (.inl hx)
    · exact absurd hx (Set.notMem_empty x)

/-- Where a handler is after the move. Every invariant below asks this of some handler, and the
two cases are all it has to look at. -/
theorem Moves.cases (hm : Moves hs hs' h pc also) (x : ℕ) :
    (x = h ∧ (hs'.get x).pc = pc) ∨ (x ≠ h ∧ (hs'.get x).pc = (hs.get x).pc) := by
  by_cases hx : x = h
  · subst hx
    exact .inl ⟨rfl, hm.pc_self⟩
  · exact .inr ⟨hx, hm.pc_other x hx⟩

/-- A handler that is not where the moving one went was there before. Invariants use it to go back
in time: whoever holds a ticket or a side after the step held it before, unless the step gave it
away. -/
theorem Moves.pc_of {x : ℕ} {q : Pc} (hm : Moves hs hs' h pc also) (hx : (hs'.get x).pc = q)
    (hq : q ≠ pc) : (hs.get x).pc = q := by
  rcases hm.cases x with ⟨-, hx'⟩ | ⟨-, hx'⟩
  · exact absurd (hx.symm.trans hx') hq
  · exact hx'.symm.trans hx

end Moves

namespace Server

/-! ## What the functions leave alone

The functions on the tables are followed through once, here. `finish`, `releaseOnce` and `endSplice`
are written out as record updates, so that the proofs below see which fields they touch and which
not. -/

variable (L : Limits) (s : Server)

variable {L s} in
/-- A code is filed exactly when the table is not full. An entry that is there for it is
overwritten, with the new connection as its owner and a new time. -/
theorem addPending_eq_true {rid : GoString} {h : ℕ} {t : Server} :
    s.addPending L rid h = (true, t) ↔ s.pending.keys.length < L.maxPendingCodes ∧
      t = { s with pending := s.pending.insert rid ⟨h, s.now⟩ } := by
  unfold addPending
  split_ifs with hfull
  · exact ⟨fun hc => absurd (Prod.mk.inj hc).1 (by simp), fun hc => absurd hc.1 (by omega)⟩
  · rw [Prod.mk.injEq, eq_comm (a := t)]
    exact and_congr_left fun _ => ⟨fun _ => by omega, fun _ => rfl⟩

variable {L s} in
theorem addPending_eq_false {rid : GoString} {h : ℕ} {t : Server}
    (hno : s.addPending L rid h = (false, t)) : t = s := by
  unfold addPending at hno
  split_ifs at hno
  · exact (Prod.mk.inj hno).2.symm
  · exact absurd (Prod.mk.inj hno).1 (by simp)

theorem foldl_dropPending (rids : List GoString) (h : ℕ) (s : Server) :
    ∃ p, rids.foldl (fun t rid => t.dropPending rid h) s = { s with pending := p } := by
  induction rids generalizing s with
  | nil => exact ⟨s.pending, rfl⟩
  | cons rid rids ih =>
    have hone : ∃ p, s.dropPending rid h = { s with pending := p } := by
      unfold dropPending
      split
      · split_ifs
        · exact ⟨_, rfl⟩
        · exact ⟨s.pending, rfl⟩
      · exact ⟨s.pending, rfl⟩
    obtain ⟨p, hp⟩ := hone
    obtain ⟨q, hq⟩ := ih { s with pending := p }
    rw [List.foldl_cons, hp]
    exact ⟨q, hq⟩

/-- A handler that returns leaves the circuits and the tickets alone. What it does to the pending
codes and to the connections per address is not spelled out: `RelayTraffic` is about that. -/
theorem finish_eq (h : ℕ) : s.finish h =
    { s with
      pending := (s.finish h).pending
      ipConns := (s.finish h).ipConns
      handler := s.handler.modify h fun x => { x with pc := .gone, shut := true } } := by
  obtain ⟨p, hp⟩ := foldl_dropPending (s.handler.get h).published h s
  rw [finish, hp]
  rfl

theorem moves_leave (hs : Heap Handler) (h : ℕ) :
    Moves hs (hs.modify h fun x => { x with pc := .gone, shut := true }) h .gone ∅ :=
  Moves.of_modify hs h (fun x => { x with pc := .gone, shut := true }) fun _ => .inr rfl

theorem moves_setPc (h : ℕ) (pc : Pc) : Moves s.handler (s.setPc h pc).handler h pc ∅ :=
  Moves.of_modify s.handler h (fun x => { x with pc := pc }) Or.inl

theorem closeConn_pc (h x : ℕ) : ((s.closeConn h).handler.get x).pc = (s.handler.get x).pc :=
  Heap.get_modify_congr s.handler (fun x => { x with shut := true }) (fun _ => rfl) x

theorem closeConn_shut {h x : ℕ} (hx : ((s.closeConn h).handler.get x).shut = true) :
    (s.handler.get x).shut = true ∨ x = h := by
  by_cases hxh : x = h
  · exact .inr hxh
  · left
    rw [closeConn] at hx
    dsimp only at hx
    rwa [Heap.get_modify_of_ne _ _ hxh] at hx

/-- A handler that closes its connection and leaves, as the first half of a circuit does when it
gives up. It is a plain move, since a handler that leaves has its connection closed anyway. -/
theorem moves_close_leave (h : ℕ) : Moves s.handler ((s.closeConn h).handler.modify h
    fun x => { x with pc := .gone, shut := true }) h .gone ∅ := by
  apply Moves.after (moves_leave (s.closeConn h).handler h)
  · rfl
  · exact s.closeConn_pc h
  · intro x hx
    exact (s.closeConn_shut hx).imp_right fun hxh => .inl ⟨hxh, rfl⟩

@[simp] theorem releaseOnce_tickets (c : ℕ) : (s.releaseOnce c).tickets = s.tickets := by
  unfold releaseOnce releaseCircuit
  split_ifs <;> rfl

@[simp] theorem releaseOnce_issued (c : ℕ) : (s.releaseOnce c).issued = s.issued := by
  unfold releaseOnce releaseCircuit
  split_ifs <;> rfl

@[simp] theorem releaseOnce_handler (c : ℕ) : (s.releaseOnce c).handler = s.handler := by
  unfold releaseOnce releaseCircuit
  split_ifs <;> rfl

@[simp] theorem releaseOnce_closed (c : ℕ) : (s.releaseOnce c).closed = s.closed := by
  unfold releaseOnce releaseCircuit
  split_ifs <;> rfl

@[simp] theorem releaseOnce_now (c : ℕ) : (s.releaseOnce c).now = s.now := by
  unfold releaseOnce releaseCircuit
  split_ifs <;> rfl

/-- The slot of `c` is marked as returned, and nothing else about any circuit changes. This is
true of a second call as well, which finds the mark there: the guard of `releaseOnce` only matters
for the counter. -/
theorem releaseOnce_circuit (c : ℕ) :
    (s.releaseOnce c).circuit = s.circuit.modify c fun x => { x with released := true } := by
  unfold releaseOnce releaseCircuit
  split_ifs with hrel
  · -- it was marked before
    have hsame : Function.update s.circuit.get c
        { s.circuit.get c with released := true } = s.circuit.get := by
      rw [← hrel]
      exact Function.update_eq_self c s.circuit.get
    rw [Heap.modify, hsame]
  · rfl
  · rfl

/-- `releaseOnce` does not look at the handlers, so a change of theirs can be moved past it. -/
theorem releaseOnce_of_handler (hs : Heap Handler) (c : ℕ) :
    { s with handler := hs }.releaseOnce c = { s.releaseOnce c with handler := hs } := by
  unfold releaseOnce releaseCircuit
  dsimp only
  split_ifs <;> rfl

/-- The guard of `releaseCircuit` is what subtraction does anyway: zero stays zero. -/
theorem releaseCircuit_eq : s.releaseCircuit = { s with circuits := s.circuits - 1 } := by
  unfold releaseCircuit
  split_ifs with hpos
  · rfl
  · have hzero : s.circuits - 1 = s.circuits := by omega
    rw [hzero]

def ends (c : ℕ) : Set ℕ := { x | ∃ side, (s.circuit.get c).conns side = some x }

/-- Closing an end of a circuit moves no handler, and closes no connection but that one. An end
that nobody is attached to is not there to be closed. -/
theorem closeEnd_eq (x : Option ℕ) : ∃ hs, s.closeEnd x = { s with handler := hs } ∧
    hs.next = s.handler.next ∧ (∀ y, (hs.get y).pc = (s.handler.get y).pc) ∧
    ∀ y, (hs.get y).shut = true → (s.handler.get y).shut = true ∨ x = some y := by
  rcases x with _ | x
  · exact ⟨s.handler, rfl, rfl, fun _ => rfl, fun _ => Or.inl⟩
  · refine ⟨(s.closeConn x).handler, rfl, rfl, s.closeConn_pc x, fun y hy => ?_⟩
    exact (s.closeConn_shut hy).imp_right fun hyx => congrArg some hyx.symm

/-- The end of a splice closes the two ends of the circuit, returns its slot and closes `done`.
The handlers are given by what is known of them, so that `Moves.after` applies to what the second
half does next. -/
theorem endSplice_eq (c : ℕ) : ∃ hs, s.endSplice c =
      { s.releaseOnce c with
        circuit := (s.releaseOnce c).circuit.modify c fun x => { x with done := true }
        handler := hs } ∧
    hs.next = s.handler.next ∧ (∀ y, (hs.get y).pc = (s.handler.get y).pc) ∧
    ∀ y, (hs.get y).shut = true → (s.handler.get y).shut = true ∨ y ∈ s.ends c := by
  obtain ⟨hs₁, heq₁, hnext₁, hpc₁, hshut₁⟩ := s.closeEnd_eq ((s.circuit.get c).conns true)
  obtain ⟨hs₂, heq₂, hnext₂, hpc₂, hshut₂⟩ :=
    { s with handler := hs₁ }.closeEnd_eq ((s.circuit.get c).conns false)
  refine ⟨hs₂, ?_, hnext₂.trans hnext₁, fun y => (hpc₂ y).trans (hpc₁ y), fun y hy => ?_⟩
  · rw [endSplice, heq₁, heq₂]
    dsimp only
    rw [releaseOnce_of_handler]
  · rcases hshut₂ y hy with hy | hy
    · exact (hshut₁ y hy).imp_right fun hy => ⟨true, hy⟩
    · exact .inr ⟨false, hy⟩

section Attach

variable (h c : ℕ) (side : Bool)

theorem moves_attach : Moves s.handler (s.attach h c side).handler h
    (if s.second c side then .splicing c side else .waiting c side s.now) ∅ :=
  s.moves_setPc h _

theorem attach_circuit_of_ne {d : ℕ} (hd : d ≠ c) :
    (s.attach h c side).circuit.get d = s.circuit.get d :=
  s.circuit.get_modify_of_ne (fun x => x.attach h side (s.second c side) s.now) hd

theorem attach_circuit_self : (s.attach h c side).circuit.get c =
    (s.circuit.get c).attach h side (s.second c side) s.now :=
  s.circuit.get_modify_self fun x => x.attach h side (s.second c side) s.now

theorem attach_conns {d x : ℕ} {e : Bool}
    (hx : ((s.attach h c side).circuit.get d).conns e = some x) :
    (d = c ∧ e = side ∧ x = h) ∨
      (¬ (d = c ∧ e = side) ∧ (s.circuit.get d).conns e = some x) := by
  by_cases hd : d = c
  · subst hd
    rw [attach_circuit_self, Circuit.attach] at hx
    dsimp only at hx
    by_cases he : e = side
    · subst he
      rw [Function.update_self] at hx
      exact .inl ⟨rfl, rfl, (Option.some.inj hx).symm⟩
    · rw [Function.update_of_ne he] at hx
      exact .inr ⟨fun heq => he heq.2, hx⟩
  · rw [attach_circuit_of_ne s h c side hd] at hx
    exact .inr ⟨fun heq => hd heq.1, hx⟩

theorem attach_conns_none {d : ℕ} {e : Bool} (hde : (s.circuit.get d).conns e = none)
    (hne : ¬ (d = c ∧ e = side)) : ((s.attach h c side).circuit.get d).conns e = none := by
  by_contra hsome
  obtain ⟨x, hx⟩ := Option.ne_none_iff_exists'.mp hsome
  rcases s.attach_conns h c side hx with ⟨hd, he, -⟩ | ⟨-, hx⟩
  · exact hne ⟨hd, he⟩
  · exact absurd (hde.symm.trans hx) (by simp)

/-- The ends that were there stay. At the side of `h` itself there was none: that the side is free
is part of the invariant (`Wired`), and without it `attach` would overwrite a connection. -/
theorem attach_conns_of {d x : ℕ} {e : Bool} (hfree : (s.circuit.get c).conns side = none)
    (hx : (s.circuit.get d).conns e = some x) :
    ((s.attach h c side).circuit.get d).conns e = some x := by
  by_cases hd : d = c
  · subst hd
    have he : e ≠ side := by
      rintro rfl
      rw [hfree] at hx
      exact absurd hx (by simp)
    rw [attach_circuit_self, Circuit.attach]
    dsimp only
    rw [Function.update_of_ne he, hx]
  · rw [attach_circuit_of_ne s h c side hd, hx]

theorem attach_conns_self : ((s.attach h c side).circuit.get c).conns side = some h := by
  rw [attach_circuit_self, Circuit.attach]
  exact Function.update_self _ _ _

theorem attach_started (d : ℕ) : ((s.attach h c side).circuit.get d).started = true ↔
    (s.circuit.get d).started = true ∨ (d = c ∧ s.second c side = true) := by
  by_cases hd : d = c
  · subst hd
    rw [attach_circuit_self, Circuit.attach]
    simp
  · rw [attach_circuit_of_ne s h c side hd]
    simp [hd]

theorem attach_done (d : ℕ) :
    ((s.attach h c side).circuit.get d).done = (s.circuit.get d).done :=
  s.circuit.get_modify_congr (fun x => x.attach h side (s.second c side) s.now) (fun _ => rfl) d

end Attach

/-! ## What a step has found

For each action that looks where its handler is, what it found there, and the state after it. -/

section Inversion

variable {L : Limits} {s s' : Server} {h : ℕ}

-- the lemmas below share the equations of `next`: they are made here, once
attribute [local simp] next

/-- A claim is refused, ends the connection, or takes the code and a slot. The first covers three
answers: there is no such code, it is the claimer's own, or the relay is at its ceiling. -/
theorem next_claim {rid : GoString} {sent : Bool} (hnext : s.next L (.claim h rid sent) = some s') :
    (s.handler.get h).pc = .control ∧ (s' = s ∨ s' = s.finish h ∨ (sent = true ∧
      s.circuits < L.maxCircuits ∧ ∃ p, s.pending.lookup rid = some p ∧ p.conn ≠ h ∧ s' =
        { s with
          pending := s.pending.erase rid, circuits := s.circuits + 1 }.setPc h .pairTaken)) := by
  by_cases hfrom : (s.handler.get h).pc = .control
  · refine ⟨hfrom, ?_⟩
    simp only [next, if_pos hfrom] at hnext
    rcases sent with _ | _
    · exact .inr (.inl (Option.some.inj hnext).symm)
    · rw [if_neg (by decide)] at hnext
      rcases hp : s.pending.lookup rid with _ | p
      · rw [hp] at hnext
        exact .inl (Option.some.inj hnext).symm
      · simp only [hp] at hnext
        by_cases hno : p.conn = h ∨ s.circuits ≥ L.maxCircuits
        · rw [if_pos hno] at hnext
          exact .inl (Option.some.inj hnext).symm
        · rw [if_neg hno] at hnext
          rw [not_or] at hno
          exact .inr (.inr ⟨rfl, by omega, p, rfl, hno.1, (Option.some.inj hnext).symm⟩)
  · simp [next, hfrom] at hnext

/-- A slot is given back because there were no random bytes, or two new tickets are issued for a
new circuit, the publisher's for its first side. -/
theorem next_issue {tickets : Option (ℕ × ℕ)} (hnext : s.next L (.issue h tickets) = some s') :
    (s.handler.get h).pc = .pairTaken ∧
      ((tickets = none ∧ s' = s.releaseCircuit.setPc h .control) ∨
        ∃ ta tb, tickets = some (ta, tb) ∧ ta ≠ tb ∧ ta ∉ s.issued ∧ tb ∉ s.issued ∧
          s' = { s with
            circuit := s.circuit.alloc { created := s.now }
            tickets := (s.tickets.insert ta (TicketRef.mk s.circuit.next false)).insert tb
              (TicketRef.mk s.circuit.next true)
            issued := ta :: tb :: s.issued }.setPc h (.pairIssued s.circuit.next ta tb)) := by
  simp only [next] at hnext
  split_ifs at hnext with hfrom
  refine ⟨hfrom, ?_⟩
  rcases tickets with _ | ⟨ta, tb⟩
  · exact .inl ⟨rfl, (Option.some.inj hnext).symm⟩
  · dsimp only at hnext
    split_ifs at hnext with hnew
    exact .inr ⟨ta, tb, rfl, hnew.1, hnew.2.1, hnew.2.2, (Option.some.inj hnext).symm⟩

/-- The handler is in `pair` with its tickets. If one of the two messages cannot be sent, the
circuit is dropped with both tickets; either way the handler goes back to its loop. -/
theorem next_deliver {sent : Bool} (hnext : s.next L (.deliver h sent) = some s') :
    ∃ c ta tb, (s.handler.get h).pc = .pairIssued c ta tb ∧
      s' = if sent then s.setPc h .control else (s.dropCircuit c ta tb).setPc h .control := by
  simp only [next] at hnext
  split at hnext
  · rename_i c ta tb hfrom
    exact ⟨c, ta, tb, hfrom, (Option.some.inj hnext).symm⟩
  · exact absurd hnext (by simp)

theorem next_redeem {t : ℕ} (hnext : s.next L (.redeem h t) = some s') :
    (s.handler.get h).pc = .control ∧ ((s.tickets.lookup t = none ∧ s' = s.finish h) ∨
      ∃ ref, s.tickets.lookup t = some ref ∧
        s' = { s with tickets := s.tickets.erase t }.setPc h (.redeemed ref.circuit ref.side)) := by
  simp only [next] at hnext
  split_ifs at hnext with hfrom
  refine ⟨hfrom, ?_⟩
  rcases ht : s.tickets.lookup t with _ | ref
  · rw [ht] at hnext
    exact .inl ⟨rfl, (Option.some.inj hnext).symm⟩
  · rw [ht] at hnext
    exact .inr ⟨ref, rfl, (Option.some.inj hnext).symm⟩

/-- A handler with a redeemed ticket attaches if `circuit_ok` could be sent, and is gone
otherwise. In the second case nobody has the ticket or the side any more. -/
theorem next_answer {sent : Bool} (hnext : s.next L (.answer h sent) = some s') :
    ∃ c side, (s.handler.get h).pc = .redeemed c side ∧
      s' = if sent then s.attach h c side else s.finish h := by
  simp only [next] at hnext
  split at hnext
  · rename_i c side hfrom
    exact ⟨c, side, hfrom, (Option.some.inj hnext).symm⟩
  · exact absurd hnext (by simp)

theorem next_spliceEnd (hnext : s.next L (.spliceEnd h) = some s') :
    ∃ c side, (s.handler.get h).pc = .splicing c side ∧ s.Excused L c ∧
      s' = (s.endSplice c).finish h := by
  simp only [next] at hnext
  split at hnext
  · rename_i c side hfrom
    split_ifs at hnext with hex
    exact ⟨c, side, hfrom, hex, (Option.some.inj hnext).symm⟩
  · exact absurd hnext (by simp)

theorem next_wake (hnext : s.next L (.wake h) = some s') :
    ∃ c side since, (s.handler.get h).pc = .waiting c side since ∧ (s.circuit.get c).done = true ∧
      s' = s.finish h := by
  simp only [next] at hnext
  split at hnext
  · rename_i c side since hfrom
    split_ifs at hnext with hdone
    exact ⟨c, side, since, hfrom, hdone, (Option.some.inj hnext).symm⟩
  · exact absurd hnext (by simp)

theorem next_idle (hnext : s.next L (.idle h) = some s') :
    ∃ c side since, (s.handler.get h).pc = .waiting c side since ∧
      s' = ((s.closeConn h).releaseOnce c).finish h := by
  simp only [next] at hnext
  split at hnext
  · rename_i c side since hfrom
    split_ifs at hnext
    exact ⟨c, side, since, hfrom, (Option.some.inj hnext).symm⟩
  · exact absurd hnext (by simp)

theorem next_shutdown (hnext : s.next L (.shutdown h) = some s') :
    ∃ c side since, (s.handler.get h).pc = .waiting c side since ∧ s.closed = true ∧
      s' = (s.closeConn h).finish h := by
  simp only [next] at hnext
  split at hnext
  · rename_i c side since hfrom
    split_ifs at hnext with hclosed
    exact ⟨c, side, since, hfrom, hclosed, (Option.some.inj hnext).symm⟩
  · exact absurd hnext (by simp)

end Inversion

/-! ## The effects

One constructor for each way a step can go. Tables that no invariant of the circuits depends on are
left open, as are the handlers: those are constrained by `Moves` alone. -/

/-- What an action does to circuits, tickets and handlers. -/
inductive Effect : Act → Server → Prop
  | connect {ip : GoString} {i : AList fun _ : GoString => ℕ} :
    Effect (.connect ip)
      { s with ipConns := i, handler := s.handler.alloc { ip := ip, pc := .control } }
  /-- In the control loop, and nothing comes of it but perhaps the end of the connection. -/
  | quiet {a : Act} {h : ℕ} {pc : Pc} {p : AList fun _ : GoString => PendingCode}
      {i : AList fun _ : GoString => ℕ} {hs : Heap Handler}
      (hfrom : (s.handler.get h).pc = .control) (hpc : pc = .control ∨ pc = .gone)
      (hm : Moves s.handler hs h pc ∅) :
    Effect a { s with pending := p, ipConns := i, handler := hs }
  | take {h : ℕ} {rid : GoString} {p : AList fun _ : GoString => PendingCode} {hs : Heap Handler}
      (hfrom : (s.handler.get h).pc = .control) (hroom : s.circuits < L.maxCircuits)
      (hm : Moves s.handler hs h .pairTaken ∅) :
    Effect (.claim h rid true) { s with pending := p, circuits := s.circuits + 1, handler := hs }
  | giveBack {h : ℕ} {hs : Heap Handler} (hfrom : (s.handler.get h).pc = .pairTaken)
      (hm : Moves s.handler hs h .control ∅) :
    Effect (.issue h none) { s with circuits := s.circuits - 1, handler := hs }
  | issue {h ta tb : ℕ} {hs : Heap Handler} (hfrom : (s.handler.get h).pc = .pairTaken)
      (hne : ta ≠ tb) (hta : ta ∉ s.issued) (htb : tb ∉ s.issued)
      (hm : Moves s.handler hs h (.pairIssued s.circuit.next ta tb) ∅) :
    Effect (.issue h (some (ta, tb)))
      { s with
        circuit := s.circuit.alloc { created := s.now }
        tickets := (s.tickets.insert ta (TicketRef.mk s.circuit.next false)).insert tb
          (TicketRef.mk s.circuit.next true)
        issued := ta :: tb :: s.issued
        handler := hs }
  | resume {h c ta tb : ℕ} {hs : Heap Handler}
      (hfrom : (s.handler.get h).pc = .pairIssued c ta tb) (hm : Moves s.handler hs h .control ∅) :
    Effect (.deliver h true) { s with handler := hs }
  | drop {h c ta tb : ℕ} {hs : Heap Handler}
      (hfrom : (s.handler.get h).pc = .pairIssued c ta tb) (hm : Moves s.handler hs h .control ∅) :
    Effect (.deliver h false) { s.dropCircuit c ta tb with handler := hs }
  | redeem {h t : ℕ} {ref : TicketRef} {hs : Heap Handler}
      (hfrom : (s.handler.get h).pc = .control) (ht : s.tickets.lookup t = some ref)
      (hm : Moves s.handler hs h (.redeemed ref.circuit ref.side) ∅) :
    Effect (.redeem h t) { s with tickets := s.tickets.erase t, handler := hs }
  | attach {h c : ℕ} {side : Bool} (hfrom : (s.handler.get h).pc = .redeemed c side) :
    Effect (.answer h true) (s.attach h c side)
  | fail {h c : ℕ} {side : Bool} {p : AList fun _ : GoString => PendingCode}
      {i : AList fun _ : GoString => ℕ} {hs : Heap Handler}
      (hfrom : (s.handler.get h).pc = .redeemed c side) (hm : Moves s.handler hs h .gone ∅) :
    Effect (.answer h false) { s with pending := p, ipConns := i, handler := hs }
  | pump {c : ℕ} (hstart : (s.circuit.get c).started = true) :
    Effect (.pumpEnd c) { s with circuit := s.circuit.modify c fun x =>
      { x with pumpDone := true } }
  | splice {h c : ℕ} {side : Bool} {p : AList fun _ : GoString => PendingCode}
      {i : AList fun _ : GoString => ℕ} {hs : Heap Handler}
      (hfrom : (s.handler.get h).pc = .splicing c side) (hex : s.Excused L c)
      (hm : Moves s.handler hs h .gone (s.ends c)) :
    Effect (.spliceEnd h)
      { s.releaseOnce c with
        pending := p
        ipConns := i
        circuit := (s.releaseOnce c).circuit.modify c fun x => { x with done := true }
        handler := hs }
  | wake {h c since : ℕ} {side : Bool} {p : AList fun _ : GoString => PendingCode}
      {i : AList fun _ : GoString => ℕ} {hs : Heap Handler}
      (hfrom : (s.handler.get h).pc = .waiting c side since)
      (hdone : (s.circuit.get c).done = true) (hm : Moves s.handler hs h .gone ∅) :
    Effect (.wake h) { s with pending := p, ipConns := i, handler := hs }
  | idle {h c since : ℕ} {side : Bool} {p : AList fun _ : GoString => PendingCode}
      {i : AList fun _ : GoString => ℕ} {hs : Heap Handler}
      (hfrom : (s.handler.get h).pc = .waiting c side since)
      (hm : Moves s.handler hs h .gone ∅) :
    Effect (.idle h) { s.releaseOnce c with pending := p, ipConns := i, handler := hs }
  | shutdown {h c since : ℕ} {side : Bool} {p : AList fun _ : GoString => PendingCode}
      {i : AList fun _ : GoString => ℕ} {hs : Heap Handler}
      (hfrom : (s.handler.get h).pc = .waiting c side since)
      (hclosed : s.closed = true) (hm : Moves s.handler hs h .gone ∅) :
    Effect (.shutdown h) { s with pending := p, ipConns := i, handler := hs }
  | sweep : Effect .sweep (s.reap L)
  | close : Effect .close { s with closed := true }
  | tick {dt : ℕ} : Effect (.tick dt) { s with now := s.now + dt }

variable {L s} {s' : Server} {a : Act} {h : ℕ}

/-- A handler that returns from its control loop, for whatever reason. -/
theorem Effect.finish (hfrom : (s.handler.get h).pc = .control) : Effect L s a (s.finish h) := by
  rw [finish_eq]
  exact .quiet hfrom (.inr rfl) (moves_leave s.handler h)

/-- A publish that was filed. The list of the codes a handler has published is no concern here, so
what is left is a handler that stays in its loop or, if the answer could not be sent, leaves. -/
theorem Effect.publish {rid : GoString} {p : AList fun _ : GoString => PendingCode} {sent : Bool}
    (hfrom : (s.handler.get h).pc = .control) :
    let t := { s with
      pending := p
      handler := s.handler.modify h fun x => { x with published := x.published ++ [rid] } }
    Effect L s a (if sent then t else t.finish h) := by
  intro t
  have hpc : ∀ x, (t.handler.get x).pc = (s.handler.get x).pc :=
    s.handler.get_modify_congr (fun x => { x with published := x.published ++ [rid] }) fun _ => rfl
  have hshut : ∀ x, (t.handler.get x).shut = (s.handler.get x).shut :=
    s.handler.get_modify_congr (fun x => { x with published := x.published ++ [rid] }) fun _ => rfl
  by_cases hsent : sent = true
  · rw [if_pos hsent]
    apply Effect.quiet hfrom (.inl rfl)
    exact ⟨rfl, (hpc h).trans hfrom, fun x _ => hpc x, fun x hx => .inl (hshut x ▸ hx)⟩
  · rw [if_neg hsent, finish_eq]
    apply Effect.quiet hfrom (.inr rfl)
    exact (moves_leave t.handler h).after rfl hpc fun x hx => .inl (hshut x ▸ hx)

theorem Effect.claim {rid : GoString} {sent : Bool}
    (hnext : s.next L (.claim h rid sent) = some s') : Effect L s (.claim h rid sent) s' := by
  obtain ⟨hfrom, rfl | rfl | ⟨rfl, hroom, p, -, -, rfl⟩⟩ := next_claim hnext
  · apply Effect.quiet hfrom (.inl rfl)
    exact ⟨rfl, hfrom, fun _ _ => rfl, fun _ => Or.inl⟩
  · exact .finish hfrom
  · exact .take hfrom hroom (s.moves_setPc h .pairTaken)

/-- The first half gives up. In the source it closes its connection and then returns the slot;
here the two are exchanged, which makes no difference. -/
theorem Effect.of_idle {c since : ℕ} {side : Bool}
    (hfrom : (s.handler.get h).pc = .waiting c side since) :
    Effect L s (.idle h) (((s.closeConn h).releaseOnce c).finish h) := by
  have hcomm : (s.closeConn h).releaseOnce c = (s.releaseOnce c).closeConn h := by
    rw [closeConn, releaseOnce_of_handler, closeConn, releaseOnce_handler]
  rw [hcomm, finish_eq]
  apply Effect.idle hfrom
  rw [closeConn, releaseOnce_handler]
  exact s.moves_close_leave h

theorem Effect.of_splice {c : ℕ} {side : Bool} (hfrom : (s.handler.get h).pc = .splicing c side)
    (hex : s.Excused L c) : Effect L s (.spliceEnd h) ((s.endSplice c).finish h) := by
  obtain ⟨hs, heq, hn, hpc, hshut⟩ := s.endSplice_eq c
  rw [heq, finish_eq]
  apply Effect.splice hfrom hex
  exact (moves_leave hs h).after hn hpc fun x hx => (hshut x hx).imp_right Or.inr

/-- **The effect of a step.** This is the only place where `Server.next` is taken apart for the
circuits: `RelayInv`, `RelaySlots`, `RelaySplice` and `RelayPairing` start from `Effect` and do
not unfold it. -/
theorem next_effect (hnext : s.next L a = some s') : Effect L s a s' := by
  cases a with
  | connect ip =>
    simp only [next, acquireIP] at hnext
    split_ifs at hnext
    · exact absurd hnext (by simp)
    · exact Option.some.inj hnext ▸ .connect
  | quit h =>
    simp only [next] at hnext
    split_ifs at hnext with hfrom
    exact Option.some.inj hnext ▸ .finish hfrom
  | publish h rid allowed sent =>
    by_cases hfrom : (s.handler.get h).pc = .control
    · simp only [next, if_pos hfrom] at hnext
      -- a publish that the rate limit refuses ends like one that finds the table full
      by_cases hall : allowed = false
      · rw [if_pos hall] at hnext
        exact Option.some.inj hnext ▸ .finish hfrom
      · rw [if_neg hall] at hnext
        rcases hadd : s.addPending L rid h with ⟨_ | _, t⟩
        · rw [hadd, addPending_eq_false hadd] at hnext
          exact Option.some.inj hnext ▸ .finish hfrom
        · obtain ⟨-, rfl⟩ := addPending_eq_true.mp hadd
          rw [hadd] at hnext
          exact Option.some.inj hnext ▸ .publish hfrom
    · simp [next, hfrom] at hnext
  | claim h rid sent => exact .claim hnext
  | issue h tickets =>
    obtain ⟨hfrom, ⟨rfl, rfl⟩ | ⟨ta, tb, rfl, hne, hta, htb, rfl⟩⟩ := next_issue hnext
    · rw [releaseCircuit_eq]
      exact .giveBack hfrom (s.moves_setPc h .control)
    · exact .issue hfrom hne hta htb (s.moves_setPc h _)
  | deliver h sent =>
    obtain ⟨c, ta, tb, hfrom, rfl⟩ := next_deliver hnext
    rcases sent with _ | _
    · apply Effect.drop hfrom
      rw [dropCircuit, releaseOnce_handler]
      exact s.moves_setPc h .control
    · exact .resume hfrom (s.moves_setPc h .control)
  | redeem h t =>
    obtain ⟨hfrom, ⟨-, rfl⟩ | ⟨ref, ht, rfl⟩⟩ := next_redeem hnext
    · exact .finish hfrom
    · exact .redeem hfrom ht (s.moves_setPc h _)
  | answer h sent =>
    obtain ⟨c, side, hfrom, rfl⟩ := next_answer hnext
    rcases sent with _ | _
    · rw [if_neg (by decide), finish_eq]
      exact .fail hfrom (moves_leave s.handler h)
    · exact .attach hfrom
  | pumpEnd c =>
    simp only [next] at hnext
    split_ifs at hnext with hstart
    exact Option.some.inj hnext ▸ .pump hstart
  | spliceEnd h =>
    obtain ⟨c, side, hfrom, hex, rfl⟩ := next_spliceEnd hnext
    exact .of_splice hfrom hex
  | wake h =>
    obtain ⟨c, side, since, hfrom, hdone, rfl⟩ := next_wake hnext
    rw [finish_eq]
    exact .wake hfrom hdone (moves_leave s.handler h)
  | idle h =>
    obtain ⟨c, side, since, hfrom, rfl⟩ := next_idle hnext
    exact .of_idle hfrom
  | shutdown h =>
    obtain ⟨c, side, since, hfrom, hclosed, rfl⟩ := next_shutdown hnext
    rw [finish_eq]
    exact .shutdown hfrom hclosed (s.moves_close_leave h)
  | sweep => exact Option.some.inj hnext ▸ .sweep
  | close => exact Option.some.inj hnext ▸ .close
  | tick dt => exact Option.some.inj hnext ▸ .tick

end Server

end Heimdall.Relay
