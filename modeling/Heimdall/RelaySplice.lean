/-
What may end a splice.

`splice` closes the two connections of a circuit when a pump has ended, when `CircuitLifetime` is
over or when the server is closed. It is not the only one to close them. The first half waits in
`attachCircuit` with a timer of its own, which runs from its arrival and is not stopped when the
second half arrives and the splice begins: after `CircuitIdle` it closes the connection under the
splice, however busy the splice is (`idle_closes_splice`). And a second half that arrives after
the first has given up is spliced onto a connection that is already closed.

Where neither happens, a splice is left alone (`splice_not_torn_down`).
-/
import Heimdall.RelayInv

set_option autoImplicit false

namespace Heimdall.Relay

open Heimdall.Runs

variable {L : Limits} {s s' : Server} {a : Act} {h : ℕ} {p : Pc}

/-- Connections are closed for a reason. The third field is the one that matters; the other two
are there because a splice is ended through `done`, and a handler leaves through `shut`. -/
structure Intact (L : Limits) (s : Server) : Prop where
  /-- The relay closes a connection when its handler leaves or is about to be woken. -/
  shut : ∀ x, (s.handler.get x).shut = true → (s.handler.get x).pc = .gone ∨
    ∃ c side since, (s.handler.get x).pc = .waiting c side since ∧ (s.circuit.get c).done = true
  done : ∀ c, (s.circuit.get c).done = true → s.Excused L c
  spliced : ∀ c side x, (s.circuit.get c).started = true → (s.circuit.get c).conns side = some x →
    (s.handler.get x).shut = true → s.Excused L c

theorem Server.Excused.mono {c : ℕ} (hex : s.Excused L c)
    (hpump : (s.circuit.get c).pumpDone = true → (s'.circuit.get c).pumpDone = true)
    (hstart : (s'.circuit.get c).startedAt = (s.circuit.get c).startedAt) (hnow : s.now ≤ s'.now)
    (hclosed : s.closed = true → s'.closed = true) : s'.Excused L c := by
  rcases hex with hex | hex | hex
  · exact .inl (hpump hex)
  · right; left
    rw [hstart]
    exact hex.trans hnow
  · exact .inr (.inr (hclosed hex))

/-- Why the connection of `x` is closed after a step. -/
inductive ShutFor (L : Limits) (s s' : Server) (x : ℕ) : Prop
  | before (hold : (s.handler.get x).shut = true)
      (hpc : (s'.handler.get x).pc = (s.handler.get x).pc ∨ (s'.handler.get x).pc = .gone)
  | now (hpc : (s'.handler.get x).pc = .gone ∨ ∃ c side since,
        (s'.handler.get x).pc = .waiting c side since ∧ (s'.circuit.get c).done = true)
      (hreason : ∀ c side, (s.circuit.get c).started = true →
        (s.circuit.get c).conns side = some x → s.Excused L c)

namespace Intact

theorem step_of (hi : Intact L s) (hw' : s'.Wired)
    (hshut : ∀ x, (s'.handler.get x).shut = true → ShutFor L s s' x)
    (hstarted : ∀ c, (s'.circuit.get c).started = true →
      (s.circuit.get c).started = true ∧ (s'.circuit.get c).conns = (s.circuit.get c).conns)
    (hdone : ∀ c, (s'.circuit.get c).done = true → (s.circuit.get c).done = true ∨ s.Excused L c)
    (hdone' : ∀ c, (s.circuit.get c).done = true → (s'.circuit.get c).done = true)
    (hex : ∀ c, (s'.circuit.get c).started = true → s.Excused L c → s'.Excused L c) :
    Intact L s' where
  shut x hx := by
    rcases hshut x hx with ⟨hold, hpc | hgone⟩ | ⟨hpc, -⟩
    · rcases hi.shut x hold with hgone | ⟨c, side, since, hwait, hd⟩
      · exact .inl (hpc.trans hgone)
      · exact .inr ⟨c, side, since, hpc.trans hwait, hdone' c hd⟩
    · exact .inl hgone
    · exact hpc
  done c hc := by
    apply hex c (hw'.done c hc)
    exact (hdone c hc).elim (hi.done c) id
  spliced c side x hc hconn hx := by
    obtain ⟨hstart, hconns⟩ := hstarted c hc
    rw [hconns] at hconn
    apply hex c hc
    rcases hshut x hx with ⟨hold, -⟩ | ⟨-, hreason⟩
    · exact hi.spliced c side x hstart hconn hold
    · exact hreason c side hstart hconn

theorem of_circuits (hi : Intact L s) (hw' : s'.Wired)
    (hshut : ∀ x, (s'.handler.get x).shut = true → ShutFor L s s' x)
    (hcircuit : ∀ c, ∃ r f g,
      s'.circuit.get c = { s.circuit.get c with released := r, done := f, pumpDone := g } ∧
      ((s.circuit.get c).done = true → f = true) ∧
      (f = true → (s.circuit.get c).done = true ∨ s.Excused L c) ∧
      ((s.circuit.get c).pumpDone = true → g = true))
    (hnow : s.now ≤ s'.now) (hclosed : s.closed = true → s'.closed = true) : Intact L s' := by
  apply hi.step_of hw' hshut
  · intro c hc
    obtain ⟨r, f, g, heq, -⟩ := hcircuit c
    rw [heq] at hc ⊢
    exact ⟨hc, rfl⟩
  · intro c hc
    obtain ⟨r, f, g, heq, -, hback, -⟩ := hcircuit c
    rw [heq] at hc
    exact hback hc
  · intro c hc
    obtain ⟨r, f, g, heq, hforth, -⟩ := hcircuit c
    rw [heq]
    exact hforth hc
  · intro c _ hex
    obtain ⟨r, f, g, heq, -, -, hpump⟩ := hcircuit c
    apply hex.mono
    · rw [heq]
      exact hpump
    · rw [heq]
    · exact hnow
    · exact hclosed

theorem shutFor (hi : Intact L s) (hm : Moves s.handler s'.handler h p ∅)
    (hp : p = .gone ∨ (s.handler.get h).pc.Early)
    (hreason : p = .gone → ∀ c side, (s.circuit.get c).started = true →
      (s.circuit.get c).conns side = some h → s.Excused L c) (x : ℕ)
    (hx : (s'.handler.get x).shut = true) : ShutFor L s s' x := by
  rcases hm.shut x hx with hold | ⟨rfl, rfl⟩ | hx
  · apply ShutFor.before hold
    rcases hm.cases x with ⟨rfl, hpc⟩ | ⟨-, hpc⟩
    · right
      rcases hp with rfl | hearly
      · exact hpc
      · -- a handler that has not attached has an open connection
        rcases hi.shut x hold with hg | ⟨c, side, since, hg, -⟩
        · rw [hg] at hearly
          exact absurd hearly id
        · rw [hg] at hearly
          exact absurd hearly id
    · exact .inl hpc
  · exact .now (.inl hm.pc_self) (hreason rfl)
  · exact absurd hx (Set.notMem_empty x)

theorem of_moves (hi : Intact L s) (hw' : s'.Wired) (hm : Moves s.handler s'.handler h p ∅)
    (hp : p = .gone ∨ (s.handler.get h).pc.Early)
    (hreason : p = .gone → ∀ c side, (s.circuit.get c).started = true →
      (s.circuit.get c).conns side = some h → s.Excused L c)
    (hcircuit : ∀ c, ∃ r, s'.circuit.get c = { s.circuit.get c with released := r })
    (hnow : s'.now = s.now) (hclosed : s'.closed = s.closed) : Intact L s' := by
  refine hi.of_circuits hw' (hi.shutFor hm hp hreason) (fun c => ?_) hnow.ge
    (by rw [hclosed]; exact id)
  obtain ⟨r, hr⟩ := hcircuit c
  exact ⟨r, _, _, hr, id, Or.inl, id⟩

/-- A half is attached. It is the first or the second connection of its circuit; if it is the
second, the splice starts, and `hopen` says that the first connection is still open then. -/
theorem attaches (hi : Intact L s) (hw : s.Wired) {c : ℕ} {side : Bool}
    (hfrom : (s.handler.get h).pc = .redeemed c side)
    (hopen : ∀ e x, (s.circuit.get c).conns e = some x →
      (s.handler.get x).shut = false ∨ s.closed = true) : Intact L (s.attach h c side) := by
  have hm := s.moves_attach h c side
  obtain ⟨-, -, -, hstart, hundone⟩ := hw.free_of_redeemed hfrom
  have hshut : ∀ x, ((s.attach h c side).handler.get x).shut = true →
      (s.handler.get x).shut = true := by
    intro x hx
    rcases hm.shut x hx with hold | ⟨-, hgone⟩ | hx
    · exact hold
    · split_ifs at hgone
    · exact absurd hx (Set.notMem_empty x)
  have hself : (s.handler.get h).shut ≠ true := by
    intro hx
    rcases hi.shut h hx with hg | ⟨_, _, _, hg, -⟩
    · exact absurd (hfrom.symm.trans hg) nofun
    · exact absurd (hfrom.symm.trans hg) nofun
  have hex : ∀ d, d ≠ c → s.Excused L d → (s.attach h c side).Excused L d := by
    intro d hd hex
    have hget := s.attach_circuit_of_ne h c side hd
    exact hex.mono (by rw [hget]; exact id) (by rw [hget]) le_rfl id
  constructor
  case shut =>
    intro x hx
    have hxh : x ≠ h := by
      rintro rfl
      exact hself (hshut x hx)
    rw [hm.pc_other x hxh]
    simp only [Server.attach_done]
    exact hi.shut x (hshut x hx)
  case done =>
    intro d hd
    rw [Server.attach_done] at hd
    have hdc : d ≠ c := by
      rintro rfl
      exact absurd (hundone.symm.trans hd) (by simp)
    exact hex d hdc (hi.done d hd)
  case spliced =>
    intro d e x hd hconn hx
    have hold := hshut x hx
    rcases s.attach_conns h c side hconn with ⟨-, -, rfl⟩ | ⟨-, hconn₀⟩
    · exact absurd hold hself
    · by_cases hdc : d = c
      · subst hdc
        rcases hopen e x hconn₀ with hno | hclosed
        · exact absurd (hold.symm.trans hno) (by simp)
        · exact .inr (.inr hclosed)
      · apply hex d hdc
        rw [s.attach_circuit_of_ne h c side hdc] at hd
        exact hi.spliced d e x hd hconn₀ hold

/-- A pair of tickets opens a circuit. It has no connections yet, so nothing is to be shown about
it. -/
theorem opens (hi : Intact L s) (hw : s.Wired) (hw' : s'.Wired) {ta tb : ℕ}
    (hfrom : (s.handler.get h).pc = .pairTaken) (ho : Opens s s' h ta tb)
    (hnow : s'.now = s.now) (hclosed : s'.closed = s.closed) : Intact L s' := by
  have hold : ∀ c, (s'.circuit.get c).started = true → s'.circuit.get c = s.circuit.get c := by
    intro c hc
    apply ho.old c
    rintro rfl
    rw [ho.new] at hc
    exact absurd hc (by simp)
  apply hi.step_of hw' (hi.shutFor ho.moves (.inr (by rw [hfrom]; trivial)) nofun)
  · intro c hc
    have heq := hold c hc
    rw [heq] at hc ⊢
    exact ⟨hc, rfl⟩
  · intro c hc
    rw [hold c (hw'.done c hc)] at hc
    exact .inl hc
  · intro c hc
    -- it has ends, so it is not the new one
    obtain ⟨x, hx⟩ := Option.ne_none_iff_exists'.mp (hw.started c (hw.done c hc) true)
    rw [ho.old c (hw.conn c true x hx).1.ne]
    exact hc
  · intro c hc hex
    exact hex.mono (by rw [hold c hc]; exact id) (by rw [hold c hc]) hnow.ge
      (by rw [hclosed]; exact id)

theorem pump (hi : Intact L s) {c : ℕ} (hw' : Server.Wired
      { s with circuit := s.circuit.modify c fun x => { x with pumpDone := true } }) :
    Intact L { s with circuit := s.circuit.modify c fun x => { x with pumpDone := true } } := by
  refine hi.of_circuits hw' (fun x hx => .before hx (.inl rfl)) (fun d => ?_) le_rfl id
  dsimp only
  by_cases hd : d = c
  · subst hd
    rw [Heap.get_modify_self]
    exact ⟨_, _, true, rfl, id, Or.inl, fun _ => rfl⟩
  · rw [Heap.get_modify_of_ne _ _ hd]
    exact ⟨_, _, _, rfl, id, Or.inl, id⟩

/-- A splice ends, and with it both connections. What was closed before was closed for a reason,
and the two that are closed now have that of the splice. -/
theorem splice_shutFor (hw : s.Wired) {c : ℕ} {side : Bool}
    (hfrom : (s.handler.get h).pc = .splicing c side) (hex : s.Excused L c)
    (hdone : (s'.circuit.get c).done = true)
    (hm : Moves s.handler s'.handler h .gone (s.ends c)) (x : ℕ)
    (hx : (s'.handler.get x).shut = true) : ShutFor L s s' x := by
  have hplaced := hw.placed_of hfrom
  -- an end of this circuit is an end of no other
  have hreason : x ∈ s.ends c → ∀ d e, (s.circuit.get d).started = true →
      (s.circuit.get d).conns e = some x → s.Excused L d := by
    rintro ⟨e', hx'⟩ d e - hx
    obtain ⟨rfl, -⟩ := hw.conn_inj d c e e' x hx hx'
    exact hex
  rcases hm.shut x hx with hold | ⟨rfl, -⟩ | hend
  · apply ShutFor.before hold
    exact (hm.cases x).elim (fun h => .inr h.2) fun h => .inl h.2
  · exact .now (.inl hm.pc_self) (hreason ⟨side, hplaced.1⟩)
  · refine .now ?_ (hreason hend)
    rcases hm.cases x with ⟨-, hpc⟩ | ⟨hxh, hpc⟩
    · exact .inl hpc
    · -- the first half: it has left, or is woken now
      obtain ⟨e, he⟩ := hend
      rw [hpc]
      rcases (hw.conn c e x he).2.2 with hg | ⟨since, hg⟩ | hg
      · exact .inl hg
      · exact .inr ⟨c, e, since, hg, hdone⟩
      · exact absurd (hw.splicing x h c e side hg hfrom) hxh

end Intact

/-- What the result asks of a step. The timer of the first half does not close a splice that has
started, and a second half is not attached to a connection that is closed. -/
def Server.Gentle (L : Limits) (s : Server) : Act → Prop
  | .idle h => ∀ c ∈ (s.handler.get h).pc.circuit,
      (s.circuit.get c).started = false ∨ s.Excused L c
  | .answer h true => ∀ c ∈ (s.handler.get h).pc.circuit, ∀ e : Bool,
      ∀ x ∈ (s.circuit.get c).conns e, (s.handler.get x).shut = false ∨ s.closed = true
  | _ => True

instance (L : Limits) (s : Server) (a : Act) : Decidable (s.Gentle L a) :=
  match a with
  | .idle _ => inferInstanceAs (Decidable (∀ c ∈ _, _ ∨ _))
  | .answer _ true => inferInstanceAs (Decidable (∀ c ∈ _, ∀ _ : Bool, ∀ x ∈ _, _ ∨ _))
  | .connect _ | .quit _ | .publish _ _ _ _ | .claim _ _ _ | .issue _ _ | .deliver _ _
  | .redeem _ _ | .answer _ false | .pumpEnd _ | .spliceEnd _ | .wake _ | .shutdown _ | .sweep
  | .close | .tick _ => inferInstanceAs (Decidable True)

theorem Server.releaseOnce_same (s : Server) (c d : ℕ) :
    ∃ r, (s.releaseOnce c).circuit.get d = { s.circuit.get d with released := r } := by
  rw [Server.releaseOnce_circuit]
  by_cases hd : d = c
  · subst hd
    exact ⟨true, s.circuit.get_modify_self _⟩
  · exact ⟨_, s.circuit.get_modify_of_ne _ hd⟩

/-- **One step.** The cases are those of `Effect`, and only two of them use that the step is
gentle. -/
theorem Intact.step (hi : Intact L s) (hw : s.Wired) (heff : s.Effect L a s')
    (hgentle : s.Gentle L a) : Intact L s' := by
  have hw' := hw.step heff
  have hearly : ∀ {x q}, (s.handler.get x).pc = q → q.Early → (s.handler.get x).pc.Early :=
    fun hx hq => hx ▸ hq
  -- a handler that has not attached is nobody's end
  have hnoEnd : ∀ {x : ℕ}, (s.handler.get x).pc.Early → ∀ c side,
      (s.circuit.get c).started = true → (s.circuit.get c).conns side = some x → s.Excused L c :=
    fun hx c side _ hc => absurd ⟨side, hc⟩ ((hw.early rfl hx).2 c)
  -- a handler that waits is an end of the one circuit it waits for
  have hend : ∀ {x c side since}, (s.handler.get x).pc = .waiting c side since →
      ∀ d e, (s.circuit.get d).conns e = some x → d = c := by
    intro x c side since hx d e hd
    exact (hw.conn_inj d c e side x hd (hw.placed_of hx)).1
  cases heff with
  | @connect ip i =>
    refine hi.step_of hw' (fun x hx => ?_) (fun _ hc => ⟨hc, rfl⟩) (fun _ => Or.inl) (fun _ => id)
      fun _ _ => id
    by_cases hxn : x = s.handler.next
    · subst hxn
      dsimp only at hx
      rw [Heap.get_alloc_next] at hx
      exact absurd hx (by simp)
    · have hget := s.handler.get_alloc_of_ne { ip := ip, pc := .control } hxn
      dsimp only at hx
      rw [hget] at hx
      exact .before hx (.inl (congrArg Handler.pc hget))
  | quiet hfrom _ hm =>
    exact hi.of_moves hw' hm (.inr (hearly hfrom trivial)) (fun _ => hnoEnd (hearly hfrom trivial))
      (fun _ => ⟨_, rfl⟩) rfl rfl
  | take hfrom _ hm | giveBack hfrom hm | resume hfrom hm | redeem hfrom _ hm =>
    exact hi.of_moves hw' hm (.inr (hearly hfrom trivial)) nofun (fun _ => ⟨_, rfl⟩) rfl rfl
  | issue hfrom _ hta htb hm =>
    exact hi.opens hw hw' hfrom (.intro hta htb hm) rfl rfl
  | @drop h c ta tb hs hfrom hm =>
    refine hi.of_moves hw' hm (.inr (hearly hfrom trivial)) nofun ?_ ?_ ?_
    · exact Server.releaseOnce_same { s with tickets := (s.tickets.erase ta).erase tb } c
    · exact Server.releaseOnce_now _ c
    · exact Server.releaseOnce_closed _ c
  | @attach h c side hfrom =>
    exact hi.attaches hw hfrom fun e x hx => hgentle c (by rw [hfrom]; rfl) e x hx
  | fail hfrom hm =>
    exact hi.of_moves hw' hm (.inl rfl) (fun _ => hnoEnd (hearly hfrom trivial))
      (fun _ => ⟨_, rfl⟩) rfl rfl
  | pump _ => exact hi.pump hw'
  | @splice h c side p i hs hfrom hex hm =>
    refine hi.of_circuits hw' ?_ (fun d => ?_) (s.releaseOnce_now c).ge ?_
    · apply Intact.splice_shutFor hw hfrom hex _ hm
      dsimp only
      rw [Heap.get_modify_self]
    · obtain ⟨r, hr⟩ := s.releaseOnce_same c d
      dsimp only
      by_cases hdc : d = c
      · subst hdc
        rw [Heap.get_modify_self, hr]
        exact ⟨r, true, _, rfl, fun _ => rfl, fun _ => .inr hex, id⟩
      · rw [Heap.get_modify_of_ne _ _ hdc, hr]
        exact ⟨r, _, _, rfl, id, Or.inl, id⟩
    · dsimp only
      rw [s.releaseOnce_closed]
      exact id
  | @wake h c since side p i hs hfrom hdone hm =>
    refine hi.of_moves hw' hm (.inl rfl) ?_ (fun _ => ⟨_, rfl⟩) rfl rfl
    intro _ d e _ hd
    rw [hend hfrom d e hd]
    exact hi.done c hdone
  | @idle h c since side p i hs hfrom hm =>
    refine hi.of_moves hw' hm (.inl rfl) ?_ (s.releaseOnce_same c) (s.releaseOnce_now c)
      (s.releaseOnce_closed c)
    intro _ d e hstart hd
    rw [hend hfrom d e hd] at hstart ⊢
    rcases hgentle c (by rw [hfrom]; rfl) with hno | hex
    · exact absurd (hstart.symm.trans hno) (by simp)
    · exact hex
  | shutdown hfrom hclosed hm =>
    exact hi.of_moves hw' hm (.inl rfl) (fun _ _ _ _ _ => .inr (.inr hclosed))
      (fun _ => ⟨_, rfl⟩) rfl rfl
  | sweep =>
    exact hi.of_circuits hw' (fun _ hx => .before hx (.inl rfl))
      (fun _ => ⟨_, _, _, rfl, id, Or.inl, id⟩) le_rfl id
  | close =>
    exact hi.of_circuits hw' (fun _ hx => .before hx (.inl rfl))
      (fun _ => ⟨_, _, _, rfl, id, Or.inl, id⟩) le_rfl fun _ => rfl
  | tick =>
    exact hi.of_circuits hw' (fun _ hx => .before hx (.inl rfl))
      (fun _ => ⟨_, _, _, rfl, id, Or.inl, id⟩) (Nat.le_add_right _ _) id

/-! ## Runs -/

section Runs

variable (L)

/-- A step in which the first half does not give up on a splice. -/
def StepGentle (s : Server) (a : Act) (s' : Server) : Prop := s.next L a = some s' ∧ s.Gentle L a

variable {L} {as : List Act}

theorem Intact.start : Intact L {} where
  shut _ hx := absurd hx (by simp [Heap.empty])
  done _ hc := absurd hc (by simp [Heap.empty])
  spliced _ _ _ hc := absurd hc (by simp [Heap.empty])

/-- **A live circuit is not torn down.** In every run of gentle steps, when a splice has started
and one of its connections has been closed by the relay, a pump has ended, `CircuitLifetime` is
over, or the server was closed. -/
theorem splice_not_torn_down (hrun : Run (StepGentle L) {} as s) (c : ℕ) (side : Bool) (x : ℕ)
    (hstart : (s.circuit.get c).started = true) (hconn : (s.circuit.get c).conns side = some x)
    (hshut : (s.handler.get x).shut = true) : s.Excused L c := by
  have hinv : s.Wired ∧ Intact L s := by
    refine hrun.invariant (fun s => s.Wired ∧ Intact L s) ⟨.start, .start⟩ ?_
    rintro t a u ⟨hw, hi⟩ ⟨hnext, hgentle⟩
    have heff := Server.next_effect hnext
    exact ⟨hw.step heff, hi.step hw heff hgentle⟩
  exact hinv.2.spliced c side x hstart hconn hshut

/-- Two peers are paired, leave and come back with their tickets, one a second after the other. -/
def splicedActs : List Act :=
  [.connect [1], .connect [2], .publish 0 [7] true true, .claim 1 [7] true,
    .issue 1 (some (10, 11)),
    .deliver 1 true, .quit 0, .quit 1, .connect [1], .connect [2], .redeem 2 10, .answer 2 true,
    .tick 1000, .redeem 3 11, .answer 3 true]

/-- A run of gentle steps in which a pump has ended: the splice was closed, and for that reason. -/
theorem splice_not_torn_down_pump :
    ∃ s : Server, Run (StepGentle defaultLimits) {} (splicedActs ++ [.tick 200000, .pumpEnd 0,
        .spliceEnd 3]) s ∧
      ((s.circuit.get 0).started = true ∧ (s.circuit.get 0).conns false = some 2 ∧
        (s.handler.get 2).shut = true) ∧ s.Excused defaultLimits 0 := by
  obtain ⟨s, hrun, hs⟩ : ∃ s, Run (StepGentle defaultLimits) {} (splicedActs ++
        [.tick 200000, .pumpEnd 0, .spliceEnd 3]) s ∧
      ((s.circuit.get 0).started = true ∧ (s.circuit.get 0).conns false = some 2 ∧
        (s.handler.get 2).shut = true) := exists_run_guarded _ (by decide)
  exact ⟨s, hrun, hs, splice_not_torn_down hrun 0 false 2 hs.1 hs.2.1 hs.2.2⟩

/-- **The first half closes a splice that is in use.** 90 seconds after its arrival, and 89 after
the splice has started, its timer fires. No pump has ended and the server is open, so there is no
reason for it. -/
theorem idle_closes_splice :
    ∃ s : Server,
      Run (ofNext (Server.next defaultLimits)) {} (splicedActs ++ [.tick 89000, .idle 2]) s ∧
      (s.circuit.get 0).started = true ∧ (s.handler.get 3).pc = .splicing 0 true ∧
      (s.circuit.get 0).conns false = some 2 ∧ (s.handler.get 2).shut = true ∧
      ¬ s.Excused defaultLimits 0 :=
  exists_run_of_any (fun s : Server => (s.circuit.get 0).started = true ∧
    (s.handler.get 3).pc = .splicing 0 true ∧ (s.circuit.get 0).conns false = some 2 ∧
    (s.handler.get 2).shut = true ∧ ¬ s.Excused defaultLimits 0) (by decide)

end Runs

end Heimdall.Relay
