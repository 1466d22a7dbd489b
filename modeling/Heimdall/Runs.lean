/-
Runs of a labelled transition system, and the two rules every later module uses on
them: an invariant kept by each step holds at the end of each run, and a run of a
restricted step relation is a run of the unrestricted one.

Nothing here knows what the states or the labels are. A model supplies its step
relation `step : σ → α → σ → Prop`; a model whose step is a partial function
`next : σ → α → Option σ` gets the relation from `ofNext`, and then `exec` computes the
state a list of labels leads to, which is what evaluates a concrete schedule.
-/
import Mathlib.Tactic
import Mathlib.Data.List.Induction

set_option autoImplicit false

namespace Heimdall.Runs

variable {σ α : Type*}

/-- `Run step s as t`: the labels `as`, taken one after the other, lead from `s` to `t`.
The list grows on the right, so an induction sees the last step and the run before it. -/
inductive Run (step : σ → α → σ → Prop) (s : σ) : List α → σ → Prop
  | nil : Run step s [] s
  | snoc {as : List α} {a : α} {t u : σ} :
      Run step s as t → step t a u → Run step s (as ++ [a]) u

section Rules

variable {step step' : σ → α → σ → Prop} {s t u : σ} {as bs : List α} {a : α}

/-- **The invariant rule.** What holds at the start and is kept by every step holds at
the end of every run. -/
theorem Run.invariant (P : σ → Prop) (hrun : Run step s as t) (h0 : P s)
    (hstep : ∀ t a u, P t → step t a u → P u) : P t := by
  induction hrun with
  | nil => exact h0
  | snoc _ hs ih => exact hstep _ _ _ ih hs

theorem Run.invariant_trace (P : List α → σ → Prop) (hrun : Run step s as t) (h0 : P [] s)
    (hstep : ∀ as t a u, P as t → step t a u → P (as ++ [a]) u) : P as t := by
  induction hrun with
  | nil => exact h0
  | snoc _ hs ih => exact hstep _ _ _ _ ih hs

theorem Run.mono (hrun : Run step s as t) (h : ∀ t a u, step t a u → step' t a u) :
    Run step' s as t := by
  induction hrun with
  | nil => exact .nil
  | snoc _ hs ih => exact .snoc ih (h _ _ _ hs)

theorem Run.single (h : step s a t) : Run step s [a] t := .snoc .nil h

/-- The last step of a run, and the run before it. The state between the two is not determined by
the labels, unless the steps are those of a function. -/
theorem Run.of_snoc (hrun : Run step s (as ++ [a]) u) : ∃ t, Run step s as t ∧ step t a u := by
  generalize hbs : as ++ [a] = bs at hrun
  rcases hrun with _ | ⟨hrun, hstep⟩
  · exact absurd hbs (by simp)
  · obtain ⟨rfl, rfl⟩ := List.append_singleton_inj.mp hbs
    exact ⟨_, hrun, hstep⟩

/-- **Simulation.** If every step is matched by one step of another system, or by none, then so is
every run. -/
theorem Run.simulates {τ β : Type*} {step'' : τ → β → τ → Prop} {R : σ → τ → Prop} {c : τ}
    (hrun : Run step s as t) (h0 : R s c)
    (hstep : ∀ t a u d, R t d → step t a u → ∃ d', R u d' ∧ (d' = d ∨ ∃ b, step'' d b d')) :
    ∃ bs d, Run step'' c bs d ∧ R t d := by
  induction hrun with
  | nil => exact ⟨[], c, .nil, h0⟩
  | snoc _ hs ih =>
    obtain ⟨bs, d, hd, hR⟩ := ih
    obtain ⟨d', hR', rfl | ⟨b, hb⟩⟩ := hstep _ _ _ d hR hs
    · exact ⟨bs, _, hd, hR'⟩
    · exact ⟨bs ++ [b], d', hd.snoc hb, hR'⟩

theorem Run.of_append (hrun : Run step s (as ++ bs) u) : ∃ t, Run step s as t := by
  induction bs using List.reverseRecOn generalizing u with
  | nil => exact ⟨u, by simpa using hrun⟩
  | append_singleton bs b ih =>
    rw [← List.append_assoc] at hrun
    obtain ⟨t, ht, -⟩ := hrun.of_snoc
    exact ih ht

end Rules

/-! ## Steps given by a partial function -/

/-- The step relation of a partial next-state function. -/
def ofNext (next : σ → α → Option σ) : σ → α → σ → Prop := fun s a t => next s a = some t

/-- The state a list of labels leads to, if every one of them is enabled in turn. -/
def exec (next : σ → α → Option σ) : σ → List α → Option σ
  | s, [] => some s
  | s, a :: as => (next s a).bind fun t => exec next t as

section Exec

variable {next : σ → α → Option σ} {s t : σ} {as bs : List α}

theorem exec_append (s : σ) (as bs : List α) :
    exec next s (as ++ bs) = (exec next s as).bind fun t => exec next t bs := by
  induction as generalizing s with
  | nil => rfl
  | cons a as ih =>
    simp only [List.cons_append, exec, Option.bind_assoc]
    exact congrArg _ (funext ih)

/-- Executing a list of labels is the same as having a run over them. Runs grow on the right and
execution goes from the left, so one direction is an induction from the end of the list. -/
theorem run_iff_exec : Run (ofNext next) s as t ↔ exec next s as = some t := by
  constructor
  · intro h
    induction h with
    | nil => rfl
    | snoc _ hs ih =>
      rw [exec_append, ih]
      simpa [exec, ofNext] using hs
  · intro h
    induction as using List.reverseRecOn generalizing t with
    | nil =>
      simp only [exec, Option.some.injEq] at h
      exact h ▸ .nil
    | append_singleton as a ih =>
      rw [exec_append, Option.bind_eq_some_iff] at h
      obtain ⟨m, hm, ha⟩ := h
      exact .snoc (ih hm) (by simpa [exec, ofNext] using ha)

theorem run_unique (h : Run (ofNext next) s as t) {u : σ} (h' : Run (ofNext next) s as u) : t = u :=
  Option.some.inj ((run_iff_exec.mp h).symm.trans (run_iff_exec.mp h'))

theorem exists_run_of_any (P : σ → Prop) [DecidablePred P]
    (h : (exec next s as).any (fun t => decide (P t)) = true) :
    ∃ t, Run (ofNext next) s as t ∧ P t := by
  rcases hexec : exec next s as with _ | t
  · rw [hexec] at h
    exact absurd h (by simp)
  · rw [hexec] at h
    exact ⟨t, run_iff_exec.mpr hexec, by simpa using h⟩

/-- The steps of `next` that meet a condition. -/
def guarded (next : σ → α → Option σ) (P : σ → α → Prop) [∀ s a, Decidable (P s a)] (s : σ)
    (a : α) : Option σ :=
  if P s a then next s a else none

/-- A run in which every step meets a condition, found by executing its labels. Results about such
runs are applied to concrete ones this way. -/
theorem exists_run_guarded {P : σ → α → Prop} [∀ s a, Decidable (P s a)] (Q : σ → Prop)
    [DecidablePred Q] (h : (exec (guarded next P) s as).any (fun t => decide (Q t)) = true) :
    ∃ t, Run (fun s a t => next s a = some t ∧ P s a) s as t ∧ Q t := by
  obtain ⟨t, hrun, ht⟩ := exists_run_of_any Q h
  refine ⟨t, hrun.mono fun t a u hstep => ?_, ht⟩
  obtain ⟨hP, hnext⟩ := Option.ite_none_right_eq_some.mp hstep
  exact ⟨hnext, hP⟩

end Exec

end Heimdall.Runs
