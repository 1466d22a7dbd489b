/-
State that is kept in a file, over the lives of a program.

A file is replaced by writing a temporary file and renaming it. Each of the two calls can fail, and
the process can die in them or between them: what is left then is a `Stop`. Renaming is atomic, so
under the real name there is the old contents or the new one, whole, wherever it stopped
(`replace_path`).

A program of this kind reads its file when it starts, and replaces it in those of its calls that
change something. The rule for it is `Program.Holds.run`: a property that every call keeps, and
that survives writing the state and loading it, holds of the state in memory and of the state on
disk, through any number of failures, deaths and restarts.
-/
import Heimdall.Runs
import Mathlib.Logic.Function.Basic

set_option autoImplicit false

namespace Heimdall.Durable

open Heimdall.Runs

variable {P β σ α : Type*} [DecidableEq P]

/-! ## Replacing a file

The contents are written to a temporary file, which is then renamed. A rename is all or nothing, so
a crash leaves the old contents or the new ones, and perhaps a temporary file that nobody reads. -/

abbrev Disk (P β : Type*) := P → Option (List β)

/-- Where the replacement of a file stopped, by an error or by the end of the process. -/
inductive Stop where
  /-- before the temporary file was opened -/
  | opening
  /-- behind `n` bytes of the temporary file, or all of it; it was not renamed -/
  | writing (n : ℕ)
  /-- nowhere: the file is replaced -/
  | never
  deriving DecidableEq

def replace (d : Disk P β) (path tmp : P) (buf : List β) : Stop → Disk P β
  | .opening => d
  | .writing n => Function.update d tmp (some (buf.take n))
  | .never => Function.update (Function.update d tmp none) path (some buf)

section Replace

variable {d : Disk P β} {path tmp : P} {buf : List β} {stop : Stop}

/-- **A file is replaced as a whole or not at all.** -/
theorem replace_path (h : tmp ≠ path) :
    replace d path tmp buf stop path = if stop = .never then some buf else d path := by
  cases stop with
  | opening => rfl
  | writing n => exact Function.update_of_ne h.symm _ _
  | never => exact Function.update_self _ _ _

end Replace

/-! ## Programs

A program has a state, a way to write it and a way to load it, and calls that change the state and
may save. Deaths and failures of the disk are part of a step, so the rule below covers them without
mentioning them. -/

/-- A program with its state in a file. `Call s a w t` says that the call `a` takes `s` to `t`; the
part `w` is the new contents it had for the file, and whether the file was replaced, if the call
came to that. `load` is what is made of the file at the start, `none` being an error. -/
structure Program (P β σ α : Type*) where
  path : P
  tmp : P
  apart : tmp ≠ path
  Call : σ → α → Option (List β × Bool) → σ → Prop
  load : Option (List β) → Option σ

/-- The disk, and the state in memory while the program runs. -/
structure Life (P β σ : Type*) where
  disk : Disk P β
  mem : Option σ := none

/-- What happens to a program: a call, with the new contents and where its replacement stopped, in
which the process may die; a start, which may find the file unreadable; and the end. -/
inductive LifeAct (β α : Type*) where
  | call (a : α) (saving : Option (List β × Stop)) (alive : Bool)
  | start (readable : Bool)
  | kill

namespace Program

variable (M : Program P β σ α)

def saved (d : Disk P β) : Option (List β × Stop) → Disk P β
  | none => d
  | some (buf, stop) => replace d M.path M.tmp buf stop

/-- What a call sees of its replacement. -/
def outcome : Option (List β × Stop) → Option (List β × Bool)
  | none => none
  | some (buf, stop) => some (buf, decide (stop = .never))

/-- What a call has made of the state outlives the call: the process goes on with it, or the file
has been replaced. A call whose process dies before the rename has never been. -/
def lasts (saving : Option (List β × Stop)) (alive : Bool) : Bool :=
  alive || saving.any fun w => decide (w.2 = .never)

omit [DecidableEq P] in
theorem lasts_iff {saving : Option (List β × Stop)} {alive : Bool} :
    lasts saving alive = true ↔ alive = true ∨ ∃ buf, saving = some (buf, .never) := by
  rcases saving with _ | ⟨buf, stop⟩
  · simp [lasts]
  · simp only [lasts, Option.any_some, Bool.or_eq_true, decide_eq_true_eq, Option.some.injEq,
      Prod.mk.injEq, exists_eq_left']

def Step (l : Life P β σ) (act : LifeAct β α) (l' : Life P β σ) : Prop :=
  match act with
  | .call a saving alive => ∃ s t, l.mem = some s ∧ M.Call s a (outcome saving) t ∧
      l' = ⟨M.saved l.disk saving, if alive then some t else none⟩
  | .start readable => l.mem = none ∧
      l' = ⟨l.disk, if readable then M.load (l.disk M.path) else none⟩
  | .kill => l' = ⟨l.disk, none⟩

theorem step_start (d : Disk P β) :
    M.Step ⟨d, none⟩ (.start true) ⟨d, M.load (d M.path)⟩ := ⟨rfl, rfl⟩

theorem step_call {s t : σ} {a : α} {saving : Option (List β × Stop)} (d : Disk P β)
    (h : M.Call s a (outcome saving) t) (alive : Bool) :
    M.Step ⟨d, some s⟩ (.call a saving alive) ⟨M.saved d saving, if alive then some t else none⟩ :=
  ⟨s, t, rfl, h, rfl⟩

/-- The state in memory has the property, and so does what a start would load. -/
structure Holds (I : List (LifeAct β α) → σ → Prop) (acts : List (LifeAct β α)) (l : Life P β σ) :
    Prop where
  mem : ∀ s, l.mem = some s → I acts s
  disk : ∃ s, M.load (l.disk M.path) = some s ∧ I acts s

/-- What a property needs to go through lives: it is not lost by what happens later, calls that
leave something behind keep it, and what a call writes can be loaded and has it again. -/
structure Keeps (I : List (LifeAct β α) → σ → Prop) : Prop where
  later : ∀ acts act s, I acts s → I (acts ++ [act]) s
  call : ∀ acts a saving alive s t, I acts s → M.Call s a (outcome saving) t →
    lasts saving alive = true → I (acts ++ [.call a saving alive]) t
  reload : ∀ acts a s buf ok t, M.Call s a (some (buf, ok)) t → I acts t →
    ∃ u, M.load (some buf) = some u ∧ I acts u

variable {M} {I : List (LifeAct β α) → σ → Prop} {acts : List (LifeAct β α)} {act : LifeAct β α}
  {l l' : Life P β σ}

/-- Step lemma. A call that lasts keeps the property by assumption, and one that does not leaves
the disk as it was for the next start; a start loads what the disk had. -/
theorem Holds.step (h : M.Holds I acts l) (hkeeps : M.Keeps I) (hstep : M.Step l act l') :
    M.Holds I (acts ++ [act]) l' := by
  obtain ⟨old, hload, hold⟩ := h.disk
  have hdisk : ∃ s, M.load (l.disk M.path) = some s ∧ I (acts ++ [act]) s :=
    ⟨old, hload, hkeeps.later _ _ _ hold⟩
  cases act with
  | call a saving alive =>
    obtain ⟨s, t, hmem, hcall, rfl⟩ := hstep
    have ht : lasts saving alive = true → I (acts ++ [.call a saving alive]) t :=
      hkeeps.call _ _ _ _ _ _ (h.mem s hmem) hcall
    refine ⟨?_, ?_⟩
    · intro u hu
      cases alive with
      | false => exact absurd hu (by simp)
      | true => exact Option.some.inj hu ▸ ht (lasts_iff.mpr (.inl rfl))
    · -- under the real name there is what was there, or what the call wrote
      rcases saving with _ | ⟨buf, stop⟩
      · exact hdisk
      · show ∃ s, M.load (replace l.disk M.path M.tmp buf stop M.path) = some s ∧ _
        rw [replace_path M.apart]
        split_ifs with hstop
        · exact hkeeps.reload _ _ _ _ _ _ hcall (ht (lasts_iff.mpr (.inr ⟨buf, by rw [hstop]⟩)))
        · exact hdisk
  | start readable =>
    obtain ⟨-, rfl⟩ := hstep
    refine ⟨?_, hdisk⟩
    intro u hu
    cases readable with
    | false => exact absurd hu (by simp)
    | true =>
      obtain rfl : old = u := Option.some.inj (hload.symm.trans hu)
      exact hkeeps.later _ _ _ hold
  | kill =>
    obtain rfl := hstep
    exact ⟨fun u hu => absurd hu (by simp), hdisk⟩

/-- **The rule for lives**: what holds at the beginning, on disk and in memory, holds for good. -/
theorem Holds.run (h : M.Holds I [] l) (hkeeps : M.Keeps I) (hrun : Run M.Step l acts l') :
    M.Holds I acts l' :=
  hrun.invariant_trace (M.Holds I) h fun _ _ _ _ hl hstep => hl.step hkeeps hstep

end Program

end Heimdall.Durable
