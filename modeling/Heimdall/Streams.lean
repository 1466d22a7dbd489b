/-
Parsers on a stream that is still growing.

A reader of a connection sees a prefix of what will have been written. A parser on a prefix returns,
or fails, or is short of input and waits; a *stable* one does not change its mind when more arrives.
Parsers made of reads of a fixed number of bytes are stable, whatever is decided in between, so
what they return on a prefix can be computed on the whole stream.

The last section is about codes: if no codeword continues into another, a prefix of an encoded list
that is itself an encoded list encodes a prefix.
-/
import Mathlib.Tactic
import Mathlib.Data.List.Infix

set_option autoImplicit false

namespace Heimdall.Streams

variable {α β γ ε : Type}

/-- Why a parser does not return: it waits for more input, or it has failed. -/
inductive Stop (ε : Type) where
  | short
  | failed (e : ε)
  deriving DecidableEq

/-- A parser of streams of `β`. -/
abbrev Parser (β ε α : Type) := StateT (List β) (Except (Stop ε)) α

/-- The next `n` elements. -/
def take (n : ℕ) : Parser β ε (List β) :=
  fun s => if s.length < n then .error .short else .ok (s.take n, s.drop n)

def fail (e : ε) : Parser β ε α := fun _ => .error (.failed e)

/-! ## Running a parser -/

section Run

variable {p : Parser β ε α} {f : α → Parser β ε γ} {s : List β}

theorem run_take_append {x : List β} {n : ℕ} (hn : x.length = n) (s : List β) :
    (take n : Parser β ε (List β)).run (x ++ s) = .ok (x, s) := by
  subst hn
  simp [take, StateT.run]

theorem run_bind_ok {a : α} {r : List β} (h : p.run s = .ok (a, r)) :
    (p >>= f).run s = (f a).run r := by
  rw [StateT.run_bind, h]
  rfl

theorem run_bind_error {e : Stop ε} (h : p.run s = .error e) : (p >>= f).run s = .error e := by
  rw [StateT.run_bind, h]
  rfl

theorem run_bind_eq_ok {c : γ} {r : List β} (h : (p >>= f).run s = .ok (c, r)) :
    ∃ a m, p.run s = .ok (a, m) ∧ (f a).run m = .ok (c, r) := by
  rcases hp : p.run s with e | ⟨a, m⟩
  · rw [run_bind_error hp] at h
    exact absurd h nofun
  · rw [run_bind_ok hp] at h
    exact ⟨a, m, rfl, h⟩

end Run

/-! ## Stable parsers -/

/-- More input changes neither what the parser has returned nor that it has failed. -/
structure Stable (p : Parser β ε α) : Prop where
  ok : ∀ {s a r} x, p.run s = .ok (a, r) → p.run (s ++ x) = .ok (a, r ++ x)
  failed : ∀ {s e} x, p.run s = .error (.failed e) → p.run (s ++ x) = .error (.failed e)

/-- The parser consumes at least `n` elements. -/
def Eats (n : ℕ) (p : Parser β ε α) : Prop :=
  ∀ s a r, p.run s = .ok (a, r) → r.length + n ≤ s.length

namespace Stable

variable {p : Parser β ε α} {f : α → Parser β ε γ}

theorem pure (a : α) : Stable (Pure.pure a : Parser β ε α) where
  ok _ h := by
    cases h
    rfl
  failed _ h := absurd h nofun

theorem fail (e : ε) : Stable (Streams.fail e : Parser β ε α) where
  ok _ h := absurd h nofun
  failed _ h := h

/-- Taking a fixed number. Having too little is not a failure, so more input may change that. -/
theorem take (n : ℕ) : Stable (Streams.take n : Parser β ε (List β)) where
  ok {s a r} x h := by
    by_cases hlt : s.length < n
    · simp [Streams.take, StateT.run, hlt] at h
    · simp only [Streams.take, StateT.run, if_neg hlt, Except.ok.injEq, Prod.mk.injEq] at h
      obtain ⟨rfl, rfl⟩ := h
      -- the elements are there already, so the longer input has the same ones in front
      have hle : n ≤ s.length := by omega
      have hlt' : ¬ (s ++ x).length < n := by
        rw [List.length_append]
        omega
      simp only [Streams.take, StateT.run, if_neg hlt']
      rw [List.take_append_of_le_length hle, List.drop_append_of_le_length hle]
  failed {s e} x h := by
    by_cases hlt : s.length < n <;> simp [Streams.take, StateT.run, hlt] at h

/-- A reader that gets its input in parts tries again when more has come. For a stable parser that
is the same as having waited. -/
theorem bind (hp : Stable p) (hf : ∀ a, Stable (f a)) : Stable (p >>= f) where
  ok {s c r} x h := by
    obtain ⟨a, m, hp', hf'⟩ := run_bind_eq_ok h
    rw [run_bind_ok (hp.ok x hp')]
    exact (hf a).ok x hf'
  failed {s e} x h := by
    rcases hps : p.run s with e' | ⟨a, m⟩
    · rw [run_bind_error hps] at h
      cases h
      exact run_bind_error (hp.failed x hps)
    · rw [run_bind_ok hps] at h
      rw [run_bind_ok (hp.ok x hps)]
      exact (hf a).failed x h

theorem ite {c : Prop} [Decidable c] {q : Parser β ε α} (hp : Stable p) (hq : Stable q) :
    Stable (if c then p else q) := by
  split_ifs
  · exact hp
  · exact hq

end Stable

namespace Eats

variable {p : Parser β ε α} {f : α → Parser β ε γ} {n : ℕ}

theorem pure (a : α) : Eats 0 (Pure.pure a : Parser β ε α) := by
  intro s a r h
  cases h
  omega

theorem fail (e : ε) : Eats n (Streams.fail e : Parser β ε α) := fun _ _ _ h => absurd h nofun

theorem take (n : ℕ) : Eats n (Streams.take n : Parser β ε (List β)) := by
  intro s a r h
  by_cases hlt : s.length < n
  · simp [Streams.take, StateT.run, hlt] at h
  · simp only [Streams.take, StateT.run, if_neg hlt, Except.ok.injEq, Prod.mk.injEq] at h
    rw [← h.2, List.length_drop]
    omega

theorem mono {m : ℕ} (hp : Eats n p) (hm : m ≤ n) : Eats m p := by
  intro s a r h
  have := hp s a r h
  omega

theorem bind (hp : Eats n p) (hf : ∀ a, Eats 0 (f a)) : Eats n (p >>= f) := by
  intro s c r h
  obtain ⟨a, m, hp', hf'⟩ := run_bind_eq_ok h
  have h₁ := hp s a m hp'
  have h₂ := hf a m c r hf'
  omega

theorem ite {c : Prop} [Decidable c] {q : Parser β ε α} (hp : Eats n p) (hq : Eats n q) :
    Eats n (if c then p else q) := by
  split_ifs
  · exact hp
  · exact hq

end Eats

/-! ## Codes -/

/-- **A code without continuations**: what is encoded by a prefix is a prefix. If no code word
goes on as another one, a cut in the text that is a whole number of words is a cut in the list.
The induction is on the shorter list. -/
theorem prefix_of_flatMap {enc : α → List β} {P : α → Prop}
    (hfree : ∀ {x y s t}, P x → P y → enc x ++ s = enc y ++ t → x = y ∧ s = t)
    (hne : ∀ x, enc x ≠ []) {xs ys : List α} (hxs : ∀ x ∈ xs, P x) (hys : ∀ y ∈ ys, P y)
    (h : xs.flatMap enc <+: ys.flatMap enc) : xs <+: ys := by
  induction xs generalizing ys with
  | nil => exact List.nil_prefix
  | cons x xs ih =>
    obtain ⟨t, ht⟩ := h
    rw [List.flatMap_cons, List.append_assoc] at ht
    cases ys with
    | nil =>
      -- a codeword is not empty
      exact absurd (List.append_eq_nil_iff.mp ht).1 (hne x)
    | cons y ys =>
      rw [List.flatMap_cons] at ht
      obtain ⟨rfl, hrest⟩ := hfree (hxs x List.mem_cons_self) (hys y List.mem_cons_self) ht
      rw [List.prefix_cons_inj]
      apply ih (fun x' hx' => hxs x' (List.mem_cons_of_mem _ hx'))
        (fun y' hy' => hys y' (List.mem_cons_of_mem _ hy'))
      exact ⟨t, hrest⟩

end Heimdall.Streams
