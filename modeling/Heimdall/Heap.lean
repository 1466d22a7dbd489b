/-
A heap of records.

Where a program holds pointers to records in its maps and hands the same pointers out, a record
changed through one of them has changed for all. The model is a table of records by address; an
address is new as long as `next` has not passed it.
-/
import Mathlib.Data.Nat.Count
import Mathlib.Tactic

set_option autoImplicit false

namespace Heimdall

/-- Records by address, and the address the next allocation gets. -/
structure Heap (α : Type*) where
  get : ℕ → α
  next : ℕ

namespace Heap

variable {α : Type*}

/-- A heap without records; `zero` is what an address that was never allocated reads as. -/
def empty (zero : α) : Heap α := ⟨fun _ => zero, 0⟩

def modify (h : Heap α) (a : ℕ) (f : α → α) : Heap α :=
  { h with get := Function.update h.get a (f (h.get a)) }

/-- Allocate a record, at the address `h.next`. -/
def alloc (h : Heap α) (x : α) : Heap α :=
  { get := Function.update h.get h.next x, next := h.next + 1 }

variable (h : Heap α) {a b : ℕ} (f : α → α) (x : α)

@[simp] theorem next_empty : (empty x).next = 0 := rfl

@[simp] theorem next_modify : (h.modify a f).next = h.next := rfl

@[simp] theorem next_alloc : (h.alloc x).next = h.next + 1 := rfl

@[simp] theorem get_modify_self : (h.modify a f).get a = f (h.get a) :=
  Function.update_self _ _ _

theorem modify_eq_self (hf : f (h.get a) = h.get a) : h.modify a f = h := by
  rw [modify, hf, Function.update_eq_self]

theorem get_modify_of_ne (hab : b ≠ a) : (h.modify a f).get b = h.get b :=
  Function.update_of_ne hab _ _

@[simp] theorem get_alloc_next : (h.alloc x).get h.next = x :=
  Function.update_self _ _ _

theorem get_alloc_of_ne (hb : b ≠ h.next) : (h.alloc x).get b = h.get b :=
  Function.update_of_ne hb _ _

theorem get_alloc_of_lt (hb : b < h.next) : (h.alloc x).get b = h.get b :=
  h.get_alloc_of_ne x hb.ne

/-- A change that leaves a field alone leaves it alone everywhere, at the address it is made at
and at all others. So whatever is said of the records through that field holds as before. -/
theorem get_modify_congr {β : Type*} {field : α → β} (hf : ∀ p, field (f p) = field p) (b : ℕ) :
    field ((h.modify a f).get b) = field (h.get b) := by
  by_cases hab : b = a
  · subst hab
    rw [get_modify_self, hf]
  · rw [get_modify_of_ne h f hab]

/-! ## Counting addresses -/

section Count

variable {p q : ℕ → Prop} [DecidablePred p] [DecidablePred q] {n : ℕ}

theorem count_congr (h : ∀ b, b < n → (q b ↔ p b)) : Nat.count q n = Nat.count p n :=
  le_antisymm (Nat.count_mono_left fun b hb => (h b hb).mp)
    (Nat.count_mono_left fun b hb => (h b hb).mpr)

/-- A step changes a property at one address, and the number of addresses that have it by one. -/
theorem count_eq_succ (ha : a < n) (hp : ¬ p a) (hq : q a) (h : ∀ b, b ≠ a → (q b ↔ p b)) :
    Nat.count q n = Nat.count p n + 1 := by
  induction n with
  | zero => exact absurd ha (Nat.not_lt_zero a)
  | succ n ih =>
    rw [Nat.count_succ, Nat.count_succ]
    rcases Nat.lt_succ_iff_lt_or_eq.mp ha with hlt | rfl
    · have hn := h n hlt.ne'
      rw [ih hlt]
      simp only [hn]
      omega
    · have hbelow : Nat.count q a = Nat.count p a := count_congr fun b hb => h b hb.ne
      rw [if_pos hq, if_neg hp, hbelow]

end Count

end Heap

end Heimdall
