/-
A table of registrations by key, without a check of who owns an entry.

Calls are numbered in the order in which they register, each under a key. The table has one owner
for a key: to register is to overwrite it, and a call that ends deletes the entry of its key,
whoever owns it. The entry of a key is that of a call that has registered under it (`Owned`).

As long as a call is active there should be an entry for its key that belongs to an active call
(`Attended`). Registering never breaks this. A call that ends keeps it exactly if it is the only
active one with its key (`unregister_attended_iff`).
-/
import Mathlib.Data.List.AList
import Heimdall.Maps

set_option autoImplicit false

namespace Heimdall.Registrations

open Heimdall.Maps

/-- The owner of each key, and of each call its key and whether it is still active. -/
structure Table (K : Type*) where
  owners : AList (fun _ : K => ℕ)
  calls : List (K × Bool)

namespace Table

variable {K : Type*} [DecidableEq K] {r r' : Table K} {i j : ℕ} {k k' : K}

def register (r : Table K) (k : K) : Table K where
  owners := r.owners.insert k r.calls.length
  calls := r.calls ++ [(k, true)]

def unregister (r : Table K) (i : ℕ) (k : K) : Table K where
  owners := r.owners.erase k
  calls := r.calls.set i (k, false)

/-- The call is active, under this key. -/
def Active (r : Table K) (i : ℕ) (k : K) : Prop := r.calls[i]? = some (k, true)

/-- An entry belongs to a call that has registered under its key. -/
def Owned (r : Table K) : Prop :=
  ∀ k i, r.owners.lookup k = some i → ∃ active, r.calls[i]? = some (k, active)

/-- The key of an active call has an entry of an active call. -/
def Attended (r : Table K) : Prop :=
  ∀ i k, r.Active i k → ∃ j k', r.owners.lookup k = some j ∧ r.Active j k'

/-- No other active call has the same key. -/
def Alone (r : Table K) (i : ℕ) (k : K) : Prop := ∀ j, r.Active j k → j = i

theorem active_register :
    (r.register k).Active j k' ↔ r.Active j k' ∨ j = r.calls.length ∧ k' = k := by
  unfold Active register
  dsimp only
  -- an older call, the new one, or none
  rcases Nat.lt_trichotomy j r.calls.length with hj | rfl | hj
  · rw [List.getElem?_append_left hj]
    refine ⟨.inl, ?_⟩
    rintro (h | ⟨rfl, -⟩)
    · exact h
    · exact absurd hj (lt_irrefl _)
  · rw [List.getElem?_concat_length, List.getElem?_eq_none le_rfl]
    simp [eq_comm]
  · rw [List.getElem?_eq_none (by simpa using hj), List.getElem?_eq_none hj.le]
    refine ⟨fun h => absurd h (by simp), ?_⟩
    rintro (h | ⟨rfl, -⟩)
    · exact absurd h (by simp)
    · exact absurd hj (lt_irrefl _)

theorem active_unregister : (r.unregister i k).Active j k' ↔ j ≠ i ∧ r.Active j k' := by
  unfold Active unregister
  dsimp only
  by_cases hij : i = j
  · subst hij
    rw [List.getElem?_set_self']
    refine ⟨fun h => ?_, fun h => absurd rfl h.1⟩
    obtain ⟨_, -, hc⟩ := Option.map_eq_some_iff.mp h
    exact absurd hc (by simp)
  · rw [List.getElem?_set_ne hij]
    exact ⟨fun h => ⟨fun hc => hij hc.symm, h⟩, fun h => h.2⟩

theorem Owned.key_eq (h : r.Owned) (hlookup : r.owners.lookup k = some i) (hi : r.Active i k') :
    k' = k := by
  obtain ⟨active, hactive⟩ := h k i hlookup
  exact congrArg Prod.fst (Option.some.inj (hi.symm.trans hactive))

/-! ## Registering -/

theorem Owned.register (h : r.Owned) (k : K) : (r.register k).Owned := by
  intro k' j hj
  rcases (lookup_insert_iff r.owners).mp hj with ⟨rfl, rfl⟩ | ⟨-, hold⟩
  · exact ⟨true, List.getElem?_concat_length⟩
  · obtain ⟨active, hactive⟩ := h k' j hold
    exact ⟨active,
      (List.getElem?_append_left (List.getElem?_eq_some_iff.mp hactive).1).trans hactive⟩

/-- The entry of a new call is one of an active call, and the other entries are as they were. That
it replaces an entry does no harm: the new one is active. -/
theorem Attended.register (h : r.Attended) (k : K) : (r.register k).Attended := by
  intro i k' hi
  by_cases hk : k' = k
  · exact ⟨r.calls.length, k, hk ▸ AList.lookup_insert r.owners,
      active_register.mpr (.inr ⟨rfl, rfl⟩)⟩
  · have hold : r.Active i k' := by
      rcases active_register.mp hi with hold | ⟨-, hnew⟩
      · exact hold
      · exact absurd hnew hk
    obtain ⟨j, k₂, hlookup, hj⟩ := h i k' hold
    exact ⟨j, k₂, (AList.lookup_insert_ne hk).trans hlookup, active_register.mpr (.inl hj)⟩

/-! ## The end of a call -/

theorem Owned.unregister (h : r.Owned) (hi : r.Active i k) : (r.unregister i k).Owned := by
  intro k' j hj
  obtain ⟨hlookup, hk⟩ := lookup_of_erase r.owners hj
  obtain ⟨active, hactive⟩ := h k' j hlookup
  have hij : i ≠ j := by
    rintro rfl
    exact hk (h.key_eq hlookup hi).symm
  exact ⟨active, (List.getElem?_set_ne hij).trans hactive⟩

/-- A call that is alone deletes no entry of another active call. -/
theorem Alone.keeps (halone : r.Alone i k) (howned : r.Owned) (hne : j ≠ i) {k₂ : K}
    (hj : r.Active j k₂) (hlookup : r.owners.lookup k' = some j) :
    (r.unregister i k).owners.lookup k' = some j := by
  have hk : k' ≠ k := by
    rintro rfl
    exact hne (halone j (howned.key_eq hlookup hj ▸ hj))
  exact (AList.lookup_erase_ne hk).trans hlookup

/-- **A call may end exactly if no other one has its key.** Ending deletes the entry of the key,
whoever it belongs to, so another active call of the key would be left without one. -/
theorem unregister_attended_iff (howned : r.Owned) (hatt : r.Attended) (hi : r.Active i k) :
    (r.unregister i k).Attended ↔ r.Alone i k := by
  constructor
  · -- another active call with this key has no entry any more
    intro h j hj
    by_contra hne
    obtain ⟨j₂, k₂, hlookup, -⟩ := h j k (active_unregister.mpr ⟨hne, hj⟩)
    exact (lookup_of_erase r.owners hlookup).2 rfl
  · intro halone j k' hj
    obtain ⟨hne, hold⟩ := active_unregister.mp hj
    obtain ⟨j₂, k₂, hlookup, hj₂⟩ := hatt j k' hold
    have hne₂ : j₂ ≠ i := by
      rintro rfl
      exact hne (halone j (howned.key_eq hlookup hi ▸ hold))
    exact ⟨j₂, k₂, halone.keeps howned hne₂ hj₂ hlookup, active_unregister.mpr ⟨hne₂, hj₂⟩⟩

end Table

end Heimdall.Registrations
