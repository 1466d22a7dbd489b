/-
Finite maps from which entries are swept, or in which one is moved.

A loop over a map that deletes the entries of some kind leaves the others as they are, in
whatever order it visits them. Moving an entry, a deletion and an insertion, leaves the others
as they are if the new key is free.
-/
import Mathlib.Data.List.AList
import Mathlib.Tactic

set_option autoImplicit false

namespace Heimdall.Maps

variable {α β : Type*}

/-- The map without the entries that `drop` holds of, as a loop over the map with `delete` in it
leaves it. -/
def sweep (m : AList fun _ : α => β) (drop : α → β → Bool) : AList fun _ : α => β :=
  ⟨m.entries.filter fun e => !drop e.1 e.2,
    List.Nodup.sublist (List.filter_sublist.map _) m.nodupKeys⟩

variable [DecidableEq α] (m : AList fun _ : α => β) {k : α} {v : β}

theorem lookup_eq_some_iff : m.lookup k = some v ↔ ⟨k, v⟩ ∈ m.entries :=
  AList.mem_lookup_iff

theorem lookup_sweep (drop : α → β → Bool) :
    (sweep m drop).lookup k = some v ↔ m.lookup k = some v ∧ drop k v = false := by
  rw [lookup_eq_some_iff, lookup_eq_some_iff, sweep, List.mem_filter]
  simp

theorem lookup_of_erase {j : α} (h : (m.erase j).lookup k = some v) :
    m.lookup k = some v ∧ k ≠ j := by
  by_cases hkj : k = j
  · rw [hkj, AList.lookup_erase] at h
    exact absurd h (by simp)
  · rw [AList.lookup_erase_ne hkj] at h
    exact ⟨h, hkj⟩

theorem lookup_insert_iff {j : α} {u : β} :
    (m.insert j u).lookup k = some v ↔ (k = j ∧ v = u) ∨ (k ≠ j ∧ m.lookup k = some v) := by
  by_cases hkj : k = j
  · subst hkj
    simp [eq_comm]
  · rw [AList.lookup_insert_ne hkj]
    simp [hkj]

/-! ## Moving an entry -/

/-- An entry is erased under one key and inserted under another. If the keys are equal the entry
stays. -/
theorem lookup_move (i j : α) (v : β) :
    ((m.erase i).insert j v).lookup k
      = if k = j then some v else if k = i then none else m.lookup k := by
  by_cases hj : k = j
  · rw [if_pos hj, hj, AList.lookup_insert]
  · rw [if_neg hj, AList.lookup_insert_ne hj]
    by_cases hi : k = i
    · rw [if_pos hi, hi, AList.lookup_erase]
    · rw [if_neg hi, AList.lookup_erase_ne hi]

/-- Unless the new key is taken by another entry, the map keeps its size. If it is taken, that
entry is overwritten and the map gets smaller by one. -/
theorem length_keys_move {i j : α} (v : β) (hi : i ∈ m) (hj : j = i ∨ j ∉ m) :
    ((m.erase i).insert j v).keys.length = m.keys.length := by
  have hfree : j ∉ (m.erase i).keys := by
    rw [← AList.mem_keys, AList.mem_erase]
    rintro ⟨hne, hmem⟩
    exact hj.elim hne fun hno => hno hmem
  have hpos : 0 < m.keys.length := List.length_pos_of_mem (AList.mem_keys.mp hi)
  rw [AList.keys_insert, List.erase_of_not_mem hfree, List.length_cons, AList.keys_erase,
    List.length_erase_of_mem (AList.mem_keys.mp hi)]
  omega

end Heimdall.Maps
