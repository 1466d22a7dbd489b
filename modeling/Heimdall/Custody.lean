/-
Counting items that are handed from holder to holder.

A list of holders, each of which has some items. `times` says how often an item is held in all,
and the lemmas say how that changes when one holder changes or a new one joins. A conservation
law is then one equation between numbers, kept by each step: what a holder gives away, another
one has got.
-/
import Mathlib.Tactic

set_option autoImplicit false

namespace Heimdall.Custody

variable {H α : Type*} [DecidableEq α] {held : H → List α} {hs : List H} {h : H} {c : α}

/-- How often the holders have the item `c`, counting an item that one holder has twice as two. -/
def times (held : H → List α) (hs : List H) (c : α) : ℕ := (hs.map fun h => (held h).count c).sum

theorem times_cons : times held (h :: hs) c = (held h).count c + times held hs c := by
  rw [times, List.map_cons, List.sum_cons]
  rfl

theorem times_snoc : times held (hs ++ [h]) c = times held hs c + (held h).count c := by
  rw [times, List.map_append, List.sum_append]
  simp [times]

/-- **One holder changes**: what it has now replaces what it had. Stated with sums on both sides,
since a difference would not be one of natural numbers. -/
theorem times_set (held : H → List α) {i : ℕ} (hi : hs[i]? = some h) (h' : H) (c : α) :
    times held (hs.set i h') c + (held h).count c = times held hs c + (held h').count c := by
  induction hs generalizing i with
  | nil => exact absurd hi (by simp)
  | cons k hs ih =>
    rcases i with _ | i
    · obtain rfl : k = h := by simpa using hi
      rw [List.set_cons_zero, times_cons, times_cons]
      omega
    · have hrest := ih (i := i) (by simpa using hi)
      rw [List.set_cons_succ, times_cons, times_cons]
      omega

theorem times_eq_zero_iff : times held hs c = 0 ↔ ∀ h ∈ hs, c ∉ held h := by
  simp [times, List.sum_eq_zero_iff, List.count_eq_zero]

end Heimdall.Custody
