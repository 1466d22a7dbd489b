/-
One pass over a list that keeps some of its items.

Whether an item is kept depends on it and on what has been kept before. Nothing is assumed about
that decision: the pass returns a sublist, what it has kept up to some point is a prefix of the
result, an item that is not in the result was refused when its turn came, and a second pass over
the result keeps all of it, since every item meets the same state again.
-/
import Mathlib.Tactic
import Mathlib.Data.List.Infix

set_option autoImplicit false

namespace Heimdall.Selection

variable {α : Type*} (ok : List α → α → Bool)

/-- The pass, from what has been kept so far. -/
def select (out : List α) : List α → List α
  | [] => out
  | c :: cs => select (if ok out c then out ++ [c] else out) cs

variable {ok} {out xs ys pre post : List α} {c : α}

theorem select_append : select ok out (xs ++ ys) = select ok (select ok out xs) ys := by
  induction xs generalizing out with
  | nil => rfl
  | cons x xs ih => exact ih

theorem select_snoc : select ok out (xs ++ [c])
    = if ok (select ok out xs) c then select ok out xs ++ [c] else select ok out xs :=
  select_append

theorem select_of_refused (h : ∀ c, ok out c = false) : select ok out xs = out := by
  induction xs with
  | nil => rfl
  | cons x xs ih => rw [select, if_neg (by simp [h x]), ih]

theorem prefix_select : out <+: select ok out xs := by
  induction xs using List.reverseRecOn with
  | nil => exact List.prefix_rfl
  | append_singleton xs c ih =>
    rw [select_snoc]
    split_ifs
    · exact ih.trans (List.prefix_append _ _)
    · exact ih

/-- **The invariant rule.** What an accepted item keeps holds of the result. By induction on the
items from the last one, as an item is judged by what was kept before it. -/
theorem select_invariant (P : List α → Prop) (h0 : P [])
    (hstep : ∀ out c, P out → ok out c = true → P (out ++ [c])) (xs : List α) :
    P (select ok [] xs) := by
  induction xs using List.reverseRecOn with
  | nil => exact h0
  | append_singleton xs c ih =>
    rw [select_snoc]
    split_ifs with hok
    · exact hstep _ _ ih hok
    · exact ih

theorem select_sublist (xs : List α) : (select ok [] xs).Sublist xs := by
  induction xs using List.reverseRecOn with
  | nil => exact List.Sublist.refl []
  | append_singleton xs c ih =>
    rw [select_snoc]
    split_ifs
    · exact ih.append (List.Sublist.refl [c])
    · exact ih.trans (List.sublist_append_left xs [c])

theorem select_initial (pre post : List α) : select ok [] pre <+: select ok [] (pre ++ post) := by
  rw [select_append]
  exact prefix_select

theorem snoc_prefix_select (hok : ok (select ok [] pre) c = true) :
    select ok [] pre ++ [c] <+: select ok [] (pre ++ c :: post) := by
  have hpre : select ok [] (pre ++ [c]) <+: select ok [] (pre ++ [c] ++ post) := select_initial _ _
  rw [select_snoc, if_pos hok, List.append_assoc] at hpre
  exact hpre

theorem mem_select_iff : c ∈ select ok [] xs ↔
    ∃ pre post, xs = pre ++ c :: post ∧ ok (select ok [] pre) c = true := by
  constructor
  · induction xs using List.reverseRecOn with
    | nil => intro h; cases h
    | append_singleton xs d ih =>
      intro h
      rw [select_snoc] at h
      -- it was in the result before the last item, or it is the last item
      by_cases hin : c ∈ select ok [] xs
      · obtain ⟨pre, post, rfl, hok⟩ := ih hin
        exact ⟨pre, post ++ [d], by simp, hok⟩
      · split_ifs at h with hok
        · obtain rfl : c = d := by simpa [hin] using h
          exact ⟨xs, [], rfl, hok⟩
        · exact absurd h hin
  · rintro ⟨pre, post, rfl, hok⟩
    exact (snoc_prefix_select hok).subset (by simp)

/-- A relation between the items of the result is one between an accepted item and those kept
before it. So such a property of the whole can be checked where the items are accepted. -/
theorem pairwise_select_iff {R : α → α → Prop} : (select ok [] xs).Pairwise R ↔
    ∀ pre c post, xs = pre ++ c :: post → ok (select ok [] pre) c = true →
      ∀ d ∈ select ok [] pre, R d c := by
  constructor
  · rintro h pre c post rfl hok d hd
    have hkept := h.sublist (snoc_prefix_select hok).sublist
    exact (List.pairwise_append.mp hkept).2.2 d hd c (by simp)
  · intro h
    induction xs using List.reverseRecOn with
    | nil => exact List.Pairwise.nil
    | append_singleton xs c ih =>
      -- the last item is related to all that was kept before it, or refused
      have hxs := ih fun pre d post hd => h pre d (post ++ [c]) (by simp [hd])
      rw [select_snoc]
      split_ifs with hok
      · refine List.pairwise_append.mpr ⟨hxs, List.pairwise_singleton R c, fun d hd e he => ?_⟩
        obtain rfl := List.mem_singleton.mp he
        exact h xs e [] rfl hok d hd
      · exact hxs

/-- **Nothing is missed**: an item that is not in the result was refused in its turn. -/
theorem refused_of_notMem (h : c ∉ select ok [] (pre ++ c :: post)) :
    ok (select ok [] pre) c = false := by
  by_contra hok
  exact h (mem_select_iff.mpr ⟨pre, post, rfl, by simpa using hok⟩)

/-- **A second pass changes nothing.** What was accepted is accepted again, in view of the same
items, as all that was kept before it comes before it again. -/
theorem select_idem (xs : List α) : select ok [] (select ok [] xs) = select ok [] xs := by
  induction xs using List.reverseRecOn with
  | nil => rfl
  | append_singleton xs c ih =>
    rw [select_snoc]
    split_ifs with hok
    · -- the first pass over the prefix gives the prefix, so `c` is decided on as before
      rw [select_snoc, ih, if_pos hok]
    · exact ih

end Heimdall.Selection
