/-
The publish rate limit, `rateCounter` in `internal/relay/limits.go`.

`serveConn` asks `allow` once for every `publish` message, with the source address for key; the
reaper calls `sweep` when it comes by. Both compare `now.Sub(w.start)` with the period, each at its
own time, and the map may or may not hold a window that is over. `FixedWindow` is the same with a
function for the map and a relation for the comparison, and the answers are the same
(`answers_view`).

Times are nanoseconds of a clock that does not go back. `Sub` is exact up to the ends of `Duration`;
nothing here needs more than that it is monotone and never too large.
-/
import Heimdall.FixedWindow
import Heimdall.Maps
import Heimdall.Peers

set_option autoImplicit false

namespace Heimdall.Relay

open Heimdall.Peers (GoString)
open Heimdall.FixedWindow

/-! ## The counter -/

def minDuration : ℤ := -2 ^ 63

def maxDuration : ℤ := 2 ^ 63 - 1

/-- `Time.Sub`, which stops at the ends of `Duration`. -/
def sub (t u : ℤ) : ℤ := max minDuration (min maxDuration (t - u))

structure RateCounter where
  windows : AList fun _ : GoString => Window ℤ := ∅

namespace RateCounter

variable (r : RateCounter) (limit : ℕ) (per now : ℤ)

def allow (key : GoString) : Bool × RateCounter :=
  match r.windows.lookup key with
  | none => (true, ⟨r.windows.insert key ⟨1, now⟩⟩)
  | some w =>
    if sub now w.start > per then (true, ⟨r.windows.insert key ⟨1, now⟩⟩)
    else if w.count ≥ limit then (false, r)
    else (true, ⟨r.windows.insert key { w with count := w.count + 1 }⟩)

def sweep : RateCounter :=
  ⟨Maps.sweep r.windows fun _ w => sub now w.start > per⟩

def answers (r : RateCounter) : List (ℤ × Call GoString) → List (Answer GoString ℤ)
  | [] => []
  | (now, .allow key) :: calls =>
    ⟨key, now, (r.allow limit per now key).1⟩ :: (r.allow limit per now key).2.answers calls
  | (now, .sweep) :: calls => (r.sweep per now).answers calls

/-! ## As a fixed-window counter -/

def Expired (start now : ℤ) : Prop := sub now start > per

instance (start now : ℤ) : Decidable (Expired per start now) :=
  inferInstanceAs (Decidable (sub now start > per))

def view : Table GoString ℤ := fun key => r.windows.lookup key

theorem view_insert (key : GoString) (w : Window ℤ) :
    view ⟨r.windows.insert key w⟩ = Function.update r.view key (some w) := by
  funext k
  by_cases hk : k = key
  · subst hk
    rw [Function.update_self]
    exact AList.lookup_insert _
  · rw [Function.update_of_ne hk]
    exact AList.lookup_insert_ne hk

/-- **`allow` is an event of the table**: the same answer, and the same windows after it. -/
theorem view_allow (key : GoString) :
    ((r.allow limit per now key).1, (r.allow limit per now key).2.view) =
      r.view.allow (Expired per) limit now key := by
  unfold allow Table.allow
  cases hw : r.windows.lookup key with
  | none =>
    rw [show r.view key = none from hw]
    exact Prod.ext rfl (r.view_insert key _)
  | some w =>
    have hview : r.view key = some w := hw
    dsimp only
    rw [hview, hit]
    by_cases hexp : sub now w.start > per
    · rw [if_pos hexp, if_pos (show Expired per w.start now from hexp)]
      exact Prod.ext rfl (r.view_insert key _)
    · rw [if_neg hexp, if_neg (show ¬ Expired per w.start now from hexp)]
      split_ifs
      · -- a refusal writes back the window that is there
        rw [← hview, Function.update_eq_self]
      · exact Prod.ext rfl (r.view_insert key _)

/-- The map of windows, read as a function, is a table of counters of the library. Sweeping the
map is sweeping the table. -/
theorem view_sweep : (r.sweep per now).view = r.view.sweep (Expired per) now := by
  funext k
  refine Option.ext fun w => ?_
  rw [Table.sweep, Option.filter_eq_some_iff]
  exact (Maps.lookup_sweep _ _).trans (and_congr_right fun _ => by simp [Expired])

/-- **The answers to any calls are those of the table.** By induction on the calls: each call
answers as the table does and leaves a limiter whose view is the table after the call. -/
theorem answers_view (calls : List (ℤ × Call GoString)) :
    r.answers limit per calls = FixedWindow.answers (Expired per) limit r.view calls := by
  induction calls generalizing r with
  | nil => rfl
  | cons c calls ih =>
    obtain ⟨now, call⟩ := c
    cases call with
    | allow key =>
      obtain ⟨hok, hnext⟩ := Prod.ext_iff.mp (r.view_allow limit per now key)
      rw [answers, FixedWindow.answers, ih, ← hok, ← hnext]
    | sweep => rw [answers, FixedWindow.answers, ih, view_sweep]

/-! ## Time -/

/-- `Time.Sub` stops at the ends of `Duration` instead of wrapping, so what has expired stays
expired. That is all that is asked of it. -/
theorem Expired.later {per : ℤ} (start t u : ℤ) (hle : t ≤ u) (h : Expired per start t) :
    Expired per start u := by
  unfold Expired sub minDuration maxDuration at *
  omega

/-- In a closed interval as long as the period, no window ends. The comparison of the source is
strict, which is why both ends of the interval may belong to it. -/
theorem not_expired {per t a b : ℤ} (ha : a ∈ Set.Icc t (t + per)) (hb : b ∈ Set.Icc t (t + per))
    (hle : a ≤ b) : ¬ Expired per a b := by
  obtain ⟨hta, -⟩ := ha
  obtain ⟨-, hbt⟩ := hb
  unfold Expired sub minDuration maxDuration
  omega

end RateCounter

/-- **The rate limit is bounded and sweeping is invisible.** The answers to any calls are those
without the sweeps among them, and of the events of a key in a closed interval as long as the
period, at most twice the limit are allowed. -/
theorem rate_limit_bounded (limit : ℕ) (per : ℤ) (calls : List (ℤ × Call GoString))
    (hlimit : 1 ≤ limit) (hclock : (calls.map Prod.fst).Pairwise (· ≤ ·)) :
    RateCounter.answers limit per {} calls =
        RateCounter.answers limit per {} (calls.filter fun c => c.2.isAllow) ∧
      ∀ (key : GoString) (t : ℤ), (RateCounter.answers limit per {} calls).countP
        (fun a => a.key = key ∧ a.ok = true ∧ a.time ∈ Set.Icc t (t + per)) ≤ 2 * limit := by
  simp only [RateCounter.answers_view]
  refine ⟨answers_filter RateCounter.Expired.later _ hclock, fun key t => ?_⟩
  exact countP_answers_le RateCounter.Expired.later Set.ordConnected_Icc
    (fun a ha b hb hle => RateCounter.not_expired ha hb hle) hlimit hclock key

/-- An interval that meets two windows: with a limit of two, three events within a period. -/
theorem rate_limit_bounded_two_windows :
    ∃ calls : List (ℤ × Call GoString), (calls.map Prod.fst).Pairwise (· ≤ ·) ∧
      (RateCounter.answers 2 60 {} calls).countP
        (fun a => a.key = [49] ∧ a.ok = true ∧ a.time ∈ Set.Icc (60 : ℤ) (60 + 60)) = 3 ∧
      RateCounter.answers 2 60 {} calls =
        RateCounter.answers 2 60 {} (calls.filter fun c => c.2.isAllow) := by
  refine ⟨[(0, .allow [49]), (60, .allow [49]), (60, .allow [49]), (61, .sweep), (61, .allow [49]),
    (62, .allow [49]), (62, .allow [49])], by decide, ?_, ?_⟩
  · decide
  · exact (rate_limit_bounded 2 60 _ (by decide) (by decide)).1

end Heimdall.Relay
