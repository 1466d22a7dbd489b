/-
Fixed-window counters.

A counter lets the first `limit` events of a window through. A window begins with an event and lasts
until it has expired for an event; that one begins the next. Windows that have expired may be thrown
away at any time.

# What is asked of time

`expired start now` is a relation and not a subtraction. That throwing away is invisible
(`answers_filter`) takes only that what has expired stays expired. The bound (`countP_answers_le`)
takes a set of times without gaps in which nothing expires: such a set cannot hold the beginnings of
two windows, so it meets two windows at most. The invariant says this without counting windows, by
the events before the current window (`Within.one`).
-/
import Mathlib.Order.Interval.Set.OrdConnected
import Mathlib.Data.List.Pairwise
import Mathlib.Logic.Function.Basic

set_option autoImplicit false

namespace Heimdall.FixedWindow

structure Window (T : Type*) where
  count : ℕ
  start : T
  deriving DecidableEq

/-- What is asked of a table of counters. -/
inductive Call (K : Type*) where
  | allow (key : K)
  | sweep

structure Answer (K T : Type*) where
  key : K
  time : T
  ok : Bool
  deriving DecidableEq

section Definitions

variable {K T : Type*} (expired : T → T → Prop) [∀ start now, Decidable (expired start now)]
variable (limit : ℕ)

def Call.isAllow : Call K → Bool
  | .allow _ => true
  | .sweep => false

/-- An event at `now`: whether it is let through, and the window after it. -/
def hit (now : T) : Option (Window T) → Bool × Window T
  | none => (true, ⟨1, now⟩)
  | some w =>
    if expired w.start now then (true, ⟨1, now⟩)
    else if limit ≤ w.count then (false, w)
    else (true, ⟨w.count + 1, w.start⟩)

/-- The times of the events of one counter that are let through. -/
def admitted (w : Option (Window T)) : List T → List T
  | [] => []
  | now :: ts =>
    if (hit expired limit now w).1 then
      now :: admitted (some (hit expired limit now w).2) ts
    else admitted (some (hit expired limit now w).2) ts

abbrev Table (K T : Type*) := K → Option (Window T)

def Table.sweep (m : Table K T) (now : T) : Table K T := fun k =>
  (m k).filter fun w => ¬ expired w.start now

variable [DecidableEq K]

def Table.allow (m : Table K T) (now : T) (key : K) : Bool × Table K T :=
  ((hit expired limit now (m key)).1,
    Function.update m key (some (hit expired limit now (m key)).2))

def answers (m : Table K T) : List (T × Call K) → List (Answer K T)
  | [] => []
  | (now, .allow key) :: calls =>
    ⟨key, now, (m.allow expired limit now key).1⟩ ::
      answers (m.allow expired limit now key).2 calls
  | (now, .sweep) :: calls => answers (m.sweep expired now) calls

/-- The times at which `key` is asked for. -/
def times (key : K) : List (T × Call K) → List T
  | [] => []
  | (now, .allow k) :: calls => if k = key then now :: times key calls else times key calls
  | (_, .sweep) :: calls => times key calls

end Definitions

section Steps

variable {K T : Type*} {expired : T → T → Prop} [∀ start now, Decidable (expired start now)]
variable {limit : ℕ} {now : T} {m : Table K T}

theorem hit_cases (expired : T → T → Prop) [∀ start now, Decidable (expired start now)] (limit : ℕ)
    (now : T) (w : Window T) :
    (expired w.start now ∧ hit expired limit now (some w) = (true, ⟨1, now⟩)) ∨
      (limit ≤ w.count ∧ hit expired limit now (some w) = (false, w)) ∨
      (w.count < limit ∧ hit expired limit now (some w) = (true, ⟨w.count + 1, w.start⟩)) := by
  simp only [hit]
  split_ifs with hexp hfull
  · exact .inl ⟨hexp, rfl⟩
  · exact .inr (.inl ⟨hfull, rfl⟩)
  · exact .inr (.inr ⟨not_le.mp hfull, rfl⟩)

variable [DecidableEq K]

theorem Table.allow_self (key : K) :
    (m.allow expired limit now key).2 key = some (hit expired limit now (m key)).2 :=
  Function.update_self ..

theorem Table.allow_of_ne {key k : K} (hk : k ≠ key) : (m.allow expired limit now key).2 k = m k :=
  Function.update_of_ne hk ..

theorem times_sublist (key : K) : ∀ calls : List (T × Call K),
    (times key calls).Sublist (calls.map Prod.fst)
  | [] => .slnil
  | (now, .allow k) :: calls => by
    rw [times, List.map_cons]
    split_ifs
    · exact (times_sublist key calls).cons_cons now
    · exact (times_sublist key calls).cons now
  | (now, .sweep) :: calls => (times_sublist key calls).cons now

end Steps

/-! ## Throwing away -/

/-- `m` is `m'` without some windows that have expired by `now`. -/
def Fades {K T : Type*} (expired : T → T → Prop) (now : T) (m m' : Table K T) : Prop :=
  ∀ k, m k = m' k ∨ m k = none ∧ ∃ w, m' k = some w ∧ expired w.start now

section Fades

variable {K T : Type*} {expired : T → T → Prop} {now : T} {m m' : Table K T}

theorem Fades.refl (now : T) (m : Table K T) : Fades expired now m m := fun _ => .inl rfl

theorem Fades.later [LE T] (hmono : ∀ start t u, t ≤ u → expired start t → expired start u) {u : T}
    (hle : now ≤ u) (hf : Fades expired now m m') : Fades expired u m m' := by
  intro k
  refine (hf k).imp_right ?_
  rintro ⟨hnone, w, hw, hexp⟩
  exact ⟨hnone, w, hw, hmono _ _ _ hle hexp⟩

variable [∀ start now, Decidable (expired start now)] {limit : ℕ}

theorem Fades.hit_eq (hf : Fades expired now m m') (k : K) :
    hit expired limit now (m k) = hit expired limit now (m' k) := by
  rcases hf k with heq | ⟨hnone, w, hw, hexp⟩
  · rw [heq]
  · rw [hnone, hw, hit, hit, if_pos hexp]

theorem Fades.sweep (hf : Fades expired now m m') : Fades expired now (m.sweep expired now) m' := by
  intro k
  unfold Table.sweep
  rcases hf k with heq | ⟨hnone, hrest⟩
  · rw [heq]
    cases hk : m' k with
    | none => exact .inl rfl
    | some w =>
      by_cases hexp : expired w.start now
      · exact .inr ⟨by simp [hexp], w, rfl, hexp⟩
      · exact .inl (by simp [hexp])
  · exact .inr ⟨by rw [hnone]; rfl, hrest⟩

variable [DecidableEq K]

/-- An event leaves the same window on both sides for its key and nothing new for the others. -/
theorem Fades.allow (hf : Fades expired now m m') (key : K) :
    Fades expired now (m.allow expired limit now key).2 (m'.allow expired limit now key).2 := by
  intro k
  by_cases hk : k = key
  · subst hk
    rw [Table.allow_self, Table.allow_self, hf.hit_eq]
    exact .inl rfl
  · rw [Table.allow_of_ne hk, Table.allow_of_ne hk]
    exact hf k

/-- With a clock that does not go back, sweeps make no difference to the answers. By induction on
the calls, with the table that was swept on one side and the one that was not on the other. -/
theorem Fades.answers_filter [LE T] (hmono : ∀ start t u, t ≤ u → expired start t → expired start u)
    {calls : List (T × Call K)} (hclock : (calls.map Prod.fst).Pairwise (· ≤ ·))
    (hnow : ∀ c ∈ calls, now ≤ c.1) (hf : Fades expired now m m') :
    answers expired limit m calls =
      answers expired limit m' (calls.filter fun c => c.2.isAllow) := by
  induction calls generalizing m m' now with
  | nil => rfl
  | cons c calls ih =>
    obtain ⟨u, call⟩ := c
    obtain ⟨hu, hrest⟩ := List.pairwise_cons.mp hclock
    have hlater : ∀ c ∈ calls, u ≤ c.1 := fun c hc => hu _ (List.mem_map_of_mem hc)
    have hfu := hf.later hmono (hnow _ List.mem_cons_self)
    cases call with
    | allow key =>
      -- an event makes the two tables agree on its key
      rw [List.filter_cons_of_pos rfl, answers, answers, ih hrest hlater (hfu.allow key)]
      simp only [Table.allow, hfu.hit_eq key]
    | sweep =>
      rw [List.filter_cons_of_neg (by simp [Call.isAllow]), answers]
      exact ih hrest hlater hfu.sweep

/-- A window that has expired and one that is missing are the same to the next event: it begins a
window. So the sweeps can be left out of a sequence of calls. -/
theorem answers_filter [Preorder T] (hmono : ∀ start t u, t ≤ u → expired start t → expired start u)
    (m : Table K T) {calls : List (T × Call K)} (hclock : (calls.map Prod.fst).Pairwise (· ≤ ·)) :
    answers expired limit m calls =
      answers expired limit m (calls.filter fun c => c.2.isAllow) := by
  cases calls with
  | nil => rfl
  | cons c calls =>
    refine (Fades.refl c.1 m).answers_filter hmono hclock fun d hd => ?_
    rcases List.mem_cons.mp hd with rfl | hd
    · exact le_rfl
    · exact (List.pairwise_cons.mp hclock).1 _ (List.mem_map_of_mem hd)

end Fades

/-! ## One counter -/

section Within

variable {T : Type*} [LinearOrder T] {limit : ℕ} {I : Set T} [DecidablePred (· ∈ I)]
variable {old cur : List T} {w : Window T} {now : T} {expired : T → T → Prop}

/-- The events `old` were let through before the window `w`, the events `cur` in it. -/
structure Within (limit : ℕ) (I : Set T) [DecidablePred (· ∈ I)] (old cur : List T) (w : Window T) :
    Prop where
  old_le : ∀ e ∈ old, e ≤ w.start
  le_cur : ∀ e ∈ cur, w.start ≤ e
  count : cur.length = w.count
  full : w.count ≤ limit
  two : old.countP (· ∈ I) ≤ 2 * limit
  /-- With the beginning of this window, `I` holds events of one window before it. -/
  one : w.start ∈ I → old.countP (· ∈ I) ≤ limit

theorem Within.cur_le (h : Within limit I old cur w) : cur.countP (· ∈ I) ≤ limit :=
  calc cur.countP (· ∈ I) ≤ cur.length := List.countP_le_length
    _ = w.count := h.count
    _ ≤ limit := h.full

theorem Within.old_outside (h : Within limit I old cur w) (hI : I.OrdConnected) {c : T} (hc : c ∈ I)
    (hle : w.start ≤ c) (hstart : w.start ∉ I) : old.countP (· ∈ I) = 0 := by
  refine List.countP_eq_zero.mpr fun e he hmem => hstart ?_
  exact hI.out (of_decide_eq_true hmem) hc ⟨h.old_le e he, hle⟩

/-- The bound as long as the window lasts. If its beginning is in `I`, one window before it counts
as well; if not, either nothing before it counts or nothing in it. -/
theorem Within.all_le (h : Within limit I old cur w) (hI : I.OrdConnected) :
    (old ++ cur).countP (· ∈ I) ≤ 2 * limit := by
  have hcur := h.cur_le
  have htwo := h.two
  rw [List.countP_append]
  by_cases hstart : w.start ∈ I
  · have hone := h.one hstart
    omega
  · -- the set lies on one side of the beginning of the window
    by_cases hany : ∃ c ∈ cur, c ∈ I
    · obtain ⟨c, hmem, hc⟩ := hany
      have hold := h.old_outside hI hc (h.le_cur c hmem) hstart
      omega
    · have hnone : cur.countP (· ∈ I) = 0 :=
        List.countP_eq_zero.mpr fun c hmem hc => hany ⟨c, hmem, of_decide_eq_true hc⟩
      omega

/-- The window has expired, and an event begins the next. Its beginning and that of the one before
are not both in `I`, as the one before has expired at this time. -/
theorem Within.renew (h : Within limit I old cur w) (hI : I.OrdConnected)
    (hfresh : ∀ a ∈ I, ∀ b ∈ I, a ≤ b → ¬ expired a b) (hlimit : 1 ≤ limit) (hstart : w.start ≤ now)
    (hcur : ∀ e ∈ cur, e ≤ now) (hexp : expired w.start now) :
    Within limit I (old ++ cur) [now] ⟨1, now⟩ where
  old_le e he := (List.mem_append.mp he).elim (fun he => (h.old_le e he).trans hstart) (hcur e)
  le_cur e he := (List.mem_singleton.mp he).ge
  count := rfl
  full := hlimit
  two := h.all_le hI
  one hnow := by
    -- the set does not hold both beginnings, so it holds nothing before the older one
    have hout : w.start ∉ I := fun hin => hfresh _ hin _ hnow hstart hexp
    rw [List.countP_append, h.old_outside hI hnow hstart hout, Nat.zero_add]
    exact h.cur_le

theorem Within.add (h : Within limit I old cur w) (hroom : w.count < limit)
    (hstart : w.start ≤ now) :
    Within limit I old (cur ++ [now]) ⟨w.count + 1, w.start⟩ where
  old_le := h.old_le
  le_cur e he := (List.mem_append.mp he).elim (h.le_cur e) fun he =>
    (List.mem_singleton.mp he) ▸ hstart
  count := by rw [List.length_append, h.count]; rfl
  full := hroom
  two := h.two
  one := h.one

variable [∀ start now, Decidable (expired start now)]

/-- Run lemma for one counter: by induction on the events to come, with the lists of those that
were let through growing along. A full window lets the event fall and stays. -/
theorem Within.admitted_le (h : Within limit I old cur w) (hI : I.OrdConnected)
    (hfresh : ∀ a ∈ I, ∀ b ∈ I, a ≤ b → ¬ expired a b) (hlimit : 1 ≤ limit) {ts : List T}
    (hclock : ts.Pairwise (· ≤ ·)) (hstart : ∀ t ∈ ts, w.start ≤ t)
    (hcur : ∀ t ∈ ts, ∀ e ∈ cur, e ≤ t) :
    (old ++ cur ++ admitted expired limit (some w) ts).countP (· ∈ I) ≤ 2 * limit := by
  induction ts generalizing old cur w with
  | nil =>
    rw [admitted, List.append_nil]
    exact h.all_le hI
  | cons now ts ih =>
    obtain ⟨hnow, hrest⟩ := List.pairwise_cons.mp hclock
    have hs := hstart now List.mem_cons_self
    have hstart' := fun t ht => hstart t (List.mem_cons_of_mem _ ht)
    have hcur' := fun t ht => hcur t (List.mem_cons_of_mem _ ht)
    -- the three cases of `hit`: the next window, nothing, one more
    rcases hit_cases expired limit now w with ⟨hexp, hhit⟩ | ⟨-, hhit⟩ | ⟨hroom, hhit⟩
    · rw [admitted, hhit, if_pos rfl]
      have hnew := h.renew hI hfresh hlimit hs (hcur now List.mem_cons_self) hexp
      have hbound := ih hnew hrest hnow fun t ht e he => (List.mem_singleton.mp he) ▸ hnow t ht
      rwa [List.append_assoc _ [now], List.singleton_append] at hbound
    · rw [admitted, hhit, if_neg nofun]
      exact ih h hrest hstart' hcur'
    · rw [admitted, hhit, if_pos rfl]
      have hbound := ih (h.add hroom hs) hrest hstart' fun t ht e he =>
        (List.mem_append.mp he).elim (hcur' t ht e) fun he => (List.mem_singleton.mp he) ▸ hnow t ht
      rwa [← List.append_assoc, List.append_assoc _ [now], List.singleton_append] at hbound

/-- The events let through are those before the current window and those in it. The set `I` is the
stretch of time over which they are counted; nothing expires in it. -/
theorem countP_admitted_le (hI : I.OrdConnected) (hfresh : ∀ a ∈ I, ∀ b ∈ I, a ≤ b → ¬ expired a b)
    (hlimit : 1 ≤ limit) {ts : List T} (hclock : ts.Pairwise (· ≤ ·)) :
    (admitted expired limit none ts).countP (· ∈ I) ≤ 2 * limit := by
  cases ts with
  | nil => exact Nat.zero_le _
  | cons now ts =>
    obtain ⟨hnow, hrest⟩ := List.pairwise_cons.mp hclock
    have hfirst : Within limit I [] [now] ⟨1, now⟩ :=
      ⟨nofun, fun e he => (List.mem_singleton.mp he).ge, rfl, hlimit, Nat.zero_le _,
        fun _ => Nat.zero_le _⟩
    exact hfirst.admitted_le hI hfresh hlimit hrest hnow fun t ht e he =>
      (List.mem_singleton.mp he) ▸ hnow t ht

end Within

/-! ## All counters -/

section Table

variable {K T : Type*} [DecidableEq K] {expired : T → T → Prop}
variable [∀ start now, Decidable (expired start now)] {limit : ℕ} {I : Set T}
  [DecidablePred (· ∈ I)]
variable {calls : List (T × Call K)}

theorem countP_answers (key : K) (m : Table K T) (hallow : ∀ c ∈ calls, c.2.isAllow = true) :
    (answers expired limit m calls).countP (fun a => a.key = key ∧ a.ok = true ∧ a.time ∈ I) =
      (admitted expired limit (m key) (times key calls)).countP (· ∈ I) := by
  induction calls generalizing m with
  | nil => rfl
  | cons c calls ih =>
    obtain ⟨now, call⟩ := c
    have hrest := fun m => ih m fun c hc => hallow c (List.mem_cons_of_mem _ hc)
    cases call with
    | allow k =>
      rw [answers, times, List.countP_cons, hrest]
      by_cases hk : k = key
      · -- the event is on the list of its counter if it was let through
        subst hk
        rw [if_pos rfl, Table.allow_self, admitted, Table.allow]
        cases (hit expired limit now (m k)).1
        · simp
        · simp [List.countP_cons]
      · rw [if_neg hk, Table.allow_of_ne (Ne.symm hk)]
        simp [hk]
    | sweep => exact absurd (hallow _ List.mem_cons_self) nofun

/-- Of the events of a key in a set of times without gaps in which nothing expires, no more than
twice the limit are let through. Twice, because the set may meet the end of one window and the
beginning of another. -/
theorem countP_answers_le [LinearOrder T]
    (hmono : ∀ start t u, t ≤ u → expired start t → expired start u)
    (hI : I.OrdConnected) (hfresh : ∀ a ∈ I, ∀ b ∈ I, a ≤ b → ¬ expired a b)
    (hlimit : 1 ≤ limit) (hclock : (calls.map Prod.fst).Pairwise (· ≤ ·)) (key : K) :
    (answers expired limit (fun _ => none) calls).countP
      (fun a => a.key = key ∧ a.ok = true ∧ a.time ∈ I) ≤ 2 * limit := by
  have hsub : ((calls.filter fun c => c.2.isAllow).map Prod.fst).Sublist (calls.map Prod.fst) :=
    List.filter_sublist.map _
  rw [answers_filter hmono _ hclock, countP_answers key _ fun c hc => (List.mem_filter.mp hc).2]
  exact countP_admitted_le hI hfresh hlimit (hclock.sublist ((times_sublist key _).trans hsub))

end Table

end Heimdall.FixedWindow
