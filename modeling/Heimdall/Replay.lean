/-
`internal/proto/replay.go`: the sliding replay window, and what it stands for.

The window is a bitmap of sixteen 64-bit words indexed by age: bit `a` says whether the
sequence number `highest - a` has been accepted. `slide` shifts the words in place, top word
first. The specification is a finite set of accepted numbers; `Tracks` relates the two, and
`check_spec` says that one call of `check` answers as the set does and keeps the relation;
`checkAll_refines` is the same for a whole sequence of calls.
-/
import Mathlib.Data.Finset.Lattice.Fold
import Mathlib.Tactic

set_option autoImplicit false

namespace Heimdall.Proto

/-! ## The code -/

def windowSize : ℕ := 1024

abbrev Bitmap := Vector (BitVec 64) 16

/-- `replayWindow`; the default is Go's zero value. -/
structure ReplayWindow where
  highest : UInt64 := 0
  started : Bool := false
  bitmap : Bitmap := Vector.replicate 16 0
  deriving DecidableEq

def word (bm : Bitmap) (i : ℕ) : BitVec 64 := (bm[i]?).getD 0

/-- The new value of word `i`, computed from the words at and below `i - words`. -/
def slideWord (bm : Bitmap) (words bits i : ℕ) : BitVec 64 :=
  if words ≤ i then
    let v := word bm (i - words) <<< bits
    if bits ≠ 0 ∧ 1 ≤ i - words then v ||| word bm (i - words - 1) >>> (64 - bits) else v
  else 0

/-- The loop of `slide`: index `i - 1` first, then downwards, in place. -/
def slideLoop (words bits : ℕ) : (i : ℕ) → i ≤ 16 → Bitmap → Bitmap
  | 0, _, bm => bm
  | i + 1, h, bm => slideLoop words bits i (by omega) (bm.set i (slideWord bm words bits i))

def slide (bm : Bitmap) (shift : ℕ) : Bitmap :=
  if windowSize ≤ shift then Vector.replicate 16 0
  else slideLoop (shift / 64) (shift % 64) 16 le_rfl bm

def bitIndex (highest seq : UInt64) : ℕ × ℕ :=
  ((highest - seq).toNat / 64, (highest - seq).toNat % 64)

def mark (highest seq : UInt64) (bm : Bitmap) : Bitmap :=
  if h : (bitIndex highest seq).1 < 16 then
    bm.set (bitIndex highest seq).1
      (word bm (bitIndex highest seq).1 ||| 1#64 <<< (bitIndex highest seq).2)
  else bm

def seen (highest seq : UInt64) (bm : Bitmap) : Bool :=
  word bm (bitIndex highest seq).1 &&& 1#64 <<< (bitIndex highest seq).2 ≠ 0

def check (w : ReplayWindow) (seq : UInt64) : ReplayWindow × Bool :=
  if w.started = false then
    ({ highest := seq, started := true, bitmap := mark seq seq w.bitmap }, true)
  else if seq > w.highest then
    ({ w with highest := seq, bitmap := mark seq seq (slide w.bitmap (seq - w.highest).toNat) },
      true)
  else if seq = w.highest then (w, false)
  else if windowSize ≤ (w.highest - seq).toNat then (w, false)
  else if seen w.highest seq w.bitmap then (w, false)
  else ({ w with bitmap := mark w.highest seq w.bitmap }, true)

/-! ## The specification

What a replay window is for: to accept each number once, without keeping all of them. The reference
keeps all of them, and refuses only what the window could not tell. -/

/-- The reference answer: a number is accepted when it has not been accepted before and is
not `windowSize` or more behind the largest accepted one. -/
def accepts (S : Finset ℕ) (seq : ℕ) : Prop :=
  seq ∉ S ∧ (S = ∅ ∨ S.sup id < seq ∨ S.sup id - seq < windowSize)

instance (S : Finset ℕ) (seq : ℕ) : Decidable (accepts S seq) := by
  unfold accepts; infer_instance

/-- The set after a number has been offered. -/
def record (S : Finset ℕ) (seq : ℕ) : Finset ℕ := if accepts S seq then insert seq S else S

/-- Bit `a` of the bitmap. -/
def bit (bm : Bitmap) (a : ℕ) : Bool := (word bm (a / 64)).getLsbD (a % 64)

/-- The window `w` stands for the set `S`: `highest` is its maximum, and bit `a` is set
exactly for the members of age `a`. -/
structure Tracks (w : ReplayWindow) (S : Finset ℕ) : Prop where
  started : w.started = true ↔ S.Nonempty
  highest : w.started = true → w.highest.toNat = S.sup id
  bits : ∀ a < windowSize, bit w.bitmap a = true ↔
    w.started = true ∧ a ≤ w.highest.toNat ∧ w.highest.toNat - a ∈ S

/-! ## Bits under `mark` and `slide` -/

theorem word_set (bm : Bitmap) (i j : ℕ) (h : i < 16) (v : BitVec 64) :
    word (bm.set i v) j = if i = j then v else word bm j := by
  unfold word
  by_cases hij : i = j
  · subst hij
    simp [h]
  · rw [if_neg hij, Vector.getElem?_set_ne _ hij]

theorem bit_replicate (a : ℕ) : bit (Vector.replicate 16 0) a = false := by
  unfold bit word
  by_cases ha : a / 64 < 16
  · simp [ha]
  · simp [ha]

/-- The loop goes downwards in place. A word is computed from words at and below it, which it has
not changed yet. -/
theorem slideWord_congr {bm bm' : Bitmap} {j : ℕ} (words bits : ℕ)
    (h : ∀ k ≤ j, word bm k = word bm' k) :
    slideWord bm words bits j = slideWord bm' words bits j := by
  simp only [slideWord, h (j - words) (by omega), h (j - words - 1) (by omega)]

/-- The in-place loop never reads a word it has already written: below the processed range the
bitmap is still the original, so every word ends up as if computed from the original. By induction
on the words that are left. -/
theorem word_slideLoop (words bits : ℕ) (i : ℕ) (hi : i ≤ 16) (bm : Bitmap) (j : ℕ) :
    word (slideLoop words bits i hi bm) j
      = if j < i then slideWord bm words bits j else word bm j := by
  induction i generalizing bm with
  | zero => simp [slideLoop]
  | succ i ih =>
    rw [slideLoop, ih]
    by_cases hji : j < i
    · rw [if_pos hji, if_pos (by omega)]
      refine slideWord_congr words bits fun k hk => ?_
      rw [word_set, if_neg (by omega)]
    · rw [if_neg hji, word_set]
      by_cases hij : i = j
      · rw [if_pos hij, if_pos (by omega), hij]
      · rw [if_neg hij, if_neg (by omega)]

/-- One shifted word, bit by bit. A bit comes from the word that is the whole part of the shift
below, or from the one below that, if the rest of the shift carries it over. -/
theorem getLsbD_slideWord (bm : Bitmap) (shift a : ℕ) :
    (slideWord bm (shift / 64) (shift % 64) (a / 64)).getLsbD (a % 64)
      = (decide (shift ≤ a) && bit bm (a - shift)) := by
  have ha : a % 64 < 64 := Nat.mod_lt _ (by norm_num)
  have hs : shift % 64 < 64 := Nat.mod_lt _ (by norm_num)
  have hadiv := Nat.div_add_mod a 64
  have hsdiv := Nat.div_add_mod shift 64
  unfold slideWord bit
  by_cases hw : shift / 64 ≤ a / 64
  · rw [if_pos hw]
    by_cases hlow : shift % 64 ≤ a % 64
    · -- the bit stays in the word `a/64 - shift/64`
      have hle : shift ≤ a := by omega
      have hdiv : (a - shift) / 64 = a / 64 - shift / 64 := by omega
      have hmod : (a - shift) % 64 = a % 64 - shift % 64 := by omega
      have hhigh : ∀ x : BitVec 64, (x >>> (64 - shift % 64)).getLsbD (a % 64) = false := by
        intro x
        rw [BitVec.getLsbD_ushiftRight]
        exact BitVec.getLsbD_of_ge _ _ (by omega)
      have hshl : (word bm (a / 64 - shift / 64) <<< (shift % 64)).getLsbD (a % 64)
          = (word bm (a / 64 - shift / 64)).getLsbD (a % 64 - shift % 64) := by
        rw [BitVec.getLsbD_shiftLeft]
        simp [ha, hlow]
      simp only [hle, decide_true, Bool.true_and, hdiv, hmod]
      split_ifs
      · rw [BitVec.getLsbD_or, hshl, hhigh, Bool.or_false]
      · exact hshl
    · -- the bit comes from the word below, if there is one
      have hshl : (word bm (a / 64 - shift / 64) <<< (shift % 64)).getLsbD (a % 64) = false := by
        rw [BitVec.getLsbD_shiftLeft]
        have hlt : a % 64 < shift % 64 := by omega
        simp [hlt]
      by_cases hsrc : 1 ≤ a / 64 - shift / 64
      · rw [if_pos ⟨by omega, hsrc⟩]
        have hle : shift ≤ a := by omega
        have hdiv : (a - shift) / 64 = a / 64 - shift / 64 - 1 := by omega
        have hmod : (a - shift) % 64 = 64 - shift % 64 + a % 64 := by omega
        simp only [hle, decide_true, Bool.true_and, hdiv, hmod]
        rw [BitVec.getLsbD_or, hshl, Bool.false_or, BitVec.getLsbD_ushiftRight]
      · rw [if_neg (by omega)]
        have hnle : ¬ shift ≤ a := by omega
        simp only [hnle, decide_false, Bool.false_and]
        exact hshl
  · have hnle : ¬ shift ≤ a := fun h => hw (Nat.div_le_div_right h)
    rw [if_neg hw]
    simp [hnle]

/-- **`slide`** moves every bit up by the shift and clears the low bits. -/
theorem bit_slide (bm : Bitmap) (shift a : ℕ) (ha : a < windowSize) :
    bit (slide bm shift) a = (decide (shift ≤ a) && bit bm (a - shift)) := by
  unfold slide
  by_cases hbig : windowSize ≤ shift
  · rw [if_pos hbig, bit_replicate]
    have hnle : ¬ shift ≤ a := by omega
    simp [hnle]
  · have hidx : a / 64 < 16 := by simp only [windowSize] at ha; omega
    rw [if_neg hbig, ← getLsbD_slideWord]
    show (word (slideLoop (shift / 64) (shift % 64) 16 le_rfl bm) (a / 64)).getLsbD (a % 64) = _
    rw [word_slideLoop, if_pos hidx]

theorem getLsbD_one_shiftLeft (b i : ℕ) (hi : i < 64) :
    (1#64 <<< b).getLsbD i = decide (i = b) := by
  rw [BitVec.getLsbD_shiftLeft, BitVec.getLsbD_one]
  by_cases h1 : i < b
  · have h2 : ¬ i = b := by omega
    simp [h1, h2]
  · by_cases h2 : i = b
    · subst h2; simp [hi]
    · have h3 : ¬ i - b = 0 := by omega
      simp [h2, h3]

/-- **`mark`** sets the bit of the age of `seq` and no other. The age must be within the window,
or there would be no word for it. -/
theorem bit_mark (highest seq : UInt64) (bm : Bitmap) (a : ℕ)
    (hage : (highest - seq).toNat < windowSize) :
    bit (mark highest seq bm) a = (bit bm a || decide (a = (highest - seq).toNat)) := by
  have hidx : (bitIndex highest seq).1 < 16 := by
    simp only [windowSize] at hage
    simp only [bitIndex]
    omega
  have ha := Nat.div_add_mod a 64
  have hb := Nat.div_add_mod (highest - seq).toNat 64
  have h1 : (bitIndex highest seq).1 = (highest - seq).toNat / 64 := rfl
  have h2 : (bitIndex highest seq).2 = (highest - seq).toNat % 64 := rfl
  rw [mark, dif_pos hidx, bit, word_set]
  -- only the word of the age is written, and in it only one bit differs
  by_cases hw : (bitIndex highest seq).1 = a / 64
  · rw [if_pos hw, BitVec.getLsbD_or, getLsbD_one_shiftLeft _ _ (Nat.mod_lt _ (by norm_num)), hw,
      h2]
    show _ = ((word bm (a / 64)).getLsbD (a % 64) || _)
    congr 1
    simp only [decide_eq_decide]
    omega
  · have hne : ¬ a = (highest - seq).toNat := fun h => hw (by rw [h, h1])
    rw [if_neg hw]
    simp [hne, bit]

/-- **`seen`** reads the bit of the age of `seq`: the word and its one bit are zero together
exactly if the bit is not set. -/
theorem seen_eq_bit (highest seq : UInt64) (bm : Bitmap) :
    seen highest seq bm = bit bm (highest - seq).toNat := by
  have hlt : (highest - seq).toNat % 64 < 64 := Nat.mod_lt _ (by norm_num)
  rw [seen, bit, Bool.eq_iff_iff, decide_eq_true_iff, ne_eq, not_iff_comm, Bool.not_eq_true]
  simp only [bitIndex]
  constructor
  · intro h
    apply BitVec.eq_of_getLsbD_eq
    intro i hi
    rw [BitVec.getLsbD_and, getLsbD_one_shiftLeft _ _ hi]
    by_cases h1 : i = (highest - seq).toNat % 64
    · subst h1; simp [h]
    · simp [h1]
  · intro h
    have h' := congrArg (fun x : BitVec 64 => x.getLsbD ((highest - seq).toNat % 64)) h
    simpa [BitVec.getLsbD_and, getLsbD_one_shiftLeft _ _ hlt] using h'

/-! ## `check` against the specification -/

theorem tracks_zero : Tracks {} ∅ where
  started := by simp
  highest := by simp
  bits a _ := by rw [bit_replicate]; simp

theorem Tracks.le_highest {w : ReplayWindow} {S : Finset ℕ} (h : Tracks w S)
    (hs : w.started = true) {n : ℕ} (hn : n ∈ S) : n ≤ w.highest.toNat := by
  rw [h.highest hs]
  exact Finset.le_sup (f := id) hn

/-- Accepting a number above the maximum: the window slides and marks it. The age of every number
grows by the difference, and what gets too old is shifted out. -/
theorem tracks_slide {w : ReplayWindow} {S : Finset ℕ} {seq : UInt64} (h : Tracks w S)
    (hs : w.started = true) (hgt : w.highest < seq) :
    Tracks { w with highest := seq
                    bitmap := mark seq seq (slide w.bitmap (seq - w.highest).toNat) }
      (insert seq.toNat S) := by
  have hlt : w.highest.toNat < seq.toNat := UInt64.lt_iff_toNat_lt.mp hgt
  have hsub : (seq - w.highest).toNat = seq.toNat - w.highest.toNat :=
    UInt64.toNat_sub_of_le _ _ (UInt64.le_of_lt hgt)
  have hsup : (insert seq.toNat S).sup id = seq.toNat := by
    rw [Finset.sup_insert, ← h.highest hs]
    simp only [id_eq, sup_eq_left]
    omega
  refine ⟨by simp [hs], fun _ => hsup.symm, fun a ha => ?_⟩
  rw [bit_mark _ _ _ _ (by simp [windowSize]), bit_slide _ _ _ ha, hsub]
  simp only [UInt64.sub_self, UInt64.toNat_zero, Bool.or_eq_true, Bool.and_eq_true,
    decide_eq_true_eq, hs, true_and, Finset.mem_insert]
  -- bit `a` was bit `a - shift` before, so it stands for the same number
  rw [h.bits _ (by omega)]
  constructor
  · rintro (⟨hsa, -, hle, hmem⟩ | rfl)
    · refine ⟨by omega, .inr ?_⟩
      convert hmem using 1
      omega
    · simp
  · rintro ⟨hle, heq | hmem⟩
    · exact .inr (by omega)
    · have hold := h.le_highest hs hmem
      refine .inl ⟨by omega, hs, by omega, ?_⟩
      convert hmem using 1
      omega

theorem tracks_mark {w : ReplayWindow} {S : Finset ℕ} {seq : UInt64} (h : Tracks w S)
    (hs : w.started = true) (hle : seq ≤ w.highest)
    (hage : (w.highest - seq).toNat < windowSize) :
    Tracks { w with bitmap := mark w.highest seq w.bitmap } (insert seq.toNat S) := by
  have hle' : seq.toNat ≤ w.highest.toNat := UInt64.le_iff_toNat_le.mp hle
  have hsub : (w.highest - seq).toNat = w.highest.toNat - seq.toNat :=
    UInt64.toNat_sub_of_le _ _ hle
  have hsup : (insert seq.toNat S).sup id = w.highest.toNat := by
    rw [Finset.sup_insert, ← h.highest hs]
    simpa using hle'
  refine ⟨by simp [hs], fun _ => hsup.symm, fun a ha => ?_⟩
  rw [bit_mark _ _ _ _ hage, hsub]
  simp only [Bool.or_eq_true, decide_eq_true_eq, hs, true_and, Finset.mem_insert]
  rw [h.bits _ ha]
  constructor
  · rintro (⟨-, hla, hmem⟩ | rfl)
    · exact ⟨hla, .inr hmem⟩
    · exact ⟨by omega, .inl (by omega)⟩
  · rintro ⟨hla, heq | hmem⟩
    · exact .inr (by omega)
    · exact .inl ⟨hs, hla, hmem⟩

/-- **`check` refines the set.** It answers as the reference does on the set the window
stands for, and afterwards the window stands for the set with the accepted number added. -/
theorem check_spec {w : ReplayWindow} {S : Finset ℕ} (h : Tracks w S) (seq : UInt64) :
    (check w seq).2 = decide (accepts S seq.toNat) ∧
      Tracks (check w seq).1 (record S seq.toNat) := by
  unfold check
  by_cases hs : w.started = true
  · rw [if_neg (by simp [hs])]
    have hne : S.Nonempty := h.started.mp hs
    have hmax := h.highest hs
    by_cases hgt : seq > w.highest
    · have hlt : w.highest.toNat < seq.toNat := UInt64.lt_iff_toNat_lt.mp hgt
      have hacc : accepts S seq.toNat :=
        ⟨fun hm => absurd (h.le_highest hs hm) (by omega), .inr (.inl (by omega))⟩
      rw [if_pos hgt, record, if_pos hacc]
      exact ⟨by simp [hacc], tracks_slide h hs hgt⟩
    · rw [if_neg hgt]
      have hle : seq ≤ w.highest := UInt64.not_lt.mp hgt
      have hle' : seq.toNat ≤ w.highest.toNat := UInt64.le_iff_toNat_le.mp hle
      have hsub : (w.highest - seq).toNat = w.highest.toNat - seq.toNat :=
        UInt64.toNat_sub_of_le _ _ hle
      -- the three refusals leave the window alone
      have hrefuse : ¬ accepts S seq.toNat →
          (w, false).2 = decide (accepts S seq.toNat) ∧ Tracks (w, false).1 (record S seq.toNat) :=
        fun hn => ⟨by simp [hn], by rw [record, if_neg hn]; exact h⟩
      by_cases heq : seq = w.highest
      · rw [if_pos heq]
        refine hrefuse fun hacc => hacc.1 ?_
        obtain ⟨n, hn, hsup⟩ := Finset.exists_mem_eq_sup S hne id
        rw [heq, hmax, hsup]
        exact hn
      · rw [if_neg heq]
        by_cases hold : windowSize ≤ (w.highest - seq).toNat
        · rw [if_pos hold]
          refine hrefuse fun hacc => ?_
          rcases hacc.2 with he | hlt | hlt
          · exact absurd he hne.ne_empty
          · omega
          · omega
        · rw [if_neg hold]
          have hbit := h.bits (w.highest - seq).toNat (by omega)
          have hback : w.highest.toNat - (w.highest - seq).toNat = seq.toNat := by omega
          rw [hback] at hbit
          by_cases hseen : seen w.highest seq w.bitmap = true
          · rw [if_pos hseen]
            rw [seen_eq_bit] at hseen
            exact hrefuse fun hacc => hacc.1 (hbit.mp hseen).2.2
          · rw [if_neg hseen]
            rw [seen_eq_bit] at hseen
            have hacc : accepts S seq.toNat :=
              ⟨fun hm => hseen (hbit.mpr ⟨hs, by omega, hm⟩), .inr (.inr (by omega))⟩
            rw [record, if_pos hacc]
            exact ⟨by simp [hacc], tracks_mark h hs hle (by omega)⟩
  · have hs' : w.started = false := by simpa using hs
    have hempty : S = ∅ := Finset.not_nonempty_iff_eq_empty.mp fun hn => hs (h.started.mpr hn)
    have hacc : accepts S seq.toNat := ⟨by simp [hempty], .inl hempty⟩
    rw [if_pos hs', record, if_pos hacc]
    refine ⟨by simp [hacc], by simp, by simp [hempty], fun a ha => ?_⟩
    rw [bit_mark _ _ _ _ (by simp [windowSize])]
    have hzero : bit w.bitmap a = false := by
      have := h.bits a ha
      simpa [hs'] using this
    simp only [hzero, Bool.false_or, UInt64.sub_self, UInt64.toNat_zero, decide_eq_true_eq,
      true_and, hempty, insert_empty_eq, Finset.mem_singleton]
    omega

/-! ## A sequence of calls -/

def checkAll (w : ReplayWindow) : List UInt64 → List Bool
  | [] => []
  | seq :: seqs => (check w seq).2 :: checkAll (check w seq).1 seqs

def acceptedBy (w : ReplayWindow) : List UInt64 → List UInt64
  | [] => []
  | seq :: seqs =>
    if (check w seq).2 then seq :: acceptedBy (check w seq).1 seqs
      else acceptedBy (check w seq).1 seqs

/-- The answers of the reference, which keeps the set of accepted numbers. -/
def referenceAll (S : Finset ℕ) : List ℕ → List Bool
  | [] => []
  | seq :: seqs => decide (accepts S seq) :: referenceAll (record S seq) seqs

theorem Tracks.checkAll_eq {w : ReplayWindow} {S : Finset ℕ} (h : Tracks w S) (seqs : List UInt64) :
    checkAll w seqs = referenceAll S (seqs.map UInt64.toNat) := by
  induction seqs generalizing w S with
  | nil => rfl
  | cons seq seqs ih =>
    obtain ⟨hans, hnext⟩ := check_spec h seq
    rw [checkAll, List.map_cons, referenceAll, hans, ih hnext]

theorem mem_record {S : Finset ℕ} {n : ℕ} (hn : n ∈ S) (seq : ℕ) : n ∈ record S seq := by
  unfold record
  split_ifs
  · exact Finset.mem_insert_of_mem hn
  · exact hn

theorem mem_record_self {S : Finset ℕ} {seq : ℕ} (h : accepts S seq) : seq ∈ record S seq := by
  rw [record, if_pos h]
  exact Finset.mem_insert_self seq S

/-- What is accepted from here on is not in the set, and nothing is accepted twice. The reference
never forgets, although the window does: what it forgets it refuses. -/
theorem Tracks.acceptedBy_nodup {w : ReplayWindow} {S : Finset ℕ} (h : Tracks w S)
    (seqs : List UInt64) :
    (∀ seq ∈ acceptedBy w seqs, seq.toNat ∉ S) ∧ (acceptedBy w seqs).Nodup := by
  induction seqs generalizing w S with
  | nil => exact ⟨fun _ hm => absurd hm List.not_mem_nil, List.nodup_nil⟩
  | cons seq seqs ih =>
    obtain ⟨hans, hnext⟩ := check_spec h seq
    obtain ⟨hfresh, hnodup⟩ := ih hnext
    have hlater : ∀ q ∈ acceptedBy (check w seq).1 seqs, q.toNat ∉ S :=
      fun q hq hmem => hfresh q hq (mem_record hmem seq.toNat)
    rw [acceptedBy]
    by_cases hacc : accepts S seq.toNat
    · rw [if_pos (by rw [hans]; exact decide_eq_true hacc)]
      refine ⟨List.forall_mem_cons.mpr ⟨hacc.1, hlater⟩,
        List.nodup_cons.mpr ⟨fun hmem => ?_, hnodup⟩⟩
      -- the number itself is now in the set
      exact hfresh seq hmem (mem_record_self hacc)
    · rw [if_neg (by rw [hans]; simpa using hacc)]
      exact ⟨hlater, hnodup⟩

/-- **The replay window refines its specification.** On every sequence of numbers, from the zero
value, `check` gives the answers of the reference, and so it accepts no number twice. -/
theorem checkAll_refines (seqs : List UInt64) :
    checkAll {} seqs = referenceAll ∅ (seqs.map UInt64.toNat) ∧ (acceptedBy {} seqs).Nodup :=
  ⟨tracks_zero.checkAll_eq seqs, (tracks_zero.acceptedBy_nodup seqs).2⟩

-- both edges of the window: 6 is 1024 behind 1030, 7 is 1023 behind
example : checkAll {} [5, 5, 1030, 6, 7, 7] = [true, false, true, false, true, false] := by
  decide +kernel

end Heimdall.Proto
