/-
Base32 without padding, as Go's `encoding/base32` encodes and decodes it.

Five bytes are eight digits of five bits, and a digit is written as a letter of an alphabet. The
decoder collects the digits of a quantum in `dbuf`, eight at a time, and writes the bytes of a
quantum when it is full or the input ends. Without padding it does not ask how many digits the last
quantum has: two, four, five and seven digits give one to four bytes, and what is left of the bits
is ignored; one, three and six digits give no byte at all, and no error either (`quantumLen`).

So the decoder accepts a string of letters of any length (`decodeString_eq_ok_iff`). It inverts the
encoder (`packAll_digits`), and where the digits come in full quanta the encoder inverts it
(`digits_packAll`); otherwise several strings of letters have the same bytes.
-/
import Mathlib.Data.List.GetD
import Mathlib.Data.List.Nodup
import Mathlib.Tactic

set_option autoImplicit false

namespace Heimdall.Base32

/-! ## Alphabets -/

/-- The alphabets `NewEncoding` takes: 32 bytes, no two the same, and no line break. The padding
character of an encoding without one is 0xFF as a byte, and no letter is that. -/
structure Alphabet where
  letters : List UInt8
  length_letters : letters.length = 32
  nodup_letters : letters.Nodup
  no_newline : 10 ∉ letters
  no_return : 13 ∉ letters
  no_padding : 0xFF ∉ letters

/-- `A-Z2-7` -/
def stdLetters : List UInt8 :=
  [65, 66, 67, 68, 69, 70, 71, 72, 73, 74, 75, 76, 77, 78, 79, 80, 81, 82, 83, 84, 85, 86, 87, 88,
    89, 90, 50, 51, 52, 53, 54, 55]

theorem nodup_stdLetters : stdLetters.Nodup := by decide

theorem newline_not_mem_stdLetters : 10 ∉ stdLetters := by decide

theorem return_not_mem_stdLetters : 13 ∉ stdLetters := by decide

theorem padding_not_mem_stdLetters : 0xFF ∉ stdLetters := by decide

def stdAlphabet : Alphabet :=
  ⟨stdLetters, rfl, nodup_stdLetters, newline_not_mem_stdLetters, return_not_mem_stdLetters,
    padding_not_mem_stdLetters⟩

namespace Alphabet

variable (A : Alphabet)

def letter (d : ℕ) : UInt8 := A.letters.getD d 0

/-- `decodeMap`: the digit of a letter. -/
def value (c : UInt8) : Option ℕ := if A.letters.contains c then some (A.letters.idxOf c) else none

variable {A}

theorem letter_mem {d : ℕ} (h : d < 32) : A.letter d ∈ A.letters := by
  have hd : d < A.letters.length := A.length_letters ▸ h
  rw [letter, List.getD_eq_getElem _ _ hd]
  exact List.getElem_mem hd

theorem value_letter {d : ℕ} (h : d < 32) : A.value (A.letter d) = some d := by
  have hd : d < A.letters.length := A.length_letters ▸ h
  rw [value, if_pos (List.contains_iff_mem.mpr (letter_mem h)), letter, List.getD_eq_getElem _ _ hd,
    A.nodup_letters.idxOf_getElem d hd]

theorem value_eq_some {c : UInt8} {d : ℕ} : A.value c = some d ↔ d < 32 ∧ A.letter d = c := by
  constructor
  · intro h
    obtain ⟨hmem, hidx⟩ := Option.ite_none_right_eq_some.mp h
    have hmem := List.contains_iff_mem.mp hmem
    have hlt := List.idxOf_lt_length_of_mem hmem
    obtain rfl := Option.some.inj hidx
    refine ⟨A.length_letters ▸ hlt, ?_⟩
    rw [letter, List.getD_eq_getElem _ _ hlt, List.getElem_idxOf]
  · rintro ⟨h, rfl⟩
    exact value_letter h

theorem value_eq_none {c : UInt8} : A.value c = none ↔ c ∉ A.letters := by
  rw [value, ← List.contains_iff_mem]
  split_ifs with h
  · exact ⟨fun hc => absurd hc (by simp), fun hc => absurd h hc⟩
  · exact ⟨fun _ => h, fun _ => rfl⟩

end Alphabet

/-! ## Bytes and digits

The arithmetic of a quantum, without letters: five bytes are a number of forty bits, which is eight
digits. A shorter quantum is filled up with zeros and its digits are cut off. -/

def quantum (a b c d e : ℕ) : List ℕ :=
  [a / 8, a % 8 * 4 + b / 64, b / 2 % 32, b % 2 * 16 + c / 16, c % 16 * 2 + d / 128, d / 4 % 32,
    d % 4 * 8 + e / 32, e % 32]

/-- The digits `Encode` writes: of every five bytes all eight, of one to four bytes at the end those
that have a bit of them. -/
def digits : List UInt8 → List ℕ
  | [] => []
  | [a] => (quantum a.toNat 0 0 0 0).take 2
  | [a, b] => (quantum a.toNat b.toNat 0 0 0).take 4
  | [a, b, c] => (quantum a.toNat b.toNat c.toNat 0 0).take 5
  | [a, b, c, d] => (quantum a.toNat b.toNat c.toNat d.toNat 0).take 7
  | a :: b :: c :: d :: e :: bs =>
    quantum a.toNat b.toNat c.toNat d.toNat e.toNat ++ digits bs

/-- How many bytes are written for a quantum of so many digits: the `switch dlen` of `decode`, with
its `fallthrough`s. -/
def quantumLen : ℕ → ℕ
  | 8 => 5
  | 7 => 4
  | 5 => 3
  | 4 => 2
  | 2 => 1
  | _ => 0

/-- The bytes that are written for the digits of a quantum; those that are missing are zero. -/
def pack (dbuf : List ℕ) : List UInt8 :=
  [UInt8.ofNat (dbuf.getD 0 0 * 8 + dbuf.getD 1 0 / 4),
    UInt8.ofNat (dbuf.getD 1 0 % 4 * 64 + dbuf.getD 2 0 * 2 + dbuf.getD 3 0 / 16),
    UInt8.ofNat (dbuf.getD 3 0 % 16 * 16 + dbuf.getD 4 0 / 2),
    UInt8.ofNat (dbuf.getD 4 0 % 2 * 128 + dbuf.getD 5 0 * 4 + dbuf.getD 6 0 / 8),
    UInt8.ofNat (dbuf.getD 6 0 % 8 * 32 + dbuf.getD 7 0)].take (quantumLen dbuf.length)

def packAll : List ℕ → List UInt8
  | a :: b :: c :: d :: e :: f :: g :: h :: ds => pack [a, b, c, d, e, f, g, h] ++ packAll ds
  | ds => pack ds

/-! ## The decoder -/

/-- The end of `decode` at a padding character, with `dbuf` read of the quantum and `src` to
come; an error is the offset of a `CorruptInputError`. -/
def endPadding (olen : ℕ) (dbuf : List ℕ) (src : List UInt8) : Except ℕ (List UInt8) :=
  if src.length + dbuf.length < 7 then .error olen
  else
    match (List.range (7 - dbuf.length)).find? fun k => k < src.length && src.getD k 0 ≠ 0xFF with
    | some k => .error (olen - src.length + k - 1)
    | none =>
      if dbuf.length = 1 ∨ dbuf.length = 3 ∨ dbuf.length = 6 then .error (olen - src.length - 1)
      else .ok (pack dbuf)

/-- `decode` without padding, with `dbuf` read of the current quantum. -/
def decodeFrom (A : Alphabet) (olen : ℕ) : List ℕ → List UInt8 → Except ℕ (List UInt8)
  -- the input ends: a quantum that is not full is packed as it is
  | dbuf, [] => .ok (pack dbuf)
  | dbuf, c :: src =>
    -- the padding character is -1, and 0xFF as a byte
    if c = 0xFF ∧ 2 ≤ dbuf.length ∧ src.length < 8 then endPadding olen dbuf src
    else
      match A.value c with
      | none => .error (olen - src.length - 1)
      | some v =>
        if dbuf.length = 7 then (decodeFrom A olen [] src).map (pack (dbuf ++ [v]) ++ ·)
        else decodeFrom A olen (dbuf ++ [v]) src

/-- `DecodeString`: line breaks are taken out first. -/
def decodeString (A : Alphabet) (s : List UInt8) : Except ℕ (List UInt8) :=
  let src := s.filter fun c => c ≠ 13 ∧ c ≠ 10
  decodeFrom A src.length [] src

def encodeToString (A : Alphabet) (bs : List UInt8) : List UInt8 := (digits bs).map A.letter

/-! ## Lengths -/

theorem length_digits (bs : List UInt8) : (digits bs).length = (bs.length * 8 + 4) / 5 := by
  fun_induction digits bs with
  | case6 a b c d e bs ih =>
    rw [List.length_append, ih]
    simp only [quantum, List.length_cons, List.length_nil]
    omega
  | _ => simp [quantum]

theorem quantum_lt (a b c d e : UInt8) :
    ∀ n ∈ quantum a.toNat b.toNat c.toNat d.toNat e.toNat, n < 32 := by
  have ha := a.toNat_lt
  have hb := b.toNat_lt
  have hc := c.toNat_lt
  have hd := d.toNat_lt
  have he := e.toNat_lt
  simp only [quantum, List.forall_mem_cons, List.not_mem_nil, false_imp_iff, implies_true, and_true]
  omega

theorem digits_lt {bs : List UInt8} : ∀ d ∈ digits bs, d < 32 := by
  -- the digits of the last bytes are some of those of a quantum with zero bytes at its end
  fun_induction digits bs with
  | case1 => exact fun d hd => absurd hd List.not_mem_nil
  | case2 a => exact fun d hd => quantum_lt a 0 0 0 0 d (List.mem_of_mem_take hd)
  | case3 a b => exact fun d hd => quantum_lt a b 0 0 0 d (List.mem_of_mem_take hd)
  | case4 a b c => exact fun d hd => quantum_lt a b c 0 0 d (List.mem_of_mem_take hd)
  | case5 a b c d => exact fun n hn => quantum_lt a b c d 0 n (List.mem_of_mem_take hn)
  | case6 a b c d e bs ih =>
    intro n hn
    rcases List.mem_append.mp hn with hq | hrest
    · exact quantum_lt a b c d e n hq
    · exact ih n hrest

theorem quantumLen_le (n : ℕ) : quantumLen n ≤ 5 := by
  unfold quantumLen
  split <;> omega

theorem length_pack (dbuf : List ℕ) : (pack dbuf).length = quantumLen dbuf.length := by
  have hle := quantumLen_le dbuf.length
  rw [pack, List.length_take]
  exact Nat.min_eq_left hle

/-! ## Quanta -/

theorem packAll_of_lt {ds : List ℕ} (h : ds.length < 8) : packAll ds = pack ds := by
  unfold packAll
  split
  · simp only [List.length_cons] at h
    omega
  · rfl

theorem packAll_quantum {q : List ℕ} (h : q.length = 8) (ds : List ℕ) :
    packAll (q ++ ds) = pack q ++ packAll ds :=
  match q, h with
  | [_, _, _, _, _, _, _, _], _ => rfl

/-- `packAll` goes by quanta of eight, so it may be cut at any multiple of eight. The round trips
and the decoder need no more of it. -/
theorem packAll_append {ds : List ℕ} (h : 8 ∣ ds.length) (rest : List ℕ) :
    packAll (ds ++ rest) = packAll ds ++ packAll rest := by
  obtain ⟨n, hn⟩ := h
  induction n generalizing ds with
  | zero =>
    obtain rfl := List.length_eq_zero_iff.mp hn
    rfl
  | succ n ih =>
    have hq : (ds.take 8).length = 8 := by
      rw [List.length_take]
      omega
    have hrest : (ds.drop 8).length = 8 * n := by
      rw [List.length_drop]
      omega
    -- the first quantum is split off, and the others are the induction hypothesis
    calc packAll (ds ++ rest) = packAll (ds.take 8 ++ (ds.drop 8 ++ rest)) := by
          rw [← List.append_assoc, List.take_append_drop]
      _ = pack (ds.take 8) ++ (packAll (ds.drop 8) ++ packAll rest) := by
          rw [packAll_quantum hq, ih hrest]
      _ = packAll ds ++ packAll rest := by
          rw [← List.append_assoc, ← packAll_quantum hq, List.take_append_drop]

theorem packAll_append_short {ds rest : List ℕ} (h : 8 ∣ ds.length) (hlt : rest.length < 8)
    (hnone : quantumLen rest.length = 0) : packAll (ds ++ rest) = packAll ds := by
  have hpack : pack rest = [] := List.length_eq_zero_iff.mp ((length_pack rest).trans hnone)
  rw [packAll_append h, packAll_of_lt hlt, hpack, List.append_nil]

theorem length_lt_of_forall_ne {ds : List ℕ} (h : ∀ (a b c d e f g h : ℕ) (rest : List ℕ),
    ds = a :: b :: c :: d :: e :: f :: g :: h :: rest → False) : ds.length < 8 := by
  rcases ds with _ | ⟨a, _ | ⟨b, _ | ⟨c, _ | ⟨d, _ | ⟨e, _ | ⟨f, _ | ⟨g, _ | ⟨i, ds⟩⟩⟩⟩⟩⟩⟩⟩
  case cons.cons.cons.cons.cons.cons.cons.cons => exact absurd rfl (h a b c d e f g i ds)
  all_goals simp

/-- How many bytes come out: five for a full quantum, and for the last one as many as it has. -/
theorem length_packAll (ds : List ℕ) :
    (packAll ds).length = ds.length / 8 * 5 + quantumLen (ds.length % 8) := by
  fun_induction packAll ds with
  | case1 a b c d e f g h ds ih =>
    have hdiv : (a :: b :: c :: d :: e :: f :: g :: h :: ds).length / 8 = ds.length / 8 + 1 := by
      simp only [List.length_cons]
      omega
    have hmod : (a :: b :: c :: d :: e :: f :: g :: h :: ds).length % 8 = ds.length % 8 := by
      simp only [List.length_cons]
      omega
    have hpack : (pack [a, b, c, d, e, f, g, h]).length = 5 := rfl
    rw [List.length_append, ih, hpack, hdiv, hmod]
    omega
  | case2 ds hshort =>
    -- the last quantum is not full
    have hlt := length_lt_of_forall_ne hshort
    rw [length_pack, Nat.div_eq_of_lt hlt, Nat.mod_eq_of_lt hlt]
    omega

/-! ## Round trips -/

theorem ofNat_eq {n : ℕ} {a : UInt8} (h : n = a.toNat) : UInt8.ofNat n = a := by
  rw [h, UInt8.ofNat_toNat]

theorem pack_quantum (a b c d e : UInt8) :
    pack (quantum a.toNat b.toNat c.toNat d.toNat e.toNat) = [a, b, c, d, e] := by
  have hb := b.toNat_lt
  have hc := c.toNat_lt
  have hd := d.toNat_lt
  have he := e.toNat_lt
  -- one equation for each byte; a digit that two bytes share is split where the first ends
  have h₀ : UInt8.ofNat (a.toNat / 8 * 8 + (a.toNat % 8 * 4 + b.toNat / 64) / 4) = a :=
    ofNat_eq (by omega)
  have h₁ : UInt8.ofNat ((a.toNat % 8 * 4 + b.toNat / 64) % 4 * 64 + b.toNat / 2 % 32 * 2 +
      (b.toNat % 2 * 16 + c.toNat / 16) / 16) = b := ofNat_eq (by omega)
  have h₂ : UInt8.ofNat ((b.toNat % 2 * 16 + c.toNat / 16) % 16 * 16 +
      (c.toNat % 16 * 2 + d.toNat / 128) / 2) = c := ofNat_eq (by omega)
  have h₃ : UInt8.ofNat ((c.toNat % 16 * 2 + d.toNat / 128) % 2 * 128 + d.toNat / 4 % 32 * 4 +
      (d.toNat % 4 * 8 + e.toNat / 32) / 8) = d := ofNat_eq (by omega)
  have h₄ : UInt8.ofNat ((d.toNat % 4 * 8 + e.toNat / 32) % 8 * 32 + e.toNat % 32) = e :=
    ofNat_eq (by omega)
  exact congr_arg₂ _ h₀
    (congr_arg₂ _ h₁ (congr_arg₂ _ h₂ (congr_arg₂ _ h₃ (congrArg (· :: []) h₄))))

/-- A digit that is missing reads as a zero, so zeros at the end make no difference. -/
theorem getD_append_zeros (q : List ℕ) (m i : ℕ) :
    (q ++ List.replicate m 0).getD i 0 = q.getD i 0 := by
  by_cases hi : i < q.length
  · exact List.getD_append _ _ _ _ hi
  · have hq : q.length ≤ i := Nat.le_of_not_lt hi
    rw [List.getD_append_right _ _ _ _ hq, List.getD_eq_default q _ hq]
    by_cases hm : i - q.length < m
    · exact List.getD_replicate 0 hm
    · exact List.getD_eq_default _ _ (by simpa using hm)

theorem pack_zeros {q : List ℕ} {m : ℕ} (h : q.length + m = 8) :
    pack q = (pack (q ++ List.replicate m 0)).take (quantumLen q.length) := by
  have hlen : (q ++ List.replicate m 0).length = 8 := by
    rw [List.length_append, List.length_replicate, h]
  have hle : quantumLen q.length ≤ quantumLen 8 := quantumLen_le q.length
  unfold pack
  simp only [getD_append_zeros]
  rw [hlen, List.take_take, Nat.min_eq_left hle]

/-- **Decoding inverts encoding**, for any number of bytes. The last quantum is filled up with
zeros (`pack_zeros`), and then it is the quantum of five bytes, of which the first ones are
taken. -/
theorem packAll_digits (bs : List UInt8) : packAll (digits bs) = bs := by
  -- of one to four bytes at the end, the digits are those of a quantum that goes on with zeros
  fun_induction digits bs with
  | case1 => rfl
  | case2 a =>
    have hq := pack_quantum a 0 0 0 0
    rw [packAll_of_lt (by simp [quantum]), pack_zeros (m := 6) rfl]
    exact congrArg (List.take 1) hq
  | case3 a b =>
    have hq := pack_quantum a b 0 0 0
    rw [packAll_of_lt (by simp [quantum]), pack_zeros (m := 4) rfl]
    exact congrArg (List.take 2) hq
  | case4 a b c =>
    have hq := pack_quantum a b c 0 0
    rw [packAll_of_lt (by simp [quantum]), pack_zeros (m := 3) rfl]
    exact congrArg (List.take 3) hq
  | case5 a b c d =>
    have hq := pack_quantum a b c d 0
    rw [packAll_of_lt (by simp [quantum]), pack_zeros (m := 1) rfl]
    exact congrArg (List.take 4) hq
  | case6 a b c d e bs ih =>
    rw [packAll_quantum rfl, pack_quantum, ih]
    rfl

/-- Digits to bytes and back is the identity on full quanta. A shorter quantum loses the bits that
do not make a byte. -/
theorem digits_pack {a b c d e f g h : ℕ} (hlt : ∀ n ∈ [a, b, c, d, e, f, g, h], n < 32)
    (bs : List UInt8) :
    digits (pack [a, b, c, d, e, f, g, h] ++ bs) = [a, b, c, d, e, f, g, h] ++ digits bs := by
  simp only [List.forall_mem_cons, List.not_mem_nil, false_imp_iff, implies_true, and_true] at hlt
  obtain ⟨ha, hb, hc, hd, he, hf, hg, hh⟩ := hlt
  have hquantum : quantum (UInt8.ofNat (a * 8 + b / 4)).toNat
      (UInt8.ofNat (b % 4 * 64 + c * 2 + d / 16)).toNat (UInt8.ofNat (d % 16 * 16 + e / 2)).toNat
      (UInt8.ofNat (e % 2 * 128 + f * 4 + g / 8)).toNat (UInt8.ofNat (g % 8 * 32 + h)).toNat
      = [a, b, c, d, e, f, g, h] := by
    simp only [quantum, UInt8.toNat_ofNat', List.cons.injEq, and_true]
    omega
  exact congrArg (· ++ digits bs) hquantum

/-- **Encoding inverts decoding on full quanta.** Not on others: the bits of a last digit that
belong to no byte are lost. -/
theorem digits_packAll {ds : List ℕ} (hlt : ∀ d ∈ ds, d < 32) (h : 8 ∣ ds.length) :
    digits (packAll ds) = ds := by
  fun_induction packAll ds with
  | case1 a b c d e f g h' ds ih =>
    -- the first quantum by `digits_pack`, the others by induction
    have hq : ∀ n ∈ [a, b, c, d, e, f, g, h'], n < 32 := fun n hn =>
      hlt n (List.mem_append_left ds hn)
    have hds : ∀ n ∈ ds, n < 32 := fun n hn =>
      hlt n (List.mem_append_right [a, b, c, d, e, f, g, h'] hn)
    have hlen : 8 ∣ ds.length := by
      simp only [List.length_cons] at h
      omega
    rw [digits_pack hq, ih hds hlen]
    rfl
  | case2 ds hshort =>
    have hlt := length_lt_of_forall_ne hshort
    obtain rfl : ds = [] := List.length_eq_zero_iff.mp (by omega)
    rfl

/-! ## What is accepted -/

theorem letter_inj {A : Alphabet} {v w : ℕ} (hv : v < 32) (hw : w < 32)
    (h : A.letter v = A.letter w) :
    v = w := by
  have hvalue := congrArg A.value h
  rw [Alphabet.value_letter hv, Alphabet.value_letter hw] at hvalue
  exact Option.some.inj hvalue

theorem exists_letters_cons {A : Alphabet} {v : ℕ} (hv : v < 32) {src : List UInt8}
    {P : List ℕ → Prop} :
    (∃ ds, (∀ d ∈ ds, d < 32) ∧ A.letter v :: src = ds.map A.letter ∧ P ds) ↔
      ∃ ds, (∀ d ∈ ds, d < 32) ∧ src = ds.map A.letter ∧ P ([v] ++ ds) := by
  constructor
  · rintro ⟨ds, hlt, hds, hP⟩
    obtain ⟨w, ds, rfl, hw, rfl⟩ := List.map_eq_cons_iff.mp hds.symm
    obtain ⟨hw32, hlt⟩ := List.forall_mem_cons.mp hlt
    obtain rfl := letter_inj hw32 hv hw
    exact ⟨ds, hlt, rfl, hP⟩
  · rintro ⟨ds, hlt, rfl, hP⟩
    exact ⟨v :: ds, List.forall_mem_cons.mpr ⟨hv, hlt⟩, rfl, hP⟩

/-- With `dbuf` read, the decoder succeeds exactly if letters follow, and then packs all digits.
The induction is on the rest of the input; `dbuf` fills up to eight digits and starts again. -/
theorem decodeFrom_eq_ok_iff {A : Alphabet} {olen : ℕ} {src : List UInt8} (hpad : 0xFF ∉ src)
    {dbuf : List ℕ} (hdbuf : dbuf.length < 8) {bs : List UInt8} :
    decodeFrom A olen dbuf src = .ok bs ↔
      ∃ ds, (∀ d ∈ ds, d < 32) ∧ src = ds.map A.letter ∧ bs = packAll (dbuf ++ ds) := by
  induction src generalizing dbuf bs with
  | nil =>
    rw [decodeFrom]
    constructor
    · intro h
      refine ⟨[], by simp, rfl, ?_⟩
      rw [List.append_nil, packAll_of_lt hdbuf]
      exact (Except.ok.inj h).symm
    · rintro ⟨ds, -, hds, rfl⟩
      obtain rfl := List.map_eq_nil_iff.mp hds.symm
      rw [List.append_nil, packAll_of_lt hdbuf]
  | cons c src ih =>
    have hc : c ≠ 0xFF := fun hc => hpad (hc ▸ List.mem_cons_self)
    have hsrc : 0xFF ∉ src := fun h => hpad (List.mem_cons_of_mem c h)
    rw [decodeFrom, if_neg fun h => hc h.1]
    rcases hv : A.value c with _ | v
    · -- not a letter
      refine ⟨fun h => absurd h (by simp), ?_⟩
      rintro ⟨ds, hlt, hds, -⟩
      obtain ⟨v, ds, rfl, rfl, -⟩ := List.map_eq_cons_iff.mp hds.symm
      rw [Alphabet.value_letter (hlt v List.mem_cons_self)] at hv
      exact absurd hv (by simp)
    · obtain ⟨hv32, rfl⟩ := Alphabet.value_eq_some.mp hv
      have hlen : (dbuf ++ [v]).length = dbuf.length + 1 := by
        rw [List.length_append, List.length_singleton]
      dsimp only
      rw [exists_letters_cons hv32]
      simp only [← List.append_assoc]
      by_cases hfull : dbuf.length = 7
      · -- the quantum is complete, and the next one starts
        have hq : (dbuf ++ [v]).length = 8 := by omega
        rw [if_pos hfull]
        simp only [packAll_quantum hq]
        rcases hrest : decodeFrom A olen [] src with e | more
        · refine ⟨fun h => absurd h (by simp [Except.map]), ?_⟩
          rintro ⟨ds, hlt, hds, -⟩
          rw [(ih hsrc (by simp)).mpr ⟨ds, hlt, hds, rfl⟩] at hrest
          exact absurd hrest (by simp)
        · obtain ⟨ds, hlt, hds, rfl⟩ := (ih hsrc (by simp)).mp hrest
          constructor
          · intro h
            exact ⟨ds, hlt, hds, (Except.ok.inj h).symm⟩
          · rintro ⟨ds', hlt', hds', rfl⟩
            rw [(ih hsrc (by simp)).mpr ⟨ds', hlt', hds', rfl⟩] at hrest
            rw [← Except.ok.inj hrest]
            rfl
      · rw [if_neg hfull, ih hsrc (by omega)]

/-- **Letters are accepted, and nothing else**, whatever their number. Without line breaks and
padding characters in the input there is nothing that the decoder passes over. -/
theorem decodeString_eq_ok_iff {A : Alphabet} {s bs : List UInt8} (hnl : 10 ∉ s) (hcr : 13 ∉ s)
    (hpad : 0xFF ∉ s) : decodeString A s = .ok bs ↔
      ∃ ds, (∀ d ∈ ds, d < 32) ∧ s = ds.map A.letter ∧ bs = packAll ds := by
  have hfilter : (s.filter fun c => c ≠ 13 ∧ c ≠ 10) = s := by
    rw [List.filter_eq_self]
    intro c hc
    have h₁₃ : c ≠ 13 := fun h => hcr (h ▸ hc)
    have h₁₀ : c ≠ 10 := fun h => hnl (h ▸ hc)
    exact decide_eq_true ⟨h₁₃, h₁₀⟩
  unfold decodeString
  rw [hfilter]
  exact decodeFrom_eq_ok_iff hpad (by simp)

/-! ## Strings of letters -/

section Letters

variable {A : Alphabet}

theorem encodeToString_forall (bs : List UInt8) : ∀ c ∈ encodeToString A bs, c ∈ A.letters := by
  intro c hc
  obtain ⟨d, hd, rfl⟩ := List.mem_map.mp hc
  exact Alphabet.letter_mem (digits_lt d hd)

theorem length_encodeToString (bs : List UInt8) :
    (encodeToString A bs).length = (bs.length * 8 + 4) / 5 := by
  rw [encodeToString, List.length_map, length_digits]

theorem decodeString_encodeToString (bs : List UInt8) :
    decodeString A (encodeToString A bs) = .ok bs := by
  have hletters := encodeToString_forall (A := A) bs
  refine (decodeString_eq_ok_iff (fun h => A.no_newline (hletters _ h))
    (fun h => A.no_return (hletters _ h)) (fun h => A.no_padding (hletters _ h))).mpr ?_
  exact ⟨digits bs, digits_lt, rfl, (packAll_digits bs).symm⟩

theorem encodeToString_inj {bs bs' : List UInt8}
    (h : encodeToString A bs = encodeToString A bs') : bs = bs' := by
  have hdec := congrArg (decodeString A) h
  rw [decodeString_encodeToString, decodeString_encodeToString] at hdec
  exact Except.ok.inj hdec

theorem encodeToString_packAll {ds : List ℕ} (hlt : ∀ d ∈ ds, d < 32) (h : 8 ∣ ds.length) :
    encodeToString A (packAll ds) = ds.map A.letter := by
  rw [encodeToString, digits_packAll hlt h]

theorem exists_digits {s : List UInt8} (h : ∀ c ∈ s, c ∈ A.letters) :
    ∃ ds : List ℕ, (∀ d ∈ ds, d < 32) ∧ s = ds.map A.letter := by
  induction s with
  | nil => exact ⟨[], by simp, rfl⟩
  | cons c s ih =>
    obtain ⟨hc, hs⟩ := List.forall_mem_cons.mp h
    obtain ⟨ds, hlt, rfl⟩ := ih hs
    rcases hv : A.value c with _ | v
    · exact absurd hc (Alphabet.value_eq_none.mp hv)
    · obtain ⟨hv32, rfl⟩ := Alphabet.value_eq_some.mp hv
      exact ⟨v :: ds, List.forall_mem_cons.mpr ⟨hv32, hlt⟩, rfl⟩

theorem forall_map_letter {ds : List ℕ} (h : ∀ d ∈ ds, d < 32) :
    ∀ c ∈ ds.map A.letter, c ∈ A.letters := by
  intro c hc
  obtain ⟨d, hd, rfl⟩ := List.mem_map.mp hc
  exact Alphabet.letter_mem (h d hd)

end Letters

end Heimdall.Base32
