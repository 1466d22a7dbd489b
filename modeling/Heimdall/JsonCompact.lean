/-
JSON as `json.Marshal` writes it.

`Json` has the layout of `MarshalIndent` and values without numbers. Here nothing stands between the
tokens, and there are integers. A number is the one value whose text does not say where it ends, so
what follows a value matters now: reading back is stated for texts that end there, or go on with a
comma or a closing bracket (`Ends`).

The reader is the one of `Json`, and so are its lemmas for each constructor. The fuel is shorter by
the new lines, and the brackets and commas are still enough (`compactReads`).
-/
import Heimdall.Json
import Mathlib.Data.Nat.Digits.Lemmas

set_option autoImplicit false

namespace Heimdall.Json

open Heimdall.Utf8

/-! ## Integers -/

def natText (n : ℕ) : List UInt8 :=
  if n = 0 then [48] else (Nat.digits 10 n).reverse.map fun d => UInt8.ofNat (48 + d)

/-- `strconv.FormatInt` -/
def intText (n : ℤ) : List UInt8 := if n < 0 then 45 :: natText n.natAbs else natText n.natAbs

def readNat (s : List UInt8) : ℕ := s.foldl (fun n c => n * 10 + (c.toNat - 48)) 0

/-- `strconv.ParseInt` of the text of a number, which has a fraction or an exponent if it is not an
integer. -/
def readInt : List UInt8 → Option ℤ
  | [] => none
  | c :: s =>
    if c = 45 then if s.all isDigit then some (-(readNat s : ℤ)) else none
    else if (c :: s).all isDigit then some (readNat (c :: s)) else none

theorem isDigit_ofNat {d : ℕ} (h : d < 10) : isDigit (UInt8.ofNat (48 + d)) = true := by
  have hall : ∀ k : Fin 10, isDigit (UInt8.ofNat (48 + k)) = true := by decide
  exact hall ⟨d, h⟩

theorem toNat_ofNat {d : ℕ} (h : d < 10) : (UInt8.ofNat (48 + d)).toNat - 48 = d := by
  have hall : ∀ k : Fin 10, (UInt8.ofNat (48 + k)).toNat - 48 = k := by decide
  exact hall ⟨d, h⟩

theorem ofNat_ne_zero {d : ℕ} (h : d < 10) (hd : d ≠ 0) : UInt8.ofNat (48 + d) ≠ 48 := by
  have hall : ∀ k : Fin 10, k.val ≠ 0 → UInt8.ofNat (48 + k) ≠ 48 := by decide
  exact hall ⟨d, h⟩ hd

theorem natText_digits (n : ℕ) : ∀ c ∈ natText n, isDigit c = true := by
  intro c hc
  unfold natText at hc
  split_ifs at hc with hn
  · rw [List.mem_singleton.mp hc]
    decide
  · obtain ⟨d, hd, rfl⟩ := List.mem_map.mp hc
    exact isDigit_ofNat (Nat.digits_lt_base (by decide) (List.mem_reverse.mp hd))

/-- The first digit is a zero only of zero itself. JSON has no leading zeros, and `scanInt` stops
after one, so without this the rest of the digits would be left over. -/
theorem natText_head (n : ℕ) :
    (n = 0 ∧ natText n = [48]) ∨ ∃ c s, natText n = c :: s ∧ c ≠ 48 ∧ isDigit c = true := by
  by_cases hn : n = 0
  · exact .inl ⟨hn, if_pos hn⟩
  · right
    have hne : Nat.digits 10 n ≠ [] := Nat.digits_ne_nil_iff_ne_zero.mpr hn
    have hmem := List.getLast_mem hne
    have hlt : (Nat.digits 10 n).getLast hne < 10 := Nat.digits_lt_base (by decide) hmem
    refine ⟨UInt8.ofNat (48 + (Nat.digits 10 n).getLast hne),
      (Nat.digits 10 n).dropLast.reverse.map fun d => UInt8.ofNat (48 + d), ?_,
      ofNat_ne_zero hlt (Nat.getLast_digit_ne_zero 10 hn), isDigit_ofNat hlt⟩
    have hlast := List.dropLast_append_getLast hne
    rw [natText, if_neg hn, ← List.map_cons (f := fun d => UInt8.ofNat (48 + d)),
      ← List.reverse_concat, hlast]

theorem natText_cons (n : ℕ) : ∃ c s, natText n = c :: s ∧ isDigit c = true := by
  rcases natText_head n with ⟨-, htext⟩ | ⟨c, s, htext, -, hc⟩
  · exact ⟨48, [], htext, by decide⟩
  · exact ⟨c, s, htext, hc⟩

theorem ne_of_isDigit {c d : UInt8} (hc : isDigit c = true) (hd : isDigit d = false) : c ≠ d := by
  rintro rfl
  exact absurd hc (by simp [hd])

theorem readNat_natText (n : ℕ) : readNat (natText n) = n := by
  unfold natText
  split_ifs with hn
  · rw [hn]
    rfl
  · -- the digits from the last to the first
    have hdigits : ∀ ds : List ℕ, (∀ d ∈ ds, d < 10) →
        (ds.map fun d => UInt8.ofNat (48 + d)).foldr (fun c n => n * 10 + (c.toNat - 48)) 0 =
          Nat.ofDigits 10 ds := by
      intro ds
      induction ds with
      | nil => intro _; rfl
      | cons d ds ih =>
        intro h
        rw [List.map_cons, List.foldr_cons, ih fun e he => h e (List.mem_cons_of_mem _ he),
          toNat_ofNat (h d List.mem_cons_self), Nat.ofDigits_cons]
        ring
    rw [readNat, List.map_reverse, List.foldl_reverse,
      hdigits _ fun d hd => Nat.digits_lt_base (by decide) hd, Nat.ofDigits_digits]

theorem length_natText {n k : ℕ} (hk : 0 < k) (h : n < 10 ^ k) : (natText n).length ≤ k := by
  unfold natText
  split_ifs with hn
  · exact hk
  · rw [List.length_map, List.length_reverse]
    exact (Nat.digits_length_le_iff (by decide) n).mpr h

theorem length_intText {n : ℤ} {k : ℕ} (hk : 0 < k) (h : n.natAbs < 10 ^ k) :
    (intText n).length ≤ k + 1 := by
  have hlen := length_natText hk h
  unfold intText
  split_ifs
  · rw [List.length_cons]
    omega
  · omega

theorem readInt_intText (n : ℤ) : readInt (intText n) = some n := by
  have hall : (natText n.natAbs).all isDigit = true := List.all_eq_true.mpr (natText_digits _)
  unfold intText
  split_ifs with hneg
  · rw [readInt, if_pos rfl, if_pos hall, readNat_natText]
    congr 1
    omega
  · have hread := readNat_natText n.natAbs
    obtain ⟨c, s, htext, hc⟩ := natText_cons n.natAbs
    rw [htext] at hall hread ⊢
    rw [readInt, if_neg (ne_of_isDigit hc (by decide)), if_pos hall, hread]
    congr 1
    omega

/-! ## Where a number ends -/

/-- A text is over, or goes on with a comma or a closing bracket. -/
def Ends (rest : List UInt8) : Prop := ∀ c s, rest = c :: s → c = 44 ∨ c = 93 ∨ c = 125

theorem ends_nil : Ends [] := nofun

theorem ends_cons {c : UInt8} (hc : c = 44 ∨ c = 93 ∨ c = 125) (s : List UInt8) :
    Ends (c :: s) := by
  rintro d t h
  rw [← (List.cons.inj h).1]
  exact hc

/-- The scanner takes the digits of a number and stops where they end. What follows matters: a
dot, an `e` or another digit would be taken for a part of the number, and `Ends` excludes them. -/
theorem scanUnsigned_natText (n : ℕ) {rest : List UInt8} (hrest : Ends rest) :
    scanUnsigned (natText n ++ rest) = some (natText n, rest) := by
  have hfrac : scanFrac rest = some ([], rest) := by
    cases rest with
    | nil => rfl
    | cons c s =>
      rcases hrest c s rfl with rfl | rfl | rfl
      · rfl
      · rfl
      · rfl
  have hexp : scanExp rest = some ([], rest) := by
    cases rest with
    | nil => rfl
    | cons c s =>
      rcases hrest c s rfl with rfl | rfl | rfl
      · rfl
      · rfl
      · rfl
  have hint : scanInt (natText n ++ rest) = some (natText n, rest) := by
    rcases natText_head n with ⟨-, htext⟩ | ⟨c, s, htext, hzero, hc⟩
    · rw [htext]
      rfl
    · -- the digits go up to what follows
      have hall := natText_digits n
      have hstop : rest.takeWhile isDigit = [] ∧ rest.dropWhile isDigit = rest := by
        cases rest with
        | nil => exact ⟨rfl, rfl⟩
        | cons d t =>
          rcases hrest d t rfl with rfl | rfl | rfl
          · exact ⟨rfl, rfl⟩
          · exact ⟨rfl, rfl⟩
          · exact ⟨rfl, rfl⟩
      have hscan : scanInt (natText n ++ rest) = scanDigits (natText n ++ rest) := by
        rw [htext]
        exact if_neg hzero
      rw [hscan, scanDigits, List.takeWhile_append_of_pos hall, List.dropWhile_append_of_pos hall,
        hstop.1, hstop.2, List.append_nil, if_neg (by rw [htext]; nofun)]
  simp only [scanUnsigned, hint, hfrac, hexp, Option.bind_eq_bind, Option.bind_some,
    List.append_nil, Option.pure_def]

theorem isSpace_of_isDigit {c : UInt8} (hc : isDigit c = true) : isSpace c = false := by
  have hne : ∀ d, isDigit d = false → c ≠ d := fun d => ne_of_isDigit hc
  simp [isSpace, hne 32 (by decide), hne 9 (by decide), hne 13 (by decide), hne 10 (by decide)]

theorem intText_cons (n : ℤ) : ∃ c s, intText n = c :: s ∧ (c = 45 ∨ isDigit c = true) := by
  unfold intText
  split_ifs
  · exact ⟨45, _, rfl, .inl rfl⟩
  · obtain ⟨c, s, htext, hc⟩ := natText_cons n.natAbs
    exact ⟨c, s, htext, .inr hc⟩

/-- The scanner takes digits as long as there are any. So what follows must not be a digit, which
is what `Ends` gives for the texts that are written here. -/
theorem scanNumber_intText (n : ℤ) {rest : List UInt8} (hrest : Ends rest) :
    scanNumber (intText n ++ rest) = some (intText n, rest) := by
  have hscan := scanUnsigned_natText n.natAbs hrest
  unfold intText
  split_ifs
  · rw [List.cons_append, scanNumber, if_pos rfl, hscan]
    rfl
  · obtain ⟨c, s, htext, hc⟩ := natText_cons n.natAbs
    rw [htext, List.cons_append] at hscan ⊢
    rw [scanNumber, if_neg (ne_of_isDigit hc (by decide)), hscan]

theorem value_int {fuel : ℕ} (n : ℤ) {rest : List UInt8} (hrest : Ends rest) :
    value (fuel + 1) (intText n ++ rest) = some (.num (intText n), rest) := by
  have hscan := scanNumber_intText n hrest
  obtain ⟨c, s, htext, hc⟩ := intText_cons n
  -- a digit or a minus sign is different from any byte that is neither
  have hne : ∀ d, isDigit d = false → d ≠ 45 → c ≠ d := by
    intro d hd hminus
    rcases hc with rfl | hc
    · exact hminus.symm
    · exact ne_of_isDigit hc hd
  have hspace : isSpace c = false := by
    rcases hc with rfl | hc
    · decide
    · exact isSpace_of_isDigit hc
  rw [htext, List.cons_append] at hscan ⊢
  rw [value, show skip (c :: (s ++ rest)) = c :: (s ++ rest) from skip_blank blank_nil hspace _]
  dsimp only
  rw [if_neg (hne 34 (by decide) (by decide)), if_neg (hne 91 (by decide) (by decide)),
    if_neg (hne 123 (by decide) (by decide)), if_neg (hne 110 (by decide) (by decide)),
    if_neg (hne 116 (by decide) (by decide)), if_neg (hne 102 (by decide) (by decide)), hscan,
    Option.map_some]

/-! ## Texts without escapes -/

theorem quote_of_forall {s : List UInt8} (h : ∀ b ∈ s, b.toNat < 0x80 ∧ escapeByte b = [b]) :
    quote s = s := by
  rw [quote, pieces_ascii fun b hb => (h b hb).1, List.flatMap_map]
  calc s.flatMap (fun b => escape (.rune [b])) = s.flatMap fun b => [b] :=
        List.flatMap_congr fun b hb => (escapeRune_singleton b).trans (h b hb).2
    _ = s := List.flatMap_singleton' s

theorem length_bytes_le {p : Piece} (h : p.Ok) : p.bytes.length ≤ 4 := by
  rcases p with r | b
  · rcases r with _ | ⟨a, _ | ⟨b, _ | ⟨c, _ | ⟨d, _ | ⟨e, r⟩⟩⟩⟩⟩
    · exact Nat.zero_le _
    · exact Nat.le_of_ble_eq_true rfl
    · exact Nat.le_of_ble_eq_true rfl
    · exact Nat.le_of_ble_eq_true rfl
    · exact Nat.le_of_ble_eq_true rfl
    · exact absurd h nofun
  · exact Nat.le_of_ble_eq_true rfl

/-- A rune has at most four bytes, so a string is at most four times as long as it has pieces. -/
theorem length_le_pieces (s : List UInt8) : s.length ≤ 4 * (pieces s).length := by
  have hok := (piecesUpTo_spec (le_refl s.length)).2
  calc s.length = ((pieces s).flatMap Piece.bytes).length := by rw [flatMap_bytes_pieces]
    _ = ((pieces s).map fun p => p.bytes.length).sum := List.length_flatMap
    _ ≤ ((pieces s).map fun p => p.bytes.length).length • 4 := by
      refine List.sum_le_card_nsmul _ 4 fun n hn => ?_
      obtain ⟨p, hp, rfl⟩ := List.mem_map.mp hn
      exact length_bytes_le (hok p hp)
    _ = 4 * (pieces s).length := by rw [List.length_map, smul_eq_mul, Nat.mul_comm]

/-- An escape is no shorter than what it stands for, and longer for a byte that is not UTF-8. So
the length of what was written tells whether something was lost. -/
theorem length_escape {p : Piece} (h : p.Ok) :
    p.bytes.length ≤ (escape p).length ∧
      ((escape p).length ≤ p.bytes.length → p.clean = p.bytes) := by
  rcases p with r | b
  · refine ⟨?_, fun _ => rfl⟩
    rcases r with _ | ⟨a, _ | ⟨b, r⟩⟩
    · exact absurd rfl (isRune_ne_nil h)
    · exact List.length_pos_of_ne_nil (escape_ne_nil h)
    · rcases escapeRune_cons_cons (a := a) (b := b) (r := r) with ⟨hesc, hr⟩ | ⟨hesc, hr⟩ | hesc
      · rw [escape, hesc, Piece.bytes, hr]
        decide
      · rw [escape, hesc, Piece.bytes, hr]
        decide
      · rw [escape, hesc, Piece.bytes]
  · exact ⟨Nat.le_of_ble_eq_true rfl, fun hle => absurd hle (by simp [escape, Piece.bytes])⟩

theorem sanitize_of_quote {s : List UInt8} (h : quote s = s) : sanitize s = s := by
  have hok := (piecesUpTo_spec (le_refl s.length)).2
  -- the lengths of all pieces together agree, so those of every piece do
  have hpieces : ∀ ps : List Piece, (∀ p ∈ ps, p.Ok) →
      (ps.flatMap Piece.bytes).length ≤ (ps.flatMap escape).length ∧
        ((ps.flatMap escape).length ≤ (ps.flatMap Piece.bytes).length →
          ps.flatMap Piece.clean = ps.flatMap Piece.bytes) := by
    intro ps
    induction ps with
    | nil => exact fun _ => ⟨le_rfl, fun _ => rfl⟩
    | cons p ps ih =>
      intro hps
      obtain ⟨hle, hclean⟩ := length_escape (hps p List.mem_cons_self)
      obtain ⟨hles, hcleans⟩ := ih fun q hq => hps q (List.mem_cons_of_mem _ hq)
      simp only [List.flatMap_cons, List.length_append]
      refine ⟨by omega, fun hge => ?_⟩
      rw [hclean (by omega), hcleans (by omega)]
  have hsame := (hpieces (pieces s) hok).2
  rw [flatMap_bytes_pieces] at hsame
  exact hsame (by rw [show (pieces s).flatMap escape = s from h])

/-! ## Writing

`compact` follows the encoder: no blanks, members in the order they are in. A number is its raw
text, so what can be read back are values whose numbers are texts of integers (`Writable`). -/

mutual

/-- `json.Marshal` of a value. -/
def compact : Json → List UInt8
  | .null => [110, 117, 108, 108]
  | .bool true => [116, 114, 117, 101]
  | .bool false => [102, 97, 108, 115, 101]
  | .num raw => raw
  | .str raw => 34 :: (raw ++ [34])
  | .arr vs => 91 :: (compactElements vs ++ [93])
  | .obj ms => 123 :: (compactMembers ms ++ [125])

def compactElements : List Json → List UInt8
  | [] => []
  | [v] => compact v
  | v :: w :: vs => compact v ++ 44 :: compactElements (w :: vs)

def compactMembers : List (List UInt8 × Json) → List UInt8
  | [] => []
  | [(key, v)] => 34 :: (key ++ 34 :: 58 :: compact v)
  | (key, v) :: m :: ms => 34 :: (key ++ 34 :: 58 :: (compact v ++ 44 :: compactMembers (m :: ms)))

end

mutual

/-- Values whose numbers are integers and whose raw texts are JSON strings. -/
def Writable : Json → Prop
  | .null => True
  | .bool _ => True
  | .num raw => ∃ n, raw = intText n
  | .str raw => Literal raw
  | .arr vs => WritableElements vs
  | .obj ms => WritableMembers ms

def WritableElements : List Json → Prop
  | [] => True
  | v :: vs => v.Writable ∧ WritableElements vs

def WritableMembers : List (List UInt8 × Json) → Prop
  | [] => True
  | (key, v) :: ms => Literal key ∧ v.Writable ∧ WritableMembers ms

end

theorem writableMembers_iff {ms : List (List UInt8 × Json)} :
    WritableMembers ms ↔ ∀ m ∈ ms, Literal m.1 ∧ m.2.Writable := by
  induction ms with
  | nil => simp [WritableMembers]
  | cons m ms ih => rw [WritableMembers, ih, List.forall_mem_cons, and_assoc]

theorem writableElements_iff {vs : List Json} : WritableElements vs ↔ ∀ v ∈ vs, v.Writable := by
  induction vs with
  | nil => simp [WritableElements]
  | cons v vs ih => rw [WritableElements, ih, List.forall_mem_cons]

theorem length_compactElements {vs : List Json} {n : ℕ} (h : ∀ v ∈ vs, v.compact.length ≤ n) :
    (compactElements vs).length ≤ vs.length * (n + 1) := by
  induction vs with
  | nil => exact Nat.zero_le _
  | cons v vs ih =>
    have hv := h v List.mem_cons_self
    have hvs := ih fun w hw => h w (List.mem_cons_of_mem _ hw)
    rw [List.length_cons, Nat.succ_mul]
    cases vs with
    | nil =>
      rw [compactElements]
      omega
    | cons w vs =>
      rw [compactElements, List.length_append, List.length_cons]
      omega

theorem length_compactMembers (ms : List (List UInt8 × Json)) :
    (compactMembers ms).length ≤ (ms.map fun m => m.1.length + m.2.compact.length + 4).sum := by
  induction ms with
  | nil => rfl
  | cons m ms ih =>
    obtain ⟨key, v⟩ := m
    rw [List.map_cons, List.sum_cons]
    cases ms with
    | nil =>
      simp only [compactMembers, List.length_cons, List.length_append, List.map_nil, List.sum_nil]
      omega
    | cons m ms =>
      simp only [compactMembers, List.length_cons, List.length_append] at ih ⊢
      omega

/-! ## Reading back -/

/-- The first byte of a written value is no white space and does not close an array. With the
second, `value` can tell an array with elements from an empty one. -/
theorem compact_head {v : Json} (h : v.Writable) :
    ∃ c t, v.compact = c :: t ∧ isSpace c = false ∧ c ≠ 93 := by
  rcases v with _ | b | raw | raw | vs | ms
  · exact ⟨_, _, rfl, by decide, by decide⟩
  · cases b
    · exact ⟨_, _, rfl, by decide, by decide⟩
    · exact ⟨_, _, rfl, by decide, by decide⟩
  · -- a number is the only constructor whose first byte is not fixed
    obtain ⟨n, rfl⟩ := h
    obtain ⟨c, s, htext, hc⟩ := intText_cons n
    refine ⟨c, s, htext, ?_⟩
    rcases hc with rfl | hc
    · exact ⟨by decide, by decide⟩
    · exact ⟨isSpace_of_isDigit hc, ne_of_isDigit hc (by decide)⟩
  · exact ⟨_, _, rfl, by decide, by decide⟩
  · exact ⟨_, _, rfl, by decide, by decide⟩
  · exact ⟨_, _, rfl, by decide, by decide⟩

theorem compactElements_head {v : Json} (h : v.Writable) (vs : List Json) :
    ∃ c t, compactElements (v :: vs) = c :: t ∧ isSpace c = false ∧ c ≠ 93 := by
  obtain ⟨c, t, htext, hspace, hne⟩ := compact_head h
  rcases vs with _ | ⟨w, vs⟩
  · exact ⟨c, t, by rw [compactElements, htext], hspace, hne⟩
  · exact ⟨c, _, by rw [compactElements, htext, List.cons_append], hspace, hne⟩

theorem compactMembers_head (m : List UInt8 × Json) (ms : List (List UInt8 × Json)) :
    ∃ t, compactMembers (m :: ms) = 34 :: t := by
  rcases ms with _ | ⟨m', ms⟩
  · exact ⟨_, by rw [compactMembers]⟩
  · exact ⟨_, by rw [compactMembers]⟩

/-- With this fuel, written values are read back, before anything that ends them. -/
def CompactValue (fuel : ℕ) : Prop :=
  ∀ (v : Json) (rest : List UInt8), v.Writable → v.compact.length ≤ fuel → Ends rest →
    value fuel (v.compact ++ rest) = some (v, rest)

def CompactElements (fuel : ℕ) : Prop :=
  ∀ (vs : List Json) (rest : List UInt8), vs ≠ [] → WritableElements vs →
    (compactElements vs).length < fuel →
    elements fuel (compactElements vs ++ 93 :: rest) = some (vs, rest)

def CompactMembers (fuel : ℕ) : Prop :=
  ∀ (ms : List (List UInt8 × Json)) (rest : List UInt8), ms ≠ [] → WritableMembers ms →
    (compactMembers ms).length < fuel →
    members fuel (compactMembers ms ++ 125 :: rest) = some (ms, rest)

theorem compactValue_succ {fuel : ℕ} (he : CompactElements fuel) (hm : CompactMembers fuel) :
    CompactValue (fuel + 1) := by
  intro v rest h hfuel hrest
  -- what follows the value matters for a number only; the other values say where they end
  rcases v with _ | b | raw | raw | vs | ms
  · rfl
  · cases b
    · rfl
    · rfl
  · obtain ⟨n, rfl⟩ := h
    exact value_int n hrest
  · rw [compact, List.cons_append, List.append_assoc]
    exact value_str blank_nil h rest
  · rw [compact, List.length_cons, List.length_append, List.length_singleton] at hfuel
    rw [compact, List.cons_append, List.append_assoc]
    rcases vs with _ | ⟨v, vs⟩
    · rfl
    · obtain ⟨c, t, hhead, hspace, hne⟩ := compactElements_head h.1 vs
      refine value_arr blank_nil ?_ (he (v :: vs) rest (by simp) h (by omega))
      rw [hhead, List.cons_append]
      exact scanEmpty_of_head blank_nil hspace hne _
  · rw [compact, List.length_cons, List.length_append, List.length_singleton] at hfuel
    rw [compact, List.cons_append, List.append_assoc]
    rcases ms with _ | ⟨m, ms⟩
    · rfl
    · obtain ⟨t, hhead⟩ := compactMembers_head m ms
      refine value_obj blank_nil ?_ (hm (m :: ms) rest (by simp) h (by omega))
      rw [hhead, List.cons_append]
      exact scanEmpty_of_head blank_nil (by decide) (by decide) _

theorem compactElements_succ {fuel : ℕ} (hv : CompactValue fuel) (he : CompactElements fuel) :
    CompactElements (fuel + 1) := by
  intro vs rest hne h hfuel
  rcases vs with _ | ⟨v, _ | ⟨w, vs⟩⟩
  · exact absurd rfl hne
  · rw [compactElements] at hfuel ⊢
    exact elements_last (hv v _ h.1 (by omega) (ends_cons (by decide) _))
      (scanSeparator_close (by decide) (by decide) blank_nil rest)
  · rw [compactElements, List.length_append, List.length_cons] at hfuel
    rw [compactElements, List.append_assoc, List.cons_append]
    exact elements_more (hv v _ h.1 (by omega) (ends_cons (by decide) _))
      (scanSeparator_comma 93 blank_nil _) (he (w :: vs) rest (by simp) h.2 (by omega))

theorem compactMembers_succ {fuel : ℕ} (hv : CompactValue fuel) (hm : CompactMembers fuel) :
    CompactMembers (fuel + 1) := by
  intro ms rest hne h hfuel
  rcases ms with _ | ⟨⟨key, v⟩, _ | ⟨m, ms⟩⟩
  · exact absurd rfl hne
  · simp only [compactMembers, List.length_append, List.length_cons] at hfuel
    -- the last member ends with the bracket
    have htext : compactMembers [(key, v)] ++ 125 :: rest =
        34 :: (key ++ 34 :: 58 :: (v.compact ++ 125 :: rest)) := by
      simp only [compactMembers, List.append_assoc, List.cons_append]
    rw [htext]
    exact members_last (scanKey_literal h.1 blank_nil _)
      (hv v _ h.2.1 (by omega) (ends_cons (by decide) _))
      (scanSeparator_close (by decide) (by decide) blank_nil rest)
  · simp only [compactMembers, List.length_append, List.length_cons] at hfuel
    -- the others with a comma
    have htext : compactMembers ((key, v) :: m :: ms) ++ 125 :: rest = 34 :: (key ++ 34 :: 58 ::
        (v.compact ++ 44 :: (compactMembers (m :: ms) ++ 125 :: rest))) := by
      simp only [compactMembers, List.append_assoc, List.cons_append]
    rw [htext]
    exact members_more (scanKey_literal h.1 blank_nil _)
      (hv v _ h.2.1 (by omega) (ends_cons (by decide) _))
      (scanSeparator_comma 125 blank_nil _) (hm (m :: ms) rest (by simp) h.2.2 (by omega))

/-- By induction on the fuel, for the three functions together, as they call each other with less
of it. It is at least the length of the text, and each bracket and comma pays for one call. -/
theorem compactReads (fuel : ℕ) :
    CompactValue fuel ∧ CompactElements fuel ∧ CompactMembers fuel := by
  induction fuel with
  | zero =>
    -- every text has a byte, and elements and members are asked for more fuel than they have bytes
    refine ⟨fun v rest h hfuel => ?_, fun vs rest hne h hfuel => absurd hfuel (by omega),
      fun ms rest hne h hfuel => absurd hfuel (by omega)⟩
    obtain ⟨c, t, htext, -⟩ := compact_head h
    rw [htext] at hfuel
    exact absurd hfuel (by simp)
  | succ fuel ih =>
    obtain ⟨hv, he, hm⟩ := ih
    exact ⟨compactValue_succ he hm, compactElements_succ hv he, compactMembers_succ hv hm⟩

/-- **What is written is parsed back.** The text is its own bound on the fuel, and a text that is
over is one that `Ends`. -/
theorem parse_compact {v : Json} (h : v.Writable) : parse v.compact = some v := by
  have hread := (compactReads v.compact.length).1 v [] h le_rfl ends_nil
  rw [List.append_nil] at hread
  rw [parse, hread, Option.bind_some]
  rfl

end Heimdall.Json
