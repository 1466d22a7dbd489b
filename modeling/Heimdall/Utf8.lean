/-
UTF-8 as Go reads it.

A string is any list of bytes. `decodeRune` takes the encoding a string starts with, if it starts
with one; a byte at which no encoding starts counts alone, as U+FFFD. `pieces` cuts a string up in
this way, and `sanitize` writes the replacement character for the bytes that are not UTF-8. Loops
over the runes of a string are functions of its pieces.

Whether an encoding starts a string does not depend on what follows it (`decodeRune_append`), so
what is put together from encodings is cut up into them again (`pieces_flatten`). Hence a
sanitized string is valid, and a valid one is its own sanitized form.
-/
import Mathlib.Data.List.Flatten
import Mathlib.Tactic

set_option autoImplicit false

namespace Heimdall.Utf8

/-! ## Digits of ASCII -/

def isDigit (c : UInt8) : Bool := 48 ≤ c && c ≤ 57

def hexValue (c : UInt8) : Option ℕ :=
  if isDigit c then some (c.toNat - 48)
  else if 97 ≤ c ∧ c ≤ 102 then some (c.toNat - 87)
  else if 65 ≤ c ∧ c ≤ 70 then some (c.toNat - 55)
  else none

/-! ## Encodings -/

def cont (b : UInt8) : Bool := 0x80 ≤ b ∧ b ≤ 0xBF

/-- The first two bytes of an encoding of three: no overlong forms and no surrogates. -/
def lead3 (a b : UInt8) : Bool :=
  if a = 0xE0 then 0xA0 ≤ b ∧ b ≤ 0xBF
  else if a = 0xED then 0x80 ≤ b ∧ b ≤ 0x9F
  else 0xE1 ≤ a ∧ a ≤ 0xEF ∧ cont b

/-- The first two bytes of an encoding of four: no overlong forms and nothing past U+10FFFF. -/
def lead4 (a b : UInt8) : Bool :=
  if a = 0xF0 then 0x90 ≤ b ∧ b ≤ 0xBF
  else if a = 0xF4 then 0x80 ≤ b ∧ b ≤ 0x8F
  else 0xF1 ≤ a ∧ a ≤ 0xF3 ∧ cont b

/-- The encodings of single runes. -/
def isRune : List UInt8 → Bool
  | [a] => a < 0x80
  | [a, b] => 0xC2 ≤ a ∧ a ≤ 0xDF ∧ cont b
  | [a, b, c] => lead3 a b ∧ cont c
  | [a, b, c, d] => lead4 a b ∧ cont c ∧ cont d
  | _ => false

/-- `utf8.DecodeRune`: the encoding a string starts with. -/
def decodeRune (s : List UInt8) : Option (List UInt8) :=
  if isRune (s.take 1) then some (s.take 1)
  else if isRune (s.take 2) then some (s.take 2)
  else if isRune (s.take 3) then some (s.take 3)
  else if isRune (s.take 4) then some (s.take 4)
  else none

def replacement : List UInt8 := [0xEF, 0xBF, 0xBD]

theorem isRune_replacement : isRune replacement = true := by decide

theorem isRune_ne_nil {r : List UInt8} (h : isRune r = true) : r ≠ [] := by
  rintro rfl
  exact absurd h (by decide)

/-! ## What an encoding starts with -/

theorem lead3_range {a b : UInt8} (h : lead3 a b = true) : 0xE0 ≤ a.toNat ∧ a.toNat ≤ 0xEF := by
  unfold lead3 at h
  split_ifs at h with h₀ h₁
  · simp [h₀]
  · simp [h₁]
  · obtain ⟨hlo, hhi, -⟩ := of_decide_eq_true h
    have hlo' := UInt8.le_iff_toNat_le.mp hlo
    have hhi' := UInt8.le_iff_toNat_le.mp hhi
    simp only [UInt8.reduceToNat] at hlo' hhi'
    omega

theorem lead4_range {a b : UInt8} (h : lead4 a b = true) : 0xF0 ≤ a.toNat := by
  unfold lead4 at h
  split_ifs at h with h₀ h₁
  · simp [h₀]
  · simp [h₁]
  · have hlo := UInt8.le_iff_toNat_le.mp (of_decide_eq_true h).1
    simp only [UInt8.reduceToNat] at hlo
    omega

-- the lemmas below share the equations of `isRune`: they are made here, once
attribute [local simp] isRune in
/-- The first byte tells how long an encoding is: below 0x80, 0xC2 to 0xDF, 0xE0 to 0xEF and from
0xF0 on. -/
theorem isRune_one {a : UInt8} : isRune [a] = true ↔ a.toNat < 0x80 := by
  rw [isRune, decide_eq_true_iff, UInt8.lt_iff_toNat_lt]
  rfl

theorem isRune_two {a b : UInt8} (h : isRune [a, b] = true) : 0xC2 ≤ a.toNat ∧ a.toNat ≤ 0xDF := by
  rw [isRune, decide_eq_true_iff, UInt8.le_iff_toNat_le, UInt8.le_iff_toNat_le] at h
  exact ⟨h.1, h.2.1⟩

theorem isRune_three {a b c : UInt8} (h : isRune [a, b, c] = true) :
    0xE0 ≤ a.toNat ∧ a.toNat ≤ 0xEF := by
  rw [isRune, decide_eq_true_iff] at h
  exact lead3_range h.1

theorem isRune_four {a b c d : UInt8} (h : isRune [a, b, c, d] = true) : 0xF0 ≤ a.toNat := by
  rw [isRune, decide_eq_true_iff] at h
  exact lead4_range h.1

theorem not_isRune_one {a : UInt8} (h : 0x80 ≤ a.toNat) : isRune [a] ≠ true := by
  intro hc
  have := isRune_one.mp hc
  omega

theorem not_isRune_two {a : UInt8} (h : 0xE0 ≤ a.toNat) (b : UInt8) : isRune [a, b] ≠ true := by
  intro hc
  have := isRune_two hc
  omega

theorem not_isRune_three {a : UInt8} (h : 0xF0 ≤ a.toNat) (b c : UInt8) :
    isRune [a, b, c] ≠ true := by
  intro hc
  have := isRune_three hc
  omega

theorem cont_ge {b : UInt8} (h : cont b = true) : 0x80 ≤ b.toNat :=
  UInt8.le_iff_toNat_le.mp (of_decide_eq_true h).1

theorem lead3_ge {a b : UInt8} (h : lead3 a b = true) : 0x80 ≤ b.toNat := by
  unfold lead3 at h
  split_ifs at h
  · have hlo := UInt8.le_iff_toNat_le.mp (of_decide_eq_true h).1
    simp only [UInt8.reduceToNat] at hlo
    omega
  · exact UInt8.le_iff_toNat_le.mp (of_decide_eq_true h).1
  · exact cont_ge (of_decide_eq_true h).2.2

theorem lead4_ge {a b : UInt8} (h : lead4 a b = true) : 0x80 ≤ b.toNat := by
  unfold lead4 at h
  split_ifs at h
  · have hlo := UInt8.le_iff_toNat_le.mp (of_decide_eq_true h).1
    simp only [UInt8.reduceToNat] at hlo
    omega
  · exact UInt8.le_iff_toNat_le.mp (of_decide_eq_true h).1
  · exact cont_ge (of_decide_eq_true h).2.2

/-- ASCII bytes stand for themselves only: an encoding of two bytes or more has none of them. So a
search for an ASCII byte in a string never ends up inside a rune. -/
theorem isRune_ge {a b : UInt8} {r : List UInt8} (h : isRune (a :: b :: r) = true) :
    ∀ x ∈ a :: b :: r, 0x80 ≤ x.toNat := by
  rcases r with _ | ⟨c, _ | ⟨d, _ | ⟨x, t⟩⟩⟩
  · -- two, three and four bytes: the first by its range, the others as continuation bytes
    have hlead := (isRune_two h).1
    have hcont := cont_ge (of_decide_eq_true h).2.2
    simp only [List.forall_mem_cons, List.not_mem_nil, false_imp_iff, implies_true, and_true]
    omega
  · have hlead := (isRune_three h).1
    have hsecond := lead3_ge (of_decide_eq_true h).1
    have hcont := cont_ge (of_decide_eq_true h).2
    simp only [List.forall_mem_cons, List.not_mem_nil, false_imp_iff, implies_true, and_true]
    omega
  · have hlead := isRune_four h
    obtain ⟨hlead₂, hc, hd⟩ := of_decide_eq_true h
    have hsecond := lead4_ge hlead₂
    have hthird := cont_ge hc
    have hfourth := cont_ge hd
    simp only [List.forall_mem_cons, List.not_mem_nil, false_imp_iff, implies_true, and_true]
    omega
  · exact absurd h (by simp [isRune])

/-- An ASCII byte in an encoding is all of it. -/
theorem isRune_eq_singleton {r : List UInt8} {x : UInt8} (h : isRune r = true) (hx : x ∈ r)
    (hlt : x.toNat < 0x80) : r = [x] := by
  rcases r with _ | ⟨a, _ | ⟨b, r⟩⟩
  · exact absurd hx List.not_mem_nil
  · rw [List.mem_singleton.mp hx]
  · have hge := isRune_ge h x hx
    omega

theorem cont_le {b : UInt8} (h : cont b = true) : b.toNat ≤ 0xBF :=
  UInt8.le_iff_toNat_le.mp (of_decide_eq_true h).2

theorem lead3_le {a b : UInt8} (h : lead3 a b = true) : b.toNat ≤ 0xBF := by
  unfold lead3 at h
  split_ifs at h
  · exact UInt8.le_iff_toNat_le.mp (of_decide_eq_true h).2
  · have hhi := UInt8.le_iff_toNat_le.mp (of_decide_eq_true h).2
    simp only [UInt8.reduceToNat] at hhi
    omega
  · exact cont_le (of_decide_eq_true h).2.2

theorem lead4_le {a b : UInt8} (h : lead4 a b = true) : a.toNat ≤ 0xF4 ∧ b.toNat ≤ 0xBF := by
  unfold lead4 at h
  split_ifs at h with h₀ h₁
  · -- the two first bytes with bounds of their own, and then the others
    have hhi := UInt8.le_iff_toNat_le.mp (of_decide_eq_true h).2
    simp only [UInt8.reduceToNat] at hhi
    simp only [h₀, UInt8.reduceToNat]
    omega
  · have hhi := UInt8.le_iff_toNat_le.mp (of_decide_eq_true h).2
    simp only [UInt8.reduceToNat] at hhi
    simp only [h₁, UInt8.reduceToNat]
    omega
  · obtain ⟨-, hhi, hcont⟩ := of_decide_eq_true h
    have hhi' := UInt8.le_iff_toNat_le.mp hhi
    have hcont' := cont_le hcont
    simp only [UInt8.reduceToNat] at hhi'
    omega

/-- No encoding has a byte above 0xF4, so 0xFE and 0xFF never occur in valid strings. Base32
without padding takes 0xFF for its padding character, and this keeps it out. -/
theorem isRune_le {r : List UInt8} (h : isRune r = true) : ∀ x ∈ r, x.toNat ≤ 0xF4 := by
  rcases r with _ | ⟨a, _ | ⟨b, _ | ⟨c, _ | ⟨d, _ | ⟨x, t⟩⟩⟩⟩⟩
  · exact absurd h (by decide)
  · -- one case for each length
    have hlead := isRune_one.mp h
    simp only [List.forall_mem_cons, List.not_mem_nil, false_imp_iff, implies_true, and_true]
    omega
  · have hlead := (isRune_two h).2
    have hcont := cont_le (of_decide_eq_true h).2.2
    simp only [List.forall_mem_cons, List.not_mem_nil, false_imp_iff, implies_true, and_true]
    omega
  · have hlead := (isRune_three h).2
    have hsecond := lead3_le (of_decide_eq_true h).1
    have hcont := cont_le (of_decide_eq_true h).2
    simp only [List.forall_mem_cons, List.not_mem_nil, false_imp_iff, implies_true, and_true]
    omega
  · obtain ⟨hlead₂, hc, hd⟩ := of_decide_eq_true h
    have hlead := lead4_le hlead₂
    have hthird := cont_le hc
    have hfourth := cont_le hd
    simp only [List.forall_mem_cons, List.not_mem_nil, false_imp_iff, implies_true, and_true]
    omega
  · exact absurd h (by simp [isRune])

/-- Whatever follows it, an encoding is found. The shorter prefixes are no encodings, by their
first byte, so the first test that succeeds is the right one. -/
theorem decodeRune_append {r : List UInt8} (h : isRune r = true) (s : List UInt8) :
    decodeRune (r ++ s) = some r := by
  unfold decodeRune
  -- shorter encodings are ruled out by the first byte
  rcases r with _ | ⟨a, _ | ⟨b, _ | ⟨c, _ | ⟨d, _ | ⟨x, t⟩⟩⟩⟩⟩
  · exact absurd h (by decide)
  · exact if_pos h
  · have hlead := isRune_two h
    rw [List.cons_append, List.cons_append, List.nil_append]
    exact (if_neg (not_isRune_one (by omega))).trans (if_pos h)
  · have hlead := isRune_three h
    rw [List.cons_append, List.cons_append, List.cons_append, List.nil_append]
    exact (if_neg (not_isRune_one (by omega))).trans
      ((if_neg (not_isRune_two (by omega) b)).trans (if_pos h))
  · have hlead := isRune_four h
    rw [List.cons_append, List.cons_append, List.cons_append, List.cons_append, List.nil_append]
    exact (if_neg (not_isRune_one (by omega))).trans ((if_neg (not_isRune_two (by omega) b)).trans
      ((if_neg (not_isRune_three hlead b c)).trans (if_pos h)))
  · exact absurd h (by simp [isRune])

theorem decodeRune_eq_some {s r : List UInt8} (h : decodeRune s = some r) :
    isRune r = true ∧ ∃ t, s = r ++ t := by
  unfold decodeRune at h
  split_ifs at h with h₁ h₂ h₃ h₄ <;> obtain rfl := Option.some.inj h
  · exact ⟨h₁, _, (List.take_append_drop 1 s).symm⟩
  · exact ⟨h₂, _, (List.take_append_drop 2 s).symm⟩
  · exact ⟨h₃, _, (List.take_append_drop 3 s).symm⟩
  · exact ⟨h₄, _, (List.take_append_drop 4 s).symm⟩

/-! ## Pieces -/

/-- An encoding, or a byte at which none starts. -/
inductive Piece where
  | rune (r : List UInt8)
  | bad (b : UInt8)
  deriving DecidableEq

def Piece.bytes : Piece → List UInt8
  | .rune r => r
  | .bad b => [b]

/-- The bytes of a piece, with the replacement character for a byte that is not UTF-8. -/
def Piece.clean : Piece → List UInt8
  | .rune r => r
  | .bad _ => replacement

def cut : List UInt8 → Option (Piece × List UInt8)
  | [] => none
  | b :: s =>
    match decodeRune (b :: s) with
    | some r => some (.rune r, (b :: s).drop r.length)
    | none => some (.bad b, s)

/-- The pieces of a string, at most `fuel`. -/
def piecesUpTo : ℕ → List UInt8 → List Piece
  | 0, _ => []
  | fuel + 1, s =>
    match cut s with
    | none => []
    | some (p, rest) => p :: piecesUpTo fuel rest

def pieces (s : List UInt8) : List Piece := piecesUpTo s.length s

def Piece.isValid : Piece → Bool
  | .rune r => isRune r
  | .bad _ => false

def valid (s : List UInt8) : Bool := (pieces s).all Piece.isValid

/-- The string with the replacement character for every byte that is not UTF-8. -/
def sanitize (s : List UInt8) : List UInt8 := (pieces s).flatMap Piece.clean

/-- What `cut` may return: an encoding, or a single byte. -/
def Piece.Ok : Piece → Prop
  | .rune r => isRune r = true
  | .bad _ => True

theorem Piece.Ok.clean {p : Piece} (h : p.Ok) : isRune p.clean = true := by
  cases p with
  | rune r => exact h
  | bad b => exact isRune_replacement

theorem Piece.clean_of_isValid {p : Piece} (h : p.isValid = true) : p.clean = p.bytes := by
  cases p with
  | rune r => rfl
  | bad b => exact absurd h (by simp [Piece.isValid])

theorem cut_eq_some {s rest : List UInt8} {p : Piece} (h : cut s = some (p, rest)) :
    p.Ok ∧ p.bytes ≠ [] ∧ s = p.bytes ++ rest := by
  rcases s with _ | ⟨b, s⟩
  · exact absurd h (by simp [cut])
  dsimp only [cut] at h
  rcases hr : decodeRune (b :: s) with _ | r
  · rw [hr] at h
    obtain ⟨rfl, rfl⟩ := Prod.mk.inj (Option.some.inj h)
    exact ⟨trivial, by simp [Piece.bytes], rfl⟩
  · rw [hr] at h
    obtain ⟨rfl, rfl⟩ := Prod.mk.inj (Option.some.inj h)
    obtain ⟨hrune, t, ht⟩ := decodeRune_eq_some hr
    refine ⟨hrune, isRune_ne_nil hrune, ?_⟩
    rw [ht, List.drop_left]
    rfl

theorem cut_eq_none {s : List UInt8} (h : cut s = none) : s = [] := by
  rcases s with _ | ⟨b, s⟩
  · rfl
  · dsimp only [cut] at h
    rcases hr : decodeRune (b :: s) with _ | r <;> rw [hr] at h <;> exact absurd h (by simp)

theorem cut_append {r : List UInt8} (h : isRune r = true) (s : List UInt8) :
    cut (r ++ s) = some (.rune r, s) := by
  rcases r with _ | ⟨b, r⟩
  · exact absurd rfl (isRune_ne_nil h)
  · have hdecode := decodeRune_append h s
    rw [List.cons_append] at hdecode ⊢
    simp only [cut, hdecode]
    rw [← List.cons_append, List.drop_left]

/-- Go reads a string as runes and bad bytes, each bad byte on its own. Joining the pieces gives
the string back. -/
theorem piecesUpTo_spec {fuel : ℕ} {s : List UInt8} (h : s.length ≤ fuel) :
    (piecesUpTo fuel s).flatMap Piece.bytes = s ∧ ∀ p ∈ piecesUpTo fuel s, p.Ok := by
  induction fuel generalizing s with
  | zero =>
    obtain rfl := List.length_eq_zero_iff.mp (Nat.le_zero.mp h)
    exact ⟨rfl, by simp [piecesUpTo]⟩
  | succ fuel ih =>
    unfold piecesUpTo
    rcases hcut : cut s with _ | ⟨p, rest⟩
    · rw [cut_eq_none hcut]
      exact ⟨rfl, by simp⟩
    · obtain ⟨hok, hne, rfl⟩ := cut_eq_some hcut
      -- the piece is not empty, so the rest is shorter
      have hpos := List.length_pos_of_ne_nil hne
      rw [List.length_append] at h
      obtain ⟨hflat, hall⟩ := ih (show rest.length ≤ fuel by omega)
      refine ⟨?_, ?_⟩
      · rw [List.flatMap_cons, hflat]
      · intro q hq
        rcases List.mem_cons.mp hq with rfl | hq
        · exact hok
        · exact hall q hq

theorem piecesUpTo_flatten {fuel : ℕ} {rs : List (List UInt8)} (h : rs.flatten.length ≤ fuel)
    (hrs : ∀ r ∈ rs, isRune r = true) : piecesUpTo fuel rs.flatten = rs.map Piece.rune := by
  induction rs generalizing fuel with
  | nil => cases fuel <;> rfl
  | cons r rs ih =>
    have hr := hrs r (List.mem_cons_self)
    have hpos := List.length_pos_of_ne_nil (isRune_ne_nil hr)
    rw [List.flatten_cons, List.length_append] at h
    obtain ⟨fuel, rfl⟩ : ∃ k, fuel = k + 1 := ⟨fuel - 1, by omega⟩
    rw [List.flatten_cons, piecesUpTo, cut_append hr]
    dsimp only
    rw [ih (by omega) fun q hq => hrs q (List.mem_cons_of_mem _ hq), List.map_cons]

theorem pieces_flatten {rs : List (List UInt8)} (hrs : ∀ r ∈ rs, isRune r = true) :
    pieces rs.flatten = rs.map Piece.rune :=
  piecesUpTo_flatten le_rfl hrs

theorem flatMap_bytes_pieces (s : List UInt8) : (pieces s).flatMap Piece.bytes = s :=
  (piecesUpTo_spec le_rfl).1

theorem pieces_ok {s : List UInt8} {p : Piece} (h : p ∈ pieces s) : p.Ok :=
  (piecesUpTo_spec le_rfl).2 p h

theorem mem_of_mem_pieces {s : List UInt8} {p : Piece} (hp : p ∈ pieces s) {x : UInt8}
    (hx : x ∈ p.bytes) : x ∈ s := by
  rw [← flatMap_bytes_pieces s]
  exact List.mem_flatMap_of_mem hp hx

theorem pieces_ascii {s : List UInt8} (h : ∀ b ∈ s, b.toNat < 0x80) :
    pieces s = s.map fun b => .rune [b] := by
  have hrunes : ∀ r ∈ s.map fun b => [b], isRune r = true := by
    intro r hr
    obtain ⟨b, hb, rfl⟩ := List.mem_map.mp hr
    exact isRune_one.mpr (h b hb)
  have hpieces := pieces_flatten hrunes
  rw [← List.flatMap_def, List.flatMap_singleton', List.map_map] at hpieces
  exact hpieces

/-! ## Sanitized strings -/

theorem sanitize_of_valid {s : List UInt8} (h : valid s = true) : sanitize s = s := by
  have hclean : ∀ p ∈ pieces s, p.clean = p.bytes := fun p hp =>
    Piece.clean_of_isValid (List.all_eq_true.mp h p hp)
  calc sanitize s = (pieces s).flatMap Piece.bytes := by
        rw [sanitize, List.flatMap_congr hclean]
    _ = s := flatMap_bytes_pieces s

theorem sanitize_ascii {s : List UInt8} (h : ∀ b ∈ s, b.toNat < 0x80) : sanitize s = s := by
  apply sanitize_of_valid
  rw [valid, pieces_ascii h, List.all_map, List.all_eq_true]
  intro b hb
  exact isRune_one.mpr (h b hb)

theorem valid_sanitize (s : List UInt8) : valid (sanitize s) = true := by
  have hrs : ∀ r ∈ (pieces s).map Piece.clean, isRune r = true := by
    intro r hr
    obtain ⟨p, hp, rfl⟩ := List.mem_map.mp hr
    exact (pieces_ok hp).clean
  have hpieces : pieces (sanitize s) = ((pieces s).map Piece.clean).map Piece.rune := by
    rw [sanitize, List.flatMap_def]
    exact pieces_flatten hrs
  rw [valid, hpieces, List.all_map, List.all_eq_true]
  exact hrs

theorem sanitize_ne_nil {s : List UInt8} (h : s ≠ []) : sanitize s ≠ [] := by
  intro hnil
  apply h
  have hpieces : pieces s = [] := by
    apply List.eq_nil_iff_forall_not_mem.mpr
    intro p hp
    have hclean : p.clean = [] := List.flatMap_eq_nil_iff.mp hnil p hp
    have hrune := (pieces_ok hp).clean
    rw [hclean] at hrune
    exact absurd hrune (by decide)
  rw [← flatMap_bytes_pieces s, hpieces]
  rfl

-- a surrogate is three bytes that are not UTF-8, and so three replacement characters
example : sanitize [97, 0xED, 0xA0, 0x80] = 97 :: (replacement ++ replacement ++ replacement) := by
  decide

end Heimdall.Utf8
