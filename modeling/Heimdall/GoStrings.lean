/-
Functions of Go's `strings` that go over the runes of a string: `strings.Map` and `strings.ToUpper`.

A rune is given by its encoding, and a rune that the mapping drops goes to the empty string. Bytes
that are not UTF-8 are U+FFFD for the mapping, so that the result is made of whole encodings again.
`ToUpper` has a path of its own for ASCII, which computes the same (`toUpper_eq_mapRunes`).

The tables behind `unicode.ToUpper` are not spelled out. What is assumed of them is in `CaseTable`:
outside ASCII they map runes to runes, and the only two that go into ASCII are the dotless i,
U+0131, to I and the long s, U+017F, to S.
-/
import Heimdall.Utf8

set_option autoImplicit false

namespace Heimdall.GoStrings

open Heimdall.Utf8

def mapRunes (f : List UInt8 → List UInt8) (s : List UInt8) : List UInt8 :=
  (pieces s).flatMap fun p => f p.clean

/-- The upper case of an ASCII letter; other bytes stay. -/
def upperByte (b : UInt8) : UInt8 := if 97 ≤ b ∧ b ≤ 122 then b - 32 else b

/-- The upper case of the runes outside ASCII. -/
structure CaseTable where
  upper : List UInt8 → List UInt8
  isRune_upper : ∀ r, isRune r = true → 1 < r.length → isRune (upper r) = true
  upper_dotless : upper [0xC4, 0xB1] = [73]
  upper_long : upper [0xC5, 0xBF] = [83]
  eq_of_upper : ∀ r b, isRune r = true → 1 < r.length → upper r = [b] →
    r = [0xC4, 0xB1] ∨ r = [0xC5, 0xBF]

namespace CaseTable

variable (t : CaseTable)

def toUpper : List UInt8 → List UInt8
  | [b] => [upperByte b]
  | r => t.upper r

end CaseTable

def toUpper (t : CaseTable) (s : List UInt8) : List UInt8 :=
  if s.all fun b => b < 0x80 then s.map upperByte else mapRunes t.toUpper s

/-! ## ASCII -/

theorem mapRunes_of_ascii {f : List UInt8 → List UInt8} {s : List UInt8}
    (h : ∀ b ∈ s, b.toNat < 0x80) : mapRunes f s = s.flatMap fun b => f [b] := by
  rw [mapRunes, pieces_ascii h, List.flatMap_map]
  rfl

theorem toUpper_eq_mapRunes (t : CaseTable) (s : List UInt8) :
    toUpper t s = mapRunes t.toUpper s := by
  unfold toUpper
  split_ifs with h
  · have hascii : ∀ b ∈ s, b.toNat < 0x80 := fun b hb =>
      UInt8.lt_iff_toNat_lt.mp (of_decide_eq_true (List.all_eq_true.mp h b hb))
    rw [mapRunes_of_ascii hascii]
    exact List.map_eq_flatMap
  · rfl

theorem toUpper_of_ascii {t : CaseTable} {s : List UInt8} (h : ∀ b ∈ s, b.toNat < 0x80) :
    toUpper t s = s.map upperByte := by
  rw [toUpper_eq_mapRunes, mapRunes_of_ascii h]
  exact List.map_eq_flatMap.symm

theorem forall_byte {P : UInt8 → Prop} (h : ∀ n : Fin 256, P (UInt8.ofNat n)) (b : UInt8) :
    P b := by
  have hb := h ⟨b.toNat, b.toNat_lt⟩
  rwa [UInt8.ofNat_toNat] at hb

theorem upperByte_lt : ∀ b : UInt8, b.toNat < 0x80 → (upperByte b).toNat < 0x80 :=
  forall_byte (by decide +kernel)

/-! ## The bytes of the result -/

variable {t : CaseTable} {s : List UInt8} {b : UInt8}

theorem CaseTable.isRune_toUpper {r : List UInt8} (h : isRune r = true) :
    isRune (t.toUpper r) = true := by
  rcases r with _ | ⟨a, _ | ⟨c, r⟩⟩
  · exact absurd h (by decide)
  · exact isRune_one.mpr (upperByte_lt a (isRune_one.mp h))
  · exact t.isRune_upper _ h (by simp)

theorem toUpper_le (h : b ∈ toUpper t s) : b.toNat ≤ 0xF4 := by
  rw [toUpper_eq_mapRunes] at h
  obtain ⟨p, hp, hb⟩ := List.mem_flatMap.mp h
  exact isRune_le (CaseTable.isRune_toUpper (pieces_ok hp).clean) b hb

theorem mem_toUpper_ascii (h : b ∈ toUpper t s) (hlt : b.toNat < 0x80) :
    b = 73 ∨ b = 83 ∨ ∃ a ∈ s, upperByte a = b := by
  rw [toUpper_eq_mapRunes] at h
  obtain ⟨p, hp, hb⟩ := List.mem_flatMap.mp h
  have hrune := (pieces_ok hp).clean
  have hsingle : t.toUpper p.clean = [b] :=
    isRune_eq_singleton (CaseTable.isRune_toUpper hrune) hb hlt
  rcases hclean : p.clean with _ | ⟨a, _ | ⟨c, r⟩⟩ <;> rw [hclean] at hrune hsingle
  · exact absurd hrune (by decide)
  · -- a replacement character has three bytes, so this one is in the string
    rcases p with r | bad
    · obtain rfl : r = [a] := hclean
      have ha : a ∈ s := mem_of_mem_pieces hp (List.mem_singleton_self a)
      exact .inr (.inr ⟨a, ha, List.singleton_inj.mp hsingle⟩)
    · exact absurd hclean (by simp [Piece.clean, replacement])
  · rcases t.eq_of_upper _ b hrune (by simp) hsingle with hr | hr
    · have hI := t.upper_dotless
      rw [← hr] at hI
      exact .inl (List.singleton_inj.mp (hsingle.symm.trans hI))
    · have hS := t.upper_long
      rw [← hr] at hS
      exact .inr (.inl (List.singleton_inj.mp (hsingle.symm.trans hS)))

/-! ## A table -/

/-- The two runes that go into ASCII; all others stay as they are. -/
def smallUpper (r : List UInt8) : List UInt8 :=
  if r = [0xC4, 0xB1] then [73] else if r = [0xC5, 0xBF] then [83] else r

theorem isRune_smallUpper (r : List UInt8) (h : isRune r = true) (_ : 1 < r.length) :
    isRune (smallUpper r) = true := by
  unfold smallUpper
  split_ifs
  · rfl
  · rfl
  · exact h

theorem eq_of_smallUpper (r : List UInt8) (b : UInt8) (_ : isRune r = true) (hlen : 1 < r.length)
    (h : smallUpper r = [b]) : r = [0xC4, 0xB1] ∨ r = [0xC5, 0xBF] := by
  unfold smallUpper at h
  split_ifs at h with h₁ h₂
  · exact .inl h₁
  · exact .inr h₂
  · rw [h] at hlen
    exact absurd hlen (by simp)

theorem smallUpper_dotless : smallUpper [0xC4, 0xB1] = [73] := rfl

theorem smallUpper_long : smallUpper [0xC5, 0xBF] = [83] := rfl

def smallTable : CaseTable :=
  ⟨smallUpper, isRune_smallUpper, smallUpper_dotless, smallUpper_long, eq_of_smallUpper⟩

end Heimdall.GoStrings
