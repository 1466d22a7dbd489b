/-
JSON strings as Go writes and reads them.

`quote` is what `encoding/json` writes between the quotes for a string, with HTML escaping as
`Marshal` has it: a byte that is not UTF-8 becomes `\ufffd`. The reader has two parts, as in Go. The
scanner finds the end of a string and checks its escapes; its result is the raw text between the
quotes (`scanString`). `unquote` then turns raw text into bytes.

What `quote` writes is always accepted by the scanner (`literal_quote`) and read back as the
sanitized string (`unquote_quote`).
-/
import Heimdall.Utf8

set_option autoImplicit false

namespace Heimdall.Json

open Heimdall.Utf8

/-! ## Writing -/

def hexLower (n : ℕ) : UInt8 := if n < 10 then UInt8.ofNat (48 + n) else UInt8.ofNat (87 + n)

/-- The escape of an ASCII byte. `&`, `<` and `>` are escaped for HTML. -/
def escapeByte (b : UInt8) : List UInt8 :=
  if b = 34 ∨ b = 92 then [92, b]
  else if b = 8 then [92, 98]
  else if b = 12 then [92, 102]
  else if b = 10 then [92, 110]
  else if b = 13 then [92, 114]
  else if b = 9 then [92, 116]
  else if b < 0x20 ∨ b = 38 ∨ b = 60 ∨ b = 62 then
    [92, 117, 48, 48, hexLower (b.toNat / 16), hexLower (b.toNat % 16)]
  else [b]

/-- What is written for an encoding; U+2028 and U+2029 are escaped for JavaScript. -/
def escapeRune (r : List UInt8) : List UInt8 :=
  if r = [0xE2, 0x80, 0xA8] then [92, 117, 50, 48, 50, 56]
  else if r = [0xE2, 0x80, 0xA9] then [92, 117, 50, 48, 50, 57]
  else
    match r with
    | [b] => escapeByte b
    | _ => r

def escape : Piece → List UInt8
  | .rune r => escapeRune r
  | .bad _ => [92, 117, 102, 102, 102, 100]

def quote (s : List UInt8) : List UInt8 := (pieces s).flatMap escape

/-! ## Reading -/

def isEscape (c : UInt8) : Bool := c ∈ [98, 102, 110, 114, 116, 92, 47, 34]

/-- The states of the scanner inside a string: between characters, after a backslash, and with
`n + 1` digits of a `\u` escape to come. -/
inductive ScanState where
  | inString
  | inEsc
  | inEscU (n : ℕ)

/-- The state after a digit of a `\u` escape. -/
def ScanState.afterDigit : ℕ → ScanState
  | 0 => .inString
  | n + 1 => .inEscU n

/-- The scanner inside a string: the raw text up to the closing quote, and what follows. -/
def scanFrom : ScanState → List UInt8 → Option (List UInt8 × List UInt8)
  | _, [] => none
  | .inString, c :: s =>
    if c = 34 then some ([], s)
    else if c = 92 then (scanFrom .inEsc s).map fun r => (c :: r.1, r.2)
    else if c < 0x20 then none
    else (scanFrom .inString s).map fun r => (c :: r.1, r.2)
  | .inEsc, c :: s =>
    if isEscape c then (scanFrom .inString s).map fun r => (c :: r.1, r.2)
    else if c = 117 then (scanFrom (.inEscU 3) s).map fun r => (c :: r.1, r.2)
    else none
  | .inEscU n, c :: s =>
    if (hexValue c).isSome then (scanFrom (.afterDigit n) s).map fun r => (c :: r.1, r.2) else none

def scanString (s : List UInt8) : Option (List UInt8 × List UInt8) := scanFrom .inString s

def encodeRune (r : ℕ) : List UInt8 :=
  if r < 0x80 then [UInt8.ofNat r]
  else if r < 0x800 then [UInt8.ofNat (0xC0 + r / 64), UInt8.ofNat (0x80 + r % 64)]
  else if (0xD800 ≤ r ∧ r < 0xE000) ∨ 0x110000 ≤ r then replacement
  else if r < 0x10000 then
    [UInt8.ofNat (0xE0 + r / 4096), UInt8.ofNat (0x80 + r / 64 % 64), UInt8.ofNat (0x80 + r % 64)]
  else
    [UInt8.ofNat (0xF0 + r / 262144), UInt8.ofNat (0x80 + r / 4096 % 64),
      UInt8.ofNat (0x80 + r / 64 % 64), UInt8.ofNat (0x80 + r % 64)]

/-- The four digits after `\u`, and what follows them. -/
def u4 : List UInt8 → Option (ℕ × List UInt8)
  | a :: b :: c :: d :: s => do
    let w ← hexValue a
    let x ← hexValue b
    let y ← hexValue c
    let z ← hexValue d
    return (w * 4096 + x * 256 + y * 16 + z, s)
  | _ => none

/-- `utf16.DecodeRune` of a surrogate and the escape that follows it. -/
def surrogatePair (hi : ℕ) : List UInt8 → Option (ℕ × List UInt8)
  | c :: u :: s =>
    if c = 92 ∧ u = 117 then
      (u4 s).bind fun r =>
        if hi < 0xDC00 ∧ 0xDC00 ≤ r.1 ∧ r.1 < 0xE000 then
          some (0x10000 + (hi - 0xD800) * 1024 + (r.1 - 0xDC00), r.2)
        else none
    else none
  | _ => none

/-- A `\u` escape after its letter. An unpaired surrogate is read as U+FFFD. -/
def unescapeU (s : List UInt8) : Option (List UInt8 × List UInt8) :=
  (u4 s).map fun r =>
    if 0xD800 ≤ r.1 ∧ r.1 < 0xE000 then
      match surrogatePair r.1 r.2 with
      | some (rune, rest) => (encodeRune rune, rest)
      | none => (replacement, r.2)
    else (encodeRune r.1, r.2)

def shortEscape (e : UInt8) : Option UInt8 :=
  if e = 34 ∨ e = 92 ∨ e = 47 ∨ e = 39 then some e
  else if e = 98 then some 8
  else if e = 102 then some 12
  else if e = 110 then some 10
  else if e = 114 then some 13
  else if e = 116 then some 9
  else none

def unescape : List UInt8 → Option (List UInt8 × List UInt8)
  | [] => none
  | e :: s => if e = 117 then unescapeU s else (shortEscape e).map fun b => ([b], s)

def unquoteOne : List UInt8 → Option (List UInt8 × List UInt8)
  | [] => none
  | c :: s =>
    if c = 92 then unescape s
    else if c = 34 ∨ c < 0x20 then none
    else (cut (c :: s)).map fun r => (r.1.clean, r.2)

def unquoteUpTo : ℕ → List UInt8 → Option (List UInt8)
  | _, [] => some []
  | 0, _ :: _ => none
  | fuel + 1, c :: s => do
    let (out, rest) ← unquoteOne (c :: s)
    let more ← unquoteUpTo fuel rest
    return out ++ more

/-- `unquote`, without the quotes themselves. -/
def unquote (raw : List UInt8) : Option (List UInt8) := unquoteUpTo raw.length raw

/-! ## One piece -/

theorem hexValue_hexLower {n : ℕ} (h : n < 16) : hexValue (hexLower n) = some n := by
  have hall : ∀ k : Fin 16, hexValue (hexLower k) = some k.val := by decide
  exact hall ⟨n, h⟩

theorem unquoteOne_unicode {a b c d : UInt8} {w x y z : ℕ} (ha : hexValue a = some w)
    (hb : hexValue b = some x) (hc : hexValue c = some y) (hd : hexValue d = some z)
    (hsur : ¬ (0xD800 ≤ w * 4096 + x * 256 + y * 16 + z ∧ w * 4096 + x * 256 + y * 16 + z < 0xE000))
    (rest : List UInt8) : unquoteOne (92 :: 117 :: a :: b :: c :: d :: rest)
      = some (encodeRune (w * 4096 + x * 256 + y * 16 + z), rest) := by
  have hu : u4 (a :: b :: c :: d :: rest) = some (w * 4096 + x * 256 + y * 16 + z, rest) := by
    simp only [u4, ha, hb, hc, hd, Option.bind_eq_bind, Option.bind_some, Option.pure_def]
  rw [unquoteOne, if_pos rfl, unescape, if_pos rfl, unescapeU, hu, Option.map_some, if_neg hsur]

theorem unquoteOne_rune {a : UInt8} {r : List UInt8} (h : isRune (a :: r) = true) (h₉₂ : a ≠ 92)
    (h₃₄ : a ≠ 34) (hctl : ¬ a < 0x20) (rest : List UInt8) :
    unquoteOne (a :: r ++ rest) = some (a :: r, rest) := by
  have hcut := cut_append h rest
  rw [List.cons_append] at hcut ⊢
  rw [unquoteOne, if_neg h₉₂, if_neg (not_or.mpr ⟨h₃₄, hctl⟩), hcut]
  rfl

theorem unquoteOne_escapeByte {b : UInt8} (h : b.toNat < 0x80) (rest : List UInt8) :
    unquoteOne (escapeByte b ++ rest) = some ([b], rest) := by
  unfold escapeByte
  split_ifs with hquote h₈ h₁₂ h₁₀ h₁₃ h₉ hctl
  · rcases hquote with rfl | rfl <;> rfl
  · rw [h₈]; rfl
  · rw [h₁₂]; rfl
  · rw [h₁₀]; rfl
  · rw [h₁₃]; rfl
  · rw [h₉]; rfl
  · -- the escape in hexadecimal
    have hzero : hexValue 48 = some 0 := by decide
    have hvalue : 0 * 4096 + 0 * 256 + b.toNat / 16 * 16 + b.toNat % 16 = b.toNat := by omega
    have hread :=
      unquoteOne_unicode hzero hzero (hexValue_hexLower (show b.toNat / 16 < 16 by omega))
      (hexValue_hexLower (show b.toNat % 16 < 16 by omega)) (by omega) rest
    rw [hvalue, encodeRune, if_pos h, UInt8.ofNat_toNat] at hread
    exact hread
  · obtain ⟨h₃₄, h₉₂⟩ := not_or.mp hquote
    exact unquoteOne_rune (isRune_one.mpr h) h₉₂ h₃₄ (fun hlt => hctl (.inl hlt)) rest

/-- The special bytes are below 0x80, so the bytes of longer encodings are none of them. -/
theorem special_of_ge {b : UInt8} (h : 0x80 ≤ b.toNat) : b ≠ 92 ∧ b ≠ 34 ∧ ¬ b < 0x20 := by
  refine ⟨?_, ?_, ?_⟩
  · rintro rfl
    exact absurd h (by decide)
  · rintro rfl
    exact absurd h (by decide)
  · intro hlt
    have := UInt8.lt_iff_toNat_lt.mp hlt
    simp only [UInt8.reduceToNat] at this
    omega

theorem escapeRune_cons_cons {a b : UInt8} {r : List UInt8} :
    escapeRune (a :: b :: r) = [92, 117, 50, 48, 50, 56] ∧ a :: b :: r = [0xE2, 0x80, 0xA8] ∨
      escapeRune (a :: b :: r) = [92, 117, 50, 48, 50, 57] ∧ a :: b :: r = [0xE2, 0x80, 0xA9] ∨
      escapeRune (a :: b :: r) = a :: b :: r := by
  unfold escapeRune
  split_ifs with h₈ h₉
  · exact .inl ⟨rfl, h₈⟩
  · exact .inr (.inl ⟨rfl, h₉⟩)
  · exact .inr (.inr rfl)

theorem escapeRune_singleton (b : UInt8) : escapeRune [b] = escapeByte b := by
  rw [escapeRune, if_neg (by simp), if_neg (by simp)]

theorem unquoteOne_escape {p : Piece} (h : p.Ok) (rest : List UInt8) :
    unquoteOne (escape p ++ rest) = some (p.clean, rest) := by
  -- an encoding of one byte, of more, and a byte that is none
  rcases p with r | b
  · rcases r with _ | ⟨a, _ | ⟨b, r⟩⟩
    · exact absurd rfl (isRune_ne_nil h)
    · rw [escape, escapeRune_singleton]
      exact unquoteOne_escapeByte (isRune_one.mp h) rest
    · rw [escape]
      have h₀ : hexValue 48 = some 0 := by decide
      have h₂ : hexValue 50 = some 2 := by decide
      rcases escapeRune_cons_cons with ⟨htext, hr⟩ | ⟨htext, hr⟩ | htext
      · rw [htext, hr]
        exact unquoteOne_unicode h₂ h₀ h₂ (show hexValue 56 = some 8 by decide) (by omega) rest
      · rw [htext, hr]
        exact unquoteOne_unicode h₂ h₀ h₂ (show hexValue 57 = some 9 by decide) (by omega) rest
      · rw [htext]
        obtain ⟨h₉₂, h₃₄, hctl⟩ := special_of_ge (isRune_ge h a List.mem_cons_self)
        exact unquoteOne_rune h h₉₂ h₃₄ hctl rest
  · have h₁₅ : hexValue 102 = some 15 := by decide
    exact unquoteOne_unicode h₁₅ h₁₅ h₁₅ (show hexValue 100 = some 13 by decide) (by omega) rest

/-- Something is written for every piece, so the loop over the text makes progress. -/
theorem escape_ne_nil {p : Piece} (h : p.Ok) : escape p ≠ [] := by
  intro hnil
  have hread := unquoteOne_escape h []
  rw [hnil] at hread
  exact absurd hread (by simp [unquoteOne])

/-! ## Whole strings -/

theorem unquoteUpTo_succ {fuel : ℕ} {s out rest : List UInt8} (hs : s ≠ [])
    (h : unquoteOne s = some (out, rest)) :
    unquoteUpTo (fuel + 1) s = (unquoteUpTo fuel rest).map (out ++ ·) := by
  rcases s with _ | ⟨c, s⟩
  · exact absurd rfl hs
  · simp only [unquoteUpTo, h, Option.bind_eq_bind, Option.bind_some, Option.pure_def]
    rcases unquoteUpTo fuel rest <;> rfl

/-- The pieces come back clean, one turn for each of them. By induction on the pieces. -/
theorem unquoteUpTo_flatMap_escape {ps : List Piece} (hps : ∀ p ∈ ps, p.Ok) {fuel : ℕ}
    (h : (ps.flatMap escape).length ≤ fuel) :
    unquoteUpTo fuel (ps.flatMap escape) = some (ps.flatMap Piece.clean) := by
  induction ps generalizing fuel with
  | nil => cases fuel <;> rfl
  | cons p ps ih =>
    have hp := hps p List.mem_cons_self
    have hpos := List.length_pos_of_ne_nil (escape_ne_nil hp)
    rw [List.flatMap_cons] at h ⊢
    rw [List.length_append] at h
    obtain ⟨fuel, rfl⟩ : ∃ k, fuel = k + 1 := ⟨fuel - 1, by omega⟩
    rw [unquoteUpTo_succ (by simp [escape_ne_nil hp]) (unquoteOne_escape hp _),
      ih (fun q hq => hps q (List.mem_cons_of_mem _ hq)) (by omega), Option.map_some,
      List.flatMap_cons]

/-- **A string is read back sanitized.** What is not UTF-8 comes back as the replacement
character, once for each byte. -/
theorem unquote_quote (s : List UInt8) : unquote (quote s) = some (sanitize s) :=
  unquoteUpTo_flatMap_escape (fun _ hp => pieces_ok hp) le_rfl

/-! ## Raw text -/

/-- The raw texts of JSON strings. -/
inductive Literal : List UInt8 → Prop
  | nil : Literal []
  | char {c : UInt8} {s : List UInt8} (h₃₄ : c ≠ 34) (h₉₂ : c ≠ 92) (hctl : ¬ c < 0x20)
      (hs : Literal s) : Literal (c :: s)
  | escape {e : UInt8} {s : List UInt8} (he : isEscape e = true) (hs : Literal s) :
      Literal (92 :: e :: s)
  | unicode {a b c d : UInt8} {s : List UInt8}
      (hhex : ([a, b, c, d].all fun x => (hexValue x).isSome) = true) (hs : Literal s) :
      Literal (92 :: 117 :: a :: b :: c :: d :: s)

/-- Texts that the scanner runs through without leaving the string can be joined, so a written
string is one because each of its pieces is. -/
theorem Literal.append {s t : List UInt8} (hs : Literal s) (ht : Literal t) : Literal (s ++ t) := by
  induction hs with
  | nil => exact ht
  | char h₃₄ h₉₂ hctl _ ih => exact .char h₃₄ h₉₂ hctl ih
  | escape he _ ih => exact .escape he ih
  | unicode hhex _ ih => exact .unicode hhex ih

theorem Literal.flatMap {α : Type*} {f : α → List UInt8} {l : List α} (h : ∀ x ∈ l, Literal (f x)) :
    Literal (l.flatMap f) := by
  induction l with
  | nil => exact .nil
  | cons x l ih =>
    rw [List.flatMap_cons]
    exact (h x List.mem_cons_self).append (ih fun y hy => h y (List.mem_cons_of_mem _ hy))

theorem Literal.of_ge {s : List UInt8} (h : ∀ b ∈ s, 0x80 ≤ b.toNat) : Literal s := by
  induction s with
  | nil => exact .nil
  | cons b s ih =>
    obtain ⟨h₉₂, h₃₄, hctl⟩ := special_of_ge (h b List.mem_cons_self)
    exact .char h₃₄ h₉₂ hctl (ih fun c hc => h c (List.mem_cons_of_mem _ hc))

/-- Bytes that stand for themselves in a JSON string. -/
def isPlain (b : UInt8) : Bool := b.toNat < 0x80 ∧ ¬ b < 0x20 ∧ b ≠ 34 ∧ b ≠ 92

theorem Literal.of_plain {s : List UInt8} (h : ∀ b ∈ s, isPlain b = true) : Literal s := by
  induction s with
  | nil => exact .nil
  | cons b s ih =>
    obtain ⟨-, hctl, h₃₄, h₉₂⟩ := of_decide_eq_true (h b List.mem_cons_self)
    exact .char h₃₄ h₉₂ hctl (ih fun c hc => h c (List.mem_cons_of_mem _ hc))

theorem unquoteUpTo_plain {s : List UInt8} (h : ∀ b ∈ s, isPlain b = true) {fuel : ℕ}
    (hfuel : s.length ≤ fuel) : unquoteUpTo fuel s = some s := by
  induction s generalizing fuel with
  | nil => cases fuel <;> rfl
  | cons b s ih =>
    rw [List.length_cons] at hfuel
    obtain ⟨fuel, rfl⟩ : ∃ k, fuel = k + 1 := ⟨fuel - 1, by omega⟩
    obtain ⟨hascii, hctl, h₃₄, h₉₂⟩ := of_decide_eq_true (h b List.mem_cons_self)
    have hone : unquoteOne (b :: s) = some ([b], s) :=
      unquoteOne_rune (isRune_one.mpr hascii) h₉₂ h₃₄ hctl s
    rw [unquoteUpTo_succ (by simp) hone,
      ih (fun c hc => h c (List.mem_cons_of_mem _ hc)) (by omega)]
    rfl

theorem unquote_plain {s : List UInt8} (h : ∀ b ∈ s, isPlain b = true) : unquote s = some s :=
  unquoteUpTo_plain h le_rfl

theorem scanString_literal {raw : List UInt8} (h : Literal raw) (rest : List UInt8) :
    scanString (raw ++ 34 :: rest) = some (raw, rest) := by
  unfold scanString
  induction h with
  | nil => rfl
  | @char c s h₃₄ h₉₂ hctl _ ih =>
    rw [List.cons_append, scanFrom, if_neg h₃₄, if_neg h₉₂, if_neg hctl, ih, Option.map_some]
  | @escape e s he _ ih =>
    rw [List.cons_append, List.cons_append, scanFrom, if_neg (by decide), if_pos rfl, scanFrom,
      if_pos he, ih, Option.map_some, Option.map_some]
  -- through the four states of a unicode escape and back
  | @unicode a b c d s hhex _ ih =>
    simp only [List.all_cons, List.all_nil, Bool.and_true, Bool.and_eq_true] at hhex
    obtain ⟨ha, hb, hc, hd⟩ := hhex
    simp only [List.cons_append]
    rw [scanFrom, if_neg (by decide), if_pos rfl, scanFrom, if_neg (by decide), if_pos rfl]
    simp only [scanFrom, ScanState.afterDigit, if_pos ha, if_pos hb, if_pos hc, if_pos hd, ih,
      Option.map_some]

theorem literal_escapeByte (b : UInt8) : Literal (escapeByte b) := by
  have hhex : ∀ k : Fin 16, (hexValue (hexLower k)).isSome = true := by decide
  have hzero : (hexValue 48).isSome = true := by decide
  unfold escapeByte
  split_ifs with hquote h₈ h₁₂ h₁₀ h₁₃ h₉ hctl
  · rcases hquote with rfl | rfl
    · exact .escape (by decide) .nil
    · exact .escape (by decide) .nil
  all_goals try exact .escape (by decide) .nil
  · have hhi := hhex ⟨b.toNat / 16, by have := b.toNat_lt; omega⟩
    have hlo := hhex ⟨b.toNat % 16, by omega⟩
    exact .unicode (by simp only [List.all_cons, List.all_nil, hzero, hhi, hlo, Bool.and_self]) .nil
  · exact .char (fun h => hquote (.inl h)) (fun h => hquote (.inr h)) (fun h => hctl (.inl h)) .nil

theorem literal_escape {p : Piece} (h : p.Ok) : Literal (escape p) := by
  rcases p with r | b
  · rcases r with _ | ⟨a, _ | ⟨b, r⟩⟩
    · exact absurd rfl (isRune_ne_nil h)
    · rw [escape, escapeRune_singleton]
      exact literal_escapeByte a
    · rw [escape]
      -- the two line separators, and all others as they are
      rcases escapeRune_cons_cons with ⟨htext, -⟩ | ⟨htext, -⟩ | htext
      · rw [htext]
        exact .unicode (by decide) .nil
      · rw [htext]
        exact .unicode (by decide) .nil
      · rw [htext]
        exact .of_ge (isRune_ge h)
  · exact .unicode (by decide) .nil

/-- **What is written is a JSON string.** -/
theorem literal_quote (s : List UInt8) : Literal (quote s) :=
  Literal.flatMap fun _ hp => literal_escape (pieces_ok hp)

end Heimdall.Json
