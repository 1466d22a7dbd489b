/-
`internal/rendezvous/code.go`: invite codes.

An invite code is a secret of twenty bytes. Its user sees 32 letters of base32 in groups of four,
and whoever gets it from them retypes it: in lower case perhaps, with other dashes or none, with
spaces and line breaks. `ParseCode` takes all that out again before it decodes, so the secret
survives any such transcription (`code_survives_transcription`), and no transcription is one of two
codes.

What `ParseCode` checks is the number of bytes it has decoded, not the number of letters. The
decoder gives no byte for one, three or six letters at the end, so a code with that many letters too
many is accepted (`letters_too_many`): its secret is that of the first 32 (`parseCode_eq_ok_iff`).
Nothing else is (`parseCode_exact_iff`).

`unicode.ToUpper` is any `CaseTable`.
-/
import Mathlib.Logic.Relation
import Heimdall.Base32
import Heimdall.GoStrings
import Heimdall.Peers

set_option autoImplicit false

namespace Heimdall.Rendezvous

open Heimdall.GoStrings
open Heimdall.Base32 (stdAlphabet stdLetters packAll)
open Heimdall.Peers (GoString)

/-! ## Codes -/

def codeEntropyBytes : ℕ := 20

def groupSize : ℕ := 4

/-- `Code`; `NewCode` and `ParseCode` give a secret of this size, and nothing changes its size. -/
structure Code where
  secret : List UInt8
  length_secret : secret.length = codeEntropyBytes
  deriving DecidableEq

/-- The errors of `ParseCode`. -/
inductive CodeErr where
  /-- `ErrBadCode` alone. -/
  | bad
  /-- The decoder refuses the byte at an offset. -/
  | corrupt (offset : ℕ)
  | size (got : ℕ)
  deriving DecidableEq

def CodeErr.message : CodeErr → String
  | bad => "rendezvous: malformed invite code"
  | corrupt offset =>
    "rendezvous: malformed invite code: illegal base32 data at input byte " ++ toString offset
  | size got =>
    "rendezvous: malformed invite code: expected " ++ toString codeEntropyBytes ++ " bytes, got " ++
      toString got

def separators : List UInt8 := [45, 32, 9, 10, 13]

/-- The function `ParseCode` maps over the runes. -/
def dropSeparator : List UInt8 → List UInt8
  | [b] => if separators.contains b then [] else [b]
  | r => r

def cleaned (t : CaseTable) (s : GoString) : GoString := toUpper t (mapRunes dropSeparator s)

def parseCode (t : CaseTable) (s : GoString) : Except CodeErr Code :=
  if cleaned t s = [] then .error .bad
  else
    match Base32.decodeString stdAlphabet (cleaned t s) with
    | .error offset => .error (.corrupt offset)
    | .ok secret =>
      if h : secret.length = codeEntropyBytes then .ok ⟨secret, h⟩ else .error (.size secret.length)

/-- The loop of `String`: a dash before every fourth byte but the first. -/
def grouped (raw : GoString) : GoString :=
  raw.zipIdx.flatMap fun p => if 0 < p.2 ∧ p.2 % groupSize = 0 then [45, p.1] else [p.1]

def Code.string (c : Code) : GoString := grouped (Base32.encodeToString stdAlphabet c.secret)

/-! ## What `ParseCode` decodes -/

section Parse

variable {t : CaseTable} {s : GoString} {c : Code}

theorem separators_lt : ∀ b ∈ separators, b.toNat < 0x80 := by
  have hall : (separators.all fun b => b.toNat < 0x80) = true := rfl
  intro b hb
  exact of_decide_eq_true (List.all_eq_true.mp hall b hb)

theorem not_mem_mapRunes {b : UInt8} (hb : b ∈ separators) : b ∉ mapRunes dropSeparator s := by
  intro h
  have hlt := separators_lt b hb
  obtain ⟨p, hp, hmem⟩ := List.mem_flatMap.mp h
  have hrune := (Utf8.pieces_ok hp).clean
  rcases hclean : p.clean with _ | ⟨a, _ | ⟨c, r⟩⟩ <;> rw [hclean] at hrune hmem
  · exact absurd hmem List.not_mem_nil
  · rw [dropSeparator] at hmem
    split_ifs at hmem with hsep
    · exact absurd hmem List.not_mem_nil
    · rw [List.mem_singleton.mp hmem] at hb
      exact hsep (List.contains_iff_mem.mpr hb)
  · have hge := Utf8.isRune_ge hrune b hmem
    omega

theorem upperByte_eq_break : ∀ b : UInt8, upperByte b = 10 ∨ upperByte b = 13 → b = 10 ∨ b = 13 :=
  forall_byte (by decide +kernel)

/-- The decoder would skip line breaks and stop at padding. Neither gets to it. -/
theorem cleaned_no_break : 10 ∉ cleaned t s ∧ 13 ∉ cleaned t s := by
  have hnone : ∀ b ∈ cleaned t s, ¬ (b = 10 ∨ b = 13) := by
    intro b hb hbreak
    have hlt : b.toNat < 0x80 := by
      rcases hbreak with rfl | rfl <;> decide
    rcases mem_toUpper_ascii hb hlt with rfl | rfl | ⟨a, ha, rfl⟩
    · exact absurd hbreak (by decide)
    · exact absurd hbreak (by decide)
    · rcases upperByte_eq_break a hbreak with rfl | rfl <;>
        exact not_mem_mapRunes (by decide) ha
  exact ⟨fun h => hnone 10 h (.inl rfl), fun h => hnone 13 h (.inr rfl)⟩

theorem cleaned_no_padding : 0xFF ∉ cleaned t s := by
  intro h
  exact absurd (toUpper_le h) (by decide)

/-- `ParseCode` succeeds exactly if what is decoded has the size of a secret. The empty string is
refused before that, and would be by its size as well. -/
theorem parseCode_eq_ok : parseCode t s = .ok c ↔
    Base32.decodeString stdAlphabet (cleaned t s) = .ok c.secret := by
  unfold parseCode
  constructor
  · intro h
    split_ifs at h
    rcases hdec : Base32.decodeString stdAlphabet (cleaned t s) with e | secret <;> rw [hdec] at h
    · exact absurd h (by simp)
    · dsimp only at h
      split_ifs at h with hlen
      rw [← Except.ok.inj h]
  · intro h
    -- the empty string decodes to no bytes
    have hne : cleaned t s ≠ [] := by
      intro hnil
      have hlen := c.length_secret
      rw [hnil] at h
      rw [← Except.ok.inj h] at hlen
      exact absurd hlen (by decide)
    rw [if_neg hne, h]
    exact dif_pos c.length_secret

/-- The string is cleaned of separators and put in upper case, and the plain decoder of `Base32`
gets what is left. -/
theorem parseCode_eq_ok_digits : parseCode t s = .ok c ↔
    ∃ ds, (∀ d ∈ ds, d < 32) ∧ cleaned t s = ds.map stdAlphabet.letter ∧ c.secret = packAll ds := by
  rw [parseCode_eq_ok,
    Base32.decodeString_eq_ok_iff cleaned_no_break.1 cleaned_no_break.2 cleaned_no_padding]

end Parse

/-! ## What `ParseCode` accepts -/

def WellFormed (s : GoString) : Prop := s.length = 32 ∧ ∀ x ∈ s, x ∈ stdLetters

/-- Letters, but one, three or six too many. -/
def Overlong (s : GoString) : Prop :=
  (s.length = 33 ∨ s.length = 35 ∨ s.length = 38) ∧ ∀ x ∈ s, x ∈ stdLetters

section Accept

variable {t : CaseTable} {s : GoString} {c : Code} {ds : List ℕ}

theorem decoded_size_iff (n : ℕ) :
    n / 8 * 5 + Base32.quantumLen (n % 8) = codeEntropyBytes ↔
      n = 32 ∨ n = 33 ∨ n = 35 ∨ n = 38 := by
  obtain ⟨q, r, hr, rfl⟩ : ∃ q r, r < 8 ∧ n = 8 * q + r :=
    ⟨n / 8, n % 8, Nat.mod_lt n (by omega), by omega⟩
  rw [codeEntropyBytes, show (8 * q + r) / 8 = q by omega, show (8 * q + r) % 8 = r by omega]
  interval_cases r <;> simp only [Base32.quantumLen] <;> omega

theorem length_packAll_iff (hlt : ∀ d ∈ ds, d < 32) :
    (packAll ds).length = codeEntropyBytes ↔
      WellFormed (ds.map stdAlphabet.letter) ∨ Overlong (ds.map stdAlphabet.letter) := by
  have hletters : ∀ x ∈ ds.map stdAlphabet.letter, x ∈ stdLetters := Base32.forall_map_letter hlt
  rw [Base32.length_packAll, decoded_size_iff, WellFormed, Overlong, List.length_map]
  constructor
  · rintro (h | h)
    · exact .inl ⟨h, hletters⟩
    · exact .inr ⟨h, hletters⟩
  · rintro (⟨h, -⟩ | ⟨h, -⟩)
    · exact .inl h
    · exact .inr h

theorem exists_digits_of_accepted (h : WellFormed s ∨ Overlong s) :
    ∃ ds : List ℕ, (∀ d ∈ ds, d < 32) ∧ s = ds.map stdAlphabet.letter ∧
      (packAll ds).length = codeEntropyBytes := by
  have hletters : ∀ x ∈ s, x ∈ stdLetters := by
    rcases h with h | h
    · exact h.2
    · exact h.2
  obtain ⟨ds, hlt, rfl⟩ := Base32.exists_digits (A := stdAlphabet) hletters
  exact ⟨ds, hlt, rfl, (length_packAll_iff hlt).mpr h⟩

theorem packAll_eq_take (hlen : (packAll ds).length = codeEntropyBytes) :
    packAll ds = packAll (ds.take 32) := by
  rw [Base32.length_packAll, decoded_size_iff] at hlen
  have htake : (ds.take 32).length = 32 := by
    rw [List.length_take]
    omega
  have hdrop : (ds.drop 32).length = ds.length - 32 := List.length_drop
  have hnone : Base32.quantumLen (ds.drop 32).length = 0 := by
    rw [hdrop]
    rcases hlen with h | h | h | h <;> rw [h] <;> rfl
  have hfull : 8 ∣ (ds.take 32).length := by omega
  have hshort : (ds.drop 32).length < 8 := by omega
  have happend := Base32.packAll_append_short hfull hshort hnone
  rwa [List.take_append_drop] at happend

theorem encodeToString_eq_take (hlt : ∀ d ∈ ds, d < 32)
    (hlen : (packAll ds).length = codeEntropyBytes) :
    Base32.encodeToString stdAlphabet (packAll ds) = (ds.map stdAlphabet.letter).take 32 := by
  have hfull : 8 ∣ (ds.take 32).length := by
    rw [Base32.length_packAll, decoded_size_iff] at hlen
    rw [List.length_take]
    omega
  rw [packAll_eq_take hlen,
    Base32.encodeToString_packAll (fun d hd => hlt d (List.mem_of_mem_take hd)) hfull,
      List.map_take]

/-- **What `ParseCode` accepts**, and the secret it gives: 32 letters or one, three or six more, and
the secret is that of the first 32. -/
theorem parseCode_eq_ok_iff : parseCode t s = .ok c ↔
    (WellFormed (cleaned t s) ∨ Overlong (cleaned t s)) ∧
      Base32.encodeToString stdAlphabet c.secret = (cleaned t s).take 32 := by
  rw [parseCode_eq_ok_digits]
  constructor
  · rintro ⟨ds, hlt, hds, hsecret⟩
    have hlen : (packAll ds).length = codeEntropyBytes := by
      rw [← hsecret]
      exact c.length_secret
    rw [hds, hsecret]
    exact ⟨(length_packAll_iff hlt).mp hlen, encodeToString_eq_take hlt hlen⟩
  · rintro ⟨haccept, hsecret⟩
    obtain ⟨ds, hlt, hds, hlen⟩ := exists_digits_of_accepted haccept
    refine ⟨ds, hlt, hds, ?_⟩
    apply Base32.encodeToString_inj (A := stdAlphabet)
    rw [hsecret, hds, encodeToString_eq_take hlt hlen]

/-- What counts are the letters that remain when the separators are gone and the case is raised.
There are 32 of them, or one, three or six more that the decoder drops. -/
theorem exists_parseCode_iff : (∃ c, parseCode t s = .ok c) ↔
    WellFormed (cleaned t s) ∨ Overlong (cleaned t s) := by
  constructor
  · rintro ⟨c, hc⟩
    exact (parseCode_eq_ok_iff.mp hc).1
  · intro haccept
    obtain ⟨ds, hlt, hds, hlen⟩ := exists_digits_of_accepted haccept
    exact ⟨⟨packAll ds, hlen⟩, parseCode_eq_ok_digits.mpr ⟨ds, hlt, hds, rfl⟩⟩

end Accept

/-- **`ParseCode` accepts exactly the well-formed codes, unless there are letters too many.** For
every string, these two hold together if and only if what is decoded is not a code with one,
three or six further letters: `ParseCode` succeeds exactly if what is decoded is 32 letters of
the alphabet, and the secret it gives is the one that is encoded as these letters. -/
theorem parseCode_exact_iff (t : CaseTable) (s : GoString) :
    (((∃ c, parseCode t s = .ok c) ↔ WellFormed (cleaned t s)) ∧
        ∀ c, parseCode t s = .ok c → Base32.encodeToString stdAlphabet c.secret = cleaned t s) ↔
      ¬ Overlong (cleaned t s) := by
  constructor
  · rintro ⟨haccept, -⟩ hover
    have hlen := (haccept.mp (exists_parseCode_iff.mpr (.inr hover))).1
    have hlong := hover.1
    omega
  · intro hover
    have hwell : (∃ c, parseCode t s = .ok c) ↔ WellFormed (cleaned t s) :=
      exists_parseCode_iff.trans (or_iff_left hover)
    refine ⟨hwell, fun c hc => ?_⟩
    have hlen : (cleaned t s).length = 32 := (hwell.mp ⟨c, hc⟩).1
    rw [(parseCode_eq_ok_iff.mp hc).2, List.take_of_length_le hlen.le]

/-- **A letter too many**: 33 times the letter A is accepted, as the code of twenty zeros, whose
letters are 32 times A. -/
theorem letters_too_many :
    parseCode smallTable (List.replicate 33 65) = .ok ⟨List.replicate 20 0, rfl⟩ ∧
      (cleaned smallTable (List.replicate 33 65)).length = 33 ∧
      Base32.encodeToString stdAlphabet (List.replicate 20 0) = List.replicate 32 65 := by
  decide +kernel

-- the code that `docs/rendezvous.md` shows has a 9, which is not in the alphabet
example : parseCode smallTable
    [75, 55, 81, 77, 45, 50, 82, 52, 84, 45, 57, 88, 74, 68, 45, 66, 87, 53, 78, 45, 72, 67, 51, 80,
      45, 56, 89, 70, 65, 45, 54, 90, 69, 50, 45, 86, 83, 52, 75] = .error (.corrupt 8) := by
  decide +kernel

/-! ## Transcriptions -/

/-- One change somebody makes who retypes a code. -/
inductive Edit : GoString → GoString → Prop
  /-- A letter in the other case. -/
  | recase (l r : GoString) {a b : UInt8} (h : upperByte a = upperByte b) :
      Edit (l ++ a :: r) (l ++ b :: r)
  /-- A dash left out. -/
  | delete (l r : GoString) : Edit (l ++ 45 :: r) (l ++ r)
  /-- A dash or white space put in. -/
  | insert (l r : GoString) {b : UInt8} (h : b ∈ separators) : Edit (l ++ r) (l ++ b :: r)

/-- The strings that come out of a rendered code by any number of such changes. -/
def Transcription (c : Code) (s : GoString) : Prop := Relation.ReflTransGen Edit c.string s

/-- What is left of an ASCII string in upper case without separators. -/
def bare (s : GoString) : GoString := (s.map upperByte).filter fun b => !separators.contains b

section Transcribe

variable {t : CaseTable} {s s' : GoString} {c : Code}

theorem contains_upperByte :
    ∀ b : UInt8, separators.contains (upperByte b) = separators.contains b :=
  forall_byte (by decide +kernel)

theorem lt_of_upperByte_lt : ∀ b : UInt8, (upperByte b).toNat < 0x80 → b.toNat < 0x80 :=
  forall_byte (by decide +kernel)

theorem flatMap_dropSeparator (s : GoString) :
    (s.flatMap fun b => dropSeparator [b]) = s.filter fun b => !separators.contains b := by
  induction s with
  | nil => rfl
  | cons b s ih =>
    rw [List.flatMap_cons, ih, List.filter_cons, dropSeparator]
    cases separators.contains b <;> rfl

theorem cleaned_of_ascii (h : ∀ b ∈ s, b.toNat < 0x80) : cleaned t s = bare s := by
  have hfilter : mapRunes dropSeparator s = s.filter fun b => !separators.contains b := by
    rw [mapRunes_of_ascii h, flatMap_dropSeparator]
  have hascii : ∀ b ∈ s.filter fun b => !separators.contains b, b.toNat < 0x80 := fun b hb =>
    h b (List.mem_of_mem_filter hb)
  rw [cleaned, hfilter, toUpper_of_ascii hascii, bare, List.filter_map]
  simp only [Function.comp_def, contains_upperByte]

theorem bare_append (l r : GoString) : bare (l ++ r) = bare l ++ bare r := by
  rw [bare, List.map_append, List.filter_append]
  rfl

theorem bare_separator {b : UInt8} (hb : b ∈ separators) (r : GoString) :
    bare (b :: r) = bare r := by
  have hsep : separators.contains (upperByte b) = true := by
    rw [contains_upperByte]
    exact List.contains_iff_mem.mpr hb
  rw [bare, List.map_cons, List.filter_cons, hsep]
  rfl

/-- **No change matters**: an ASCII string stays one, and the same is left of it. -/
theorem Edit.bare_eq (h : Edit s s') (hs : ∀ b ∈ s, b.toNat < 0x80) :
    (∀ b ∈ s', b.toNat < 0x80) ∧ bare s' = bare s := by
  rcases h with @⟨l, r, a, b, heq⟩ | @⟨l, r⟩ | @⟨l, r, b, hsep⟩
  · obtain ⟨hl, hr⟩ := List.forall_mem_append.mp hs
    obtain ⟨ha, hr⟩ := List.forall_mem_cons.mp hr
    have hb : b.toNat < 0x80 := lt_of_upperByte_lt b (heq ▸ upperByte_lt a ha)
    refine ⟨List.forall_mem_append.mpr ⟨hl, List.forall_mem_cons.mpr ⟨hb, hr⟩⟩, ?_⟩
    rw [bare_append, bare_append, bare, bare, bare, List.map_cons, List.map_cons, heq]
  · obtain ⟨hl, hr⟩ := List.forall_mem_append.mp hs
    refine ⟨List.forall_mem_append.mpr ⟨hl, (List.forall_mem_cons.mp hr).2⟩, ?_⟩
    rw [bare_append, bare_append, bare_separator (by decide)]
  · obtain ⟨hl, hr⟩ := List.forall_mem_append.mp hs
    have hb : b.toNat < 0x80 := separators_lt b hsep
    refine ⟨List.forall_mem_append.mpr ⟨hl, List.forall_mem_cons.mpr ⟨hb, hr⟩⟩, ?_⟩
    rw [bare_append, bare_append, bare_separator hsep]

theorem stdLetters_plain : ∀ x ∈ stdLetters,
    x.toNat < 0x80 ∧ upperByte x = x ∧ separators.contains x = false := by
  have hall : (stdLetters.all fun x =>
      x.toNat < 0x80 ∧ upperByte x = x ∧ separators.contains x = false) = true := rfl
  intro x hx
  exact of_decide_eq_true (List.all_eq_true.mp hall x hx)

theorem grouped_forall {P : UInt8 → Prop} {raw : GoString} (hdash : P 45) (hraw : ∀ b ∈ raw, P b) :
    ∀ b ∈ grouped raw, P b := by
  intro b hb
  obtain ⟨p, hp, hmem⟩ := List.mem_flatMap.mp hb
  have hp1 : P p.1 := hraw p.1 (List.fst_mem_of_mem_zipIdx hp)
  split_ifs at hmem
  · rcases List.mem_cons.mp hmem with rfl | hmem
    · exact hdash
    · exact List.mem_singleton.mp hmem ▸ hp1
  · exact List.mem_singleton.mp hmem ▸ hp1

theorem bare_grouped {raw : GoString} (h : ∀ b ∈ raw, b ∈ stdLetters) :
    bare (grouped raw) = raw := by
  -- each letter, with or without a dash before it
  have hone : ∀ p ∈ raw.zipIdx,
      bare (if 0 < p.2 ∧ p.2 % groupSize = 0 then [45, p.1] else [p.1]) = [p.1] := by
    intro p hp
    obtain ⟨-, hupper, hsep⟩ := stdLetters_plain p.1 (h p.1 (List.fst_mem_of_mem_zipIdx hp))
    have hletter : bare [p.1] = [p.1] := by
      rw [bare, List.map_singleton, hupper, List.filter_singleton, hsep]
      rfl
    split_ifs
    · rw [bare_separator (by decide), hletter]
    · exact hletter
  calc bare (grouped raw) = raw.zipIdx.flatMap fun p =>
        bare (if 0 < p.2 ∧ p.2 % groupSize = 0 then [45, p.1] else [p.1]) := by
        rw [bare, grouped, List.map_flatMap, List.filter_flatMap]
        rfl
    _ = raw.zipIdx.flatMap fun p => [p.1] := List.flatMap_congr hone
    _ = raw.zipIdx.map Prod.fst := List.map_eq_flatMap.symm
    _ = raw := List.zipIdx_map_fst 0 raw

theorem string_ascii (c : Code) : ∀ b ∈ c.string, b.toNat < 0x80 :=
  grouped_forall (by decide) fun b hb =>
    (stdLetters_plain b (Base32.encodeToString_forall c.secret b hb)).1

/-- Somebody reads a code out and somebody else types it. Nothing that `Edit` allows on the way
changes what is left when the string is cleaned. -/
theorem Transcription.cleaned_eq (h : Transcription c s) :
    cleaned t s = Base32.encodeToString stdAlphabet c.secret := by
  have hinv : (∀ b ∈ s, b.toNat < 0x80) ∧ bare s = bare c.string := by
    induction h with
    | refl => exact ⟨string_ascii c, rfl⟩
    | tail _ hedit ih =>
      obtain ⟨hascii, hbare⟩ := hedit.bare_eq ih.1
      exact ⟨hascii, hbare.trans ih.2⟩
  rw [cleaned_of_ascii hinv.1, hinv.2]
  exact bare_grouped (Base32.encodeToString_forall c.secret)

theorem Transcription.parseCode (h : Transcription c s) : parseCode t s = .ok c := by
  have hlen : (Base32.encodeToString stdAlphabet c.secret).length = 32 := by
    rw [Base32.length_encodeToString, c.length_secret]
    rfl
  rw [parseCode_eq_ok_iff, h.cleaned_eq]
  refine ⟨.inl ⟨hlen, Base32.encodeToString_forall c.secret⟩, ?_⟩
  rw [List.take_of_length_le hlen.le]

end Transcribe

/-- **An invite code survives transcription.** However a rendered code is retyped, letters in
either case, dashes left out, dashes and white space put in anywhere, `ParseCode` gives the code
back. So no string is a transcription of two codes. -/
theorem code_survives_transcription (t : CaseTable) (c : Code) :
    (∀ s, Transcription c s → parseCode t s = .ok c) ∧
      ∀ c' : Code, c'.secret ≠ c.secret → ¬ ∃ s, Transcription c s ∧ Transcription c' s := by
  refine ⟨fun s h => h.parseCode, ?_⟩
  rintro c' hne ⟨s, hs, hs'⟩
  have hc : parseCode t s = .ok c := hs.parseCode
  have hc' : parseCode t s = .ok c' := hs'.parseCode
  exact hne (congrArg Code.secret (Except.ok.inj (hc'.symm.trans hc)))

/-- The first letter in lower case, and a space for the first dash. -/
theorem code_survives_transcription_spaced :
    let c : Code := ⟨List.replicate 20 0, rfl⟩
    Transcription c ([97, 65, 65, 65, 32] ++ c.string.drop 5) ∧
      parseCode smallTable ([97, 65, 65, 65, 32] ++ c.string.drop 5) = .ok c := by
  intro c
  have hstring : c.string = [65, 65, 65, 65, 45] ++ c.string.drop 5 := by decide +kernel
  have hcase : Edit c.string ([97, 65, 65, 65, 45] ++ c.string.drop 5) := by
    rw [hstring]
    exact .recase [] _ rfl
  have hdash : Edit ([97, 65, 65, 65, 45] ++ c.string.drop 5)
      ([97, 65, 65, 65] ++ c.string.drop 5) :=
    .delete [97, 65, 65, 65] _
  have hspace :
      Edit ([97, 65, 65, 65] ++ c.string.drop 5) ([97, 65, 65, 65, 32] ++ c.string.drop 5) :=
    .insert [97, 65, 65, 65] _ (by decide)
  have htrans : Transcription c ([97, 65, 65, 65, 32] ++ c.string.drop 5) :=
    ((Relation.ReflTransGen.single hcase).tail hdash).tail hspace
  exact ⟨htrans, (code_survives_transcription smallTable c).1 _ htrans⟩

end Heimdall.Rendezvous
