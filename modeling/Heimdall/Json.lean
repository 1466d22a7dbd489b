/-
JSON values as Go writes and reads them.

A value keeps the raw text of its strings and numbers, as the decoder of `encoding/json` does, and
an object keeps its members in the order of the text, duplicates included. `print` is the layout
of `MarshalIndent` with two blanks for a level. `value` is the parser; its fuel is the length of
the text, and a printed text never needs more (`reads`). The limit on the nesting of
a text, ten thousand levels in Go, is left out.

What is printed is parsed back as it is (`parse_print`). Numbers are read but never printed here,
so the printed values are those without numbers and with raw texts that are JSON strings
(`Printable`).
-/
import Heimdall.JsonString

set_option autoImplicit false

namespace Heimdall

/-- JSON values. -/
inductive Json where
  | null
  | bool (b : Bool)
  | num (raw : List UInt8)
  | str (raw : List UInt8)
  | arr (vs : List Json)
  | obj (ms : List (List UInt8 × Json))

namespace Json

open Heimdall.Utf8 (isDigit)

/-! ## Writing -/

def newline (d : ℕ) : List UInt8 := 10 :: List.replicate (2 * d) 32

mutual

def print (d : ℕ) : Json → List UInt8
  | .null => [110, 117, 108, 108]
  | .bool true => [116, 114, 117, 101]
  | .bool false => [102, 97, 108, 115, 101]
  | .num raw => raw
  | .str raw => 34 :: (raw ++ [34])
  | .arr vs => 91 :: (printElements d vs ++ [93])
  | .obj ms => 123 :: (printMembers d ms ++ [125])

def printElements (d : ℕ) : List Json → List UInt8
  | [] => []
  | [v] => newline (d + 1) ++ (print (d + 1) v ++ newline d)
  | v :: w :: vs => newline (d + 1) ++ (print (d + 1) v ++ 44 :: printElements d (w :: vs))

def printMembers (d : ℕ) : List (List UInt8 × Json) → List UInt8
  | [] => []
  | [(key, v)] => newline (d + 1) ++ 34 :: (key ++ 34 :: 58 :: 32 :: (print (d + 1) v ++ newline d))
  | (key, v) :: m :: ms =>
    newline (d + 1) ++ 34 ::
      (key ++ 34 :: 58 :: 32 :: (print (d + 1) v ++ 44 :: printMembers d (m :: ms)))

end

/-! ## Reading

The parser of `encoding/json`, with the raw texts of strings and numbers as its scanner leaves them.
Its three functions recurse on the fuel and on nothing else, so they compute in the kernel. -/

def isSpace (c : UInt8) : Bool := c = 32 ∨ c = 9 ∨ c = 13 ∨ c = 10

def skip (s : List UInt8) : List UInt8 := s.dropWhile isSpace

def scanDigits (s : List UInt8) : Option (List UInt8 × List UInt8) :=
  if s.takeWhile isDigit = [] then none else some (s.takeWhile isDigit, s.dropWhile isDigit)

def scanInt : List UInt8 → Option (List UInt8 × List UInt8)
  | [] => none
  | c :: s => if c = 48 then some ([c], s) else scanDigits (c :: s)

def scanFrac : List UInt8 → Option (List UInt8 × List UInt8)
  | [] => some ([], [])
  | c :: s => if c = 46 then (scanDigits s).map fun r => (c :: r.1, r.2) else some ([], c :: s)

def scanExp : List UInt8 → Option (List UInt8 × List UInt8)
  | [] => some ([], [])
  | c :: s =>
    if c = 101 ∨ c = 69 then
      match s with
      | [] => none
      | sign :: t =>
        if sign = 43 ∨ sign = 45 then (scanDigits t).map fun r => (c :: sign :: r.1, r.2)
        else (scanDigits s).map fun r => (c :: r.1, r.2)
    else some ([], c :: s)

def scanUnsigned (s : List UInt8) : Option (List UInt8 × List UInt8) := do
  let (int, s) ← scanInt s
  let (frac, s) ← scanFrac s
  let (exp, s) ← scanExp s
  return (int ++ frac ++ exp, s)

def scanNumber : List UInt8 → Option (List UInt8 × List UInt8)
  | [] => none
  | c :: s =>
    if c = 45 then (scanUnsigned s).map fun r => (c :: r.1, r.2) else scanUnsigned (c :: s)

def scanWord (word s : List UInt8) : Option (List UInt8) :=
  if word.isPrefixOf s then some (s.drop word.length) else none

def scanSeparator (close : UInt8) (s : List UInt8) : Option (Bool × List UInt8) :=
  match skip s with
  | [] => none
  | c :: s => if c = 44 then some (true, s) else if c = close then some (false, s) else none

def scanKey (s : List UInt8) : Option (List UInt8 × List UInt8) :=
  match skip s with
  | [] => none
  | c :: s =>
    if c = 34 then
      (scanString s).bind fun r =>
        match skip r.2 with
        | [] => none
        | c :: s => if c = 58 then some (r.1, s) else none
    else none

def scanEmpty (close : UInt8) (s : List UInt8) : Option (List UInt8) :=
  match skip s with
  | [] => none
  | c :: s => if c = close then some s else none

mutual

/-- A value, with at most `fuel` calls below each other. -/
def value : ℕ → List UInt8 → Option (Json × List UInt8)
  | 0, _ => none
  | fuel + 1, s =>
    match skip s with
    | [] => none
    | c :: s =>
      if c = 34 then (scanString s).map fun r => (.str r.1, r.2)
      else if c = 91 then
        match scanEmpty 93 s with
        | some rest => some (.arr [], rest)
        | none => (elements fuel s).map fun r => (.arr r.1, r.2)
      else if c = 123 then
        match scanEmpty 125 s with
        | some rest => some (.obj [], rest)
        | none => (members fuel s).map fun r => (.obj r.1, r.2)
      else if c = 110 then (scanWord [117, 108, 108] s).map fun rest => (.null, rest)
      else if c = 116 then (scanWord [114, 117, 101] s).map fun rest => (.bool true, rest)
      else if c = 102 then (scanWord [97, 108, 115, 101] s).map fun rest => (.bool false, rest)
      else (scanNumber (c :: s)).map fun r => (.num r.1, r.2)

/-- The elements of an array up to its closing bracket; there is at least one. -/
def elements : ℕ → List UInt8 → Option (List Json × List UInt8)
  | 0, _ => none
  | fuel + 1, s => do
    let (v, s) ← value fuel s
    let (more, s) ← scanSeparator 93 s
    if more then
      let (vs, s) ← elements fuel s
      return (v :: vs, s)
    else return ([v], s)

/-- The members of an object up to its closing bracket; there is at least one. -/
def members : ℕ → List UInt8 → Option (List (List UInt8 × Json) × List UInt8)
  | 0, _ => none
  | fuel + 1, s => do
    let (key, s) ← scanKey s
    let (v, s) ← value fuel s
    let (more, s) ← scanSeparator 125 s
    if more then
      let (ms, s) ← members fuel s
      return ((key, v) :: ms, s)
    else return ([(key, v)], s)

end

def parse (s : List UInt8) : Option Json :=
  (value s.length s).bind fun r => if skip r.2 = [] then some r.1 else none

/-! ## What is printed -/

mutual

/-- Values without numbers whose raw texts are JSON strings. -/
def Printable : Json → Prop
  | .null => True
  | .bool _ => True
  | .num _ => False
  | .str raw => Literal raw
  | .arr vs => PrintableElements vs
  | .obj ms => PrintableMembers ms

def PrintableElements : List Json → Prop
  | [] => True
  | v :: vs => v.Printable ∧ PrintableElements vs

def PrintableMembers : List (List UInt8 × Json) → Prop
  | [] => True
  | (key, v) :: ms => Literal key ∧ v.Printable ∧ PrintableMembers ms

end

theorem printableElements_iff {vs : List Json} :
    PrintableElements vs ↔ ∀ v ∈ vs, v.Printable := by
  induction vs with
  | nil => simp [PrintableElements]
  | cons v vs ih => rw [PrintableElements, ih, List.forall_mem_cons]

theorem printableMembers_iff {ms : List (List UInt8 × Json)} :
    PrintableMembers ms ↔ ∀ m ∈ ms, Literal m.1 ∧ m.2.Printable := by
  induction ms with
  | nil => simp [PrintableMembers]
  | cons m ms ih => rw [PrintableMembers, ih, List.forall_mem_cons, and_assoc]

def Blank (ws : List UInt8) : Prop := ∀ c ∈ ws, isSpace c = true

theorem blank_newline (d : ℕ) : Blank (newline d) := by
  intro c hc
  rcases List.mem_cons.mp hc with rfl | hc
  · decide
  · rw [List.eq_of_mem_replicate hc]
    decide

theorem blank_nil : Blank [] := by simp [Blank]

theorem skip_blank {ws : List UInt8} (h : Blank ws) {c : UInt8} (hc : isSpace c = false)
    (s : List UInt8) : skip (ws ++ c :: s) = c :: s := by
  rw [skip, List.dropWhile_append_of_pos h, List.dropWhile_cons_of_neg (by simp [hc])]

/-- A printed value begins with a byte that is no white space and does not close an array. So the
reader does not take an array with elements for an empty one. -/
theorem print_head {v : Json} (h : v.Printable) (d : ℕ) :
    ∃ c t, v.print d = c :: t ∧ isSpace c = false ∧ c ≠ 93 := by
  rcases v with _ | b | raw | raw | vs | ms
  · exact ⟨_, _, rfl, by decide, by decide⟩
  · cases b
    · exact ⟨_, _, rfl, by decide, by decide⟩
    · exact ⟨_, _, rfl, by decide, by decide⟩
  · exact absurd h (by simp [Printable])
  · exact ⟨_, _, rfl, by decide, by decide⟩
  · exact ⟨_, _, rfl, by decide, by decide⟩
  · exact ⟨_, _, rfl, by decide, by decide⟩

theorem scanSeparator_comma (close : UInt8) {ws : List UInt8} (h : Blank ws) (rest : List UInt8) :
    scanSeparator close (ws ++ 44 :: rest) = some (true, rest) := by
  rw [scanSeparator, skip_blank h (by decide)]
  exact if_pos rfl

theorem scanSeparator_close {close : UInt8} (hcomma : close ≠ 44) (hspace : isSpace close = false)
    {ws : List UInt8} (h : Blank ws) (rest : List UInt8) :
    scanSeparator close (ws ++ close :: rest) = some (false, rest) := by
  rw [scanSeparator, skip_blank h hspace]
  exact (if_neg hcomma).trans (if_pos rfl)

theorem scanKey_literal {key ws : List UInt8} (hkey : Literal key) (h : Blank ws)
    (rest : List UInt8) : scanKey (ws ++ 34 :: (key ++ 34 :: 58 :: rest)) = some (key, rest) := by
  rw [scanKey, skip_blank h (by decide)]
  dsimp only
  rw [if_pos rfl, scanString_literal hkey, Option.bind_some,
    show skip (58 :: rest) = 58 :: rest from skip_blank blank_nil (by decide) rest]
  exact if_pos rfl

/-! ## Reading back -/

theorem scanEmpty_of_head {close c : UInt8} {ws : List UInt8} (h : Blank ws)
    (hc : isSpace c = false)
    (hne : c ≠ close) (rest : List UInt8) : scanEmpty close (ws ++ c :: rest) = none := by
  rw [scanEmpty, skip_blank h hc]
  exact if_neg hne

theorem elements_last {fuel : ℕ} {s t rest : List UInt8} {v : Json}
    (hv : value fuel s = some (v, t)) (hsep : scanSeparator 93 t = some (false, rest)) :
    elements (fuel + 1) s = some ([v], rest) := by
  simp only [elements, hv, hsep, Option.bind_eq_bind, Option.bind_some]
  rfl

theorem elements_more {fuel : ℕ} {s t u rest : List UInt8} {v : Json} {vs : List Json}
    (hv : value fuel s = some (v, t)) (hsep : scanSeparator 93 t = some (true, u))
    (hvs : elements fuel u = some (vs, rest)) : elements (fuel + 1) s = some (v :: vs, rest) := by
  simp only [elements, hv, hsep, hvs, Option.bind_eq_bind, Option.bind_some]
  rfl

theorem members_last {fuel : ℕ} {s r t rest key : List UInt8} {v : Json}
    (hkey : scanKey s = some (key, r)) (hv : value fuel r = some (v, t))
    (hsep : scanSeparator 125 t = some (false, rest)) :
    members (fuel + 1) s = some ([(key, v)], rest) := by
  simp only [members, hkey, hv, hsep, Option.bind_eq_bind, Option.bind_some]
  rfl

theorem members_more {fuel : ℕ} {s r t u rest key : List UInt8} {v : Json}
    {ms : List (List UInt8 × Json)} (hkey : scanKey s = some (key, r))
    (hv : value fuel r = some (v, t)) (hsep : scanSeparator 125 t = some (true, u))
    (hms : members fuel u = some (ms, rest)) :
      members (fuel + 1) s = some ((key, v) :: ms, rest) := by
  simp only [members, hkey, hv, hsep, hms, Option.bind_eq_bind, Option.bind_some]
  rfl

/-- `value` at a string. It goes by the first byte that is not white space, so this and the next
two lemmas are the equations of `value` for the constructors that have something inside. -/
theorem value_str {fuel : ℕ} {ws raw : List UInt8} (hws : Blank ws) (hraw : Literal raw)
    (rest : List UInt8) :
      value (fuel + 1) (ws ++ 34 :: (raw ++ 34 :: rest)) = some (.str raw, rest) := by
  rw [value, skip_blank hws (by decide)]
  dsimp only
  rw [if_pos rfl, scanString_literal hraw, Option.map_some]

theorem value_arr {fuel : ℕ} {ws s rest : List UInt8} {vs : List Json} (hws : Blank ws)
    (hne : scanEmpty 93 s = none) (hvs : elements fuel s = some (vs, rest)) :
    value (fuel + 1) (ws ++ 91 :: s) = some (.arr vs, rest) := by
  rw [value, skip_blank hws (by decide)]
  dsimp only
  rw [if_neg (by decide), if_pos rfl, hne, hvs]
  rfl

theorem value_obj {fuel : ℕ} {ws s rest : List UInt8} {ms : List (List UInt8 × Json)}
    (hws : Blank ws)
    (hne : scanEmpty 125 s = none) (hms : members fuel s = some (ms, rest)) :
    value (fuel + 1) (ws ++ 123 :: s) = some (.obj ms, rest) := by
  rw [value, skip_blank hws (by decide)]
  dsimp only
  rw [if_neg (by decide), if_neg (by decide), if_pos rfl, hne, hms]
  rfl

/-- With this fuel, printed values are read back, after white space and before anything at all. -/
def ReadsValue (fuel : ℕ) : Prop :=
  ∀ (v : Json) (d : ℕ) (ws rest : List UInt8), v.Printable → (v.print d).length ≤ fuel → Blank ws →
    value fuel (ws ++ (v.print d ++ rest)) = some (v, rest)

def ReadsElements (fuel : ℕ) : Prop :=
  ∀ (vs : List Json) (d : ℕ) (rest : List UInt8), vs ≠ [] → PrintableElements vs →
    (printElements d vs).length ≤ fuel →
    elements fuel (printElements d vs ++ 93 :: rest) = some (vs, rest)

def ReadsMembers (fuel : ℕ) : Prop :=
  ∀ (ms : List (List UInt8 × Json)) (d : ℕ) (rest : List UInt8), ms ≠ [] → PrintableMembers ms →
    (printMembers d ms).length ≤ fuel →
    members fuel (printMembers d ms ++ 125 :: rest) = some (ms, rest)

theorem printElements_head {v : Json} (h : v.Printable) (vs : List Json) (d : ℕ) :
    ∃ c t, printElements d (v :: vs) = newline (d + 1) ++ c :: t ∧ isSpace c = false ∧ c ≠ 93 := by
  obtain ⟨c, t, hprint, hspace, hne⟩ := print_head h (d + 1)
  rcases vs with _ | ⟨w, vs⟩
  · exact ⟨c, _, by rw [printElements, hprint, List.cons_append], hspace, hne⟩
  · exact ⟨c, _, by rw [printElements, hprint, List.cons_append], hspace, hne⟩

theorem printMembers_head (m : List UInt8 × Json) (ms : List (List UInt8 × Json)) (d : ℕ) :
    ∃ t, printMembers d (m :: ms) = newline (d + 1) ++ 34 :: t := by
  rcases ms with _ | ⟨m', ms⟩
  · exact ⟨_, by rw [printMembers]⟩
  · exact ⟨_, by rw [printMembers]⟩

theorem readsValue_succ {fuel : ℕ} (he : ReadsElements fuel) (hm : ReadsMembers fuel) :
    ReadsValue (fuel + 1) := by
  intro v d ws rest h hfuel hws
  rcases v with _ | b | raw | raw | vs | ms
  · rw [value, print, List.cons_append, skip_blank hws (by decide)]
    rfl
  · cases b
    · rw [value, print, List.cons_append, skip_blank hws (by decide)]
      rfl
    · rw [value, print, List.cons_append, skip_blank hws (by decide)]
      rfl
  · exact absurd h (by simp [Printable])
  · rw [print, List.cons_append, List.append_assoc]
    exact value_str hws h rest
  · rw [print, List.length_cons, List.length_append] at hfuel
    rw [print, List.cons_append, List.append_assoc]
    rcases vs with _ | ⟨v, vs⟩
    · rw [value, skip_blank hws (by decide)]
      rfl
    · -- a new line stands between the bracket and the first element
      obtain ⟨c, t, hhead, hspace, hne⟩ := printElements_head h.1 vs d
      refine value_arr hws ?_ (he (v :: vs) d rest (by simp) h (by omega))
      rw [hhead, List.append_assoc, List.cons_append]
      exact scanEmpty_of_head (blank_newline _) hspace hne _
  · rw [print, List.length_cons, List.length_append] at hfuel
    rw [print, List.cons_append, List.append_assoc]
    rcases ms with _ | ⟨m, ms⟩
    · rw [value, skip_blank hws (by decide)]
      rfl
    · obtain ⟨t, hhead⟩ := printMembers_head m ms d
      refine value_obj hws ?_ (hm (m :: ms) d rest (by simp) h (by omega))
      rw [hhead, List.append_assoc, List.cons_append]
      exact scanEmpty_of_head (blank_newline _) (by decide) (by decide) _

theorem readsElements_succ {fuel : ℕ} (hv : ReadsValue fuel) (he : ReadsElements fuel) :
    ReadsElements (fuel + 1) := by
  intro vs d rest hne h hfuel
  rcases vs with _ | ⟨v, _ | ⟨w, vs⟩⟩
  · exact absurd rfl hne
  · rw [printElements, List.length_append, List.length_append] at hfuel
    rw [printElements, List.append_assoc, List.append_assoc]
    have hnl : 0 < (newline (d + 1)).length := Nat.succ_pos _
    exact elements_last (hv v (d + 1) _ _ h.1 (by omega) (blank_newline _))
      (scanSeparator_close (by decide) (by decide) (blank_newline d) rest)
  · rw [printElements, List.length_append, List.length_append, List.length_cons] at hfuel
    rw [printElements, List.append_assoc, List.append_assoc]
    have hnl : 0 < (newline (d + 1)).length := Nat.succ_pos _
    exact elements_more (hv v (d + 1) _ _ h.1 (by omega) (blank_newline _))
      (scanSeparator_comma 93 blank_nil _) (he (w :: vs) d rest (by simp) h.2 (by omega))

theorem readsMembers_succ {fuel : ℕ} (hv : ReadsValue fuel) (hm : ReadsMembers fuel) :
    ReadsMembers (fuel + 1) := by
  intro ms d rest hne h hfuel
  have hblank : Blank [32] := by simp [Blank, isSpace]
  rcases ms with _ | ⟨⟨key, v⟩, _ | ⟨m, ms⟩⟩
  · exact absurd rfl hne
  · simp only [printMembers, List.length_append, List.length_cons] at hfuel
    -- the last one, with a new line before the bracket
    have htext : printMembers d [(key, v)] ++ 125 :: rest
      = newline (d + 1) ++ 34 :: (key ++ 34 :: 58 ::
        ([32] ++ (print (d + 1) v ++ (newline d ++ 125 :: rest)))) := by
      simp only [printMembers, List.append_assoc, List.cons_append, List.nil_append]
    rw [htext]
    exact members_last (scanKey_literal h.1 (blank_newline _) _)
      (hv v (d + 1) _ _ h.2.1 (by omega) hblank)
      (scanSeparator_close (by decide) (by decide) (blank_newline d) rest)
  · simp only [printMembers, List.length_append, List.length_cons] at hfuel
    -- one that a comma follows at once
    have htext : printMembers d ((key, v) :: m :: ms) ++ 125 :: rest
      = newline (d + 1) ++ 34 :: (key ++
        34 :: 58 :: ([32] ++
          (print (d + 1) v ++ ([] ++ 44 :: (printMembers d (m :: ms) ++ 125 :: rest))))) := by
      simp only [printMembers, List.append_assoc, List.cons_append, List.nil_append]
    rw [htext]
    exact members_more (scanKey_literal h.1 (blank_newline _) _)
      (hv v (d + 1) _ _ h.2.1 (by omega) hblank)
      (scanSeparator_comma 125 blank_nil _) (hm (m :: ms) d rest (by simp) h.2.2 (by omega))

/-- By induction on the fuel. It is at least the length of the text, and every call is on a
shorter one: the bracket, the new line and the comma around a value pay for the calls. -/
theorem reads (fuel : ℕ) : ReadsValue fuel ∧ ReadsElements fuel ∧ ReadsMembers fuel := by
  induction fuel with
  | zero =>
    -- every text has a byte at least
    refine ⟨fun v d ws rest h hfuel => ?_, fun vs d rest hne h hfuel => ?_,
      fun ms d rest hne h hfuel => ?_⟩
    · obtain ⟨c, t, hprint, -⟩ := print_head h d
      rw [hprint] at hfuel
      exact absurd hfuel (by simp)
    · rcases vs with _ | ⟨v, vs⟩
      · exact absurd rfl hne
      · obtain ⟨c, t, hhead, -⟩ := printElements_head h.1 vs d
        rw [hhead] at hfuel
        exact absurd hfuel (by simp [newline])
    · rcases ms with _ | ⟨m, ms⟩
      · exact absurd rfl hne
      · obtain ⟨t, hhead⟩ := printMembers_head m ms d
        rw [hhead] at hfuel
        exact absurd hfuel (by simp [newline])
  | succ fuel ih =>
    obtain ⟨hv, he, hm⟩ := ih
    exact ⟨readsValue_succ he hm, readsElements_succ hv he, readsMembers_succ hv hm⟩

/-- **What is printed is parsed back**, at any level. The length of the text is fuel enough. -/
theorem parse_print {v : Json} (h : v.Printable) (d : ℕ) : parse (v.print d) = some v := by
  have hread := (reads (v.print d).length).1 v d [] [] h le_rfl blank_nil
  rw [List.nil_append, List.append_nil] at hread
  rw [parse, hread, Option.bind_some]
  rfl

end Json

end Heimdall
