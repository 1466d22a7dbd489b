/-
Addresses as Go's package `net` writes them.

`IP.String` writes four bytes in decimal, and sixteen as groups of hex digits in which the first of
the longest runs of zero groups, if it has two groups at least, is written `::`. An IPv4-mapped
address is written as the IPv4 address it is.

`ParseIP` reads all of that back (`parseIP_ipString`), up to the form with sixteen bytes. The two
loops are followed field by field: `ipv4Loop_decimal` and `ipv6Loop_group` say what they do with the
text of one field and anything behind it.
-/
import Heimdall.GoNet

set_option autoImplicit false

namespace Heimdall.GoNet

open Heimdall.Utf8 (hexValue isDigit)

/-! ## `IP.String` -/

def hexDigit (n : ℕ) : UInt8 := if n < 10 then UInt8.ofNat (48 + n) else UInt8.ofNat (87 + n)

def decimal (b : UInt8) : List UInt8 :=
  (if 100 ≤ b.toNat then [hexDigit (b.toNat / 100)] else []) ++
    (if 10 ≤ b.toNat then [hexDigit (b.toNat / 10 % 10)] else []) ++ [hexDigit (b.toNat % 10)]

def dotted : List UInt8 → List UInt8
  | [] => []
  | [b] => decimal b
  | b :: c :: bs => decimal b ++ 46 :: dotted (c :: bs)

def hexGroup (x : ℕ) : List UInt8 :=
  (if 0x1000 ≤ x then [hexDigit (x / 0x1000)] else []) ++
    (if 0x100 ≤ x then [hexDigit (x / 0x100 % 16)] else []) ++
    (if 0x10 ≤ x then [hexDigit (x / 0x10 % 16)] else []) ++ [hexDigit (x % 16)]

def coloned : List ℕ → List UInt8
  | [] => []
  | [g] => hexGroup g
  | g :: h :: gs => hexGroup g ++ 58 :: coloned (h :: gs)

def groupsOf : IP → List ℕ
  | a :: b :: s => (a.toNat * 256 + b.toNat) :: groupsOf s
  | _ => []

def zeros (gs : List ℕ) : ℕ := (gs.takeWhile (· = 0)).length

/-- The start and the length of the first longest run of two zeros or more, from `i` on; `best` is
the one found before. -/
def longestRun : ℕ → List ℕ → ℕ × ℕ → ℕ × ℕ
  | _, [], best => best
  | i, g :: gs, best =>
    longestRun (i + 1) gs
      (if 2 ≤ zeros (g :: gs) ∧ best.2 < zeros (g :: gs) then (i, zeros (g :: gs)) else best)

/-- The groups of an IPv6 address as text. -/
def string6 (gs : List ℕ) : List UInt8 :=
  let run := longestRun 0 gs (0, 0)
  if run.2 = 0 then coloned gs
  else coloned (gs.take run.1) ++ 58 :: 58 :: coloned (gs.drop (run.1 + run.2))

def hexString (bs : List UInt8) : List UInt8 :=
  bs.flatMap fun b => [hexDigit (b.toNat / 16), hexDigit (b.toNat % 16)]

def ipString (ip : IP) : List UInt8 :=
  -- `<nil>`, and `?` for what is no address
  if ip = [] then [60, 110, 105, 108, 62]
  else if ip.length ≠ 4 ∧ ip.length ≠ 16 then 63 :: hexString ip
  else
    match to4 ip with
    | some ip4 => dotted ip4
    | none => string6 (groupsOf ip)

def to16 (ip : IP) : IP :=
  match to4 ip with
  | some ip4 => v4in6 ip4
  | none => ip

example : ipString [0x20, 1, 0xD, 0xB8, 0, 0, 0, 0, 0, 0, 0, 0, 0, 0, 0, 1] =
    [50, 48, 48, 49, 58, 100, 98, 56, 58, 58, 49] := by decide

/-! ## Digits -/

theorem hexDigit_decimal :
    ∀ d : Fin 10, isDigit (hexDigit d) = true ∧ (hexDigit d).toNat - 48 = d := by
  decide

theorem isDigit_hexDigit {d : ℕ} (h : d < 10) : isDigit (hexDigit d) = true :=
  (hexDigit_decimal ⟨d, h⟩).1

theorem toNat_hexDigit {d : ℕ} (h : d < 10) : (hexDigit d).toNat - 48 = d :=
  (hexDigit_decimal ⟨d, h⟩).2

theorem hexValue_hexDigit {d : ℕ} (h : d < 16) : hexValue (hexDigit d) = some d := by
  have hall : ∀ d : Fin 16, hexValue (hexDigit d) = some d.val := by decide
  exact hall ⟨d, h⟩

/-- A digit in front of the rest of an IPv4 address. The loop refuses a digit behind a leading
zero, and a value above 255, which is what the two conditions are about. -/
theorem ipv4Loop_digit {d val digLen : ℕ} {rest fields : List UInt8} (hd : d < 10)
    (hlead : digLen ≠ 1 ∨ val ≠ 0) (hval : val * 10 + d ≤ 255) :
    ipv4Loop (hexDigit d :: rest) val digLen fields =
      ipv4Loop rest (val * 10 + d) (digLen + 1) fields := by
  rw [ipv4Loop, if_pos (isDigit_hexDigit hd), if_neg (by omega), toNat_hexDigit hd,
    if_neg (by omega)]

theorem ipv4Loop_decimal (b : UInt8) (rest fields : List UInt8) :
    ipv4Loop (decimal b ++ rest) 0 0 fields = ipv4Loop rest b.toNat (decimal b).length fields := by
  have hb := b.toNat_lt
  unfold decimal
  -- three digits, two or one
  by_cases h100 : 100 ≤ b.toNat
  · have hval : ((0 * 10 + b.toNat / 100) * 10 + b.toNat / 10 % 10) * 10 + b.toNat % 10
        = b.toNat := by
      omega
    rw [if_pos h100, if_pos (by omega)]
    simp only [List.cons_append, List.nil_append, List.length_cons, List.length_nil]
    rw [ipv4Loop_digit (by omega) (by omega) (by omega),
      ipv4Loop_digit (by omega) (by omega) (by omega),
      ipv4Loop_digit (by omega) (by omega) (by omega), hval]
  · by_cases h10 : 10 ≤ b.toNat
    · have hval : (0 * 10 + b.toNat / 10 % 10) * 10 + b.toNat % 10 = b.toNat := by omega
      rw [if_neg h100, if_pos h10]
      simp only [List.cons_append, List.nil_append, List.length_cons, List.length_nil]
      rw [ipv4Loop_digit (by omega) (by omega) (by omega),
        ipv4Loop_digit (by omega) (by omega) (by omega), hval]
    · have hval : 0 * 10 + b.toNat % 10 = b.toNat := by omega
      rw [if_neg h100, if_neg h10]
      simp only [List.cons_append, List.nil_append, List.length_cons, List.length_nil]
      rw [ipv4Loop_digit (by omega) (by omega) (by omega), hval]

theorem length_decimal_pos (b : UInt8) : 0 < (decimal b).length := by
  unfold decimal
  rw [List.length_append]
  exact Nat.lt_add_left _ Nat.one_pos

theorem ipv4Loop_field (b : UInt8) {rest fields : List UInt8} (hrest : rest ≠ [])
    (hfields : fields.length ≠ 3) :
    ipv4Loop (decimal b ++ 46 :: rest) 0 0 fields = ipv4Loop rest 0 0 (fields ++ [b]) := by
  have hpos := length_decimal_pos b
  have hfield : ¬((decimal b).length = 0 ∨ rest = []) := not_or.mpr ⟨hpos.ne', hrest⟩
  rw [ipv4Loop_decimal, ipv4Loop, if_neg (by decide), if_pos rfl, if_neg hfield, if_neg hfields,
    UInt8.ofNat_toNat]

theorem decimal_ne_nil (b : UInt8) :
    decimal b ≠ [] := List.ne_nil_of_length_pos (length_decimal_pos b)

/-- **An IPv4 address is read back.** Three fields end with a dot, and the fourth with the text. -/
theorem parseIPv4Fields_dotted (a b c d : UInt8) :
    parseIPv4Fields (dotted [a, b, c, d]) = some [a, b, c, d] := by
  have hne : ∀ (x : UInt8) (s : List UInt8), decimal x ++ s ≠ [] := fun x s h =>
    decimal_ne_nil x (List.append_eq_nil_iff.mp h).1
  simp only [dotted, parseIPv4Fields]
  rw [ipv4Loop_field a (hne _ _) (by decide), ipv4Loop_field b (hne _ _) (by simp),
    ipv4Loop_field c (decimal_ne_nil d) (by simp), ← List.append_nil (decimal d), ipv4Loop_decimal,
    ipv4Loop]
  simp

/-! ## Groups -/

def pair (g : ℕ) : List UInt8 := [UInt8.ofNat (g / 256), UInt8.ofNat (g % 256)]

theorem hexGroup_digits {x : ℕ} (hx : x < 65536) :
    ∃ ds : List ℕ, hexGroup x = ds.map hexDigit ∧ (∀ d ∈ ds, d < 16) ∧ ds.length ≠ 0 ∧
      ds.length ≤ 4 ∧
      ds.foldl (fun n d => n * 16 + d) 0 = x := by
  unfold hexGroup
  -- by the number of digits, from four down to one
  by_cases h3 : 0x1000 ≤ x
  · refine ⟨[x / 0x1000, x / 0x100 % 16, x / 0x10 % 16, x % 16], ?_, ?_, by simp, by simp, ?_⟩
    · rw [if_pos h3, if_pos (by omega), if_pos (by omega)]
      rfl
    · simp only [List.forall_mem_cons, List.not_mem_nil, false_imp_iff, implies_true, and_true]
      omega
    · simp only [List.foldl_cons, List.foldl_nil]
      omega
  by_cases h2 : 0x100 ≤ x
  · refine ⟨[x / 0x100 % 16, x / 0x10 % 16, x % 16], ?_, ?_, by simp, by simp, ?_⟩
    · rw [if_neg h3, if_pos h2, if_pos (by omega)]
      rfl
    · simp only [List.forall_mem_cons, List.not_mem_nil, false_imp_iff, implies_true, and_true]
      omega
    · simp only [List.foldl_cons, List.foldl_nil]
      omega
  by_cases h1 : 0x10 ≤ x
  · refine ⟨[x / 0x10 % 16, x % 16], ?_, ?_, by simp, by simp, ?_⟩
    · rw [if_neg h3, if_neg h2, if_pos h1]
      rfl
    · simp only [List.forall_mem_cons, List.not_mem_nil, false_imp_iff, implies_true, and_true]
      omega
    · simp only [List.foldl_cons, List.foldl_nil]
      omega
  · refine ⟨[x % 16], ?_, ?_, by simp, by simp, ?_⟩
    · rw [if_neg h3, if_neg h2, if_neg h1]
      rfl
    · simp only [List.forall_mem_cons, List.not_mem_nil, false_imp_iff, implies_true, and_true]
      omega
    · simp only [List.foldl_cons, List.foldl_nil]
      omega

theorem filterMap_hexDigit {ds : List ℕ} (h : ∀ d ∈ ds, d < 16) :
    (ds.map hexDigit).filterMap hexValue = ds := by
  rw [List.filterMap_map]
  calc ds.filterMap (hexValue ∘ hexDigit) = ds.filterMap some :=
        List.filterMap_congr fun d hd => hexValue_hexDigit (h d hd)
    _ = ds := List.filterMap_some

/-- A group is what the loop takes of a text that starts with it, unless more digits follow. What
is stated here are the four things that one turn of `ipv6Loop` computes: the digits, the rest,
their number and the value. -/
theorem scan_hexGroup {x : ℕ} (hx : x < 65536) (rest : List UInt8)
    (hrest : ∀ c ∈ rest.head?, hexValue c = none) :
    ∃ digits, hexGroup x = digits ∧
      ((digits ++ rest).takeWhile fun c => (hexValue c).isSome) = digits ∧
      ((digits ++ rest).dropWhile fun c => (hexValue c).isSome) = rest ∧
      ¬(digits.length = 0 ∨ 4 < digits.length) ∧
      (digits.filterMap hexValue).foldl (fun n d => n * 16 + d) 0 = x := by
  obtain ⟨ds, hds, hlt, hpos, hlen, hval⟩ := hexGroup_digits hx
  have hall : ∀ c ∈ ds.map hexDigit, (hexValue c).isSome = true := by
    intro c hc
    obtain ⟨d, hd, rfl⟩ := List.mem_map.mp hc
    rw [hexValue_hexDigit (hlt d hd)]
    rfl
  -- a byte that is no digit stops the scan at once
  have hstop : (rest.takeWhile fun c => (hexValue c).isSome) = [] ∧
      (rest.dropWhile fun c => (hexValue c).isSome) = rest := by
    cases rest with
    | nil => exact ⟨rfl, rfl⟩
    | cons c s =>
      have hc : hexValue c = none := hrest c rfl
      exact ⟨by simp [hc], by simp [hc]⟩
  refine ⟨ds.map hexDigit, hds, ?_, ?_, ?_, ?_⟩
  · rw [List.takeWhile_append_of_pos hall, hstop.1, List.append_nil]
  · rw [List.dropWhile_append_of_pos hall, hstop.2]
  · rw [List.length_map]
    omega
  · rw [filterMap_hexDigit hlt, hval]

variable {x room : ℕ} {bytes s : List UInt8} {ellipsis : Option ℕ}

theorem ipv6Loop_last (hx : x < 65536) :
    ipv6Loop (room + 1) (hexGroup x) bytes ellipsis = some ⟨bytes ++ pair x, ellipsis⟩ := by
  obtain ⟨digits, hdigits, htake, hdrop, hlen, hval⟩ := scan_hexGroup hx [] (by simp)
  rw [List.append_nil] at htake hdrop
  rw [hdigits, ipv6Loop]
  simp only [htake, hdrop, hval, if_neg hlen]
  rfl

/-- A group may be followed by nothing, by a colon and another group, or by the two colons of the
ellipsis. This is the second case. -/
theorem ipv6Loop_group (hx : x < 65536) {c : UInt8} (hc : c ≠ 58) :
    ipv6Loop (room + 1) (hexGroup x ++ 58 :: c :: s) bytes ellipsis =
      ipv6Loop room (c :: s) (bytes ++ pair x) ellipsis := by
  obtain ⟨digits, hdigits, htake, hdrop, hlen, hval⟩ :=
    scan_hexGroup hx (58 :: c :: s) (by simp; decide)
  rw [hdigits, ipv6Loop]
  simp only [htake, hdrop, hval, if_neg hlen]
  rw [if_neg (by simp)]
  rfl

theorem ipv6Loop_ellipsis (hx : x < 65536) :
    ipv6Loop (room + 1) (hexGroup x ++ 58 :: 58 :: s) bytes none =
      if s = [] then some ⟨bytes ++ pair x, some (bytes ++ pair x).length⟩
      else ipv6Loop room s (bytes ++ pair x) (some (bytes ++ pair x).length) := by
  obtain ⟨digits, hdigits, htake, hdrop, hlen, hval⟩ :=
    scan_hexGroup hx (58 :: 58 :: s) (by simp; decide)
  rw [hdigits, ipv6Loop]
  simp only [htake, hdrop, hval, if_neg hlen]
  rfl

/-! ## IPv6 addresses -/

variable {gs : List ℕ}

theorem hexGroup_cons (hx : x < 65536) :
    ∃ c s, hexGroup x = c :: s ∧ (hexValue c).isSome = true := by
  obtain ⟨ds, hds, hlt, hpos, -⟩ := hexGroup_digits hx
  cases ds with
  | nil => exact absurd rfl hpos
  | cons d ds =>
    refine ⟨hexDigit d, ds.map hexDigit, hds, ?_⟩
    rw [hexValue_hexDigit (hlt d List.mem_cons_self)]
    rfl

theorem coloned_cons {g : ℕ} (hg : g < 65536) (gs : List ℕ) :
    ∃ c s, coloned (g :: gs) = c :: s ∧ (hexValue c).isSome = true := by
  obtain ⟨c, s, hcs, hc⟩ := hexGroup_cons hg
  cases gs with
  | nil => exact ⟨c, s, hcs, hc⟩
  | cons h gs => exact ⟨c, _, by rw [coloned, hcs, List.cons_append], hc⟩

theorem ne_colon {c : UInt8} (h : (hexValue c).isSome = true) : c ≠ 58 := by
  rintro rfl
  exact absurd h (by decide)

theorem ipv6Loop_coloned (hne : gs ≠ []) (hgs : ∀ g ∈ gs, g < 65536) (hroom : gs.length ≤ room) :
    ipv6Loop room (coloned gs) bytes ellipsis = some ⟨bytes ++ gs.flatMap pair, ellipsis⟩ := by
  induction gs generalizing room bytes with
  | nil => exact absurd rfl hne
  | cons g gs ih =>
    obtain ⟨room, rfl⟩ := Nat.exists_eq_succ_of_ne_zero (Nat.ne_of_gt (Nat.zero_lt_of_lt hroom))
    have hg := hgs g List.mem_cons_self
    cases gs with
    | nil =>
      rw [coloned, ipv6Loop_last hg]
      simp
    | cons h gs =>
      -- the next group starts with a digit, so the colon before it is a single one
      obtain ⟨c, s, hcs, hc⟩ := coloned_cons (hgs h (by simp)) gs
      rw [coloned, hcs, ipv6Loop_group hg (ne_colon hc), ← hcs,
        ih (List.cons_ne_nil _ _) (fun x hx => hgs x (List.mem_cons_of_mem _ hx))
          (Nat.le_of_succ_le_succ hroom)]
      simp

theorem ipv6Loop_front (hne : gs ≠ []) (hgs : ∀ g ∈ gs, g < 65536) (hroom : gs.length ≤ room) :
    ipv6Loop room (coloned gs ++ 58 :: 58 :: s) bytes none =
      if s = [] then some ⟨bytes ++ gs.flatMap pair, some (bytes ++ gs.flatMap pair).length⟩
      else ipv6Loop (room - gs.length) s (bytes ++ gs.flatMap pair)
        (some (bytes ++ gs.flatMap pair).length) := by
  induction gs generalizing room bytes with
  | nil => exact absurd rfl hne
  | cons g gs ih =>
    obtain ⟨room, rfl⟩ := Nat.exists_eq_succ_of_ne_zero (Nat.ne_of_gt (Nat.zero_lt_of_lt hroom))
    have hg := hgs g List.mem_cons_self
    cases gs with
    | nil =>
      rw [coloned, ipv6Loop_ellipsis hg]
      simp
    | cons h gs =>
      -- as in `ipv6Loop_coloned`, with something behind the groups
      obtain ⟨c, t, hct, hc⟩ := coloned_cons (hgs h (by simp)) gs
      rw [coloned, List.append_assoc, List.cons_append, hct, List.cons_append,
        ipv6Loop_group hg (ne_colon hc), ← List.cons_append, ← hct,
        ih (List.cons_ne_nil _ _) (fun x hx => hgs x (List.mem_cons_of_mem _ hx))
          (Nat.le_of_succ_le_succ hroom)]
      simp

theorem zeros_front (gs : List ℕ) : gs = List.replicate (zeros gs) 0 ++ gs.drop (zeros gs) := by
  induction gs with
  | nil => rfl
  | cons g gs ih =>
    by_cases hg : g = 0
    · have hzeros : zeros (g :: gs) = zeros gs + 1 := by simp [zeros, hg]
      rw [hzeros, List.replicate_succ, List.drop_succ_cons, List.cons_append, ← ih, hg]
    · have hzeros : zeros (g :: gs) = 0 := by simp [zeros, hg]
      rw [hzeros]
      rfl

/-- What a run says: there are zeros. -/
def IsRun (gs : List ℕ) (run : ℕ × ℕ) : Prop :=
  gs = gs.take run.1 ++ (List.replicate run.2 0 ++ gs.drop (run.1 + run.2))

theorem isRun_longestRun {pre : List ℕ} {best : ℕ × ℕ} (h : IsRun (pre ++ gs) best) :
    IsRun (pre ++ gs) (longestRun pre.length gs best) := by
  induction gs generalizing pre best with
  | nil => exact h
  | cons g gs ih =>
    have hsplit : pre ++ g :: gs = (pre ++ [g]) ++ gs := by simp
    have hlen : pre.length + 1 = (pre ++ [g]).length := by simp
    rw [longestRun, hsplit, hlen]
    apply ih
    rw [← hsplit]
    split_ifs
    · unfold IsRun
      rw [List.take_left, List.drop_append, List.drop_of_length_le (Nat.le_add_right _ _),
        Nat.add_sub_cancel_left, List.nil_append, ← zeros_front]
    · exact h

theorem length_flatMap_pair (gs : List ℕ) : (gs.flatMap pair).length = 2 * gs.length := by
  induction gs with
  | nil => rfl
  | cons g gs ih =>
    rw [List.flatMap_cons, List.length_append, ih, List.length_cons]
    simp only [pair, List.length_cons, List.length_nil]
    omega

theorem flatMap_pair_zeros (n : ℕ) :
    (List.replicate n 0).flatMap pair = List.replicate (2 * n) 0 := by
  induction n with
  | zero => rfl
  | succ n ih =>
    rw [List.replicate_succ, List.flatMap_cons, ih, Nat.mul_succ, Nat.add_comm, List.replicate_add]
    rfl

/-- A text is the groups before the run, two colons, and the groups behind it. The parser fills in
as many zero groups as are missing, and that is the run. -/
theorem expand_pair {front back : List ℕ} {n : ℕ} (hn : 0 < n)
    (hlen : front.length + (n + back.length) = 8) :
    (Groups.mk (front.flatMap pair ++ back.flatMap pair) (some (front.flatMap pair).length)).expand
      =
      some ((front ++ (List.replicate n 0 ++ back)).flatMap pair) := by
  have hfront := length_flatMap_pair front
  have hback := length_flatMap_pair back
  have hmissing : 16 - (front.flatMap pair ++ back.flatMap pair).length = 2 * n := by
    rw [List.length_append]
    omega
  unfold Groups.expand
  dsimp only
  rw [if_pos (by rw [List.length_append]; omega), hmissing, List.take_left, List.drop_left,
    List.flatMap_append, List.flatMap_append, flatMap_pair_zeros, List.append_assoc]

theorem parseIPv6_cons {c : UInt8} (hc : c ≠ 58) :
    parseIPv6 (c :: s) = (ipv6Loop 8 (c :: s) [] none).bind Groups.expand := by
  unfold parseIPv6
  split
  · next h => exact absurd (List.cons.inj h).1 hc
  · next h => exact absurd (List.cons.inj h).1 hc
  · rfl

theorem parseIPv6_ellipsis (hs : s ≠ []) :
    parseIPv6 (58 :: 58 :: s) = (ipv6Loop 8 s [] (some 0)).bind Groups.expand := by
  cases s with
  | nil => exact absurd rfl hs
  | cons c s => rfl

/-- **An IPv6 address is read back.** Either no zeros were left out, and all eight groups are
read, or the groups before and behind the `::` are, each of which may be none. -/
theorem parseIPv6_string6 (hlen : gs.length = 8) (hgs : ∀ g ∈ gs, g < 65536) :
    parseIPv6 (string6 gs) = some (gs.flatMap pair) := by
  have hrun : IsRun gs (longestRun 0 gs (0, 0)) := by
    have h0 : IsRun ([] ++ gs) (0, 0) := by simp [IsRun]
    exact isRun_longestRun h0
  unfold string6
  dsimp only
  generalize longestRun 0 gs (0, 0) = run at hrun
  split_ifs with hzero
  · -- no `::`
    cases gs with
    | nil => exact absurd hlen (by simp)
    | cons g gs =>
      obtain ⟨c, s, hcs, hc⟩ := coloned_cons (hgs g List.mem_cons_self) gs
      rw [hcs, parseIPv6_cons (ne_colon hc), ← hcs,
        ipv6Loop_coloned (List.cons_ne_nil _ _) hgs hlen.le,
        Option.bind_some, Groups.expand]
      dsimp only
      rw [List.nil_append, if_neg]
      rw [length_flatMap_pair, hlen]
      omega
  · have hfront : ∀ g ∈ gs.take run.1, g < 65536 := fun g hg => hgs g (List.mem_of_mem_take hg)
    have hback : ∀ g ∈ gs.drop (run.1 + run.2), g < 65536 := fun g hg =>
      hgs g (List.mem_of_mem_drop hg)
    have htotal : (gs.take run.1).length + (run.2 + (gs.drop (run.1 + run.2)).length) = 8 := by
      have hcount := congrArg List.length hrun
      rw [List.length_append, List.length_append, List.length_replicate, hlen] at hcount
      exact hcount.symm
    have hexpand := expand_pair (Nat.pos_of_ne_zero hzero) htotal
    rw [← hrun] at hexpand
    generalize gs.take run.1 = front at hfront htotal hexpand
    generalize gs.drop (run.1 + run.2) = back at hback htotal hexpand
    cases front with
    | nil =>
      cases back with
      | nil => exact hexpand
      | cons g back =>
        obtain ⟨c, s, hcs, -⟩ := coloned_cons (hback g List.mem_cons_self) back
        rw [coloned, List.nil_append, parseIPv6_ellipsis (by simp [hcs]),
          ipv6Loop_coloned (List.cons_ne_nil g back) hback (by omega)]
        exact hexpand
    | cons f front =>
      obtain ⟨c, s, hcs, hc⟩ := coloned_cons (hfront f List.mem_cons_self) front
      rw [hcs, List.cons_append, parseIPv6_cons (ne_colon hc), ← List.cons_append, ← hcs,
        ipv6Loop_front (List.cons_ne_nil f front) hfront (by omega), List.nil_append]
      cases back with
      | nil =>
        rw [coloned, if_pos rfl]
        simpa using hexpand
      | cons g back =>
        obtain ⟨d, t, hdt, -⟩ := coloned_cons (hback g List.mem_cons_self) back
        rw [if_neg (by simp [hdt]), ipv6Loop_coloned (List.cons_ne_nil g back) hback (by omega)]
        exact hexpand

/-! ## `ParseIP` after `String` -/

theorem mem_decimal {b c : UInt8} (h : c ∈ decimal b) : isDigit c = true := by
  have hb := b.toNat_lt
  -- the three places of `decimal`, of which the first two may be empty
  have hdigit : ∃ d < 10, c = hexDigit d := by
    unfold decimal at h
    simp only [List.mem_append, List.mem_singleton] at h
    rcases h with (h | h) | h
    · split_ifs at h with hbig
      · exact ⟨_, by omega, List.mem_singleton.mp h⟩
      · exact absurd h List.not_mem_nil
    · split_ifs at h with hbig
      · exact ⟨_, by omega, List.mem_singleton.mp h⟩
      · exact absurd h List.not_mem_nil
    · exact ⟨_, by omega, h⟩
  obtain ⟨d, hd, rfl⟩ := hdigit
  exact isDigit_hexDigit hd

theorem mem_dotted {ip4 : List UInt8} {c : UInt8} (h : c ∈ dotted ip4) :
    isDigit c = true ∨ c = 46 := by
  induction ip4 with
  | nil => exact absurd h List.not_mem_nil
  | cons b bs ih =>
    cases bs with
    | nil => exact .inl (mem_decimal h)
    | cons b' bs =>
      rw [dotted, List.mem_append, List.mem_cons] at h
      rcases h with h | h | h
      · exact .inl (mem_decimal h)
      · exact .inr h
      · exact ih h

theorem mem_hexGroup (hx : x < 65536) {c : UInt8} (h : c ∈ hexGroup x) :
    (hexValue c).isSome = true := by
  obtain ⟨ds, hds, hlt, -⟩ := hexGroup_digits hx
  rw [hds] at h
  obtain ⟨d, hd, rfl⟩ := List.mem_map.mp h
  rw [hexValue_hexDigit (hlt d hd)]
  rfl

theorem mem_coloned (hgs : ∀ g ∈ gs, g < 65536) {c : UInt8} (h : c ∈ coloned gs) :
    (hexValue c).isSome = true ∨ c = 58 := by
  induction gs with
  | nil => exact absurd h List.not_mem_nil
  | cons g gs ih =>
    have hg := hgs g List.mem_cons_self
    cases gs with
    | nil => exact .inl (mem_hexGroup hg h)
    | cons g' gs =>
      rw [coloned, List.mem_append, List.mem_cons] at h
      rcases h with h | h | h
      · exact .inl (mem_hexGroup hg h)
      · exact .inr h
      · exact ih (fun x hx => hgs x (List.mem_cons_of_mem _ hx)) h

theorem mem_string6 (hgs : ∀ g ∈ gs, g < 65536) {c : UInt8} (h : c ∈ string6 gs) :
    (hexValue c).isSome = true ∨ c = 58 := by
  unfold string6 at h
  dsimp only at h
  split_ifs at h
  · exact mem_coloned hgs h
  · rw [List.mem_append, List.mem_cons, List.mem_cons] at h
    rcases h with h | h | h | h
    · exact mem_coloned (fun g hg => hgs g (List.mem_of_mem_take hg)) h
    · exact .inr h
    · exact .inr h
    · exact mem_coloned (fun g hg => hgs g (List.mem_of_mem_drop hg)) h

theorem colon_mem_string6 (hlen : 2 ≤ gs.length) : (58 : UInt8) ∈ string6 gs := by
  unfold string6
  dsimp only
  split_ifs
  · match gs, hlen with
    | g :: h :: gs, _ =>
      rw [coloned]
      exact List.mem_append_right _ List.mem_cons_self
  · exact List.mem_append_right _ List.mem_cons_self

/-- `ParseIP` looks for the first of three bytes to decide what it reads. A text of `String` has
only one of them, so the decision is right. -/
theorem find_separator {sep : UInt8} (hsep : sep ∈ s)
    (hother : ∀ c ∈ s, (c = 46 || c = 58 || c = 37) = true → c = sep)
    (hdecides : (sep = 46 || sep = 58 || sep = 37) = true) :
    (s.find? fun c => c = 46 || c = 58 || c = 37) = some sep := by
  cases hfind : s.find? fun c => c = 46 || c = 58 || c = 37 with
  | none => exact absurd hdecides (by simpa using List.find?_eq_none.mp hfind sep hsep)
  | some c =>
    rw [hother c (List.mem_of_find?_eq_some hfind) (by simpa using List.find?_some hfind)]

theorem not_separator_of_isSome :
    ∀ c : UInt8, (hexValue c).isSome = true → c ≠ 46 ∧ c ≠ 58 ∧ c ≠ 37 := by
  intro c hc
  refine ⟨?_, ?_, ?_⟩ <;> rintro rfl <;> exact absurd hc (by decide)

theorem groupsOf_bytes (n : ℕ) (ip : IP) (hlen : ip.length = 2 * n) :
    (groupsOf ip).length = n ∧ (groupsOf ip).flatMap pair = ip ∧ ∀ g ∈ groupsOf ip, g < 65536 := by
  induction n generalizing ip with
  | zero =>
    obtain rfl := List.length_eq_zero_iff.mp hlen
    exact ⟨rfl, rfl, fun g hg => absurd hg List.not_mem_nil⟩
  | succ n ih =>
    match ip, hlen with
    | a :: b :: ip, hlen =>
      have ha := a.toNat_lt
      have hb := b.toNat_lt
      obtain ⟨hcount, hflat, hall⟩ := ih ip (by simpa [Nat.mul_succ] using hlen)
      -- a group is less than 65536, so its two bytes are the quotient and the remainder
      have hpair : pair (a.toNat * 256 + b.toNat) = [a, b] := by
        unfold pair
        rw [show (a.toNat * 256 + b.toNat) / 256 = a.toNat by omega,
          show (a.toNat * 256 + b.toNat) % 256 = b.toNat by omega, UInt8.ofNat_toNat,
            UInt8.ofNat_toNat]
      refine ⟨?_, ?_, ?_⟩
      · rw [groupsOf, List.length_cons, hcount]
      · rw [groupsOf, List.flatMap_cons, hpair, hflat]
        rfl
      · intro g hg
        rcases List.mem_cons.mp hg with rfl | hg
        · omega
        · exact hall g hg

theorem length_to4 {ip : IP} {ip4 : List UInt8} (h : to4 ip = some ip4) : ip4.length = 4 := by
  unfold to4 at h
  split_ifs at h with hfour hmapped
  · rw [← Option.some.inj h, hfour]
  · rw [← Option.some.inj h, List.length_drop, hmapped.1]

theorem length_of_to4_eq_none {ip : IP} (h : ip.length = 4 ∨ ip.length = 16) (h4 : to4 ip = none) :
    ip.length = 16 := by
  rcases h with h | h
  · exact absurd h4 (by simp [to4, h])
  · exact h

theorem ipString_eq {ip : IP} (h : ip.length = 4 ∨ ip.length = 16) :
    ipString ip = match to4 ip with
      | some ip4 => dotted ip4
      | none => string6 (groupsOf ip) := by
  have hne : ip ≠ [] := by
    rintro rfl
    exact absurd h (by decide)
  unfold ipString
  rw [if_neg hne, if_neg (by omega)]

theorem parseIP_dotted (a b c d : UInt8) :
    parseIP (dotted [a, b, c, d]) = some (v4in6 [a, b, c, d]) := by
  have hfind : (dotted [a, b, c, d]).find? (fun c => c = 46 || c = 58 || c = 37) = some 46 := by
    apply find_separator
    · exact List.mem_append_right _ List.mem_cons_self
    · intro x hx hsep
      rcases mem_dotted hx with hdigit | hdot
      · exfalso
        revert hsep
        have hne := not_separator_of_isSome x (by simp [hexValue, hdigit])
        simp [hne]
      · exact hdot
    · rfl
  rw [parseIP, hfind]
  rw [parseIPv4Fields_dotted]
  rfl

theorem parseIP_string6 (hlen : gs.length = 8) (hgs : ∀ g ∈ gs, g < 65536) :
    parseIP (string6 gs) = some (gs.flatMap pair) := by
  have hfind : (string6 gs).find? (fun c => c = 46 || c = 58 || c = 37) = some 58 := by
    apply find_separator
    · exact colon_mem_string6 (by omega)
    · intro x hx hsep
      rcases mem_string6 hgs hx with hhex | hcolon
      · exfalso
        revert hsep
        simp [not_separator_of_isSome x hhex]
      · exact hcolon
    · rfl
  have hzone : (37 : UInt8) ∉ string6 gs := by
    intro hmem
    rcases mem_string6 hgs hmem with hhex | hcolon
    · exact (not_separator_of_isSome 37 hhex).2.2 rfl
    · exact absurd hcolon (by decide)
  rw [parseIP, hfind]
  rw [if_neg hzone, parseIPv6_string6 hlen hgs]
  rfl

/-- **An address is read back**, in its form with sixteen bytes. An IPv4 address may come with
four or sixteen of them; both are written in the same way and read as the latter. -/
theorem parseIP_ipString {ip : IP} (h : ip.length = 4 ∨ ip.length = 16) :
    parseIP (ipString ip) = some (to16 ip) := by
  rw [ipString_eq h, to16]
  cases h4 : to4 ip with
  | some ip4 =>
    match ip4, length_to4 h4 with
    | [a, b, c, d], _ => exact parseIP_dotted a b c d
  | none =>
    obtain ⟨hcount, hflat, hall⟩ := groupsOf_bytes 8 ip (length_of_to4_eq_none h h4)
    dsimp only
    rw [parseIP_string6 hcount hall, hflat]

theorem mem_hexString {bs : List UInt8} {c : UInt8} (h : c ∈ hexString bs) :
    (hexValue c).isSome = true := by
  obtain ⟨b, -, hb⟩ := List.mem_flatMap.mp h
  have hlt := b.toNat_lt
  simp only [List.mem_cons, List.not_mem_nil, or_false] at hb
  rcases hb with rfl | rfl
  · rw [hexValue_hexDigit (by omega)]
    rfl
  · rw [hexValue_hexDigit (by omega)]
    rfl

theorem mem_ipString {ip : IP} (h : ip.length = 4 ∨ ip.length = 16) {c : UInt8}
    (hc : c ∈ ipString ip) :
    (hexValue c).isSome = true ∨ c = 46 ∨ c = 58 := by
  rw [ipString_eq h] at hc
  cases h4 : to4 ip with
  | some ip4 =>
    -- decimal digits are hex digits
    rw [h4] at hc
    rcases mem_dotted hc with hdigit | hdot
    · exact .inl (by simp [hexValue, hdigit])
    · exact .inr (.inl hdot)
  | none =>
    rw [h4] at hc
    obtain ⟨-, -, hall⟩ := groupsOf_bytes 8 ip (length_of_to4_eq_none h h4)
    exact (mem_string6 hall hc).imp_right .inr

theorem no_brackets (ip : IP) : 91 ∉ ipString ip ∧ 93 ∉ ipString ip := by
  by_cases h : ip.length = 4 ∨ ip.length = 16
  · exact ⟨fun hc => absurd (mem_ipString h hc) (by decide),
      fun hc => absurd (mem_ipString h hc) (by decide)⟩
  · unfold ipString
    split_ifs with hnil hlen
    · decide
    · refine ⟨fun hc => ?_, fun hc => ?_⟩
      · rcases List.mem_cons.mp hc with hc | hc
        · exact absurd hc (by decide)
        · exact absurd (mem_hexString hc) (by decide)
      · rcases List.mem_cons.mp hc with hc | hc
        · exact absurd hc (by decide)
        · exact absurd (mem_hexString hc) (by decide)
    · exact absurd (not_or.mp h) hlen

theorem parseIP_ipString_none {ip : IP} (h4 : ip.length ≠ 4) (h16 : ip.length ≠ 16) :
    parseIP (ipString ip) = none := by
  unfold ipString
  split_ifs with hnil hlen
  · decide
  · have hfind : (63 :: hexString ip).find? (fun c => c = 46 || c = 58 || c = 37) = none := by
      apply List.find?_eq_none.mpr
      intro c hc
      rcases List.mem_cons.mp hc with rfl | hc
      · decide
      · simp [not_separator_of_isSome c (mem_hexString hc)]
    rw [parseIP, hfind]
  · exact absurd ⟨h4, h16⟩ hlen

/-! ## Lengths -/

theorem length_decimal_le (b : UInt8) : (decimal b).length ≤ 3 := by
  unfold decimal
  split_ifs <;> simp

theorem length_dotted_le (ip4 : List UInt8) : (dotted ip4).length ≤ 4 * ip4.length := by
  induction ip4 with
  | nil => rfl
  | cons b bs ih =>
    have hb := length_decimal_le b
    cases bs with
    | nil =>
      rw [dotted, List.length_singleton]
      omega
    | cons b' bs =>
      rw [dotted, List.length_append, List.length_cons, List.length_cons]
      omega

theorem length_hexGroup_le (x : ℕ) : (hexGroup x).length ≤ 4 := by
  unfold hexGroup
  split_ifs <;> simp

theorem length_coloned_le (gs : List ℕ) : (coloned gs).length ≤ 5 * gs.length := by
  induction gs with
  | nil => rfl
  | cons g gs ih =>
    have hg := length_hexGroup_le g
    cases gs with
    | nil =>
      rw [coloned, List.length_singleton]
      omega
    | cons g' gs =>
      rw [coloned, List.length_append, List.length_cons, List.length_cons]
      omega

theorem length_ipString_le {ip : IP} (h : ip.length = 4 ∨ ip.length = 16) :
    (ipString ip).length ≤ 42 := by
  rw [ipString_eq h]
  cases h4 : to4 ip with
  | some ip4 =>
    have hdotted := length_dotted_le ip4
    rw [length_to4 h4] at hdotted
    exact hdotted.trans (by decide)
  | none =>
    obtain ⟨hcount, -⟩ := groupsOf_bytes 8 ip (length_of_to4_eq_none h h4)
    unfold string6
    dsimp only
    -- whatever the run is, there are at most eight groups around it
    generalize longestRun 0 (groupsOf ip) (0, 0) = run
    split_ifs
    · exact (length_coloned_le _).trans (by rw [hcount]; decide)
    · have hfront := length_coloned_le ((groupsOf ip).take run.1)
      have hback := length_coloned_le ((groupsOf ip).drop (run.1 + run.2))
      rw [List.length_take] at hfront
      rw [List.length_drop] at hback
      rw [List.length_append, List.length_cons, List.length_cons]
      omega

/-! ## Four bytes and sixteen -/

theorem to4_v4in6 {ip4 : List UInt8} (h : ip4.length = 4) : to4 (v4in6 ip4) = some ip4 := by
  match ip4, h with
  | [a, b, c, d], _ => rfl

theorem to4_to16 (ip : IP) : to4 (to16 ip) = to4 ip := by
  unfold to16
  cases h : to4 ip with
  | none => exact h
  | some ip4 => exact to4_v4in6 (length_to4 h)

theorem length_to16 {ip : IP} (h : ip.length = 4 ∨ ip.length = 16) : (to16 ip).length = 16 := by
  unfold to16
  cases h4 : to4 ip with
  | none => exact length_of_to4_eq_none h h4
  | some ip4 => simp [v4in6, length_to4 h4]

theorem to16_of_sixteen {ip : IP} (h : ip.length = 16) : to16 ip = ip := by
  unfold to16
  cases h4 : to4 ip with
  | none => rfl
  | some ip4 =>
    unfold to4 at h4
    rw [if_neg (by omega)] at h4
    split_ifs at h4 with hmapped
    obtain rfl := Option.some.inj h4
    show List.replicate 10 0 ++ [255, 255] ++ ip.drop 12 = ip
    rw [← hmapped.2, List.take_append_drop]

theorem ipString_to16 {ip : IP} (h : ip.length = 4 ∨ ip.length = 16) :
    ipString (to16 ip) = ipString ip := by
  rw [ipString_eq (.inr (length_to16 h)), ipString_eq h, to4_to16]
  cases h4 : to4 ip with
  | some ip4 => rfl
  | none => simp only [to16, h4]

end Heimdall.GoNet
