/-
Addresses as Go's package `net` reads them.

`ParseIP` takes an address in any of its spellings and returns sixteen bytes, so that two spellings
of one address are equal afterwards: an IPv4 address and its IPv4-mapped IPv6 form are the same
sixteen bytes. The reading of IPv6 follows `netip.ParseAddr`, a group of hex digits at a time, with
at most one `::` and possibly an IPv4 address at the end.

A host and its port are taken apart by `SplitHostPort` and put together by `JoinHostPort`
(`splitHostPort_joinHostPort`).
-/
import Mathlib.Tactic
import Heimdall.Utf8

set_option autoImplicit false

namespace Heimdall.GoNet

open Heimdall.Utf8 (hexValue isDigit)

/-- `net.IP`, a slice of four or sixteen bytes. -/
abbrev IP := List UInt8

/-! ## `net.ParseIP` -/

def ipv4Loop : List UInt8 → ℕ → ℕ → List UInt8 → Option (List UInt8)
  | [], val, _, fields => if fields.length < 3 then none else some (fields ++ [UInt8.ofNat val])
  | c :: s, val, digLen, fields =>
    if isDigit c then
      -- no octet is written with a leading zero
      if digLen = 1 ∧ val = 0 then none
      else if 255 < val * 10 + (c.toNat - 48) then none
      else ipv4Loop s (val * 10 + (c.toNat - 48)) (digLen + 1) fields
    else if c = 46 then
      if digLen = 0 ∨ s = [] then none
      else if fields.length = 3 then none
      else ipv4Loop s 0 0 (fields ++ [UInt8.ofNat val])
    else none

def parseIPv4Fields (s : List UInt8) : Option (List UInt8) := ipv4Loop s 0 0 []

/-- What the loop of `parseIPv6` ends with: the bytes it has read and where the `::` was. -/
structure Groups where
  bytes : List UInt8
  ellipsis : Option ℕ

/-- The loop of `parseIPv6` over groups of hex digits, of which there is room for `room` more. -/
def ipv6Loop : ℕ → List UInt8 → List UInt8 → Option ℕ → Option Groups
  | 0, s, bytes, ellipsis => if s = [] then some ⟨bytes, ellipsis⟩ else none
  | room + 1, s, bytes, ellipsis =>
    let digits := s.takeWhile fun c => (hexValue c).isSome
    let rest := s.dropWhile fun c => (hexValue c).isSome
    let acc := (digits.filterMap hexValue).foldl (fun n d => n * 16 + d) 0
    if digits.length = 0 ∨ 4 < digits.length then none
    else if rest.head? = some 46 then
      -- an IPv4 address at the end takes the place of two groups
      if ellipsis = none ∧ bytes.length ≠ 12 then none
      else if 16 < bytes.length + 4 then none
      else (parseIPv4Fields s).map fun fields => ⟨bytes ++ fields, ellipsis⟩
    else
      let bytes := bytes ++ [UInt8.ofNat (acc / 256), UInt8.ofNat (acc % 256)]
      match rest with
      | [] => some ⟨bytes, ellipsis⟩
      | 58 :: 58 :: s =>
        if ellipsis.isSome then none
        else if s = [] then some ⟨bytes, some bytes.length⟩
        else ipv6Loop room s bytes (some bytes.length)
      | 58 :: c :: s => ipv6Loop room (c :: s) bytes ellipsis
      | _ => none

/-- The end of `parseIPv6`: the `::` stands for as many zeros as are missing. -/
def Groups.expand (g : Groups) : Option IP :=
  match g.ellipsis with
  | none => if g.bytes.length < 16 then none else some g.bytes
  | some e =>
    if g.bytes.length < 16 then
      some (g.bytes.take e ++ List.replicate (16 - g.bytes.length) 0 ++ g.bytes.drop e)
    else none

/-- `parseIPv6`, for an address without a zone. -/
def parseIPv6 (s : List UInt8) : Option IP :=
  match s with
  | [58, 58] => some (List.replicate 16 0)
  | 58 :: 58 :: s => (ipv6Loop 8 s [] (some 0)).bind Groups.expand
  | s => (ipv6Loop 8 s [] none).bind Groups.expand

def v4in6 (ip4 : List UInt8) : IP := List.replicate 10 0 ++ [255, 255] ++ ip4

/-- `net.ParseIP`: the first of `.`, `:` and `%` tells what is to be read. An address with a zone
is none. -/
def parseIP (s : List UInt8) : Option IP :=
  match s.find? fun c => c = 46 || c = 58 || c = 37 with
  | some 46 => (parseIPv4Fields s).map v4in6
  | some 58 => if 37 ∈ s then none else parseIPv6 s
  | _ => none

/-! ## Classes of addresses -/

def to4 (ip : IP) : Option (List UInt8) :=
  if ip.length = 4 then some ip
  else if ip.length = 16 ∧ ip.take 12 = List.replicate 10 0 ++ [255, 255] then some (ip.drop 12)
  else none

def isUnspecified (ip : IP) : Bool :=
  to4 ip = some [0, 0, 0, 0] || ip = List.replicate 16 0

def isLoopback (ip : IP) : Bool :=
  match to4 ip with
  | some ip4 => ip4.head? = some 127
  | none => ip = List.replicate 15 0 ++ [1]

def isPrivate (ip : IP) : Bool :=
  match to4 ip with
  | some (a :: b :: _) => a = 10 || (a = 172 && b &&& 0xF0 = 16) || (a = 192 && b = 168)
  | some _ => false
  | none => ip.length = 16 && (ip.headD 0) &&& 0xFE = 0xFC

def isMulticast (ip : IP) : Bool :=
  match to4 ip with
  | some ip4 => (ip4.headD 0) &&& 0xF0 = 0xE0
  | none => ip.length = 16 && ip.headD 0 = 0xFF

def isInterfaceLocalMulticast (ip : IP) : Bool :=
  match ip with
  | a :: b :: _ => ip.length = 16 && a = 0xFF && b &&& 0x0F = 1
  | _ => false

def isLinkLocalMulticast (ip : IP) : Bool :=
  match to4 ip with
  | some ip4 => ip4.take 3 = [224, 0, 0]
  | none =>
    match ip with
    | a :: b :: _ => ip.length = 16 && a = 0xFF && b &&& 0x0F = 2
    | _ => false

def isLinkLocalUnicast (ip : IP) : Bool :=
  match to4 ip with
  | some ip4 => ip4.take 2 = [169, 254]
  | none =>
    match ip with
    | a :: b :: _ => ip.length = 16 && a = 0xFE && b &&& 0xC0 = 0x80
    | _ => false

def isBroadcast (ip : IP) : Bool := to4 ip = some [255, 255, 255, 255]

/-! ## Hosts and ports -/

def lastIndexByte (s : List UInt8) (b : UInt8) : Option ℕ :=
  (s.reverse.idxOf? b).map fun i => s.length - 1 - i

/-- `net.SplitHostPort`; its callers look at no more of the error than that it is one. -/
def splitHostPort (hostport : List UInt8) : Option (List UInt8 × List UInt8) :=
  match lastIndexByte hostport 58 with
  | none => none
  | some i =>
    let port := hostport.drop (i + 1)
    if hostport.head? = some 91 then
      -- `[host]:port`: the first `]` comes right before the last colon
      match hostport.idxOf? 93 with
      | none => none
      | some e =>
        let host := (hostport.take e).drop 1
        if e + 1 ≠ i then none
        else if 91 ∈ hostport.drop 1 then none
        else if 93 ∈ hostport.drop (e + 1) then none
        else some (host, port)
    else
      let host := hostport.take i
      if 58 ∈ host then none
      else if 91 ∈ hostport then none
      else if 93 ∈ hostport then none
      else some (host, port)

def splitHost (hostport : List UInt8) : Option (List UInt8) := (splitHostPort hostport).map Prod.fst

section Join

variable {s t host port : List UInt8} {b : UInt8}

def joinHostPort (host port : List UInt8) : List UInt8 :=
  if 58 ∈ host then 91 :: host ++ 93 :: 58 :: port else host ++ 58 :: port

theorem idxOf_first (h : b ∉ s) : (s ++ b :: t).idxOf? b = some s.length := by
  rw [List.idxOf?_eq_some_iff]
  refine ⟨by simp, by simp, fun j hj heq => ?_⟩
  rw [List.getElem_append_left hj] at heq
  exact h (heq ▸ List.getElem_mem hj)

/-- `SplitHostPort` looks for the last colon, which is the one before a port without colons. -/
theorem lastIndexByte_append (h : b ∉ t) : lastIndexByte (s ++ b :: t) b = some s.length := by
  have hfirst := idxOf_first (s := t.reverse) (t := s.reverse) (b := b) (by simpa using h)
  rw [lastIndexByte, List.reverse_append, List.reverse_cons, List.append_assoc,
    List.singleton_append, hfirst, Option.map_some]
  simp only [List.length_append, List.length_cons, List.length_reverse]
  congr 1
  omega

/-- A host and a port without brackets, and a port without colons, are taken apart again. A host
with colons is put into brackets by `JoinHostPort`, so the last colon is the one before the port
in either case. -/
theorem splitHostPort_joinHostPort (hhost : 91 ∉ host ∧ 93 ∉ host) (hcolon : 58 ∉ port)
    (hport : 91 ∉ port ∧ 93 ∉ port) :
      splitHostPort (joinHostPort host port) = some (host, port) := by
  unfold joinHostPort
  split_ifs with hmany
  · -- `[host]:port`
    have hlast : lastIndexByte (91 :: host ++ 93 :: 58 :: port) 58 = some (host.length + 2) := by
      have happ := lastIndexByte_append (s := 91 :: host ++ [93]) hcolon
      simpa using happ
    have hclose : (91 :: host ++ 93 :: 58 :: port).idxOf? 93 = some (host.length + 1) := by
      have happ := idxOf_first (s := 91 :: host) (t := 58 :: port) (b := 93) (by simp [hhost.2])
      simpa using happ
    unfold splitHostPort
    rw [hlast]
    dsimp only
    rw [if_pos (by rfl), hclose]
    simp [hhost.1, hport]
  · have hlast : lastIndexByte (host ++ 58 :: port) 58 = some host.length :=
      lastIndexByte_append hcolon
    have hhead : (host ++ 58 :: port).head? ≠ some 91 := by
      intro h
      have hmem := List.mem_of_mem_head? h
      simp [hhost.1, hport.1] at hmem
    unfold splitHostPort
    rw [hlast]
    dsimp only
    rw [if_neg hhead]
    simp [hmany, hhost, hport]

end Join


/-- The number that the text of a port denotes: decimal digits, with a value from 1 to 65535. -/
def portNumber (s : List UInt8) : Option ℕ :=
  if s ≠ [] ∧ s.all isDigit then
    let n := s.foldl (fun n c => n * 10 + (c.toNat - 48)) 0
    if 1 ≤ n ∧ n ≤ 65535 then some n else none
  else none

end Heimdall.GoNet
