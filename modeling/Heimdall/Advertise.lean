/-
The addresses a machine advertises, `LocalCandidates` of `internal/rendezvous/candidates.go` and
`localCandidates` of `internal/connect/connect.go`.

The texts of the machine's own interfaces are passed through the filter for a peer's list. That
filter compares texts and takes a port as it stands, so of a hostile list it may keep one endpoint
twice and texts that denote none (`endpoints_real_iff`). Here the texts come from `IP.String` and
`itoa`, and both are read back: the list is one of different endpoints, all of them this machine's
(`advertised_real`).
-/
import Heimdall.GoStrings
import Heimdall.IpText
import Heimdall.JsonCompact
import Heimdall.Targets

set_option autoImplicit false

namespace Heimdall.Rendezvous

open Heimdall.GoNet (IP ipString joinHostPort parseIP splitHostPort_joinHostPort to4 to16)
open Heimdall.Peers (GoString)

/-! ## `LocalCandidates` -/

def kindHost : GoString := [104, 111, 115, 116]

/-- The loop of `itoa`, with room for `i` more digits in the buffer. -/
def itoaLoop : ℕ → ℕ → GoString → GoString
  | 0, _, buf => buf
  | i + 1, v, buf => if 0 < v then itoaLoop i (v / 10) (UInt8.ofNat (48 + v % 10) :: buf) else buf

def itoa (v : ℕ) : GoString := if v = 0 then [48] else itoaLoop 20 v []

def hostCandidate (port : ℕ) (ip : IP) : Candidate where
  addr := joinHostPort (ipString ip) (itoa port)
  kind := kindHost

def offered (addrs : List (Option IP)) : List IP := addrs.filterMap fun a => a.filter goNet.usableIP

/-- `LocalCandidates`. `addrs` is the answer of `net.InterfaceAddrs`: an error, or addresses of
which some are no `*net.IPNet`. A nil slice is `none`. -/
def localCandidates (addrs : Option (List (Option IP))) (port : ℤ) : Option (List Candidate) :=
  if port ≤ 0 then none
  else
    addrs.map fun l => goNet.validateCandidates ((offered l).map (hostCandidate port.toNat))

/-! ## The text of a port -/

/-- The loop writes the decimal digits in front of what is in the buffer. By induction on the room
in it: each round takes the last digit off the number. -/
theorem itoaLoop_eq {i v : ℕ} (buf : GoString) (h : v < 10 ^ i) :
    itoaLoop i v buf = ((Nat.digits 10 v).reverse.map fun d => UInt8.ofNat (48 + d)) ++ buf := by
  induction i generalizing v buf with
  | zero =>
    obtain rfl : v = 0 := by simpa using h
    rfl
  | succ i ih =>
    rw [itoaLoop]
    split_ifs with hv
    · have hdigits : Nat.digits 10 v = v % 10 :: Nat.digits 10 (v / 10) :=
        Nat.digits_def' (by decide) hv
      rw [ih _ (by rw [pow_succ] at h; omega), hdigits, List.reverse_cons, List.map_append,
        List.append_assoc]
      rfl
    · obtain rfl : v = 0 := by omega
      rfl

theorem itoa_eq {v : ℕ} (h : v < 10 ^ 20) : itoa v = Json.natText v := by
  unfold itoa Json.natText
  split_ifs
  · rfl
  · rw [itoaLoop_eq [] h, List.append_nil]

variable {port : ℕ} {ip : IP}

theorem itoa_digits (h : port < 10 ^ 20) : ∀ c ∈ itoa port, Utf8.isDigit c = true := by
  rw [itoa_eq h]
  exact Json.natText_digits port

theorem portNumber_itoa (h1 : 1 ≤ port) (h2 : port ≤ 65535) :
    GoNet.portNumber (itoa port) = some port := by
  have hlt : port < 10 ^ 20 := by omega
  have hdigits := itoa_digits hlt
  have hread := Json.readNat_natText port
  obtain ⟨c, s, hcs, -⟩ := Json.natText_cons port
  rw [← itoa_eq hlt] at hread hcs
  have hall : itoa port ≠ [] ∧ (itoa port).all Utf8.isDigit = true := by
    refine ⟨by simp [hcs], List.all_eq_true.mpr fun c hc => ?_⟩
    simpa [Utf8.isDigit, Utf8.isDigit] using hdigits c hc
  unfold GoNet.portNumber
  rw [if_pos hall]
  dsimp only
  unfold Json.readNat at hread
  rw [hread, if_pos ⟨h1, h2⟩]

/-! ## The endpoint of a candidate -/

theorem splitHostPort_hostCandidate (h : port < 10 ^ 20) (ip : IP) :
    GoNet.splitHostPort (hostCandidate port ip).addr = some (ipString ip, itoa port) := by
  have hdigits := itoa_digits h
  have hnot : ∀ c : UInt8, Utf8.isDigit c = false → c ∉ itoa port :=
    fun c hc hmem => absurd (hdigits c hmem) (by simp [hc])
  exact splitHostPort_joinHostPort (GoNet.no_brackets ip) (hnot 58 (by decide))
    ⟨hnot 91 (by decide), hnot 93 (by decide)⟩

/-- A candidate is text, and what it stands for is what a dialler makes of the text. Writing an
address and reading it again leads back to it, in its form of sixteen bytes. -/
theorem endpointOf_hostCandidate (hlen : ip.length = 4 ∨ ip.length = 16) (h1 : 1 ≤ port)
    (h2 : port ≤ 65535) : endpointOf (hostCandidate port ip).addr = some (to16 ip, port) := by
  rw [endpointOf, splitHostPort_hostCandidate (by omega)]
  simp [GoNet.parseIP_ipString hlen, portNumber_itoa h1 h2]

theorem addr_eq_of_endpoint {ip' : IP} (hlen : ip.length = 4 ∨ ip.length = 16)
    (hlen' : ip'.length = 4 ∨ ip'.length = 16) (h : to16 ip = to16 ip') :
    (hostCandidate port ip).addr = (hostCandidate port ip').addr := by
  unfold hostCandidate
  dsimp only
  rw [← GoNet.ipString_to16 hlen, ← GoNet.ipString_to16 hlen', h]

theorem quote_hostCandidate (hlen : ip.length = 4 ∨ ip.length = 16) (h : port < 10 ^ 20) :
    Json.quote (hostCandidate port ip).addr = (hostCandidate port ip).addr := by
  have hplain : ∀ b : UInt8, (Utf8.hexValue b).isSome = true ∨ b = 46 ∨ b = 58 ∨ b = 91 ∨ b = 93 →
      b.toNat < 0x80 ∧ Json.escapeByte b = [b] := GoStrings.forall_byte (by decide +kernel)
  apply Json.quote_of_forall
  intro b hb
  apply hplain
  have hip : b ∈ ipString ip → (Utf8.hexValue b).isSome = true ∨ b = 46 ∨ b = 58 ∨ b = 91 ∨
      b = 93 := by
    intro hb
    rcases GoNet.mem_ipString hlen hb with hhex | hdot | hcolon
    · exact .inl hhex
    · exact .inr (.inl hdot)
    · exact .inr (.inr (.inl hcolon))
  have hport : b ∈ itoa port → (Utf8.hexValue b).isSome = true := by
    intro hb
    simp [Utf8.hexValue, itoa_digits h b hb]
  unfold hostCandidate joinHostPort at hb
  dsimp only at hb
  -- an IPv6 address is in brackets
  split_ifs at hb
  · simp only [List.cons_append, List.mem_cons, List.mem_append] at hb
    rcases hb with rfl | hb | rfl | rfl | hb
    · exact .inr (.inr (.inr (.inl rfl)))
    · exact hip hb
    · exact .inr (.inr (.inr (.inr rfl)))
    · exact .inr (.inr (.inl rfl))
    · exact .inl (hport hb)
  · simp only [List.mem_append, List.mem_cons] at hb
    rcases hb with hb | rfl | hb
    · exact hip hb
    · exact .inr (.inr (.inl rfl))
    · exact .inl (hport hb)

theorem length_hostCandidate_le (hlen : ip.length = 4 ∨ ip.length = 16) (h : port < 10 ^ 20) :
    (hostCandidate port ip).addr.length ≤ 65 := by
  have hip := GoNet.length_ipString_le hlen
  have hport : (itoa port).length ≤ 20 := by
    rw [itoa_eq h]
    exact Json.length_natText (by decide) h
  unfold hostCandidate joinHostPort
  dsimp only
  split_ifs
  · simp only [List.length_append, List.length_cons]
    omega
  · simp only [List.length_append, List.length_cons]
    omega

/-! ## The classes of an address -/

/-- `ValidateCandidates` classifies what `ParseIP` has made of the text, which has sixteen bytes,
and `LocalCandidates` the address it was given, which may have four. -/
theorem usableIP_to16 (h : ip.length = 4 ∨ ip.length = 16) :
    goNet.usableIP (to16 ip) = goNet.usableIP ip := by
  rcases h with h | h
  · match ip, h with
    | [a, b, c, d], _ =>
      have h4 : to4 [a, b, c, d] = some [a, b, c, d] := rfl
      have h16 : to4 (to16 [a, b, c, d]) = some [a, b, c, d] := rfl
      have hlist : to16 [a, b, c, d] = [0, 0, 0, 0, 0, 0, 0, 0, 0, 0, 255, 255, a, b, c, d] := rfl
      -- the two predicates that look at the sixteen bytes are false of an IPv4 address
      have hunspec :
          GoNet.isUnspecified (to16 [a, b, c, d]) = GoNet.isUnspecified [a, b, c, d] := by
        unfold GoNet.isUnspecified
        rw [h16, h4, hlist]
        simp [List.replicate]
      have hlocal : GoNet.isInterfaceLocalMulticast (to16 [a, b, c, d]) =
          GoNet.isInterfaceLocalMulticast [a, b, c, d] := by
        rw [hlist]
        simp [GoNet.isInterfaceLocalMulticast]
      simp only [Net.usableIP, goNet, hunspec, hlocal]
      simp only [GoNet.isLoopback, GoNet.isLinkLocalUnicast, GoNet.isLinkLocalMulticast,
        GoNet.isMulticast, GoNet.isBroadcast, h16, h4]
  · rw [GoNet.to16_of_sixteen h]

theorem isPrivate_to16 (h : ip.length = 4 ∨ ip.length = 16) :
    GoNet.isPrivate (to16 ip) = GoNet.isPrivate ip := by
  rcases h with h | h
  · match ip, h with
    | [a, b, c, d], _ => rfl
  · rw [GoNet.to16_of_sixteen h]

theorem hostIP_hostCandidate (h : port < 10 ^ 20) (ip : IP) :
    goNet.hostIP (hostCandidate port ip).addr =
      if ip.length = 4 ∨ ip.length = 16 then some (to16 ip) else none := by
  have hsplit : goNet.splitHostPort (hostCandidate port ip).addr = some (ipString ip, itoa port) :=
    splitHostPort_hostCandidate h ip
  rw [Net.hostIP, hsplit, Option.bind_some]
  split_ifs with hlen
  · exact GoNet.parseIP_ipString hlen
  · obtain ⟨h4, h16⟩ := not_or.mp hlen
    exact GoNet.parseIP_ipString_none h4 h16

theorem passes_hostCandidate (hlen : ip.length = 4 ∨ ip.length = 16)
    (husable : goNet.usableIP ip = true)
    (h1 : 1 ≤ port) (h2 : port < 10 ^ 20) : goNet.passes (hostCandidate port ip).addr = true := by
  have hsplit : goNet.splitHostPort (hostCandidate port ip).addr = some (ipString ip, itoa port) :=
    splitHostPort_hostCandidate h2 ip
  have hset : itoa port ≠ [] ∧ itoa port ≠ [48] := by
    rw [itoa_eq h2]
    rcases Json.natText_head port with ⟨hzero, -⟩ | ⟨c, s, hcs, hne, -⟩
    · omega
    · rw [hcs]
      exact ⟨List.cons_ne_nil _ _, fun h => hne (List.cons.inj h).1⟩
  have hip := hostIP_hostCandidate h2 ip
  rw [if_pos hlen] at hip
  simp only [Net.passes, Net.usable, Net.portSet, hip, hsplit, Option.any_some, usableIP_to16 hlen,
    husable, hset, ne_eq, not_false_eq_true, decide_true, Bool.and_self]

/-! ## What is advertised -/

theorem mem_offered {addrs : List (Option IP)} :
    ip ∈ offered addrs ↔ some ip ∈ addrs ∧ goNet.usableIP ip = true := by
  unfold offered
  rw [List.mem_filterMap]
  constructor
  · rintro ⟨a, ha, hfilter⟩
    obtain ⟨rfl, husable⟩ := Option.filter_eq_some_iff.mp hfilter
    exact ⟨ha, husable⟩
  · rintro ⟨ha, husable⟩
    exact ⟨some ip, ha, Option.filter_eq_some_iff.mpr ⟨rfl, husable⟩⟩

theorem origin_of_kept {ips : List IP} (h : port < 10 ^ 20) {c : Candidate}
    (hc : c ∈ goNet.validateCandidates (ips.map (hostCandidate port))) :
    ∃ ip ∈ ips, (ip.length = 4 ∨ ip.length = 16) ∧ c = hostCandidate port ip := by
  have hpass := (goNet.kept _).passes c hc
  rw [Net.validateCandidates_eq] at hc
  obtain ⟨ip, hip, rfl⟩ := List.mem_map.mp ((Selection.select_sublist _).subset hc)
  refine ⟨ip, hip, ?_, rfl⟩
  by_contra hlen
  have hnone := hostIP_hostCandidate h ip
  rw [if_neg hlen] at hnone
  simp [Net.passes, Net.usable, hnone] at hpass

/-- An address that is offered and is not advertised: the list is full, or there are two private
addresses in it already. The filter looks at the candidates in order, so what it had kept before
this one is an initial part of the result. -/
theorem advertised_or_full {ips : List IP} (h1 : 1 ≤ port) (h2 : port ≤ 65535) (hip : ip ∈ ips)
    (hlen : ip.length = 4 ∨ ip.length = 16) (husable : goNet.usableIP ip = true) :
    (hostCandidate port ip).addr ∈
        (goNet.validateCandidates (ips.map (hostCandidate port))).map Candidate.addr ∨
      (goNet.validateCandidates (ips.map (hostCandidate port))).length = maxCandidates ∨
      (GoNet.isPrivate ip = true ∧
        goNet.privates (goNet.validateCandidates (ips.map (hostCandidate port)))
          = maxPrivateCandidates) := by
  obtain ⟨before, after, hsplit⟩ :=
    List.append_of_mem (List.mem_map_of_mem (f := hostCandidate port) hip)
  set l := goNet.validateCandidates (ips.map (hostCandidate port)) with hl
  have hkept : goNet.Kept l := goNet.kept _
  have hinit : goNet.validateCandidates before <+: l := by
    rw [hl, hsplit, Net.validateCandidates_eq, Net.validateCandidates_eq]
    exact Selection.select_initial _ _
  by_cases hmem : hostCandidate port ip ∈ l
  · exact .inl (List.mem_map_of_mem hmem)
  have hrefused :
      goNet.keeps (goNet.validateCandidates before) (hostCandidate port ip) = false := by
    rw [hl, hsplit, Net.validateCandidates_eq] at hmem
    rw [Net.validateCandidates_eq]
    exact Selection.refused_of_notMem hmem
  have hpass := passes_hostCandidate hlen husable h1 (by omega : port < 10 ^ 20)
  -- the same text is there already, it is private and two are, or the list is full
  rcases Net.dropped hpass hrefused (goNet.kept before) with hrepeat | ⟨hpriv, htwo⟩ | hfull
  · exact .inl ((hinit.map Candidate.addr).subset hrepeat)
  · refine .inr (.inr ⟨?_, le_antisymm hkept.privates_le ?_⟩)
    · have hhost := hostIP_hostCandidate (by omega : port < 10 ^ 20) ip
      rw [if_pos hlen] at hhost
      rw [Net.privateAddr, hhost, Option.any_some] at hpriv
      rw [← isPrivate_to16 hlen]
      exact hpriv
    · rw [← htwo]
      exact hinit.sublist.countP_le
  · refine .inr (.inl (le_antisymm hkept.length_le ?_))
    rw [← hfull]
    exact hinit.length_le

/-- **A machine advertises its own endpoints, each once.** Every candidate denotes an address of an
interface that is usable, with the port; an address that is usable is among them, unless there are
eight candidates, or it is private and there are two private ones. -/
theorem advertised_real {addrs : List (Option IP)} {port : ℤ} (hport : 1 ≤ port ∧ port ≤ 65535) :
    ∃ l, localCandidates (some addrs) port = some l ∧ RealEndpoints l ∧ l.length ≤ 8 ∧
      (∀ c ∈ l, c.kind = kindHost ∧ ∃ ip, some ip ∈ addrs ∧ goNet.usableIP ip = true ∧
        endpointOf c.addr = some (to16 ip, port.toNat)) ∧
      ∀ ip, some ip ∈ addrs → goNet.usableIP ip = true → (ip.length = 4 ∨ ip.length = 16) →
        (∃ c ∈ l, endpointOf c.addr = some (to16 ip, port.toNat)) ∨ l.length = 8 ∨
          (GoNet.isPrivate ip = true ∧ goNet.privates l = 2) := by
  have h1 : 1 ≤ port.toNat := by omega
  have h2 : port.toNat ≤ 65535 := by omega
  have hlt : port.toNat < 10 ^ 20 := by omega
  have hkept := goNet.kept ((offered addrs).map (hostCandidate port.toNat))
  refine ⟨_, if_neg (by omega), ⟨?_, ?_⟩, hkept.length_le, ?_, ?_⟩
  · intro c hc
    obtain ⟨ip, -, hlen, rfl⟩ := origin_of_kept hlt hc
    rw [endpointOf_hostCandidate hlen h1 h2]
    rfl
  · -- two texts that differ are of two addresses
    apply List.Pairwise.imp_of_mem _ (List.pairwise_map.mp hkept.nodup)
    intro c d hc hd hne heq
    obtain ⟨ip, -, hlen, rfl⟩ := origin_of_kept hlt hc
    obtain ⟨ip', -, hlen', rfl⟩ := origin_of_kept hlt hd
    rw [endpointOf_hostCandidate hlen h1 h2, endpointOf_hostCandidate hlen' h1 h2] at heq
    exact hne (addr_eq_of_endpoint hlen hlen' (Prod.mk.inj (Option.some.inj heq)).1)
  · intro c hc
    obtain ⟨ip, hip, hlen, rfl⟩ := origin_of_kept hlt hc
    obtain ⟨hmem, husable⟩ := mem_offered.mp hip
    exact ⟨rfl, ip, hmem, husable, endpointOf_hostCandidate hlen h1 h2⟩
  · intro ip hmem husable hlen
    rcases advertised_or_full h1 h2 (mem_offered.mpr ⟨hmem, husable⟩) hlen husable with hin | hcap
    · obtain ⟨c, hc, haddr⟩ := List.mem_map.mp hin
      refine .inl ⟨c, hc, ?_⟩
      rw [haddr, endpointOf_hostCandidate hlen h1 h2]
    · exact .inr hcap

theorem localCandidates_plain {addrs : Option (List (Option IP))} {port : ℤ} {l : List Candidate}
    (hport : port < 10 ^ 20) (h : localCandidates addrs port = some l) :
    l.length ≤ maxCandidates ∧ goNet.validateCandidates l = l ∧
      ∀ c ∈ l, Json.quote c.addr = c.addr ∧ c.addr.length ≤ 65 ∧ c.kind = kindHost := by
  unfold localCandidates at h
  split_ifs at h with hpos
  obtain ⟨as, -, rfl⟩ := Option.map_eq_some_iff.mp h
  have hlt : port.toNat < 10 ^ 20 := by omega
  refine ⟨(goNet.kept _).length_le, ?_, fun c hc => ?_⟩
  · rw [Net.validateCandidates_eq, Net.validateCandidates_eq]
    exact Selection.select_idem _
  · obtain ⟨ip, -, hlen, rfl⟩ := origin_of_kept hlt hc
    exact ⟨quote_hostCandidate hlen hlt, length_hostCandidate_le hlen hlt, rfl⟩

/-- Loopback, an IPv4 address twice, a link-local address, an IPv6 address and one that is no
`*net.IPNet`. -/
def laptop : List (Option IP) :=
  [some [127, 0, 0, 1], some [192, 168, 1, 5], some (GoNet.v4in6 [192, 168, 1, 5]),
    some ([0xFE, 0x80] ++ List.replicate 13 0 ++ [1]),
    some ([0x20, 1, 0xD, 0xB8] ++ List.replicate 11 0 ++ [5]), none]

/-- The theorem at those addresses: two of the six are advertised. -/
theorem advertised_real_laptop : (1 ≤ (7331 : ℤ) ∧ (7331 : ℤ) ≤ 65535) ∧
    ∃ l, localCandidates (some laptop) 7331 = some l ∧ RealEndpoints l ∧ l.length = 2 := by
  obtain ⟨l, hl, hreal, -⟩ := @advertised_real laptop 7331 (by decide)
  have htwo : (localCandidates (some laptop) 7331).map List.length = some 2 := by decide +kernel
  rw [hl] at htwo
  exact ⟨by decide, l, hl, hreal, Option.some.inj htwo⟩

end Heimdall.Rendezvous
