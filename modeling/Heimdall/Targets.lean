/-
What a rendezvous makes this node dial, `toPairing` of `internal/rendezvous/client.go` and the start
of `Race` of `internal/connect/connect.go`.

Addresses come on two ways. The candidates are sealed by the peer, and `toPairing` filters them. The
address that the relay says it has observed of the peer is a text in the clear, and it is passed on
as it is: to `Punch`, and to the list of addresses from which a connection is expected. So what is
dialled or expected is safe exactly if that one text is, or is not used (`targets_safe_iff`).

`crypto.Open` and `json.Unmarshal` are parameters, and nothing is assumed of them.
-/
import Heimdall.Candidates
import Heimdall.Dialer
import Heimdall.Punch
import Heimdall.Race

set_option autoImplicit false

namespace Heimdall.Rendezvous

open Heimdall.Peers (GoString)

/-! ## `toPairing` -/

/-- The fields of a `Message` that `toPairing` reads. -/
structure PairedMessage where
  role : GoString
  peerCandidates : GoString
  peerObserved : GoString
  punchInMS : ℤ
  ticket : GoString

/-- `Pairing`; durations are in nanoseconds. -/
structure Pairing where
  role : GoString
  peerCandidates : List Candidate
  peerObserved : GoString
  observed : GoString
  punchIn : ℤ
  ticket : List UInt8
  rung : Rung

/-- The errors of `toPairing`: a field that is not base64 or too long, a candidate list that is too
large, did not authenticate or does not parse, and a malformed circuit ticket. -/
inductive PairingErr where
  | badBase64
  | fieldTooLong (length max : ℕ)
  | sealedTooLarge (length : ℕ)
  | notAuthenticated
  | badCandidateList
  | malformedTicket
  deriving DecidableEq

def maxSealedCandidates : ℕ := 4 * 2 ^ 10

def ticketSize : ℕ := 32

/-- `candidateAAD`, the text `heimdall v1 candidates` -/
def candidateAAD : List UInt8 :=
  [104, 101, 105, 109, 100, 97, 108, 108, 32, 118, 49, 32, 99, 97, 110, 100, 105, 100, 97, 116,
   101, 115]

def unb64 (s : GoString) (max : ℕ) : Except PairingErr (List UInt8) :=
  match decodeString s with
  | none => .error .badBase64
  | some b => if max < b.length then .error (.fieldTooLong b.length max) else .ok b

section ToPairing

/-- What `toPairing` calls: `crypto.Open`, and `json.Unmarshal` into a `CandidateSet`. Keys and
blobs are strings over `β`, which are bytes, or the octets of `Crypto`. -/
structure Opening (β : Type) where
  openSealed : List β → List UInt8 → List β → Option (List β)
  unmarshal : List β → Option (List Candidate)

def openCandidates {β : Type} (env : Opening β) (pairingKey blob : List β) :
    Except PairingErr (List Candidate) :=
  if maxSealedCandidates < blob.length then .error (.sealedTooLarge blob.length)
  else
    match env.openSealed pairingKey candidateAAD blob with
    | none => .error .notAuthenticated
    | some plain =>
      match env.unmarshal plain with
      | none => .error .badCandidateList
      | some candidates => .ok (goNet.validateCandidates candidates)

/-- The delay before punching. The product is one of 64-bit integers. -/
def punchDelay (punchInMS : ℤ) : ℤ :=
  let punchIn := (punchInMS * 1000000).bmod (2 ^ 64)
  if punchIn < 0 ∨ 30 * 1000000000 < punchIn then 0 else punchIn

/-- `toPairing`, of a client whose own address and rung are given. -/
def toPairing (env : Opening UInt8) (observed : GoString) (rung : Rung) (msg : PairedMessage)
    (pairingKey : List UInt8) :
    Except PairingErr Pairing :=
  match unb64 msg.peerCandidates maxSealedCandidates with
  | .error e => .error e
  | .ok blob =>
    match openCandidates env pairingKey blob with
    | .error e => .error e
    | .ok candidates =>
      match unb64 msg.ticket ticketSize with
      | .error e => .error e
      | .ok ticket =>
        if ticket.length ≠ ticketSize then .error .malformedTicket
        else .ok {
          role := msg.role
          peerCandidates := candidates
          peerObserved := msg.peerObserved
          observed := observed
          punchIn := punchDelay msg.punchInMS
          ticket := ticket
          rung := rung }

/-- **What `OpenCandidates` returns** is the filtered list of a blob that opens and parses. An
oversized blob is not opened at all. -/
theorem openCandidates_ok {β : Type} {env : Opening β} {pairingKey blob : List β}
    {candidates : List Candidate} (h : openCandidates env pairingKey blob = .ok candidates) :
    ∃ plain l, env.openSealed pairingKey candidateAAD blob = some plain ∧
      env.unmarshal plain = some l ∧ candidates = goNet.validateCandidates l := by
  unfold openCandidates at h
  split_ifs at h
  rcases hopen : env.openSealed pairingKey candidateAAD blob with _ | plain
  · rw [hopen] at h
    cases h
  · rcases hjson : env.unmarshal plain with _ | l
    · rw [hopen] at h
      simp only [hjson] at h
      cases h
    · rw [hopen] at h
      simp only [hjson] at h
      exact ⟨plain, l, rfl, hjson, (Except.ok.inj h).symm⟩

/-- The candidates of a pairing have been filtered; the observed address is the relay's text. It
is not looked at, and so it is not filtered. -/
theorem toPairing_ok {env : Opening UInt8} {observed : GoString} {rung : Rung}
    {msg : PairedMessage} {pairingKey : List UInt8} {p : Pairing}
    (h : toPairing env observed rung msg pairingKey = .ok p) :
    (∃ l, p.peerCandidates = goNet.validateCandidates l) ∧ p.peerObserved = msg.peerObserved := by
  unfold toPairing at h
  -- the three errors one after the other, then the length of the ticket
  rcases hblob : unb64 msg.peerCandidates maxSealedCandidates with e | blob
  · rw [hblob] at h
    cases h
  rcases hopen : openCandidates env pairingKey blob with e | candidates
  · rw [hblob] at h
    simp only [hopen] at h
    cases h
  rcases hticket : unb64 msg.ticket ticketSize with e | ticket
  · rw [hblob] at h
    simp only [hopen, hticket] at h
    cases h
  rw [hblob] at h
  simp only [hopen, hticket] at h
  split_ifs at h
  cases h
  obtain ⟨-, l, -, -, hl⟩ := openCandidates_ok hopen
  exact ⟨⟨l, hl⟩, rfl⟩

end ToPairing

end Heimdall.Rendezvous

namespace Heimdall.Connect

open Heimdall.GoNet (splitHost splitHostPort)
open Heimdall.Peers (GoString)
open Heimdall.Rendezvous (goNet Pairing Candidate)

/-! ## The start of a race -/

/-- The fields of `Config` that decide what is dialled. -/
structure Config where
  manager : Bool
  punch : Bool
  expect : Option Expectations

/-- An address that an attempt dials. -/
inductive Dial where
  | direct (addr : GoString)
  | punch (addr : GoString) (delay : ℤ)

def Dial.addr : Dial → GoString
  | .direct addr | .punch addr _ => addr

/-- What a race has started, next to the circuit through the relay: its dials, and the addresses it
has filed as expected. -/
structure Started where
  dials : List Dial
  expected : List GoString

/-- The attempts of `Race` but for the one through the relay. -/
def dials (punch : Bool) (p : Pairing) : List Dial :=
  p.peerCandidates.map (fun c => .direct c.addr) ++
    if punch = true ∧ p.peerObserved ≠ [] then [.punch p.peerObserved p.punchIn] else []

/-- The start of `Race`, with the options of an inbound connection. Without a session manager
there is no race. -/
def race (cfg : Config) (opts : AdoptOptions) (p : Pairing) : Option Started :=
  if cfg.manager = false then none
  else
    let ips := peerIPs p.peerObserved (p.peerCandidates.map Candidate.addr)
    some {
      dials := dials cfg.punch p
      expected := match cfg.expect with
        | none => []
        | some e => (e.expect ips opts).2 }

/-- The host of an address; without a port it is the whole text. -/
def hostOf (addr : GoString) : GoString :=
  Transport.addrIP splitHost addr

theorem hostOf_of_split {addr host port : GoString} (h : splitHostPort addr = some (host, port)) :
    hostOf addr = host := by
  simp [hostOf, Transport.addrIP, splitHost, h]

def addHost (out : List GoString) (addr : GoString) : List GoString :=
  if addr = [] ∨ hostOf addr = [] ∨ out.contains (hostOf addr) then out else out ++ [hostOf addr]

theorem peerIPs_eq (observed : GoString) (candidates : List GoString) :
    peerIPs observed candidates = (observed :: candidates).foldl addHost [] := by
  unfold peerIPs
  congr 1
  funext out addr
  rcases hsplit : splitHostPort addr with _ | ⟨host, port⟩
  · simp [addHost, hostOf, Transport.addrIP, splitHost, hsplit]
  · simp [addHost, hostOf, Transport.addrIP, splitHost, hsplit]

/-- What the fold collects, by induction on the addresses: what there was, and every host that is
not empty. That a host is added once only makes no difference to this. -/
theorem mem_foldl_addHost {ip : GoString} {addrs out : List GoString} :
    ip ∈ addrs.foldl addHost out ↔
      ip ∈ out ∨ ∃ a ∈ addrs, a ≠ [] ∧ hostOf a = ip ∧ ip ≠ [] := by
  induction addrs generalizing out with
  | nil => simp
  | cons a addrs ih =>
    rw [List.foldl_cons, ih, addHost]
    split_ifs with hskip
    · rcases hskip with ha | ha | ha <;> grind
    · grind

theorem mem_peerIPs {observed ip : GoString} {candidates : List GoString} :
    ip ∈ peerIPs observed candidates ↔
      ∃ a ∈ observed :: candidates, a ≠ [] ∧ hostOf a = ip ∧ ip ≠ [] := by
  rw [peerIPs_eq, mem_foldl_addHost]
  simp

/-! ## Which of it is safe -/

/-- The host is an IP address that may be dialled. -/
def Safe (host : GoString) : Prop := ∃ ip, GoNet.parseIP host = some ip ∧ goNet.usableIP ip = true

/-- Everything that is dialled or expected is safe. -/
def Started.Safe (r : Started) : Prop :=
  (∀ d ∈ r.dials, Connect.Safe (hostOf d.addr)) ∧ ∀ ip ∈ r.expected, Connect.Safe ip

/-- The observed address is not used: there is none, there is no race, or it is not punched to and
nothing new is expected from it. -/
def Config.Unused (cfg : Config) (observed : GoString) : Prop :=
  observed = [] ∨ cfg.manager = false ∨ (cfg.punch = false ∧ (hostOf observed = [] ∨
    ∀ e, cfg.expect = some e → (e.byIP.lookup (hostOf observed)).isSome))

theorem safe_of_passes {addr : GoString} (h : goNet.passes addr = true) : Safe (hostOf addr) := by
  rw [Rendezvous.Net.passes, Bool.and_eq_true, Rendezvous.Net.usable, Option.any_eq_true] at h
  obtain ⟨⟨ip, hip, husable⟩, -⟩ := h
  obtain ⟨⟨host, port⟩, hsplit, hparse⟩ := Option.bind_eq_some_iff.mp hip
  refine ⟨ip, ?_, husable⟩
  rw [hostOf_of_split hsplit]
  exact hparse

variable {cfg : Config} {opts : AdoptOptions} {p : Pairing}

theorem mem_dials {d : Dial} :
    d ∈ dials cfg.punch p ↔ (∃ c ∈ p.peerCandidates, .direct c.addr = d) ∨
    (cfg.punch = true ∧ p.peerObserved ≠ [] ∧ d = .punch p.peerObserved p.punchIn) := by
  rw [dials, List.mem_append, List.mem_map]
  refine or_congr Iff.rfl ?_
  split_ifs with hpunch
  · simp [hpunch]
  · simp only [List.not_mem_nil, false_iff]
    tauto

/-- The addresses that the race files: the hosts that are not filed yet. One that is filed already
belongs to another race, and stays with it. -/
theorem mem_expected {r : Started} (hr : race cfg opts p = some r) {ip : GoString} :
    ip ∈ r.expected ↔ ∃ e, cfg.expect = some e ∧ e.byIP.lookup ip = none ∧ ip ≠ [] ∧
      ∃ a ∈ p.peerObserved :: p.peerCandidates.map Candidate.addr, a ≠ [] ∧ hostOf a = ip := by
  unfold race at hr
  split_ifs at hr
  obtain rfl := (Option.some.inj hr).symm
  rcases hexpect : cfg.expect with _ | e
  · simp
  · simp only [Expectations.expect, Expectations.mem_expectLoop, mem_peerIPs, List.not_mem_nil,
      false_or, Option.some.injEq, exists_eq_left']
    grind

theorem dials_of_race {r : Started} (hr : race cfg opts p = some r) :
    cfg.manager = true ∧ r.dials = dials cfg.punch p := by
  unfold race at hr
  split_ifs at hr with hmanager
  obtain rfl := (Option.some.inj hr).symm
  exact ⟨by simpa using hmanager, rfl⟩

theorem exists_race (hmanager : cfg.manager = true) : ∃ r, race cfg opts p = some r := by
  rw [race, if_neg (by simp [hmanager])]
  exact ⟨_, rfl⟩

theorem used_of_punched {r : Started} (hr : race cfg opts p = some r) (hpunch : cfg.punch = true)
    (hne : p.peerObserved ≠ []) : ¬cfg.Unused p.peerObserved := by
  rintro (hnil | hno | ⟨hno, -⟩)
  · exact hne hnil
  · exact absurd (dials_of_race hr).1 (by simp [hno])
  · exact absurd hpunch (by simp [hno])

/-- An address that is filed as expected is used, even if nothing is punched: `Expect` files it
under its host, unless that host has an expectation already. -/
theorem used_of_expected {r : Started} (hr : race cfg opts p = some r) {e : Expectations}
    (he : cfg.expect = some e) (hfiled : e.byIP.lookup (hostOf p.peerObserved) = none)
    (hne : p.peerObserved ≠ []) (hhost : hostOf p.peerObserved ≠ []) :
    ¬cfg.Unused p.peerObserved := by
  rintro (hnil | hno | ⟨-, hnil | hall⟩)
  · exact hne hnil
  · exact absurd (dials_of_race hr).1 (by simp [hno])
  · exact hhost hnil
  · exact absurd (hall e he) (by simp [hfiled])

/-- The address that the relay has observed has passed nothing. If it is used, it is dialled or
waited for as it is. -/
theorem safe_of_used {r : Started} (hr : race cfg opts p = some r) (hsafe : r.Safe)
    (hused : ¬cfg.Unused p.peerObserved) : Safe (hostOf p.peerObserved) := by
  simp only [Config.Unused, not_or, not_and, not_forall] at hused
  obtain ⟨hne, -, hquiet⟩ := hused
  obtain ⟨hdials, hexpected⟩ := hsafe
  rcases hpunch : cfg.punch with _ | _
  · -- not punched to, but expected
    obtain ⟨hhost, e, he, hfiled⟩ := hquiet hpunch
    refine hexpected _ ((mem_expected hr).mpr ⟨e, he, ?_, hhost, _, List.mem_cons_self, hne, rfl⟩)
    simpa using hfiled
  · refine hdials (.punch p.peerObserved p.punchIn) ?_
    rw [(dials_of_race hr).2, mem_dials]
    exact .inr ⟨hpunch, hne, rfl⟩

theorem safe_of_race {r : Started} (hr : race cfg opts p = some r)
    (hcandidates : ∀ c ∈ p.peerCandidates, Safe (hostOf c.addr))
    (hobserved : ¬cfg.Unused p.peerObserved → Safe (hostOf p.peerObserved)) : r.Safe := by
  constructor
  · intro d hd
    rw [(dials_of_race hr).2, mem_dials] at hd
    rcases hd with ⟨c, hc, rfl⟩ | ⟨hpunch, hne, rfl⟩
    · exact hcandidates c hc
    · exact hobserved (used_of_punched hr hpunch hne)
  · intro ip hip
    obtain ⟨e, he, hfiled, hhost, a, ha, hne, rfl⟩ := (mem_expected hr).mp hip
    rcases List.mem_cons.mp ha with rfl | ha
    · exact hobserved (used_of_expected hr he hfiled hne hhost)
    · obtain ⟨c, hc, rfl⟩ := List.mem_map.mp ha
      exact hcandidates c hc

/-- **What is dialled or expected for a rendezvous is safe exactly if the address that the relay
claims to have observed is safe or not used.** The candidates of the peer are always safe, as they
are filtered. -/
theorem targets_safe_iff (env : Rendezvous.Opening UInt8) (observed : GoString)
    (rung : Rendezvous.Rung)
    (msg : Rendezvous.PairedMessage) (pairingKey : List UInt8) (cfg : Config) (opts : AdoptOptions)
    (p : Pairing) (hp : Rendezvous.toPairing env observed rung msg pairingKey = .ok p) :
    (∀ r, race cfg opts p = some r → r.Safe) ↔
      cfg.Unused msg.peerObserved ∨ Safe (hostOf msg.peerObserved) := by
  obtain ⟨⟨l, hl⟩, hobserved⟩ := Rendezvous.toPairing_ok hp
  have hcandidates : ∀ c ∈ p.peerCandidates, Safe (hostOf c.addr) := by
    intro c hc
    rw [hl] at hc
    exact safe_of_passes ((goNet.kept l).passes c hc)
  rw [← hobserved]
  constructor
  · intro h
    rw [or_iff_not_imp_left]
    intro hused
    -- an address that is used has a race that uses it
    have hmanager : cfg.manager = true := by
      by_contra hno
      exact hused (.inr (.inl (by simpa using hno)))
    obtain ⟨r, hr⟩ : ∃ r, race cfg opts p = some r := exists_race hmanager
    exact safe_of_used hr (h r hr) hused
  · intro h r hr
    exact safe_of_race hr hcandidates fun hused => h.resolve_left hused

/-! ### A pairing -/

/-- A list with one candidate, sealed under a key of sevens with a nonce of zeros: base64 of what
AES-GCM gives. -/
def sealedText : GoString :=
  [65, 65, 65, 65, 65, 65, 65, 65, 65, 65, 65, 65, 65, 65, 65, 65, 71, 118, 114, 72, 48, 53, 88,
   50, 89, 111, 121, 65, 99, 43, 111, 88, 53, 107, 69, 81, 49, 90, 43, 79, 122, 90, 48, 66, 47,
   112, 70, 53, 74, 67, 87, 122, 53, 110, 47, 72, 75, 49, 102, 101, 53, 51, 120, 117, 116, 77, 70,
   89, 122, 43, 97, 87, 50, 104, 84, 120, 121, 83, 121, 73, 102, 75, 76, 65, 73, 80, 113, 73, 70,
   112, 87, 85, 85, 53, 112, 110, 75, 106, 71, 89, 106, 77, 120, 79, 97, 97, 106, 112, 102, 112,
   79, 51, 122, 118, 107, 61]

/-- The text `{"candidates":[{"addr":"203.0.113.5:7331","kind":"host"}]}` -/
def listText : List UInt8 :=
  [123, 34, 99, 97, 110, 100, 105, 100, 97, 116, 101, 115, 34, 58, 91, 123, 34, 97, 100, 100, 114,
   34, 58, 34, 50, 48, 51, 46, 48, 46, 49, 49, 51, 46, 53, 58, 55, 51, 51, 49, 34, 44, 34, 107,
   105, 110, 100, 34, 58, 34, 104, 111, 115, 116, 34, 125, 93, 125]

def sealedBlob : List UInt8 := (Rendezvous.decodeString sealedText).getD []

def sevens : List UInt8 := List.replicate 32 7

def hostCandidate : Candidate := { Rendezvous.publicV4 with kind := [104, 111, 115, 116] }

def sampleOpening : Rendezvous.Opening UInt8 where
  openSealed key aad blob :=
    if key = sevens ∧ aad = Rendezvous.candidateAAD ∧ blob = sealedBlob then some listText else none
  unmarshal plain := if plain = listText then some [hostCandidate] else none

def zeroTicket : GoString := List.replicate 43 65 ++ [61]

/-- A message of the relay with this list, a ticket of zeros and an observed address. -/
def pairedWith (peerObserved : GoString) : Rendezvous.PairedMessage where
  role := [99, 108, 97, 105, 109, 101, 114]
  peerCandidates := sealedText
  peerObserved := peerObserved
  punchInMS := 500
  ticket := zeroTicket

def samplePairing (peerObserved : GoString) : Pairing where
  role := [99, 108, 97, 105, 109, 101, 114]
  peerCandidates := [hostCandidate]
  peerObserved := peerObserved
  observed := []
  punchIn := 500000000
  ticket := List.replicate 32 0
  rung := .tlsDirect

theorem toPairing_sample (peerObserved : GoString) :
    Rendezvous.toPairing sampleOpening [] .tlsDirect (pairedWith peerObserved) sevens
      = .ok (samplePairing peerObserved) := by
  have hblob : Rendezvous.unb64 sealedText Rendezvous.maxSealedCandidates = .ok sealedBlob := by
    decide +kernel
  have hopen : Rendezvous.openCandidates sampleOpening sevens sealedBlob
      = .ok [hostCandidate] := by
    decide +kernel
  have hticket : Rendezvous.unb64 zeroTicket Rendezvous.ticketSize = .ok (List.replicate 32 0) := by
    decide +kernel
  simp only [Rendezvous.toPairing, pairedWith, hblob, hopen, hticket]
  rfl

def punching : Config where
  manager := true
  punch := true
  expect := some {}

/-- `198.51.100.7:40000` -/
def reflexive : GoString := [49, 57, 56, 46, 53, 49, 46, 49, 48, 48, 46, 55, 58, 52, 48, 48, 48, 48]

theorem targets_safe_reflexive :
    Rendezvous.toPairing sampleOpening [] .tlsDirect (pairedWith reflexive) sevens
      = .ok (samplePairing reflexive) ∧
    Safe (hostOf reflexive) ∧ ∀ r, race punching {} (samplePairing reflexive) = some r →
      r.Safe := by
  have hsafe : Safe (hostOf reflexive) := ⟨GoNet.v4in6 [198, 51, 100, 7], by decide +kernel⟩
  exact ⟨toPairing_sample _, hsafe,
    (targets_safe_iff _ _ _ _ _ _ _ _ (toPairing_sample reflexive)).mpr (.inr hsafe)⟩

/-- `127.0.0.1:6379` -/
def loopback : GoString := [49, 50, 55, 46, 48, 46, 48, 46, 49, 58, 54, 51, 55, 57]

/-- **The relay may have this node connect to a port of its own host**, and take what comes from
there for the peer. -/
theorem loopback_dialled :
    Rendezvous.toPairing sampleOpening [] .tlsDirect (pairedWith loopback) sevens
      = .ok (samplePairing loopback) ∧
    ∃ r, race punching {} (samplePairing loopback) = some r ∧
      .punch loopback 500000000 ∈ r.dials ∧ hostOf loopback ∈ r.expected ∧
        ¬Safe (hostOf loopback) := by
  obtain ⟨r, hr⟩ : ∃ r, race punching {} (samplePairing loopback) = some r := exists_race rfl
  refine ⟨toPairing_sample _, r, hr, ?_, ?_, ?_⟩
  · rw [(dials_of_race hr).2, mem_dials]
    exact .inr ⟨rfl, by decide, rfl⟩
  · rw [mem_expected hr]
    exact ⟨{}, rfl, rfl, by decide +kernel, loopback, List.mem_cons_self, by decide, rfl⟩
  · have hparse : GoNet.parseIP (hostOf loopback) = some (GoNet.v4in6 [127, 0, 0, 1]) := by
      decide +kernel
    rintro ⟨ip, hip, husable⟩
    obtain rfl := Option.some.inj (hparse.symm.trans hip)
    exact absurd husable (by decide +kernel)

end Heimdall.Connect
