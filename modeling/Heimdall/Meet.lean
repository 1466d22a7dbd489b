/-
Two nodes meet, `Invite` and `Join` of `internal/connect/connect.go` up to `Race`.

`Invite` draws a code, derives the rendezvous ID and the pairing key from it, seals its candidates
under the key and publishes; `Join` reads the code from the text that a user passes on and does the
same with a claim. Between the two are the encodings of `Code`, `Envelope` and `Targets`, and the
relay, which copies two fields from one side's request to the other's message.

So two nodes that follow the code agree: whatever text it is in which `ParseCode` finds the code,
both have the same ID and the same key, and each gets the other's candidates as the other has listed
them (`invite_join_meet`). Nothing on this way is too large, altered or filtered out.

What `crypto` has to do for that is in `Primitives`, for the keys, nonces and lengths that it takes.
`json.Unmarshal` into a `CandidateSet`, which `Targets` leaves open, is here.
-/
import Heimdall.Advertise
import Heimdall.Code
import Heimdall.Crypto
import Heimdall.Envelope

set_option autoImplicit false

namespace Heimdall.Rendezvous

open Heimdall.Crypto (Nonce keySize nonceSize tagSize)
open Heimdall.GoNet (IP)
open Heimdall.GoStrings (CaseTable)
open Heimdall.Json (Literal quote)
open Heimdall.Peers (GoString decodeText encodeToString foldName)
open Heimdall.Relay (checkRID pairedMessage roleClaimer rolePublisher)
open Heimdall.Utf8 (pieces sanitize)

/-! ## `json.Unmarshal` into a `CandidateSet` -/

/-- The fields of `Candidate`. -/
inductive CandidateField where
  | addr
  | kind
  deriving DecidableEq

def CandidateField.tag : CandidateField → GoString
  | addr => [97, 100, 100, 114]
  | kind => [107, 105, 110, 100]

def candidateFieldOf (key : GoString) : Option CandidateField :=
  ([.addr, .kind].find? fun f : CandidateField => f.tag = key) <|>
    [.addr, .kind].find? fun f : CandidateField => foldName f.tag = foldName key

def decodeCandidateMember (c : Candidate) (kv : GoString × Json) : Option Candidate :=
  match (Json.unquote kv.1).bind candidateFieldOf with
  | none => some c
  | some .addr => (decodeText c.addr kv.2).map fun x => { c with addr := x }
  | some .kind => (decodeText c.kind kv.2).map fun x => { c with kind := x }

def decodeCandidate (c : Candidate) : Json → Option Candidate
  | .null => some c
  | .obj kvs => kvs.foldlM decodeCandidateMember c
  | _ => none

/-- The elements of an array, decoded into an array that is there already. -/
def decodeElements : List Candidate → List Json → Option (List Candidate)
  | old, [] => some old
  | [], v :: vs =>
    (decodeCandidate ⟨[], []⟩ v).bind fun c => (decodeElements [] vs).map fun cs => c :: cs
  | o :: old, v :: vs =>
    (decodeCandidate o v).bind fun c => (decodeElements old vs).map fun cs => c :: cs

/-- A slice: the array behind it, and its length. -/
structure CandidateSlice where
  array : List Candidate := []
  len : ℕ := 0

/-- A member whose field is the slice. A second array is decoded over the first. -/
def decodeSlice (old : CandidateSlice) : Json → Option CandidateSlice
  | .null => some {}
  | .arr [] => some {}
  | .arr (v :: vs) => (decodeElements old.array (v :: vs)).map fun a => ⟨a, vs.length + 1⟩
  | _ => none

def candidatesTag : GoString := [99, 97, 110, 100, 105, 100, 97, 116, 101, 115]

def decodeSetMember (old : CandidateSlice) (kv : GoString × Json) : Option CandidateSlice :=
  match Json.unquote kv.1 with
  | none => some old
  | some key => if foldName key = foldName candidatesTag then decodeSlice old kv.2 else some old

def unmarshalCandidates (buf : List UInt8) : Option (List Candidate) :=
  match Json.parse buf with
  | some .null => some []
  | some (.obj kvs) => (kvs.foldlM decodeSetMember {}).map fun s => s.array.take s.len
  | _ => none

/-- A candidate as a reader gets it. -/
def Candidate.sanitized (c : Candidate) : Candidate := ⟨sanitize c.addr, sanitize c.kind⟩

theorem decodeCandidate_candidateJson (c : Candidate) :
    decodeCandidate ⟨[], []⟩ (candidateJson c) = some c.sanitized := by
  have haddr : (Json.unquote [97, 100, 100, 114]).bind candidateFieldOf = some .addr := by
    decide +kernel
  have hkind : (Json.unquote [107, 105, 110, 100]).bind candidateFieldOf = some .kind := by
    decide +kernel
  rw [candidateJson, decodeCandidate]
  simp only [List.foldlM_cons, List.foldlM_nil, decodeCandidateMember, haddr, hkind,
    Peers.decodeText_quote, Option.map_some, Option.bind_eq_bind, Option.bind_some, Option.pure_def]
  rfl

theorem decodeElements_candidateJson (cs : List Candidate) :
    decodeElements [] (cs.map candidateJson) = some (cs.map Candidate.sanitized) := by
  induction cs with
  | nil => rfl
  | cons c cs ih =>
    rw [List.map_cons, decodeElements, decodeCandidate_candidateJson, Option.bind_some, ih]
    rfl

theorem writable_candidateSetJson (set : Option (List Candidate)) :
    (candidateSetJson set).Writable := by
  -- the three names
  have hplain : ∀ key ∈ [candidatesTag, [97, 100, 100, 114], [107, 105, 110, 100]],
      Literal key := by
    intro key hkey
    refine Literal.of_plain (List.all_eq_true.mp ?_)
    simp only [List.mem_cons, List.not_mem_nil, or_false] at hkey
    rcases hkey with rfl | rfl | rfl <;> rfl
  refine Json.writableMembers_iff.mpr ?_
  intro kv hkv
  obtain rfl := List.mem_singleton.mp hkv
  refine ⟨hplain candidatesTag (by simp), ?_⟩
  cases set with
  | none => trivial
  | some cs =>
    refine Json.writableElements_iff.mpr fun v hv => ?_
    obtain ⟨c, -, rfl⟩ := List.mem_map.mp hv
    refine Json.writableMembers_iff.mpr fun kv hkv => ?_
    simp only [List.mem_cons, List.not_mem_nil, or_false] at hkv
    rcases hkv with rfl | rfl
    · exact ⟨hplain _ (by simp), Json.literal_quote _⟩
    · exact ⟨hplain _ (by simp), Json.literal_quote _⟩

/-- **A list is read back**, with its texts sanitized. A nil list comes back as an empty one. -/
theorem unmarshalCandidates_json (set : Option (List Candidate)) :
    unmarshalCandidates (candidateSetJson set).compact =
      some ((set.getD []).map Candidate.sanitized) := by
  have hkey : Json.unquote candidatesTag = some candidatesTag := by decide +kernel
  rw [unmarshalCandidates, Json.parse_compact (writable_candidateSetJson set)]
  -- the set has one member, which is the list
  have hmember : ∀ v, [(candidatesTag, v)].foldlM decodeSetMember {} = decodeSlice {} v := by
    intro v
    rw [List.foldlM_cons, decodeSetMember, hkey]
    dsimp only
    rw [if_pos rfl]
    cases decodeSlice {} v <;> rfl
  cases set with
  | none => rfl
  | some cs =>
    show Option.map _ ([(candidatesTag, Json.arr (cs.map candidateJson))].foldlM decodeSetMember {})
      = _
    rw [hmember]
    cases cs with
    | nil => rfl
    | cons c cs =>
      have helements := decodeElements_candidateJson (c :: cs)
      rw [List.map_cons] at helements
      rw [List.map_cons, decodeSlice, helements]
      simp

/-! ## Before the relay is asked -/

/-- `rendezvousIDSize` of the code, which the relay has a constant of its own for. -/
def rendezvousIDSize : ℕ := 16

def pairingKeySize : ℕ := 32

/-- `heimdall v1 rendezvous id` -/
def infoRendezvousID : GoString :=
  [104, 101, 105, 109, 100, 97, 108, 108, 32, 118, 49, 32, 114, 101, 110, 100, 101, 122, 118, 111,
    117, 115, 32, 105, 100]

/-- `heimdall v1 pairing key` -/
def infoPairingKey : GoString :=
  [104, 101, 105, 109, 100, 97, 108, 108, 32, 118, 49, 32, 112, 97, 105, 114, 105, 110, 103, 32,
    107, 101, 121]

def gcmMaxPlaintext : ℕ := (2 ^ 32 - 2) * 16

/-- What is asked of `crypto`: `DeriveKey` without a salt gives as many bytes as it is asked for,
up to the limit of HKDF with SHA-256, and `Open` undoes `Seal`, which adds the nonce and a tag.
An empty secret, a key of another size and a plaintext that is too long are errors, and nothing
is said of them. -/
structure Primitives where
  deriveKey : List UInt8 → GoString → ℕ → List UInt8
  sealWith : Nonce → List UInt8 → List UInt8 → List UInt8 → List UInt8
  openSealed : List UInt8 → List UInt8 → List UInt8 → Option (List UInt8)
  length_deriveKey : ∀ {secret : List UInt8} (info : GoString) {n : ℕ}, secret ≠ [] → n ≤ 255 * 32 →
    (deriveKey secret info n).length = n
  open_seal : ∀ (nonce : Nonce) {key : List UInt8} (aad : List UInt8) {plain : List UInt8},
    key.length = keySize → plain.length ≤ gcmMaxPlaintext →
    openSealed key aad (sealWith nonce key aad plain) = some plain
  length_seal : ∀ (nonce : Nonce) {key : List UInt8} (aad : List UInt8) {plain : List UInt8},
    key.length = keySize → plain.length ≤ gcmMaxPlaintext →
    (sealWith nonce key aad plain).length = nonceSize + plain.length + tagSize

/-- `Seal` with the nonce that was drawn, if one was. -/
def Primitives.sealBytes (P : Primitives) (nonce : Option Nonce) (key aad plain : List UInt8) :
    Option (List UInt8) :=
  nonce.map fun n => P.sealWith n key aad plain

def Primitives.opening (P : Primitives) : Opening UInt8 := ⟨P.openSealed, unmarshalCandidates⟩

namespace Code

variable (P : Primitives) (c : Code)

def id : List UInt8 := P.deriveKey c.secret infoRendezvousID rendezvousIDSize

def pairingKey : List UInt8 := P.deriveKey c.secret infoPairingKey pairingKeySize

theorem secret_ne_nil : c.secret ≠ [] := by
  intro h
  have hlen := c.length_secret
  rw [h] at hlen
  exact absurd hlen (by decide)

theorem length_id : (c.id P).length = rendezvousIDSize :=
  P.length_deriveKey _ c.secret_ne_nil (by decide)

theorem length_pairingKey : (c.pairingKey P).length = keySize :=
  P.length_deriveKey _ c.secret_ne_nil (by decide)

end Code

/-- What `Invite` and `Join` have when they ask the relay. -/
structure Prepared where
  rid : List UInt8
  pairingKey : List UInt8
  sealed : List UInt8

def prepare (P : Primitives) (c : Code) (nonce : Option Nonce) (set : Option (List Candidate)) :
    Except SealErr Prepared :=
  match sealCandidates (P.sealBytes nonce) (c.pairingKey P) set with
  | .error e => .error e
  | .ok sealed => .ok ⟨c.id P, c.pairingKey P, sealed⟩

/-- The errors of `Invite` before it publishes. -/
inductive InviteErr where
  /-- `NewCode` has no random bytes. -/
  | random
  | sealing (e : SealErr)

def invite (P : Primitives) (code : Option Code) (nonce : Option Nonce)
    (set : Option (List Candidate)) : Except InviteErr (GoString × Prepared) :=
  match code with
  | none => .error .random
  | some c =>
    match prepare P c nonce set with
    | .error e => .error (.sealing e)
    | .ok p => .ok (c.string, p)

/-- The errors of `Join` before it claims. -/
inductive JoinErr where
  | code (e : CodeErr)
  | sealing (e : SealErr)

def join (P : Primitives) (t : CaseTable) (nonce : Option Nonce) (set : Option (List Candidate))
    (codeText : GoString) : Except JoinErr Prepared :=
  match parseCode t codeText with
  | .error e => .error (.code e)
  | .ok c =>
    match prepare P c nonce set with
    | .error e => .error (.sealing e)
    | .ok p => .ok p

def Prepared.request (p : Prepared) (typ : MsgType) : Message :=
  Request.message ⟨typ, encodeToString p.rid, p.sealed⟩

/-- A machine: its interfaces, and the ports of a `Config`. -/
structure Machine where
  addrs : Option (List (Option IP))
  listenPort : Int64
  punchPort : Option Int64

def Machine.localCandidates (m : Machine) : Option (List Candidate) :=
  Rendezvous.localCandidates m.addrs
    (match m.punchPort with
    | some punch => if m.listenPort = 0 then punch.toInt else m.listenPort.toInt
    | none => m.listenPort.toInt)

section Prepare

variable {P : Primitives} {m : Machine}

/-- What a machine offers: at most eight addresses that pass the filter as they are, in plain
text. -/
theorem Machine.plain (m : Machine) :
    ∀ l, m.localCandidates = some l → l.length ≤ maxCandidates ∧ goNet.validateCandidates l = l ∧
      ∀ c ∈ l, quote c.addr = c.addr ∧ c.addr.length ≤ 65 ∧ c.kind = kindHost := by
  intro l hl
  apply localCandidates_plain _ hl
  have hlisten := m.listenPort.toInt_lt
  cases m.punchPort with
  | none => exact hlisten.trans (by decide)
  | some punch =>
    have hpunch := punch.toInt_lt
    dsimp only
    split_ifs
    · exact hpunch.trans (by decide)
    · exact hlisten.trans (by decide)

/-- What a machine advertises survives the JSON text and the filter at the other side. -/
theorem Machine.read_back (m : Machine) :
    ((m.localCandidates.getD []).map Candidate.sanitized) = m.localCandidates.getD [] ∧
      goNet.validateCandidates (m.localCandidates.getD []) = m.localCandidates.getD [] := by
  cases hm : m.localCandidates with
  | none => exact ⟨rfl, rfl⟩
  | some l =>
    obtain ⟨-, hvalid, hall⟩ := m.plain l hm
    refine ⟨?_, hvalid⟩
    rw [Option.getD_some]
    have hsame : ∀ c ∈ l, c.sanitized = c := by
      intro c hc
      obtain ⟨hquote, -, hkind⟩ := hall c hc
      have hhost : sanitize kindHost = kindHost := by decide
      rw [Candidate.sanitized, Json.sanitize_of_quote hquote, hkind, hhost, ← hkind]
    calc l.map Candidate.sanitized = l.map id := List.map_congr_left hsame
      _ = l := List.map_id l

theorem length_candidateJson_le {c : Candidate} (hquote : quote c.addr = c.addr)
    (hlen : c.addr.length ≤ 65) (hkind : c.kind = kindHost) :
      (candidateJson c).compact.length ≤ 91 := by
  have hmembers := Json.length_compactMembers
    [([97, 100, 100, 114], Json.str (quote c.addr)),
      ([107, 105, 110, 100], Json.str (quote c.kind))]
  have hhost : (quote kindHost).length = 4 := by decide
  simp only [List.map_cons, List.map_nil, List.sum_cons, List.sum_nil, Json.compact,
    List.length_cons, List.length_append, List.length_nil, hquote, hkind, hhost] at hmembers
  simp only [candidateJson, Json.compact, List.length_cons, List.length_append, List.length_nil,
    hquote, hkind]
  omega

/-- Eight candidates of bounded length, so the list is below the limit of a sealed one. -/
theorem Machine.length_json_le (m : Machine) :
    (candidateSetJson m.localCandidates).compact.length ≤ 754 := by
  cases hm : m.localCandidates with
  | none => decide
  | some l =>
    obtain ⟨hcount, -, hall⟩ := m.plain l hm
    -- eight candidates of bounded length
    have hone : ∀ v ∈ l.map candidateJson, v.compact.length ≤ 91 := by
      intro v hv
      obtain ⟨c, hc, rfl⟩ := List.mem_map.mp hv
      obtain ⟨hquote, hlen, hkind⟩ := hall c hc
      exact length_candidateJson_le hquote hlen hkind
    have helements := Json.length_compactElements hone
    rw [List.length_map] at helements
    unfold maxCandidates at hcount
    simp only [candidateSetJson, Json.compact, Json.compactMembers, List.length_cons,
      List.length_append, List.length_nil]
    omega

/-- **Sealing a machine's own list succeeds**, and whoever has the code opens it to the same list.
`SealCandidates` may fail for lists in general, but these are short. -/
theorem prepare_ok (P : Primitives) (c : Code) (nonce : Nonce) (m : Machine) :
    ∃ sealed, prepare P c (some nonce) m.localCandidates = .ok ⟨c.id P, c.pairingKey P, sealed⟩ ∧
      sealed.length ≤ maxSealedCandidates ∧
      openCandidates P.opening (c.pairingKey P) sealed = .ok (m.localCandidates.getD []) := by
  set plain := (candidateSetJson m.localCandidates).compact with hplain
  set sealed := P.sealWith nonce (c.pairingKey P) candidateAAD plain with hsealed
  have hjson : plain.length ≤ 754 := m.length_json_le
  have hkey := c.length_pairingKey P
  have hmax : plain.length ≤ gcmMaxPlaintext := hjson.trans (by decide)
  have hlen : sealed.length ≤ maxSealedCandidates := by
    rw [hsealed, P.length_seal nonce _ hkey hmax]
    unfold maxSealedCandidates nonceSize tagSize
    omega
  obtain ⟨hsanitized, hvalid⟩ := m.read_back
  refine ⟨sealed, ?_, hlen, ?_⟩
  · have hseal : P.sealBytes (some nonce) (c.pairingKey P) candidateAAD plain = some sealed := rfl
    rw [prepare, sealCandidates, ← hplain, hseal]
    dsimp only
    rw [if_neg (not_lt.mpr hlen)]
  · -- opened with the same key, parsed, and filtered without loss
    have hopen : P.opening.openSealed (c.pairingKey P) candidateAAD sealed = some plain :=
      P.open_seal nonce candidateAAD hkey hmax
    have hread : P.opening.unmarshal plain = some (m.localCandidates.getD []) := by
      rw [← hsanitized]
      exact unmarshalCandidates_json m.localCandidates
    rw [openCandidates, if_neg (not_lt.mpr hlen), hopen]
    dsimp only
    rw [hread]
    dsimp only
    rw [hvalid]

end Prepare

/-! ## Through the relay -/

/-- What a relay adds when it pairs two requests: the addresses it has observed, the tickets and the
delay. The addresses are texts of `net`, which JSON writes as they stand. -/
structure Handover where
  publisherAddr : GoString
  claimerAddr : GoString
  publisherTicket : List UInt8
  claimerTicket : List UInt8
  punchDelay : Int64
  unescaped : quote publisherAddr = publisherAddr ∧ quote claimerAddr = claimerAddr
  short : (pieces publisherAddr).length ≤ 64 ∧ (pieces claimerAddr).length ≤ 64
  ticketLength : publisherTicket.length = ticketSize ∧ claimerTicket.length = ticketSize

namespace Handover

variable (h : Handover)

/-- What `pair` sends to the publisher, after a claim. -/
def toPublisher (claim : Message) : Message :=
  pairedMessage rolePublisher claim.rendezvousID claim.candidates h.claimerAddr h.punchDelay
    h.publisherTicket

def toClaimer (publish claim : Message) : Message :=
  pairedMessage roleClaimer claim.rendezvousID publish.candidates h.publisherAddr h.punchDelay
    h.claimerTicket

end Handover

def Pairing.initiator (p : Pairing) : Bool := p.role = roleClaimer

/-- **Two nodes meet.** The requests get through and name one ID, the answers get through, and
both sides have a pairing: with the candidates of the other side and with their own tickets, one
of them to start the handshake, at one time. -/
structure Meets (P : Primitives) (publisher claimer : Machine) (p q : Prepared) (h : Handover) :
    Prop where
  published : (p.request .publish).Carried ∧
    checkRID (p.request .publish) = .ok (encodeToString p.rid)
  claimed : (q.request .claim).Carried ∧ checkRID (q.request .claim) = .ok (encodeToString p.rid)
  answered : (h.toPublisher (q.request .claim)).Carried ∧
    (h.toClaimer (p.request .publish) (q.request .claim)).Carried
  paired : ∀ rung rung' : Rung, ∃ a b : Pairing,
    toPairing P.opening h.publisherAddr rung (h.toPublisher (q.request .claim)).paired p.pairingKey
      = .ok a ∧
    toPairing P.opening h.claimerAddr rung'
      (h.toClaimer (p.request .publish) (q.request .claim)).paired
      q.pairingKey = .ok b ∧
    a.peerCandidates = claimer.localCandidates.getD [] ∧
    b.peerCandidates = publisher.localCandidates.getD [] ∧
    a.ticket = h.publisherTicket ∧ b.ticket = h.claimerTicket ∧
    a.initiator = false ∧ b.initiator = true ∧ a.punchIn = b.punchIn

theorem toPairing_paired {P : Primitives} {role rid observed own : GoString} {rung : Rung}
    {delay : Int64}
    {sealed ticket key : List UInt8} {l : List Candidate}
    (hsealed : sealed.length ≤ maxSealedCandidates)
    (hticket : ticket.length = ticketSize) (hopen : openCandidates P.opening key sealed = .ok l) :
    toPairing P.opening own rung
        (pairedMessage role rid (encodeToString sealed) observed delay ticket).paired key =
      .ok ⟨role, l, observed, own, punchDelay (Relay.milliseconds delay).toInt, ticket, rung⟩ := by
  simp only [toPairing, Message.paired, pairedMessage, unb64_encodeToString hsealed, hopen,
    unb64_encodeToString hticket.le, hticket, ne_eq, not_true_eq_false, if_false]

/-- **An invite that is passed on leads to a meeting.** Whatever the text is in which `ParseCode`
finds the code again, `Invite` and `Join` do not fail, have the same pairing key, and meet
through any relay that pairs them. -/
theorem invite_join_meet (P : Primitives) (t : CaseTable) (c : Code) {text : GoString}
    (htext : parseCode t text = .ok c) (publisher claimer : Machine) (nonce nonce' : Nonce) :
    ∃ p q, invite P (some c) (some nonce) publisher.localCandidates = .ok (c.string, p) ∧
      join P t (some nonce') claimer.localCandidates text = .ok q ∧
      q.pairingKey = p.pairingKey ∧ ∀ h : Handover, Meets P publisher claimer p q h := by
  obtain ⟨sealed, hprep, hlen, hopen⟩ := prepare_ok P c nonce publisher
  obtain ⟨sealed', hprep', hlen', hopen'⟩ := prepare_ok P c nonce' claimer
  have hrid : (c.id P).length = Relay.rendezvousIDSize := c.length_id P
  refine ⟨⟨c.id P, c.pairingKey P, sealed⟩, ⟨c.id P, c.pairingKey P, sealed'⟩, ?_, ?_, rfl, fun h =>
    ?_⟩
  · rw [invite, hprep]
  · rw [join, htext]
    dsimp only
    rw [hprep']
  · -- requests, answers, and what `toPairing` makes of them
    refine ⟨request_passes .publish hrid hlen, request_passes .claim hrid hlen', ⟨?_, ?_⟩, ?_⟩
    · exact pairedMessage_carried rfl (by decide) hrid hlen' h.unescaped.2 h.short.2
        h.ticketLength.1 _
    · exact pairedMessage_carried rfl (by decide) hrid hlen h.unescaped.1 h.short.1 h.ticketLength.2
        _
    · intro rung rung'
      refine ⟨_, _, toPairing_paired hlen' h.ticketLength.1 hopen',
        toPairing_paired hlen h.ticketLength.2 hopen, rfl, rfl, rfl, rfl, ?_, ?_, rfl⟩
      · have hrole : rolePublisher ≠ roleClaimer := by decide
        exact decide_eq_false hrole
      · exact decide_eq_true rfl

/-! ### A meeting -/

def mixed (secret label : List UInt8) (n : ℕ) : List UInt8 :=
  (List.range n).map fun i =>
    secret.getD (i % secret.length) 0 + label.getD (i % label.length) 0 + UInt8.ofNat i

/-- A stream under a key and a nonce, and a tag over everything, instead of GCM. -/
def mixedSeal (nonce : Nonce) (key aad plain : List UInt8) : List UInt8 :=
  nonce.bytes ++ List.zipWith (· ^^^ ·) plain (mixed key nonce.bytes plain.length) ++
    mixed key (aad ++ plain) tagSize

def mixedOpen (key aad blob : List UInt8) : Option (List UInt8) :=
  let sealed := (blob.drop nonceSize).take (blob.length - nonceSize - tagSize)
  let plain := List.zipWith (· ^^^ ·) sealed (mixed key (blob.take nonceSize) sealed.length)
  if blob.drop (blob.length - tagSize) = mixed key (aad ++ plain) tagSize then some plain else none

theorem length_mixed (secret label : List UInt8) (n : ℕ) : (mixed secret label n).length = n := by
  rw [mixed, List.length_map, List.length_range]

theorem length_masked (plain key label : List UInt8) :
    (List.zipWith (· ^^^ ·) plain (mixed key label plain.length)).length = plain.length := by
  rw [List.length_zipWith, length_mixed, min_self]

theorem zipWith_xor_cancel : ∀ {as bs : List UInt8}, as.length = bs.length →
    List.zipWith (· ^^^ ·) (List.zipWith (· ^^^ ·) as bs) bs = as
  | [], [], _ => rfl
  | a :: as, b :: bs, h => by
    rw [List.zipWith_cons_cons, List.zipWith_cons_cons, zipWith_xor_cancel (Nat.succ.inj h),
      UInt8.xor_assoc, UInt8.xor_self, UInt8.xor_zero]

theorem length_mixedSeal (nonce : Nonce) (key aad plain : List UInt8) :
    (mixedSeal nonce key aad plain).length = nonceSize + plain.length + tagSize := by
  rw [mixedSeal, List.length_append, List.length_append, nonce.length_bytes, length_masked,
    length_mixed]

theorem mixedOpen_mixedSeal (nonce : Nonce) (key aad plain : List UInt8) :
    mixedOpen key aad (mixedSeal nonce key aad plain) = some plain := by
  have hlen := length_mixedSeal nonce key aad plain
  have hsealed := length_masked plain key nonce.bytes
  have hnonce := nonce.length_bytes
  -- the three parts are where they were put
  have htake : (mixedSeal nonce key aad plain).take nonceSize = nonce.bytes := by
    rw [mixedSeal, List.append_assoc, List.take_left' hnonce]
  have hmiddle : ((mixedSeal nonce key aad plain).drop nonceSize).take
      ((mixedSeal nonce key aad plain).length - nonceSize - tagSize) =
        List.zipWith (· ^^^ ·) plain (mixed key nonce.bytes plain.length) := by
    rw [hlen, mixedSeal, List.append_assoc, List.drop_left' hnonce, List.take_left']
    omega
  have htag : (mixedSeal nonce key aad plain).drop
      ((mixedSeal nonce key aad plain).length - tagSize) = mixed key (aad ++ plain) tagSize := by
    rw [hlen, mixedSeal, List.drop_left']
    rw [List.length_append, hnonce]
    omega
  have hplain := zipWith_xor_cancel (length_mixed key nonce.bytes plain.length).symm
  simp only [mixedOpen, htake, hmiddle, hsealed, hplain, htag, if_true]

/-- Keys that depend on the code and the label, and blobs that open under their key and label
only. -/
def mixing : Primitives where
  deriveKey := mixed
  sealWith := mixedSeal
  openSealed := mixedOpen
  length_deriveKey info _ _ _ := length_mixed _ info _
  open_seal nonce _ aad _ _ _ := mixedOpen_mixedSeal nonce _ aad _
  length_seal nonce _ aad _ _ _ := length_mixedSeal nonce _ aad _

def listening : Machine := ⟨some laptop, 7331, none⟩

def punching : Machine := ⟨some laptop, 0, some 4000⟩

theorem length_someNonce : (List.replicate 12 (9 : UInt8)).length = nonceSize := rfl

def someNonce : Nonce := ⟨List.replicate 12 9, length_someNonce⟩

/-- A relay that has observed `198.51.100.7:40000` and `203.0.113.5:7331`. -/
def someHandover : Handover where
  publisherAddr := [49, 57, 56, 46, 53, 49, 46, 49, 48, 48, 46, 55, 58, 52, 48, 48, 48, 48]
  claimerAddr := [50, 48, 51, 46, 48, 46, 49, 49, 51, 46, 53, 58, 55, 51, 51, 49]
  publisherTicket := List.replicate 32 1
  claimerTicket := List.replicate 32 2
  punchDelay := 250000000
  unescaped := by decide +kernel
  short := by decide +kernel
  ticketLength := ⟨rfl, rfl⟩

/-- The code is passed on with its first letter in lower case, and the two meet. -/
theorem invite_join_meet_lower :
    let c : Code := ⟨List.replicate 20 0, rfl⟩
    parseCode GoStrings.smallTable (97 :: c.string.drop 1) = .ok c ∧
      ∃ p q, invite mixing (some c) (some someNonce) listening.localCandidates = .ok (c.string, p) ∧
        join mixing GoStrings.smallTable (some someNonce) punching.localCandidates
          (97 :: c.string.drop 1) = .ok q ∧
        q.pairingKey = p.pairingKey ∧ Meets mixing listening punching p q someHandover := by
  intro c
  have hstring : c.string = 65 :: c.string.drop 1 := by decide +kernel
  have hcase : Edit c.string (97 :: c.string.drop 1) := by
    rw [hstring]
    exact .recase [] _ rfl
  -- one letter has changed its case
  have htrans : Transcription c (97 :: c.string.drop 1) := Relation.ReflTransGen.single hcase
  have htext : parseCode GoStrings.smallTable (97 :: c.string.drop 1) = .ok c := htrans.parseCode
  obtain ⟨p, q, hp, hq, hkey, hmeets⟩ := invite_join_meet mixing GoStrings.smallTable c htext
    listening punching someNonce someNonce
  exact ⟨htext, p, q, hp, hq, hkey, hmeets someHandover⟩

end Heimdall.Rendezvous
