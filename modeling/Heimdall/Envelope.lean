/-
The messages of a rendezvous and their sizes, `internal/rendezvous/messages.go` and the functions of
the client and the relay that fill them in.

A sealed candidate list passes six limits on its way: the cap of `SealCandidates`, that of
`EncodeMessage` at the client, `checkRID` at the relay, `EncodeMessage` again for the message to the
other side, and the caps of `unb64` and `OpenCandidates` there. In between it is base64, which takes
four bytes for three. The code is spent once `pair` has begun, so a list that got past the first
limit and not past a later one would cost the user their invite; there is none
(`size_limits_agree`).

The envelope is JSON as `json.Marshal` writes it, with `omitempty` on all fields but the type. What
is encoded is decoded again as it is (`decodeMessage_encodeMessage`), but for bytes that are not
UTF-8.

`crypto.Seal` is a parameter here, as `crypto.Open` is in `Targets`.
-/
import Heimdall.Client
import Heimdall.JsonCompact
import Heimdall.PeerFile
import Heimdall.Targets

set_option autoImplicit false

namespace Heimdall.Rendezvous

open Heimdall.Json (Ends Literal Writable compact compactMembers intText quote readInt)
open Heimdall.Peers (GoString decodeText encodeToString foldName)
open Heimdall.Utf8 (pieces sanitize)

/-! ## The envelope -/

def maxControlFrame : ℕ := 8 * 2 ^ 10

structure Message where
  type : GoString := []
  rendezvousID : GoString := []
  candidates : GoString := []
  observed : GoString := []
  role : GoString := []
  peerCandidates : GoString := []
  peerObserved : GoString := []
  punchInMS : Int64 := 0
  ticket : GoString := []
  reason : GoString := []
  deriving DecidableEq

/-- The fields of a `Message` that are strings. -/
inductive TextField where
  | type
  | rendezvousID
  | candidates
  | observed
  | role
  | peerCandidates
  | peerObserved
  | ticket
  | reason
  deriving DecidableEq

namespace TextField

def get (m : Message) : TextField → GoString
  | type => m.type
  | rendezvousID => m.rendezvousID
  | candidates => m.candidates
  | observed => m.observed
  | role => m.role
  | peerCandidates => m.peerCandidates
  | peerObserved => m.peerObserved
  | ticket => m.ticket
  | reason => m.reason

def set (m : Message) (x : GoString) : TextField → Message
  | type => { m with type := x }
  | rendezvousID => { m with rendezvousID := x }
  | candidates => { m with candidates := x }
  | observed => { m with observed := x }
  | role => { m with role := x }
  | peerCandidates => { m with peerCandidates := x }
  | peerObserved => { m with peerObserved := x }
  | ticket => { m with ticket := x }
  | reason => { m with reason := x }

/-- The names in the text: `type`, `rid`, `cand`, `observed`, `role`, `peer_cand`, `peer_observed`,
`ticket` and `reason`. -/
def tag : TextField → GoString
  | type => [116, 121, 112, 101]
  | rendezvousID => [114, 105, 100]
  | candidates => [99, 97, 110, 100]
  | observed => [111, 98, 115, 101, 114, 118, 101, 100]
  | role => [114, 111, 108, 101]
  | peerCandidates => [112, 101, 101, 114, 95, 99, 97, 110, 100]
  | peerObserved => [112, 101, 101, 114, 95, 111, 98, 115, 101, 114, 118, 101, 100]
  | ticket => [116, 105, 99, 107, 101, 116]
  | reason => [114, 101, 97, 115, 111, 110]

end TextField

/-- The fields of a `Message`. -/
inductive MsgField where
  | text (f : TextField)
  | punchInMS
  deriving DecidableEq

/-- The names of the fields; that of `punchInMS` is `punch_in_ms`. -/
def MsgField.tag : MsgField → GoString
  | text f => f.tag
  | punchInMS => [112, 117, 110, 99, 104, 95, 105, 110, 95, 109, 115]

def MsgField.all : List MsgField :=
  [.text .type, .text .rendezvousID, .text .candidates, .text .observed, .text .role,
   .text .peerCandidates, .text .peerObserved, .punchInMS, .text .ticket, .text .reason]

def MsgField.value (m : Message) : MsgField → Json
  | text t => .str (quote (t.get m))
  | punchInMS => .num (intText m.punchInMS.toInt)

def MsgField.isZero (m : Message) : MsgField → Bool
  | text t => t.get m = []
  | punchInMS => m.punchInMS = 0

def MsgField.omitempty : MsgField → Bool
  | text .type => false
  | _ => true

def MsgField.member (m : Message) (f : MsgField) : List (GoString × Json) :=
  if f.omitempty && f.isZero m then [] else [(f.tag, f.value m)]

def Message.json (m : Message) : Json := .obj (MsgField.all.flatMap (MsgField.member m))

/-- The errors of `EncodeMessage` and `DecodeMessage`. -/
inductive MessageErr where
  | controlTooLarge
  | badControlMessage
  | noType
  deriving DecidableEq

def encodeMessage (m : Message) : Except MessageErr (List UInt8) :=
  if maxControlFrame < m.json.compact.length then .error .controlTooLarge else .ok m.json.compact

/-- The field a key means: the one of that name, or else the first one of that name but for case. -/
def msgFieldOf (key : GoString) : Option MsgField :=
  (MsgField.all.find? fun f => f.tag = key) <|>
    MsgField.all.find? fun f => foldName f.tag = foldName key

def decodeInt64 (old : Int64) : Json → Option Int64
  | .null => some old
  | .num raw =>
    (readInt raw).bind fun n => if -2 ^ 63 ≤ n ∧ n < 2 ^ 63 then some (.ofInt n) else none
  | _ => none

def MsgField.decode (m : Message) (v : Json) : MsgField → Option Message
  | text f => (decodeText (f.get m) v).map fun x => f.set m x
  | punchInMS => (decodeInt64 m.punchInMS v).map fun x => { m with punchInMS := x }

def decodeMsgMember (m : Message) (kv : GoString × Json) : Option Message :=
  match (Json.unquote kv.1).bind msgFieldOf with
  | none => some m
  | some f => f.decode m kv.2

def unmarshalMessage (buf : List UInt8) : Option Message :=
  match Json.parse buf with
  | some .null => some {}
  | some (.obj kvs) => kvs.foldlM decodeMsgMember {}
  | _ => none

def decodeMessage (buf : List UInt8) : Except MessageErr Message :=
  if maxControlFrame < buf.length then .error .controlTooLarge
  else
    match unmarshalMessage buf with
    | none => .error .badControlMessage
    | some m => if m.type = [] then .error .noType else .ok m

/-! ## There and back -/

/-- The message with its texts as a reader gets them. -/
def Message.sanitized (m : Message) : Message :=
  { type := sanitize m.type
    rendezvousID := sanitize m.rendezvousID
    candidates := sanitize m.candidates
    observed := sanitize m.observed
    role := sanitize m.role
    peerCandidates := sanitize m.peerCandidates
    peerObserved := sanitize m.peerObserved
    punchInMS := m.punchInMS
    ticket := sanitize m.ticket
    reason := sanitize m.reason }

theorem msgFieldOf_tag (f : MsgField) : (Json.unquote f.tag).bind msgFieldOf = some f := by
  rcases f with f | _
  · cases f <;> decide +kernel
  · decide +kernel

theorem decodeMsgMember_tag (m : Message) (f : MsgField) (v : Json) :
    decodeMsgMember m (f.tag, v) = f.decode m v := by
  simp only [decodeMsgMember, msgFieldOf_tag]

theorem literal_tag (f : MsgField) : Literal f.tag := by
  refine Literal.of_plain (List.all_eq_true.mp ?_)
  rcases f with f | _
  · cases f <;> rfl
  · rfl

theorem member_cases (m : Message) (f : MsgField) :
    (f.member m = [] ∧ f.isZero m = true) ∨ f.member m = [(f.tag, f.value m)] := by
  unfold MsgField.member
  split_ifs with hzero
  · exact .inl ⟨rfl, (Bool.and_eq_true_iff.mp hzero).2⟩
  · exact .inr rfl

theorem foldlM_text {m acc : Message} (t : TextField) (hacc : t.set acc [] = acc) :
    (MsgField.member m (.text t)).foldlM decodeMsgMember acc
      = some (t.set acc (sanitize (t.get m))) := by
  rcases member_cases m (.text t) with ⟨hnone, hzero⟩ | hmember
  · -- nothing was written, and nothing is what the field holds
    have hnil : t.get m = [] := of_decide_eq_true hzero
    rw [hnone, hnil, show sanitize [] = [] from rfl, hacc]
    rfl
  · rw [hmember, List.foldlM_cons, decodeMsgMember_tag, MsgField.decode, MsgField.value,
      Peers.decodeText_quote]
    rfl

theorem foldlM_punchInMS {m acc : Message} (hacc : { acc with punchInMS := 0 } = acc) :
    (MsgField.member m .punchInMS).foldlM decodeMsgMember acc =
      some { acc with punchInMS := m.punchInMS } := by
  rcases member_cases m .punchInMS with ⟨hnone, hzero⟩ | hmember
  · have hnil : m.punchInMS = 0 := of_decide_eq_true hzero
    rw [hnone, hnil, hacc]
    rfl
  · have hrange : -2 ^ 63 ≤ m.punchInMS.toInt ∧ m.punchInMS.toInt < 2 ^ 63 :=
      ⟨m.punchInMS.le_toInt, m.punchInMS.toInt_lt⟩
    rw [hmember, List.foldlM_cons, decodeMsgMember_tag, MsgField.decode, MsgField.value,
      decodeInt64, Json.readInt_intText, Option.bind_some, if_pos hrange, Int64.ofInt_toInt]
    rfl

/-- A member is read into the field that has written it, and leaves the others alone. The members
are folded in the order they were written, with those before the current one already decoded. -/
theorem foldlM_members (m : Message) :
    (MsgField.all.flatMap (MsgField.member m)).foldlM decodeMsgMember {} = some m.sanitized := by
  simp only [MsgField.all, List.flatMap_cons, List.flatMap_nil, List.foldlM_append]
  -- every field is empty when its member is read
  refine Option.bind_eq_some_iff.mpr ⟨_, foldlM_text .type rfl, ?_⟩
  refine Option.bind_eq_some_iff.mpr ⟨_, foldlM_text .rendezvousID rfl, ?_⟩
  refine Option.bind_eq_some_iff.mpr ⟨_, foldlM_text .candidates rfl, ?_⟩
  refine Option.bind_eq_some_iff.mpr ⟨_, foldlM_text .observed rfl, ?_⟩
  refine Option.bind_eq_some_iff.mpr ⟨_, foldlM_text .role rfl, ?_⟩
  refine Option.bind_eq_some_iff.mpr ⟨_, foldlM_text .peerCandidates rfl, ?_⟩
  refine Option.bind_eq_some_iff.mpr ⟨_, foldlM_text .peerObserved rfl, ?_⟩
  refine Option.bind_eq_some_iff.mpr ⟨_, foldlM_punchInMS rfl, ?_⟩
  refine Option.bind_eq_some_iff.mpr ⟨_, foldlM_text .ticket rfl, ?_⟩
  refine Option.bind_eq_some_iff.mpr ⟨_, foldlM_text .reason rfl, ?_⟩
  rfl

theorem writable_value (m : Message) (f : MsgField) : (f.value m).Writable := by
  cases f with
  | text t => exact Json.literal_quote (t.get m)
  | punchInMS => exact ⟨m.punchInMS.toInt, rfl⟩

theorem writable_json (m : Message) : m.json.Writable := by
  refine Json.writableMembers_iff.mpr fun kv hkv => ?_
  obtain ⟨f, -, hf⟩ := List.mem_flatMap.mp hkv
  rcases member_cases m f with ⟨hnone, -⟩ | hmember
  · rw [hnone] at hf
    exact absurd hf List.not_mem_nil
  · rw [hmember] at hf
    obtain rfl := List.mem_singleton.mp hf
    exact ⟨literal_tag f, writable_value m f⟩

/-- **What is encoded is decoded**, but for bytes that are not UTF-8. The type has to be there
after that, as `DecodeMessage` refuses a message without one. -/
theorem decodeMessage_encodeMessage {m : Message} {buf : List UInt8} (h : encodeMessage m = .ok buf)
    (htype : sanitize m.type ≠ []) : decodeMessage buf = .ok m.sanitized := by
  unfold encodeMessage at h
  split_ifs at h with hlarge
  obtain rfl := Except.ok.inj h
  have hread : unmarshalMessage m.json.compact = some m.sanitized := by
    rw [unmarshalMessage, Json.parse_compact (writable_json m)]
    exact foldlM_members m
  rw [decodeMessage, if_neg hlarge, hread]
  exact if_neg htype

/-! ## Sizes -/

/-- The bytes of all texts of a message, as they are written. -/
def Message.textLength (m : Message) : ℕ :=
  ([.type, .rendezvousID, .candidates, .observed, .role, .peerCandidates, .peerObserved, .ticket,
    .reason].map fun t => (quote (TextField.get m t)).length).sum

def MsgField.size (m : Message) (f : MsgField) : ℕ := f.tag.length + (f.value m).compact.length + 4

theorem sum_member_le (m : Message) (f : MsgField) :
    ((f.member m).map fun kv => kv.1.length + kv.2.compact.length + 4).sum ≤ f.size m := by
  rcases member_cases m f with ⟨hnone, -⟩ | hmember
  · rw [hnone]
    exact Nat.zero_le _
  · rw [hmember, List.map_singleton, List.sum_singleton]
    exact le_rfl

theorem size_text (m : Message) (t : TextField) :
    MsgField.size m (.text t) = t.tag.length + (quote (t.get m)).length + 6 := by
  rw [MsgField.size, MsgField.value, compact, List.length_cons, List.length_append,
    List.length_singleton]
  rfl

theorem size_punchInMS (m : Message) : MsgField.size m .punchInMS ≤ 35 := by
  have hlow := m.punchInMS.le_toInt
  have hhigh := m.punchInMS.toInt_lt
  have hlen : (intText m.punchInMS.toInt).length ≤ 20 := Json.length_intText (by decide) (by omega)
  rw [MsgField.size, MsgField.value, compact]
  simp only [MsgField.tag, List.length_cons, List.length_nil]
  omega

/-- A message has to fit into a control frame. Its length is bounded field by field, and a field
that is left out counts as if it were there. -/
theorem length_json_le (m : Message) : m.json.compact.length ≤ 148 + m.textLength := by
  have hpunch := size_punchInMS m
  have hmembers := calc
    (compactMembers (MsgField.all.flatMap (MsgField.member m))).length
      ≤ ((MsgField.all.flatMap (MsgField.member m)).map fun kv =>
          kv.1.length + kv.2.compact.length + 4).sum := Json.length_compactMembers _
    _ = (MsgField.all.map fun f => ((f.member m).map fun kv =>
          kv.1.length + kv.2.compact.length + 4).sum).sum := by
        simp only [MsgField.all, List.flatMap_cons, List.flatMap_nil, List.map_append,
          List.sum_append, List.map_cons, List.map_nil, List.sum_cons, List.sum_nil]
    _ ≤ (MsgField.all.map (MsgField.size m)).sum := List.sum_le_sum fun f _ => sum_member_le m f
  simp only [MsgField.all, List.map_cons, List.map_nil, List.sum_cons, List.sum_nil, size_text,
    TextField.tag, List.length_cons, List.length_nil] at hmembers
  rw [Message.json, compact, List.length_cons, List.length_append, List.length_singleton]
  simp only [Message.textLength, List.map_cons, List.map_nil, List.sum_cons, List.sum_nil]
  simp only [MsgField.all] at hmembers ⊢
  -- two brackets, nine names with six bytes each around them and their texts, and the number
  omega

/-- `SendMessage` and `RecvMessage` on the other side, as far as the message goes. -/
def Message.Carried (m : Message) : Prop :=
  ∃ buf, encodeMessage m = .ok buf ∧ buf.length ≤ maxControlFrame ∧ decodeMessage buf = .ok m

theorem sanitized_eq {m : Message} (h : ∀ t : TextField, quote (t.get m) = t.get m) :
    m.sanitized = m := by
  have hclean : ∀ t : TextField, sanitize (t.get m) = t.get m := fun t =>
    Json.sanitize_of_quote (h t)
  unfold Message.sanitized
  rw [show sanitize m.type = m.type from hclean .type,
    show sanitize m.rendezvousID = m.rendezvousID from hclean .rendezvousID,
    show sanitize m.candidates = m.candidates from hclean .candidates,
    show sanitize m.observed = m.observed from hclean .observed,
    show sanitize m.role = m.role from hclean .role,
    show sanitize m.peerCandidates = m.peerCandidates from hclean .peerCandidates,
    show sanitize m.peerObserved = m.peerObserved from hclean .peerObserved,
    show sanitize m.ticket = m.ticket from hclean .ticket,
    show sanitize m.reason = m.reason from hclean .reason]

theorem Message.carried {m : Message} (h : ∀ t : TextField, quote (t.get m) = t.get m)
    (htype : m.type ≠ []) (hlen : 148 + m.textLength ≤ maxControlFrame) : m.Carried := by
  have hfits : m.json.compact.length ≤ maxControlFrame := (length_json_le m).trans hlen
  have henc : encodeMessage m = .ok m.json.compact := if_neg (not_lt.mpr hfits)
  have hclean : sanitize m.type = m.type := Json.sanitize_of_quote (h .type)
  refine ⟨m.json.compact, henc, hfits, ?_⟩
  rw [decodeMessage_encodeMessage henc (by rwa [hclean]), sanitized_eq h]

theorem quote_encodeToString (bs : List UInt8) : quote (encodeToString bs) = encodeToString bs :=
  Json.quote_of_forall (Peers.encodeToString_forall (by decide) (by decide) bs)

/-! ## What the client sends -/

/-- The errors of `SealCandidates`: `crypto.Seal` fails, or the list is too large. -/
inductive SealErr where
  | sealFailed
  | tooLarge (length : ℕ)
  deriving DecidableEq

/-- `{"addr": …, "kind": …}` -/
def candidateJson (c : Candidate) : Json :=
  .obj [([97, 100, 100, 114], .str (quote c.addr)), ([107, 105, 110, 100], .str (quote c.kind))]

/-- `{"candidates": …}`; a nil slice is `null`. -/
def candidateSetJson (set : Option (List Candidate)) : Json :=
  .obj [([99, 97, 110, 100, 105, 100, 97, 116, 101, 115],
    match set with
    | none => .null
    | some cs => .arr (cs.map candidateJson))]

/-- `SealCandidates`, with `crypto.Seal` for its first argument. -/
def sealCandidates {β : Type} (sealBytes : List β → List UInt8 → List UInt8 → Option (List β))
    (pairingKey : List β) (set : Option (List Candidate)) : Except SealErr (List β) :=
  match sealBytes pairingKey candidateAAD (candidateSetJson set).compact with
  | none => .error .sealFailed
  | some blob =>
    if maxSealedCandidates < blob.length then .error (.tooLarge blob.length) else .ok blob

/-- **What `SealCandidates` returns** is the sealed list, and not too large. -/
theorem sealCandidates_ok {β : Type}
    {sealBytes : List β → List UInt8 → List UInt8 → Option (List β)}
    {pairingKey blob : List β} {set : Option (List Candidate)}
    (h : sealCandidates sealBytes pairingKey set = .ok blob) :
    sealBytes pairingKey candidateAAD (candidateSetJson set).compact = some blob ∧
      blob.length ≤ maxSealedCandidates := by
  unfold sealCandidates at h
  split at h
  · exact absurd h nofun
  · next hseal =>
    split_ifs at h with hlarge
    rw [← Except.ok.inj h]
    exact ⟨hseal, not_lt.mp hlarge⟩

/-- `MsgPublish` and `MsgClaim` -/
def MsgType.text : MsgType → GoString
  | .publish => [112, 117, 98, 108, 105, 115, 104]
  | .claim => [99, 108, 97, 105, 109]

def Request.message (r : Request) : Message where
  type := r.typ.text
  rendezvousID := r.rid
  candidates := encodeToString r.candidates

end Heimdall.Rendezvous

namespace Heimdall.Relay

open Heimdall.Peers (GoString encodeToString)
open Heimdall.Rendezvous (Message decodeString maxControlFrame)

/-! ## What the relay makes of it -/

def rendezvousIDSize : ℕ := 16

def decodeExact (s : GoString) (want : ℕ) : Option (List UInt8) :=
  match decodeString s with
  | none => none
  | some b => if b.length ≠ want then none else some b

/-- The refusals of `checkRID`: `malformed rendezvous id` and `candidate list too large`. -/
inductive Refusal where
  | malformedRID
  | candidatesTooLarge
  deriving DecidableEq

def checkRID (msg : Message) : Except Refusal GoString :=
  match decodeExact msg.rendezvousID rendezvousIDSize with
  | none => .error .malformedRID
  | some _ =>
    if maxControlFrame < msg.candidates.length then .error .candidatesTooLarge
    else .ok msg.rendezvousID

def msgPaired : GoString := [112, 97, 105, 114, 101, 100]

def rolePublisher : GoString := [112, 117, 98, 108, 105, 115, 104, 101, 114]

def roleClaimer : GoString := [99, 108, 97, 105, 109, 101, 114]

def milliseconds (d : Int64) : Int64 := d / 1000000

def pairedMessage (role rid peerSealed peerObserved : GoString) (punchDelay : Int64)
    (ticket : List UInt8) : Message where
  type := msgPaired
  rendezvousID := rid
  role := role
  peerCandidates := peerSealed
  peerObserved := peerObserved
  punchInMS := milliseconds punchDelay
  ticket := encodeToString ticket

end Heimdall.Relay

namespace Heimdall.Rendezvous

open Heimdall.Json (quote)
open Heimdall.Peers (GoString encodeToString)
open Heimdall.Relay (checkRID pairedMessage rendezvousIDSize roleClaimer rolePublisher)
open Heimdall.Utf8 (pieces)

/-! ## A rendezvous -/

/-- One side: a candidate list that it could seal, the address the relay has observed of it, and the
ticket it gets. -/
structure Side (sealBytes : List UInt8 → List UInt8 → List UInt8 → Option (List UInt8)) where
  pairingKey : List UInt8
  candidates : Option (List Candidate)
  sealed : List UInt8
  accepted : sealCandidates sealBytes pairingKey candidates = .ok sealed
  observed : GoString
  unescaped : quote observed = observed
  short : (pieces observed).length ≤ 64
  ticket : List UInt8
  ticketLength : ticket.length = ticketSize

/-- Two sides that meet under a rendezvous ID. -/
structure Meeting (sealBytes : List UInt8 → List UInt8 → List UInt8 → Option (List UInt8)) where
  rid : List UInt8
  ridLength : rid.length = rendezvousIDSize
  publisher : Side sealBytes
  claimer : Side sealBytes
  punchDelay : Int64

/-- The fields of a `paired` message that `toPairing` reads. -/
def Message.paired (m : Message) : PairedMessage :=
  ⟨m.role, m.peerCandidates, m.peerObserved, m.punchInMS.toInt, m.ticket⟩

section Meeting

variable {sealBytes : List UInt8 → List UInt8 → List UInt8 → Option (List UInt8)}

def Meeting.publish (x : Meeting sealBytes) : Message :=
  Request.message ⟨.publish, encodeToString x.rid, x.publisher.sealed⟩

def Meeting.claim (x : Meeting sealBytes) : Message :=
  Request.message ⟨.claim, encodeToString x.rid, x.claimer.sealed⟩

def Meeting.toPublisher (x : Meeting sealBytes) : Message :=
  pairedMessage rolePublisher x.claim.rendezvousID x.claim.candidates x.claimer.observed
    x.punchDelay
    x.publisher.ticket

def Meeting.toClaimer (x : Meeting sealBytes) : Message :=
  pairedMessage roleClaimer x.claim.rendezvousID x.publish.candidates x.publisher.observed
    x.punchDelay
    x.claimer.ticket

/-- `toPairing` takes the message unless the list does not authenticate or does not parse; then the
ticket and the filtered list are those that were sent. -/
def Accepted (env : Opening UInt8) (m : Message) (sealed ticket : List UInt8) : Prop :=
  ∀ (observed : GoString) (rung : Rung) (pairingKey : List UInt8),
    (∀ e, toPairing env observed rung m.paired pairingKey = .error e →
      e = .notAuthenticated ∨ e = .badCandidateList) ∧
    ∀ plain cs, env.openSealed pairingKey candidateAAD sealed = some plain →
      env.unmarshal plain = some cs →
      ∃ p, toPairing env observed rung m.paired pairingKey = .ok p ∧ p.ticket = ticket ∧
        p.peerCandidates = goNet.validateCandidates cs

theorem Side.sealed_le (side : Side sealBytes) : side.sealed.length ≤ maxSealedCandidates :=
  (sealCandidates_ok side.accepted).2

theorem length_encodeToString_le {bs : List UInt8} {n : ℕ} (h : bs.length ≤ n) :
    (encodeToString bs).length ≤ 4 * ((n + 2) / 3) := by
  rw [Peers.length_encodeToString]
  omega

variable {rid sealed ticket : List UInt8} {observed : GoString}

theorem request_passes (typ : MsgType) (hrid : rid.length = rendezvousIDSize)
    (hsealed : sealed.length ≤ maxSealedCandidates) :
    (Request.message ⟨typ, encodeToString rid, sealed⟩).Carried ∧
      checkRID (Request.message ⟨typ, encodeToString rid, sealed⟩) = .ok (encodeToString rid) := by
  have hridText := length_encodeToString_le hrid.le
  have hsealedText := length_encodeToString_le hsealed
  unfold rendezvousIDSize at hridText
  unfold maxSealedCandidates at hsealedText
  refine ⟨Message.carried (fun t => ?_) ?_ ?_, ?_⟩
  · cases t with
    | type => cases typ <;> rfl
    | rendezvousID => exact quote_encodeToString rid
    | candidates => exact quote_encodeToString sealed
    | _ => rfl
  · cases typ <;> nofun
  · have htype : (quote typ.text).length ≤ 7 := by cases typ <;> decide
    simp only [Message.textLength, List.map_cons, List.map_nil, List.sum_cons, List.sum_nil,
      TextField.get, Request.message, quote_encodeToString, show (quote []).length = 0 from rfl]
    unfold maxControlFrame
    -- 7 + 24 + 5464 bytes of text
    omega
  · have hexact : Relay.decodeExact (encodeToString rid) rendezvousIDSize = some rid := by
      rw [Relay.decodeExact, Peers.decodeString_encodeToString]
      exact if_neg (not_not_intro hrid)
    have hfits : ¬ maxControlFrame < (encodeToString sealed).length := by
      unfold maxControlFrame
      omega
    rw [checkRID, Request.message, hexact]
    exact if_neg hfits

theorem pairedMessage_carried {role : GoString} (hrole : quote role = role)
    (hroleLen : role.length ≤ 9)
    (hrid : rid.length = rendezvousIDSize) (hsealed : sealed.length ≤ maxSealedCandidates)
    (hobserved : quote observed = observed) (hshort : (pieces observed).length ≤ 64)
    (hticket : ticket.length = ticketSize) (punchDelay : Int64) :
    (pairedMessage role (encodeToString rid) (encodeToString sealed) observed punchDelay
      ticket).Carried := by
  have hridText := length_encodeToString_le hrid.le
  have hsealedText := length_encodeToString_le hsealed
  have hticketText := length_encodeToString_le hticket.le
  have hobservedLen := Json.length_le_pieces observed
  unfold rendezvousIDSize at hridText
  unfold maxSealedCandidates at hsealedText
  unfold ticketSize at hticketText
  refine Message.carried (fun t => ?_) nofun ?_
  · cases t with
    | rendezvousID => exact quote_encodeToString rid
    | role => exact hrole
    | peerCandidates => exact quote_encodeToString sealed
    | peerObserved => exact hobserved
    | ticket => exact quote_encodeToString ticket
    | _ => rfl
  · simp only [Message.textLength, List.map_cons, List.map_nil, List.sum_cons, List.sum_nil,
      TextField.get, pairedMessage, quote_encodeToString, hrole, hobserved,
      show (quote []).length = 0 from rfl, show (quote Relay.msgPaired).length = 6 from rfl]
    unfold maxControlFrame
    -- 6 + 24 + 9 + 5464 + 44 bytes of text, and four for each rune of the address
    omega

theorem unb64_encodeToString {bs : List UInt8} {max : ℕ} (h : bs.length ≤ max) :
    unb64 (encodeToString bs) max = .ok bs := by
  rw [unb64, Peers.decodeString_encodeToString]
  exact if_neg (not_lt.mpr h)

theorem pairedMessage_accepted (env : Opening UInt8) (role rid : GoString)
    (hsealed : sealed.length ≤ maxSealedCandidates) (hticket : ticket.length = ticketSize)
    (punchDelay : Int64) :
    Accepted env (pairedMessage role rid (encodeToString sealed) observed punchDelay ticket) sealed
      ticket := by
  intro own rung pairingKey
  -- the checks of both fields are passed, and `OpenCandidates` is left
  simp only [toPairing, Message.paired, pairedMessage, unb64_encodeToString hsealed,
    unb64_encodeToString hticket.le, openCandidates, if_neg (not_lt.mpr hsealed), hticket, ne_eq,
    not_true_eq_false, if_false]
  refine ⟨fun e he => ?_, fun plain cs hopen hcs => ?_⟩
  · cases hopen : env.openSealed pairingKey candidateAAD sealed with
    | none =>
      rw [hopen] at he
      exact .inl (Except.error.inj he).symm
    | some plain =>
      rw [hopen] at he
      cases hcs : env.unmarshal plain with
      | none =>
        simp only [hcs] at he
        exact .inr (Except.error.inj he).symm
      | some cs =>
        simp only [hcs] at he
        exact absurd he (by simp)
  · simp only [hopen, hcs]
    exact ⟨_, rfl, rfl, rfl⟩

end Meeting

/-- **The size limits of a rendezvous agree.** Whatever `SealCandidates` has accepted on both sides,
the requests and the `paired` messages encode and decode within `MaxControlFrame`, the requests pass
`checkRID`, and `toPairing` takes the sealed lists and the tickets. -/
theorem size_limits_agree
    (sealBytes : List UInt8 → List UInt8 → List UInt8 → Option (List UInt8)) (env : Opening UInt8)
    (x : Meeting sealBytes) :
    (x.publish.Carried ∧ checkRID x.publish = .ok (encodeToString x.rid)) ∧
      (x.claim.Carried ∧ checkRID x.claim = .ok (encodeToString x.rid)) ∧
      (x.toPublisher.Carried ∧ Accepted env x.toPublisher x.claimer.sealed x.publisher.ticket) ∧
      (x.toClaimer.Carried ∧ Accepted env x.toClaimer x.publisher.sealed x.claimer.ticket) := by
  have hpublisher := x.publisher.sealed_le
  have hclaimer := x.claimer.sealed_le
  refine ⟨request_passes .publish x.ridLength hpublisher,
    request_passes .claim x.ridLength hclaimer,
    ⟨?_, ?_⟩, ⟨?_, ?_⟩⟩
  · exact pairedMessage_carried rfl (by decide) x.ridLength hclaimer x.claimer.unescaped
      x.claimer.short x.publisher.ticketLength x.punchDelay
  · exact pairedMessage_accepted env _ _ hclaimer x.publisher.ticketLength x.punchDelay
  · exact pairedMessage_carried rfl (by decide) x.ridLength hpublisher x.publisher.unescaped
      x.publisher.short x.claimer.ticketLength x.punchDelay
  · exact pairedMessage_accepted env _ _ hpublisher x.claimer.ticketLength x.punchDelay

/-- The length of what `crypto.Seal` makes, a nonce and a tag more. -/
def paddedSeal (_ _ plain : List UInt8) : Option (List UInt8) := some (List.replicate 28 0 ++ plain)

def fullSet : Option (List Candidate) := some [⟨List.replicate 4030 97, []⟩]

def fullBlob : List UInt8 := List.replicate 28 0 ++ (candidateSetJson fullSet).compact

theorem length_fullBlob : fullBlob.length = maxSealedCandidates := by
  have hquote : quote (List.replicate 4030 97) = List.replicate 4030 97 :=
    Json.quote_of_forall fun b hb => by
      rw [List.eq_of_mem_replicate hb]
      decide
  have hnil : quote [] = [] := rfl
  simp only [fullBlob, fullSet, candidateSetJson, candidateJson, List.map_cons, List.map_nil,
    Json.compact, Json.compactMembers, Json.compactElements, hquote, hnil, List.length_append,
    List.length_cons, List.length_nil, List.length_replicate, maxSealedCandidates]
  norm_num

theorem sealCandidates_fullSet (pairingKey : List UInt8) :
    sealCandidates paddedSeal pairingKey fullSet = .ok fullBlob := by
  have hseal : paddedSeal pairingKey candidateAAD (candidateSetJson fullSet).compact
      = some fullBlob := by
    rw [paddedSeal, fullBlob]
  simp only [sealCandidates, hseal]
  exact if_neg (not_lt.mpr length_fullBlob.le)

def fullSide : Side paddedSeal where
  pairingKey := List.replicate 32 7
  candidates := fullSet
  sealed := fullBlob
  accepted := sealCandidates_fullSet _
  observed := [49, 57, 56, 46, 53, 49, 46, 49, 48, 48, 46, 55, 58, 52, 48, 48, 48, 48]
  unescaped := by decide +kernel
  short := by decide +kernel
  ticket := List.replicate 32 0
  ticketLength := rfl

/-- What `Open` and `Unmarshal` make of the largest list. -/
def fullOpening : Opening UInt8 where
  openSealed _ _ blob := some (blob.drop 28)
  unmarshal plain := if plain = (candidateSetJson fullSet).compact then fullSet else none

def fullMeeting : Meeting paddedSeal := ⟨List.replicate 16 1, rfl, fullSide, fullSide, 250000000⟩

/-- The largest lists go both ways, and are taken. -/
theorem size_limits_agree_full :
    (fullMeeting.publisher.sealed.length = maxSealedCandidates ∧
        fullMeeting.claimer.sealed.length = maxSealedCandidates) ∧
      fullMeeting.publish.Carried ∧ fullMeeting.toPublisher.Carried ∧
        fullMeeting.toClaimer.Carried ∧
      ∃ p, toPairing fullOpening [] .tlsDirect fullMeeting.toClaimer.paired (List.replicate 32 7) =
        .ok p ∧ p.ticket = List.replicate 32 0 := by
  obtain ⟨hpublish, -, hpublisher, hclaimer, htaken⟩ :=
    size_limits_agree paddedSeal fullOpening fullMeeting
  have hopen : fullOpening.openSealed (List.replicate 32 7) candidateAAD fullBlob =
      some (candidateSetJson fullSet).compact :=
    congrArg some (List.drop_left' List.length_replicate)
  have hread : fullOpening.unmarshal (candidateSetJson fullSet).compact = fullSet := by
    unfold fullOpening
    dsimp only
    rw [if_pos rfl]
  obtain ⟨p, hp, hticket, -⟩ := (htaken [] .tlsDirect (List.replicate 32 7)).2 _ _ hopen hread
  exact ⟨⟨length_fullBlob, length_fullBlob⟩, hpublish.1, hpublisher.1, hclaimer, p, hp, hticket⟩

end Heimdall.Rendezvous
