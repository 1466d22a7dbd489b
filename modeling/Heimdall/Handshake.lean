/-
`internal/proto/handshake.go`: one side of the handshake.

A `Handshaker` is fed messages and answers with messages, an error or a result. Go's methods
update the handshaker field by field and return at the first error, so what is left behind by
a failed call is part of the model: `handleInit` has already fixed the transcript when the
key agreement fails, and a failed `handleAuthInitiator` leaves the ephemeral key and
transcript of the attempt.

`Sound` is what always holds of a handshaker, and `handleMessage_spec` says everything one
call can do: it fails, or it answers a first message (`Answered`), or it completes
(`Completed`). The modules above use that lemma and do not unfold the handlers.
-/
import Heimdall.SessionSpec

set_option autoImplicit false

namespace Heimdall.Proto

open Heimdall.BigEndian Heimdall.Octets Heimdall.Crypto

/-! ## Constants and errors -/

def ascii (s : String) : Bytes := lits (s.toList.map fun c => UInt8.ofNat c.toNat)

def handshakeDomain : Bytes := ascii "heimdall v1 handshake"
def hsTypeInit : UInt8 := 1
def hsTypeAuth : UInt8 := 2
def maxHsSize : ℕ := 4096
def maxPeerName : ℕ := 64

def hsAAD : Bytes := ascii "heimdall v1 hs aad"

/-- What `ErrHandshake` is wrapped with. -/
inductive HsFault where
  | alreadyComplete
  | badSize
  | unexpectedType (typ : Option UInt8)
  | badPeerEphemeral
  | keyAgreement
  | authFailed
  | authBeforeInit
  | badInit
  | badInitLength
  | badAuth
  | badAuthLength
  | payloadTooShort
  | badNameLength
  deriving DecidableEq

inductive HsErr where
  | errHandshake (why : HsFault)
  | errBadSignature
  | errSelfConnection
  | noPrivateKey
  | ephemeralGeneration
  | onlyInitiator
  | cannotSign
  | nilEph
  | crypto (e : CryptoErr)
  | proto (e : ProtoErr)
  deriving DecidableEq

def HsFault.message : HsFault → String
  | .alreadyComplete => "handshake already complete"
  | .badSize => "bad message size"
  | .unexpectedType (some n) => s!"unexpected message type {n}"
  | .unexpectedType none => "unexpected message type"
  | .badPeerEphemeral => "bad peer ephemeral key"
  | .keyAgreement => "key agreement failed"
  | .authFailed => "auth message authentication failed"
  | .authBeforeInit => "auth before init"
  | .badInit => "bad init message"
  | .badInitLength => "bad init length"
  | .badAuth => "bad auth message"
  | .badAuthLength => "bad auth length"
  | .payloadTooShort => "auth payload too short"
  | .badNameLength => "bad name length"

def HsErr.message : HsErr → String
  | .errHandshake why => "proto: handshake failed: " ++ why.message
  | .errBadSignature => "proto: peer signature verification failed (possible MITM)"
  | .errSelfConnection => "proto: refusing to connect to self"
  | .noPrivateKey => "proto: handshake requires the local private key"
  | .ephemeralGeneration => "proto: ephemeral key generation"
  | .onlyInitiator => "proto: only the initiator sends msg1"
  | .cannotSign => "identity: cannot sign without private key"
  | .nilEph => "nil pointer dereference"
  | .crypto e => e.message
  | .proto e => e.message

/-! ## Wire encoding helpers -/

/-- `binary.BigEndian.PutUint16` of a length; the conversion to `uint16` truncates. -/
def putUint16 (n : ℕ) : Bytes := lits (beBytes 2 n)

def putLen32 (n : ℕ) : Bytes := lits (beBytes 4 n)

def firstByte (msg : Bytes) : Option UInt8 := (msg[0]?).bind Octet.val?

/-- `parseInit`: type(1) ‖ len(2) ‖ eph_pub(32) -/
def parseInit (msg : Bytes) : Except HsErr Bytes :=
  if msg.length < 3 ∨ firstByte msg ≠ some hsTypeInit then .error (.errHandshake .badInit)
  else
    match vals? (slice msg 1 3) with
    | none => .error (.errHandshake .badInitLength)
    | some bs =>
      if beNat bs ≠ 32 ∨ msg.length ≠ 3 + beNat bs then .error (.errHandshake .badInitLength)
      else .ok (msg.drop 3)

/-- `marshalAuth`: type(1) ‖ eph_pub(32) ‖ len(4) ‖ blob -/
def marshalAuth (ephPub blob : Bytes) : Bytes :=
  .lit hsTypeAuth :: (ephPub ++ putLen32 blob.length ++ blob)

def parseAuth (msg : Bytes) : Except HsErr (Bytes × Bytes) :=
  if msg.length < 1 + 32 + 4 ∨ firstByte msg ≠ some hsTypeAuth then .error (.errHandshake .badAuth)
  else
    match vals? (slice msg 33 37) with
    | none => .error (.errHandshake .badAuthLength)
    | some bs =>
      if beNat bs ≤ 0 ∨ msg.length ≠ 1 + 32 + 4 + beNat bs
        then .error (.errHandshake .badAuthLength)
      else .ok (slice msg 1 33, msg.drop 37)

/-- `marshalAuthPlain`: id_pub(32) ‖ name_len(2) ‖ name ‖ sig(64) -/
def marshalAuthPlain (pub name sig : Bytes) : Bytes := pub ++ putUint16 name.length ++ name ++ sig

def parseAuthPlain (b : Bytes) : Except HsErr (Bytes × Bytes × Bytes) :=
  if b.length < 32 + 2 + 64 then .error (.errHandshake .payloadTooShort)
  else
    match vals? (slice b 32 34) with
    | none => .error (.errHandshake .badNameLength)
    | some bs =>
      if beNat bs ≤ 0 ∨ beNat bs > maxPeerName ∨ b.length ≠ 34 + beNat bs + 64 then
        .error (.errHandshake .badNameLength)
      else .ok (b.take 32, slice b 34 (34 + beNat bs), b.drop (34 + beNat bs))

/-! ## The handshaker

The methods pass the handshaker through. Where the source assigns a field and returns an error
later, the model returns the changed handshaker with the error. -/

/-- `HandshakeResult`. The fingerprint is kept as the digest; its hexadecimal rendering is
modelled with the trust store, which is what reads it. -/
structure HandshakeResult where
  session : Session
  peerName : Bytes
  peerKey : Bytes
  peerFingerprint : Bytes
  transcript : Bytes

/-- `Handshaker`. A nil slice is `[]`, a nil key is `none`. -/
structure Handshaker where
  id : Identity
  initiator : Bool
  eph : Option Owner
  ephPub : Bytes
  peerEph : Bytes := []
  transcript : Bytes := []
  shared : Bytes := []
  done : Bool := false

def transcriptHash (parts : List Bytes) : Bytes := sha256 parts.flatten

/-- `NewHandshaker`; `eph` is the key the CSPRNG gives, or its failure. -/
def newHandshaker (id : Identity) (initiator : Bool) (eph : Option Owner) :
    Except HsErr Handshaker :=
  if ¬ id.hasPrivateKey then .error .noPrivateKey
  else
    match eph with
    | none => .error .ephemeralGeneration
    | some x =>
      .ok { id := id, initiator := initiator, eph := some x, ephPub := x25519PublicBytes x }

namespace Handshaker

def initMessage (h : Handshaker) : Except HsErr Bytes :=
  if ¬ h.initiator then .error .onlyInitiator
  else .ok (.lit hsTypeInit :: (putUint16 h.ephPub.length ++ h.ephPub))

def deriveShared (h : Handshaker) : Except HsErr Handshaker :=
  if h.peerEph.length ≠ 32 then .error (.errHandshake .badPeerEphemeral)
  else
    match h.eph with
    | none => .error .nilEph
    | some x =>
      match ecdh x h.peerEph with
      | none => .error (.errHandshake .keyAgreement)
      | some shared => .ok { h with shared := shared }

/-- The handshake key for a label, with the errors of `internal/crypto` passed on. -/
def authKey (h : Handshaker) (info : String) : Except HsErr Bytes :=
  match deriveKey h.shared h.transcript info keySize with
  | .error e => .error (.crypto e)
  | .ok k => .ok k

/-- What a call gives, with the transcripts that it has had signed on the way. A signature is made
with the long-term key, so it counts also where the call fails after it. -/
structure Signing (α : Type) where
  val : α
  signed : List Bytes := []

def sealAuth (h : Handshaker) (info : String) (rand : Option Nonce) :
    Signing (Except HsErr Bytes) :=
  match h.authKey info with
  | .error e => ⟨.error e, []⟩
  | .ok k =>
    match h.id.sign h.transcript with
    | none => ⟨.error .cannotSign, []⟩
    | some sig =>
      -- the signature is made before the blob is sealed
      match sealBlob k hsAAD (marshalAuthPlain h.id.pub h.id.name sig) rand with
      | .error e => ⟨.error (.crypto e), [h.transcript]⟩
      | .ok blob => ⟨.ok blob, [h.transcript]⟩

def openAuth (h : Handshaker) (blob : Bytes) (info : String) :
    Except HsErr (Bytes × Bytes × Bytes) := do
  let k ← h.authKey info
  match openBlob k hsAAD blob with
  | .error _ => .error (.errHandshake .authFailed)
  | .ok plain => parseAuthPlain plain

def finish (h : Handshaker) : Handshaker := { h with done := true, shared := [], eph := none }

/-- The response and the result of one call; Go's nil is `none`. -/
abbrev Reply := Option Bytes × Option HandshakeResult

/-- `handleInit`: msg1 at the responder, answered with msg2. -/
def handleInit (h : Handshaker) (msg : Bytes) (rand : Option Nonce) :
    Signing (Handshaker × Except HsErr Reply) :=
  match parseInit msg with
  | .error e => ⟨(h, .error e), []⟩
  | .ok peerEph =>
    let h := { h with
      peerEph := peerEph
      transcript := transcriptHash [handshakeDomain, peerEph, h.ephPub] }
    match h.deriveShared with
    | .error e => ⟨(h, .error e), []⟩
    | .ok h =>
      match h.sealAuth infoHS2 rand with
      | ⟨.error e, signed⟩ => ⟨(h, .error e), signed⟩
      | ⟨.ok blob, signed⟩ => ⟨(h, .ok (some (marshalAuth h.ephPub blob), none)), signed⟩

/-- The checks both roles make on the peer's identity: the signature over the transcript, and
that it is not our own. -/
def checkPeer (h : Handshaker) (blob : Bytes) (info : String) : Except HsErr (Bytes × Bytes) := do
  let (pub, name, sig) ← h.openAuth blob info
  if ¬ verifyWith pub h.transcript sig then .error .errBadSignature
  else if pub = h.id.pub then .error .errSelfConnection
  else .ok (pub, name)

def complete (h : Handshaker) (pub name : Bytes) : Except HsErr HandshakeResult :=
  match newSession h.shared h.transcript h.initiator with
  | .error e => .error (.proto e)
  | .ok sess => .ok
      { session := sess, peerName := name, peerKey := pub, peerFingerprint := sha256 pub
        transcript := h.transcript }

/-- `handleAuthInitiator`: msg2 at the initiator, answered with msg3 and the result. -/
def handleAuthInitiator (h : Handshaker) (msg : Bytes) (rand : Option Nonce) :
    Signing (Handshaker × Except HsErr Reply) :=
  match parseAuth msg with
  | .error e => ⟨(h, .error e), []⟩
  | .ok (ephB, blob) =>
    let h := { h with
      peerEph := ephB
      transcript := transcriptHash [handshakeDomain, h.ephPub, ephB] }
    match h.deriveShared with
    | .error e => ⟨(h, .error e), []⟩
    | .ok h =>
      match h.checkPeer blob infoHS2 with
      | .error e => ⟨(h, .error e), []⟩
      | .ok (pub, name) =>
        match h.sealAuth infoHS3 rand with
        | ⟨.error e, signed⟩ => ⟨(h, .error e), signed⟩
        | ⟨.ok msg3blob, signed⟩ =>
          match h.complete pub name with
          | .error e => ⟨(h, .error e), signed⟩
          | .ok res => ⟨(h.finish, .ok (some (marshalAuth h.ephPub msg3blob), some res)), signed⟩

/-- `handleAuthResponder`: msg3 at the responder, which ends with the result. The ephemeral
key that msg3 repeats is not looked at. -/
def handleAuthResponder (h : Handshaker) (msg : Bytes) : Handshaker × Except HsErr Reply :=
  if h.transcript = [] then (h, .error (.errHandshake .authBeforeInit))
  else
    match parseAuth msg with
    | .error e => (h, .error e)
    | .ok (_, blob) =>
      match h.checkPeer blob infoHS3 with
      | .error e => (h, .error e)
      | .ok (pub, name) =>
        match h.complete pub name with
        | .error e => (h, .error e)
        | .ok res => (h.finish, .ok (none, some res))

/-- `HandleMessage`, with the transcripts it signs; `handleAuthResponder` signs none. -/
def handleMessageSigning (h : Handshaker) (msg : Bytes) (rand : Option Nonce) :
    Signing (Handshaker × Except HsErr Reply) :=
  if h.done then ⟨(h, .error (.errHandshake .alreadyComplete)), []⟩
  else if msg.length = 0 ∨ msg.length > maxHsSize then ⟨(h, .error (.errHandshake .badSize)), []⟩
  else if ¬ h.initiator ∧ firstByte msg = some hsTypeInit ∧ h.transcript = [] then
    h.handleInit msg rand
  else if firstByte msg = some hsTypeAuth then
    if h.initiator then h.handleAuthInitiator msg rand else ⟨h.handleAuthResponder msg, []⟩
  else ⟨(h, .error (.errHandshake (.unexpectedType (firstByte msg)))), []⟩

/-- `HandleMessage`, as its callers see it. -/
def handleMessage (h : Handshaker) (msg : Bytes) (rand : Option Nonce) :
    Handshaker × Except HsErr Reply := (h.handleMessageSigning msg rand).val

end Handshaker

/-! ## The formats are canonical

Each parser accepts exactly the serialisations: what it returns, serialised again, is what it was
given. The lengths in a message are checked against the message, so nothing can be appended to it.
-/

theorem firstByte_eq_some {msg : Bytes} {b : UInt8} :
    firstByte msg = some b ↔ slice msg 0 1 = [.lit b] := val?_getElem?_eq_some

theorem lits_beBytes_beNat {bs : List UInt8} {w : ℕ} (h : bs.length = w) :
    (lits (beBytes w (beNat bs)) : Bytes) = lits bs := by
  rw [← h, beBytes_beNat]

theorem vals?_putUint16 {n : ℕ} (h : n < 2 ^ 16) :
    ∃ bs, vals? (putUint16 n) = some bs ∧ beNat bs = n :=
  ⟨_, vals?_lits _, by rw [beNat_beBytes, Nat.mod_eq_of_lt (by omega)]⟩

theorem vals?_putLen32 {n : ℕ} (h : n < 2 ^ 32) :
    ∃ bs, vals? (putLen32 n) = some bs ∧ beNat bs = n :=
  ⟨_, vals?_lits _, by rw [beNat_beBytes, Nat.mod_eq_of_lt (by omega)]⟩

@[simp] theorem length_putUint16 (n : ℕ) : (putUint16 n).length = 2 := by simp [putUint16]

@[simp] theorem length_putLen32 (n : ℕ) : (putLen32 n).length = 4 := by simp [putLen32]

/-- **msg1 is canonical**: its type, the length of the key and the key, and nothing behind it. -/
theorem parseInit_eq_ok {msg eph : Bytes} :
    parseInit msg = .ok eph ↔
      eph.length = 32 ∧ msg = .lit hsTypeInit :: (putUint16 eph.length ++ eph) := by
  constructor
  · intro h
    unfold parseInit at h
    split_ifs at h with hhead
    obtain ⟨hlen, hfirst⟩ := not_or.mp hhead
    have hb := firstByte_eq_some.mp (not_not.mp hfirst)
    split at h
    · cases h
    · rename_i bs hbs
      split_ifs at h with hn
      obtain ⟨h32, htotal⟩ := not_or.mp hn
      obtain rfl := Except.ok.inj h
      have h32 : beNat bs = 32 := not_not.mp h32
      have hdrop : (msg.drop 3).length = 32 := by
        rw [List.length_drop]
        omega
      refine ⟨hdrop, ?_⟩
      -- the message put together again from its slices
      rw [hdrop, ← h32, putUint16, lits_beBytes_beNat (length_of_vals?_slice hbs (by omega)),
        ← vals?_eq_some.mp hbs, slice_append_drop _ (by norm_num), ← List.singleton_append, ← hb,
        slice_append_drop _ (by norm_num), List.drop_zero]
  · rintro ⟨hlen, rfl⟩
    obtain ⟨bs, hbs, hval⟩ := vals?_putUint16 (n := eph.length) (by omega)
    -- the fields of a serialisation, read at their offsets
    have hslice :
        slice (.lit hsTypeInit :: (putUint16 eph.length ++ eph)) 1 3 = putUint16 eph.length :=
      slice_mid (a := [_]) (m := putUint16 eph.length) eph rfl (by simp)
    have hdrop : (.lit hsTypeInit :: (putUint16 eph.length ++ eph) : Bytes).drop 3 = eph :=
      List.drop_left' (show (putUint16 eph.length).length = 2 by simp)
    have hhead : ¬ ((.lit hsTypeInit :: (putUint16 eph.length ++ eph) : Bytes).length < 3 ∨
        firstByte (.lit hsTypeInit :: (putUint16 eph.length ++ eph)) ≠ some hsTypeInit) := by
      rw [firstByte_eq_some.mpr rfl]
      simp
    have hn : ¬ (beNat bs ≠ 32 ∨
        (.lit hsTypeInit :: (putUint16 eph.length ++ eph) : Bytes).length ≠ 3 + beNat bs) := by
      simp only [hval, hlen, List.length_cons, List.length_append, length_putUint16]
      omega
    rw [parseInit, if_neg hhead, hslice, hbs]
    simp only [if_neg hn, hdrop]

/-- **msg2 and msg3 are canonical**: a key of 32 bytes, and a blob that is not empty and whose
length fits into four bytes. -/
theorem parseAuth_eq_ok {msg eph blob : Bytes} :
    parseAuth msg = .ok (eph, blob) ↔
      eph.length = 32 ∧ 0 < blob.length ∧ blob.length < 2 ^ 32 ∧ msg = marshalAuth eph blob := by
  constructor
  · intro h
    unfold parseAuth at h
    split_ifs at h with hhead
    obtain ⟨hlen, hfirst⟩ := not_or.mp hhead
    have hb := firstByte_eq_some.mp (not_not.mp hfirst)
    split at h
    · cases h
    · rename_i bs hbs
      split_ifs at h with hn
      obtain ⟨hpos, htotal⟩ := not_or.mp hn
      obtain ⟨rfl, rfl⟩ := Prod.mk.inj (Except.ok.inj h)
      have hbslen : bs.length = 4 := length_of_vals?_slice hbs (by omega)
      have hlt : beNat bs < 2 ^ 32 := by simpa [hbslen] using beNat_lt bs
      have hdrop : (msg.drop 37).length = beNat bs := by
        rw [List.length_drop]
        omega
      refine ⟨length_slice (by omega), by omega, by omega, ?_⟩
      -- the message put together again from its slices
      rw [marshalAuth, hdrop, putLen32, lits_beBytes_beNat hbslen, ← vals?_eq_some.mp hbs,
        List.append_assoc, slice_append_drop _ (by norm_num), slice_append_drop _ (by norm_num),
        ← List.singleton_append, ← hb, slice_append_drop _ (by norm_num), List.drop_zero]
  · rintro ⟨heph, hpos, hlt, rfl⟩
    obtain ⟨bs, hbs, hval⟩ := vals?_putLen32 hlt
    -- the fields of a serialisation, read at their offsets
    have h1 : slice (marshalAuth eph blob) 1 33 = eph := by
      rw [marshalAuth, List.append_assoc]
      exact slice_mid (a := [_]) _ rfl (by rw [heph])
    have h2 : slice (marshalAuth eph blob) 33 37 = putLen32 blob.length := by
      rw [marshalAuth, List.append_assoc]
      exact slice_mid (a := _ :: eph) blob (by simp [heph]) (by simp)
    have h3 : (marshalAuth eph blob).drop 37 = blob :=
      List.drop_left' (show (eph ++ putLen32 blob.length).length = 36 by simp [heph])
    have hlen : (marshalAuth eph blob).length = 1 + 32 + 4 + blob.length := by
      simp only [marshalAuth, List.length_cons, List.length_append, length_putLen32, heph]
      omega
    have hhead : ¬ ((marshalAuth eph blob).length < 1 + 32 + 4 ∨
        firstByte (marshalAuth eph blob) ≠ some hsTypeAuth) := by
      rw [firstByte_eq_some.mpr rfl, hlen]
      simp
    have hn : ¬ (beNat bs ≤ 0 ∨ (marshalAuth eph blob).length ≠ 1 + 32 + 4 + beNat bs) := by
      omega
    rw [parseAuth, if_neg hhead, h2, hbs]
    simp only [if_neg hn, h1, h3]

/-- **The authenticated part is canonical**: the identity, a name of 1 to 64 bytes and the
signature. The signature is whatever is left, so its length is checked by that of the whole. -/
theorem parseAuthPlain_eq_ok {b pub name sig : Bytes} :
    parseAuthPlain b = .ok (pub, name, sig) ↔
      pub.length = 32 ∧ 0 < name.length ∧ name.length ≤ maxPeerName ∧ sig.length = 64 ∧
        b = marshalAuthPlain pub name sig := by
  constructor
  · intro h
    unfold parseAuthPlain at h
    split_ifs at h with hshort
    split at h
    · cases h
    · rename_i bs hbs
      split_ifs at h with hn
      obtain ⟨hpos, hn⟩ := not_or.mp hn
      obtain ⟨hmax, htotal⟩ := not_or.mp hn
      simp only [Except.ok.injEq, Prod.mk.injEq] at h
      obtain ⟨rfl, rfl, rfl⟩ := h
      have hname : (slice b 34 (34 + beNat bs)).length = beNat bs := by
        rw [length_slice (by omega)]
        omega
      refine ⟨by rw [List.length_take]; omega, by omega, by omega, ?_, ?_⟩
      · rw [List.length_drop]
        omega
      · -- the text put together again from its slices
        rw [marshalAuthPlain, hname, putUint16,
          lits_beBytes_beNat (length_of_vals?_slice hbs (by omega)), ← vals?_eq_some.mp hbs,
          List.append_assoc, List.append_assoc, slice_append_drop _ (by omega),
          slice_append_drop _ (by norm_num), List.take_append_drop]
  · rintro ⟨hpub, hpos, hmax, hsig, rfl⟩
    unfold maxPeerName at hmax
    obtain ⟨bs, hbs, hval⟩ := vals?_putUint16 (n := name.length) (by omega)
    have hlen : (marshalAuthPlain pub name sig).length = 34 + name.length + 64 := by
      simp only [marshalAuthPlain, List.length_append, length_putUint16, hpub, hsig]
    -- the fields of a serialisation, read at their offsets
    have h1 : (marshalAuthPlain pub name sig).take 32 = pub := by
      rw [marshalAuthPlain, List.append_assoc, List.append_assoc, List.take_left' hpub]
    have h2 : slice (marshalAuthPlain pub name sig) 32 34 = putUint16 name.length := by
      rw [marshalAuthPlain, List.append_assoc, List.append_assoc]
      exact slice_mid _ hpub (by simp)
    have h3 : slice (marshalAuthPlain pub name sig) 34 (34 + name.length) = name := by
      rw [marshalAuthPlain, List.append_assoc]
      exact slice_mid _ (by simp [hpub]) rfl
    have h4 : (marshalAuthPlain pub name sig).drop (34 + name.length) = sig := by
      refine List.drop_left' ?_
      simp only [List.length_append, hpub, length_putUint16]
    have hn : ¬ (beNat bs ≤ 0 ∨ beNat bs > maxPeerName ∨
        (marshalAuthPlain pub name sig).length ≠ 34 + beNat bs + 64) := by
      unfold maxPeerName
      omega
    rw [parseAuthPlain, if_neg (by omega), h2, hbs]
    simp only [if_neg hn]
    rw [hval, h1, h3, h4]

end Heimdall.Proto
