/-
What one call of `HandleMessage` does.

`Sound x a name h` is what always holds of a handshaker of the identity key `a` with the
ephemeral key `x`. The transcript is that of its own and the peer's ephemeral key, in the
order its role prescribes, and once a responder has a transcript, or either role is done, it
never changes again (`Fixed`). `handleMessage_spec` is the one lemma the modules above use:
a call fails, or answers a first message (`Answered`), or completes (`Completed`); the last
two say which key was agreed, which signature was sent and which one was verified.
-/
import Heimdall.Handshake

set_option autoImplicit false

namespace Heimdall.Proto

open Heimdall.BigEndian Heimdall.Octets Heimdall.Crypto

/-! ## The terms of the handshake in closed form

What the handlers compute depends on two owners, two names and a nonce only. These are the terms
that `Answered` and `Completed` below speak of; nothing after this section mentions `deriveKey`. -/

/-- The transcript of a role's own and the peer's ephemeral key. -/
def transcriptOf (initiator : Bool) (own peer : Bytes) : Bytes :=
  if initiator then transcriptHash [handshakeDomain, own, peer]
  else transcriptHash [handshakeDomain, peer, own]

def authKeyOf (info : String) (shared transcript : Bytes) : Bytes :=
  block (.hkdf info keySize) [shared, transcript] keySize

/-- The plaintext of the auth blob that the identity key `a` signs. -/
def authPlainOf (a : Owner) (name transcript : Bytes) : Bytes :=
  marshalAuthPlain (ed25519PublicBytes a) name (block (.ed25519Sign a) [transcript] 64)

def authBlobOf (a : Owner) (name : Bytes) (info : String) (shared transcript : Bytes) (n : Nonce) :
    Bytes :=
  lits n.bytes ++ block .gcm [authKeyOf info shared transcript, lits n.bytes, hsAAD,
    authPlainOf a name transcript] ((authPlainOf a name transcript).length + tagSize)

@[simp] theorem length_transcriptOf (initiator : Bool) (own peer : Bytes) :
    (transcriptOf initiator own peer).length = 32 := by
  unfold transcriptOf
  split_ifs <;> exact length_block _ _ _

@[simp] theorem length_authKeyOf (info : String) (shared transcript : Bytes) :
    (authKeyOf info shared transcript).length = keySize := length_block _ _ _

@[simp] theorem length_ed25519PublicBytes (a : Owner) : (ed25519PublicBytes a).length = 32 :=
  length_block _ _ _

@[simp] theorem length_x25519PublicBytes (x : Owner) : (x25519PublicBytes x).length = 32 :=
  length_block _ _ _

/-- The secret the owners of two ephemeral keys share. -/
def dhOf (x y : Owner) : Bytes := block (.x25519 s(x, y)) [] 32

theorem dhOf_ne_nil (x y : Owner) : dhOf x y ≠ [] :=
  ne_nil_of_length (length_block _ _ _)

theorem transcriptOf_ne_nil (initiator : Bool) (own peer : Bytes) :
    transcriptOf initiator own peer ≠ [] :=
  ne_nil_of_length (length_transcriptOf initiator own peer)

/-- **The transcript determines both ephemeral keys and their order.** So two handshakers with one
transcript have the same keys if they are in the same role, and each has the other's key
otherwise. The keys have to be of equal length, as nothing separates them in the hash. -/
theorem transcriptOf_inj {i i' : Bool} {own own' peer peer' : Bytes} (ho : own.length = 32)
    (ho' : own'.length = 32) (hp : peer.length = 32) (hp' : peer'.length = 32)
    (h : transcriptOf i own peer = transcriptOf i' own' peer') :
    (if i then (own, peer) else (peer, own)) = if i' then (own', peer') else (peer', own') := by
  have hcat : ∀ {a b a' b' : Bytes}, a.length = 32 → a'.length = 32 →
      transcriptHash [handshakeDomain, a, b] = transcriptHash [handshakeDomain, a', b'] →
      (a, b) = (a', b') := by
    intro a b a' b' ha ha' heq
    have hflat := List.append_cancel_left (sha256_inj heq)
    obtain ⟨h1, h2⟩ := List.append_inj hflat (by rw [ha, ha'])
    simp only [List.flatten_cons, List.flatten_nil, List.append_nil] at h2
    rw [h1, h2]
  unfold transcriptOf at h
  rcases i <;> rcases i' <;> simp only [if_true, Bool.false_eq_true, if_false] at h ⊢ <;>
    apply hcat <;> assumption

/-! ## The helpers of the handlers

One fact for each helper that the handlers call. With them the handlers are unfolded once, in the
next section, and never again. -/

namespace Handshaker

variable {h h' : Handshaker} {x a : Owner} {name : Bytes}

/-- `deriveShared` needs the ephemeral key, which `finish` drops, and a peer key that X25519
accepts. It sets the secret and leaves the rest alone. -/
theorem deriveShared_eq_ok :
    h.deriveShared = .ok h' ↔
      ∃ x shared, h.eph = some x ∧ ecdh x h.peerEph = some shared ∧
        h' = { h with shared := shared } := by
  unfold deriveShared
  by_cases hlen : h.peerEph.length ≠ 32
  · -- `NewPublicKey` and `ECDH` refuse the same lengths
    have hnone : ∀ x, ecdh x h.peerEph = none := fun x => if_pos hlen
    rw [if_pos hlen]
    simp [hnone]
  · rw [if_neg hlen]
    rcases h.eph with _ | x
    · simp
    · rcases hx : ecdh x h.peerEph with _ | shared
      · simp [hx]
      · simp [hx, eq_comm]

theorem authKey_eq (hne : h.shared ≠ []) (info : String) :
    h.authKey info = .ok (authKeyOf info h.shared h.transcript) := by
  rw [authKey, deriveKey_ok hne]
  rfl

/-- Without a shared secret there is no key: HKDF refuses an empty one. A responder whose key
agreement has failed ends up here with every auth message that follows. -/
theorem authKey_nil (hnil : h.shared = []) (info : String) :
    h.authKey info = .error (.crypto .emptySecret) := by
  rw [authKey, hnil]
  rfl

theorem sealAuth_some (hne : h.shared ≠ []) (hid : h.id = identityOf a name) (info : String)
    (n : Nonce) : h.sealAuth info (some n)
      = ⟨.ok (authBlobOf a name info h.shared h.transcript n), [h.transcript]⟩ := by
  have hsign : (identityOf a name).sign h.transcript
      = some (block (.ed25519Sign a) [h.transcript] 64) := rfl
  rw [sealAuth, authKey_eq hne, hid]
  simp only [hsign, sealBlob_ok (length_authKeyOf _ _ _)]
  rfl

/-- `sealAuth` succeeds exactly when there is a nonce. The secret is there by then and the
identity has its private key, so the CSPRNG is all that can fail. -/
theorem sealAuth_eq_ok (hne : h.shared ≠ []) (hid : h.id = identityOf a name) {info : String}
    {rand : Option Nonce} {blob : Bytes} :
    (h.sealAuth info rand).val = .ok blob ↔
      ∃ n, rand = some n ∧ blob = authBlobOf a name info h.shared h.transcript n := by
  rcases rand with _ | n
  · have hsign : (identityOf a name).sign h.transcript
        = some (block (.ed25519Sign a) [h.transcript] 64) := rfl
    rw [sealAuth, authKey_eq hne, hid]
    simp [hsign, sealBlob]
  · rw [sealAuth_some hne hid]
    simp [eq_comm]

/-- What `checkPeer` has established when it succeeds: the blob opens under the key of this
transcript, the lengths are right, the signature is one of the transcript by the key that is
presented, and that key is not the own one. The last is what keeps a handshaker from talking to
itself. -/
theorem checkPeer_eq_ok (hne : h.shared ≠ []) {blob : Bytes} {info : String} {pub pname : Bytes} :
    h.checkPeer blob info = .ok (pub, pname) ↔
      ∃ sig, openBlob (authKeyOf info h.shared h.transcript) hsAAD blob
          = .ok (marshalAuthPlain pub pname sig) ∧
        pub.length = 32 ∧ 0 < pname.length ∧ pname.length ≤ maxPeerName ∧ sig.length = 64 ∧
        verifyWith pub h.transcript sig = true ∧ pub ≠ h.id.pub := by
  have hopen : ∀ plain, openBlob (authKeyOf info h.shared h.transcript) hsAAD blob = .ok plain →
      h.openAuth blob info = parseAuthPlain plain := by
    intro plain ho
    rw [openAuth, authKey_eq hne]
    simp only [bind, Except.bind, ho]
  constructor
  · -- the errors come in the order of the source: decryption, format, signature, own key
    intro hok
    rcases ho : openBlob (authKeyOf info h.shared h.transcript) hsAAD blob with e | plain
    · rw [checkPeer, openAuth, authKey_eq hne] at hok
      simp only [bind, Except.bind, ho] at hok
      exact absurd hok (by simp)
    · rw [checkPeer, hopen plain ho] at hok
      rcases hplain : parseAuthPlain plain with e | ⟨pub', name', sig⟩
      · simp only [hplain, bind, Except.bind] at hok
        exact absurd hok (by simp)
      · simp only [hplain, bind, Except.bind] at hok
        split_ifs at hok with hver hself
        obtain ⟨rfl, rfl⟩ := Prod.mk.inj (Except.ok.inj hok)
        obtain ⟨h1, h2, h3, h4, rfl⟩ := parseAuthPlain_eq_ok.mp hplain
        exact ⟨sig, rfl, h1, h2, h3, h4, hver, hself⟩
  · rintro ⟨sig, ho, h1, h2, h3, h4, hver, hself⟩
    rw [checkPeer, hopen _ ho]
    simp only [parseAuthPlain_eq_ok.mpr ⟨h1, h2, h3, h4, rfl⟩, bind, Except.bind]
    rw [if_neg (not_not.mpr hver), if_neg hself]

theorem checkPeer_nil (hnil : h.shared = []) (blob : Bytes) (info : String) :
    h.checkPeer blob info = .error (.crypto .emptySecret) := by
  rw [checkPeer, openAuth, authKey_nil hnil]
  rfl

theorem complete_eq (hne : h.shared ≠ []) (pub pname : Bytes) :
    h.complete pub pname = .ok
      { session := freshSession (rootOf h.shared h.transcript) h.initiator, peerName := pname
        peerKey := pub, peerFingerprint := sha256 pub, transcript := h.transcript } := by
  rw [complete, newSession_eq hne]

/-! ## The invariant of a handshaker -/

/-- What always holds of a handshaker of the identity key `a` with the ephemeral key `x`. -/
structure Sound (x a : Owner) (name : Bytes) (h : Handshaker) : Prop where
  id : h.id = identityOf a name
  ephPub : h.ephPub = x25519PublicBytes x
  eph : h.done = false → h.eph = some x
  transcript : h.transcript = [] ∨
    h.transcript = transcriptOf h.initiator (x25519PublicBytes x) h.peerEph
  peerEph : h.transcript ≠ [] → h.peerEph.length = 32
  fresh : h.transcript = [] → h.initiator = false → h.shared = []
  shared : h.initiator = false → h.shared = [] ∨ ecdh x h.peerEph = some h.shared

/-- The transcript can no longer change. -/
def Fixed (h : Handshaker) : Prop := h.done = true ∨ (h.initiator = false ∧ h.transcript ≠ [])

theorem newHandshaker_sound {x a : Owner} {name : Bytes} {initiator : Bool} {h : Handshaker}
    (hnew : newHandshaker (identityOf a name) initiator (some x) = .ok h) :
    h.Sound x a name ∧ h.initiator = initiator ∧ h.done = false ∧ h.transcript = [] := by
  rw [newHandshaker, if_neg (by simp [identityOf, Identity.hasPrivateKey])] at hnew
  obtain rfl := Except.ok.inj hnew
  exact ⟨⟨rfl, rfl, fun _ => rfl, .inl rfl, fun hc => absurd rfl hc, fun _ _ => rfl, fun _ =>
    .inl rfl⟩, rfl, rfl, rfl⟩

/-- A responder has answered msg1 with msg2. -/
structure Answered (x a : Owner) (name : Bytes) (h : Handshaker) (resp : Bytes) : Prop where
  role : h.initiator = false
  going : h.done = false
  transcript : h.transcript = transcriptOf false (x25519PublicBytes x) h.peerEph
  agreed : ecdh x h.peerEph = some h.shared
  reply : ∃ n, resp = marshalAuth (x25519PublicBytes x)
    (authBlobOf a name infoHS2 h.shared h.transcript n)

/-- The label under which a role receives the peer's auth blob. -/
def peerInfo (initiator : Bool) : String := if initiator then infoHS2 else infoHS3

/-- A handshaker has completed on `msg`, having agreed on `shared`. -/
structure Completed (x a : Owner) (name : Bytes) (h : Handshaker) (msg shared : Bytes)
    (resp : Option Bytes) (res : HandshakeResult) : Prop where
  done : h.done = true
  transcript : h.transcript = transcriptOf h.initiator (x25519PublicBytes x) h.peerEph
  agreed : ecdh x h.peerEph = some shared
  result : res.transcript = h.transcript
  session : res.session = freshSession (rootOf shared h.transcript) h.initiator
  peer : ∃ eph blob sig, msg = marshalAuth eph blob ∧
    openBlob (authKeyOf (peerInfo h.initiator) shared h.transcript) hsAAD blob
      = .ok (marshalAuthPlain res.peerKey res.peerName sig) ∧
    res.peerKey.length = 32 ∧ sig.length = 64 ∧ verifyWith res.peerKey h.transcript sig = true
  notSelf : res.peerKey ≠ ed25519PublicBytes a
  reply : if h.initiator then ∃ n, resp = some (marshalAuth (x25519PublicBytes x)
      (authBlobOf a name infoHS3 shared h.transcript n))
    else resp = none

/-- Everything a call can lead to. -/
def Outcome (x a : Owner) (name : Bytes) (h : Handshaker) (msg : Bytes)
    (r : Handshaker × Except HsErr Reply) : Prop :=
  r.1.Sound x a name ∧ r.1.initiator = h.initiator ∧
    (h.Fixed → r.1.Fixed ∧ r.1.transcript = h.transcript ∧ r.1.peerEph = h.peerEph ∧
      (r.1.done = false → h.done = false ∧ r.1.shared = h.shared)) ∧
    ((∃ e, r.2 = .error e ∧ r.1.done = h.done) ∨
      (∃ resp, r.2 = .ok (some resp, none) ∧ ¬ h.Fixed ∧ Answered x a name r.1 resp) ∨
      ∃ shared resp res, r.2 = .ok (resp, some res) ∧ Completed x a name r.1 msg shared resp res)

/-- A call that fails at once changes nothing. All the refusals of `HandleMessage` itself are of
this kind; those inside the handlers are not. -/
theorem Sound.outcome_error (hs : h.Sound x a name) (msg : Bytes) (e : HsErr) :
    Outcome x a name h msg (h, .error e) :=
  ⟨hs, rfl, fun hf => ⟨hf, rfl, rfl, fun hd => ⟨hd, rfl⟩⟩, .inl ⟨e, rfl, rfl⟩⟩

theorem shared_ne_nil {shared pub : Bytes} (hx : ecdh x pub = some shared) : shared ≠ [] :=
  ne_nil_of_length (ecdh_length hx)

/-- `handleInit`: msg1 is answered, or the call fails. A message that does not parse changes
nothing; after any other failure the transcript is set and the handshaker `Fixed`, so it never
answers another msg1. -/
theorem handleInit_spec (hs : h.Sound x a name) (hrole : h.initiator = false)
    (hdone : h.done = false) (hfirst : h.transcript = []) (msg : Bytes) (rand : Option Nonce) :
    Outcome x a name h msg (h.handleInit msg rand).val := by
  have hnotFixed : ¬ h.Fixed := by
    rintro (hc | ⟨-, hc⟩)
    · rw [hdone] at hc
      exact absurd hc (by simp)
    · exact hc hfirst
  unfold handleInit
  rcases hp : parseInit msg with e | peerEph
  · exact hs.outcome_error msg e
  obtain ⟨hlen, -⟩ := parseInit_eq_ok.mp hp
  have htr : transcriptHash [handshakeDomain, peerEph, h.ephPub]
      = transcriptOf false (x25519PublicBytes x) peerEph := by
    rw [hs.ephPub]
    rfl
  simp only [htr]
  -- the transcript is set before the agreement is attempted
  set h₁ : Handshaker := { h with
    peerEph := peerEph, transcript := transcriptOf false (x25519PublicBytes x) peerEph } with hh₁
  have hs₁ : ∀ shared, shared = [] ∨ ecdh x peerEph = some shared →
      Sound x a name { h₁ with shared := shared } := by
    intro shared hsh
    refine ⟨hs.id, hs.ephPub, fun _ => hs.eph hdone, .inr ?_, fun _ => hlen,
      fun hc => absurd hc (transcriptOf_ne_nil false (x25519PublicBytes x) peerEph), fun _ => hsh⟩
    show transcriptOf false _ _ = transcriptOf h.initiator _ _
    rw [hrole]
  rcases hd : h₁.deriveShared with e | h₂
  · exact ⟨hs₁ h.shared (.inl (hs.fresh hfirst hrole)), rfl, fun hc => absurd hc hnotFixed,
      .inl ⟨e, rfl, rfl⟩⟩
  obtain ⟨x', shared, hx', hagree, hh₂⟩ := deriveShared_eq_ok.mp hd
  obtain rfl : x' = x := Option.some.inj (hx'.symm.trans (hs.eph hdone))
  have hs₂ : h₂.Sound x' a name := by
    rw [hh₂]
    exact hs₁ shared (.inr hagree)
  have hne : h₂.shared ≠ [] := by
    rw [hh₂]
    exact shared_ne_nil hagree
  rcases hseal : h₂.sealAuth infoHS2 rand with ⟨e | blob, signed⟩
  · simp only [hseal]
    exact ⟨hs₂, by rw [hh₂], fun hc => absurd hc hnotFixed, .inl ⟨e, rfl, by rw [hh₂]⟩⟩
  · simp only [hseal]
    obtain ⟨n, -, rfl⟩ := (sealAuth_eq_ok hne hs₂.id).mp (congrArg Signing.val hseal)
    refine ⟨hs₂, by rw [hh₂], fun hc => absurd hc hnotFixed, .inr (.inl ⟨_, rfl, hnotFixed, ?_⟩)⟩
    rw [hs₂.ephPub]
    subst hh₂
    exact ⟨hrole, hdone, rfl, hagree, n, rfl⟩

/-- The end of a successful auth handler, in either role. Both handlers verify, seal if they are
the initiator's, and complete; what they have in common is stated for a handshaker that has its
secret. -/
theorem completed_of_check (hs : h.Sound x a name) {msg eph blob pub pname : Bytes}
    (htr : h.transcript = transcriptOf h.initiator (x25519PublicBytes x) h.peerEph)
    (hagree : ecdh x h.peerEph = some h.shared) (hp : parseAuth msg = .ok (eph, blob))
    (hcheck : h.checkPeer blob (peerInfo h.initiator) = .ok (pub, pname)) (resp : Option Bytes)
    (hreply : if h.initiator then ∃ n, resp = some (marshalAuth (x25519PublicBytes x)
        (authBlobOf a name infoHS3 h.shared h.transcript n)) else resp = none) :
    ∃ res, h.complete pub pname = .ok res ∧
      Completed x a name h.finish msg h.shared resp res := by
  have hne := shared_ne_nil hagree
  obtain ⟨sig, hopen, hlen, -, -, hsig, hver, hself⟩ := (checkPeer_eq_ok hne).mp hcheck
  obtain ⟨-, -, -, hmsg⟩ := parseAuth_eq_ok.mp hp
  refine ⟨_, complete_eq hne pub pname, rfl, htr, hagree, rfl, rfl,
    ⟨eph, blob, sig, hmsg, hopen, hlen, hsig, hver⟩, ?_, hreply⟩
  rw [hs.id] at hself
  exact hself

theorem Sound.finish (hs : h.Sound x a name) : h.finish.Sound x a name :=
  ⟨hs.id, hs.ephPub, fun hc => absurd hc (by simp [Handshaker.finish]), hs.transcript, hs.peerEph,
    fun _ _ => rfl, fun _ => .inl rfl⟩

/-- `handleAuthInitiator`: msg2 completes the initiator, or the call fails. A failed attempt
leaves its peer key and transcript, which the next attempt overwrites, since an initiator is not
`Fixed` before it is done. -/
theorem handleAuthInitiator_spec (hs : h.Sound x a name) (hrole : h.initiator = true)
    (hdone : h.done = false) (msg : Bytes) (rand : Option Nonce) :
    Outcome x a name h msg (h.handleAuthInitiator msg rand).val := by
  have hnotFixed : ¬ h.Fixed := by
    rintro (hc | ⟨hc, -⟩)
    · rw [hdone] at hc
      exact absurd hc (by simp)
    · rw [hrole] at hc
      exact absurd hc (by simp)
  unfold handleAuthInitiator
  rcases hp : parseAuth msg with e | ⟨ephB, blob⟩
  · exact hs.outcome_error msg e
  obtain ⟨hlen, -⟩ := parseAuth_eq_ok.mp hp
  have htr : transcriptHash [handshakeDomain, h.ephPub, ephB]
      = transcriptOf true (x25519PublicBytes x) ephB := by
    rw [hs.ephPub]
    rfl
  simp only [htr]
  -- every attempt starts by overwriting the peer's key and the transcript
  set h₁ : Handshaker := { h with
    peerEph := ephB, transcript := transcriptOf true (x25519PublicBytes x) ephB } with hh₁
  have hs₁ : ∀ shared, Sound x a name { h₁ with shared := shared } := by
    intro shared
    refine ⟨hs.id, hs.ephPub, fun _ => hs.eph hdone, .inr ?_, fun _ => hlen,
      fun hc => absurd hc (transcriptOf_ne_nil true (x25519PublicBytes x) ephB), fun hc => ?_⟩
    · show transcriptOf true _ _ = transcriptOf h.initiator _ _
      rw [hrole]
    · exact absurd (hrole.symm.trans hc) (by simp)
  rcases hd : h₁.deriveShared with e | h₂
  · exact ⟨hs₁ h.shared, rfl, fun hc => absurd hc hnotFixed, .inl ⟨e, rfl, rfl⟩⟩
  obtain ⟨x', shared, hx', hagree, hh₂⟩ := deriveShared_eq_ok.mp hd
  obtain rfl : x' = x := Option.some.inj (hx'.symm.trans (hs.eph hdone))
  have hs₂ : h₂.Sound x' a name := by
    rw [hh₂]
    exact hs₁ shared
  have hrole₂ : h₂.initiator = h.initiator := by rw [hh₂]
  have hdone₂ : h₂.done = h.done := by rw [hh₂]
  have hagree₂ : ecdh x' h₂.peerEph = some h₂.shared := by
    rw [hh₂]
    exact hagree
  have htr₂ : h₂.transcript = transcriptOf h₂.initiator (x25519PublicBytes x') h₂.peerEph := by
    rw [hh₂]
    show transcriptOf true _ _ = transcriptOf h.initiator _ _
    rw [hrole]
  have hfail : ∀ e : HsErr, Outcome x' a name h msg (h₂, .error e) := fun e =>
    ⟨hs₂, hrole₂, fun hc => absurd hc hnotFixed, .inl ⟨e, rfl, hdone₂⟩⟩
  simp only []
  rcases hcheck : h₂.checkPeer blob infoHS2 with e | ⟨pub, pname⟩
  · exact hfail e
  simp only []
  rcases hseal : h₂.sealAuth infoHS3 rand with ⟨e | msg3blob, signed⟩
  · exact hfail e
  obtain ⟨n, -, rfl⟩ :=
    (sealAuth_eq_ok (shared_ne_nil hagree₂) hs₂.id).mp (congrArg Signing.val hseal)
  have hinfo : peerInfo h₂.initiator = infoHS2 := by
    rw [hrole₂, hrole]
    rfl
  have hreply : if h₂.initiator then ∃ n', some (marshalAuth h₂.ephPub
      (authBlobOf a name infoHS3 h₂.shared h₂.transcript n))
        = some (marshalAuth (x25519PublicBytes x')
          (authBlobOf a name infoHS3 h₂.shared h₂.transcript n'))
      else some (marshalAuth h₂.ephPub (authBlobOf a name infoHS3 h₂.shared h₂.transcript n))
        = none := by
    rw [if_pos (hrole₂.trans hrole), hs₂.ephPub]
    exact ⟨n, rfl⟩
  obtain ⟨res, hres, hcompleted⟩ :=
    completed_of_check hs₂ htr₂ hagree₂ hp (hinfo ▸ hcheck) _ hreply
  simp only [hres]
  exact ⟨hs₂.finish, hrole₂, fun hc => absurd hc hnotFixed, .inr (.inr ⟨_, _, _, rfl, hcompleted⟩)⟩

/-- `handleAuthResponder`: msg3 completes the responder, or nothing has changed. The key that the
message repeats in the clear is not looked at: the transcript is that of msg1. -/
theorem handleAuthResponder_spec (hs : h.Sound x a name) (hrole : h.initiator = false)
    (msg : Bytes) : Outcome x a name h msg (h.handleAuthResponder msg) := by
  unfold handleAuthResponder
  by_cases hnil : h.transcript = []
  · rw [if_pos hnil]
    exact hs.outcome_error msg _
  rw [if_neg hnil]
  rcases hp : parseAuth msg with e | ⟨eph, blob⟩
  · exact hs.outcome_error msg e
  simp only []
  rcases hcheck : h.checkPeer blob infoHS3 with e | ⟨pub, pname⟩
  · exact hs.outcome_error msg e
  -- without a shared secret there is no key to open the blob with
  have hagree : ecdh x h.peerEph = some h.shared := by
    refine (hs.shared hrole).resolve_left fun hsh => ?_
    rw [checkPeer_nil hsh] at hcheck
    exact absurd hcheck (by simp)
  have htr := hs.transcript.resolve_left hnil
  have hinfo : peerInfo h.initiator = infoHS3 := by
    rw [hrole]
    rfl
  obtain ⟨res, hres, hcompleted⟩ := completed_of_check hs htr hagree hp (hinfo ▸ hcheck) none
    (by rw [hrole, if_neg (by simp)])
  simp only [hres]
  exact ⟨hs.finish, rfl, fun _ =>
    ⟨.inl rfl, rfl, rfl, fun hc => absurd hc (by simp [Handshaker.finish])⟩,
    .inr (.inr ⟨_, _, _, rfl, hcompleted⟩)⟩

/-- **`HandleMessage`**, every outcome: it fails, or answers a first message, or completes. The
transcript of a handshaker that is `Fixed` stays, whatever it is fed. All the modules on the
handshake start from this lemma. -/
theorem handleMessage_spec (hs : h.Sound x a name) (msg : Bytes) (rand : Option Nonce) :
    Outcome x a name h msg (h.handleMessage msg rand) := by
  unfold handleMessage handleMessageSigning
  by_cases hdone : h.done = true
  · rw [if_pos hdone]
    exact hs.outcome_error msg _
  have hgoing : h.done = false := by simpa using hdone
  rw [if_neg hdone]
  by_cases hsize : msg.length = 0 ∨ msg.length > maxHsSize
  · rw [if_pos hsize]
    exact hs.outcome_error msg _
  rw [if_neg hsize]
  -- an init message that is not the first falls through to the last case, and so does one to an
  -- initiator
  by_cases hinit : ¬ h.initiator ∧ firstByte msg = some hsTypeInit ∧ h.transcript = []
  · rw [if_pos hinit]
    exact handleInit_spec hs (by simpa using hinit.1) hgoing hinit.2.2 msg rand
  rw [if_neg hinit]
  by_cases hauth : firstByte msg = some hsTypeAuth
  · rw [if_pos hauth]
    by_cases hrole : h.initiator = true
    · rw [if_pos hrole]
      exact handleAuthInitiator_spec hs hrole hgoing msg rand
    · rw [if_neg hrole]
      exact handleAuthResponder_spec hs (by simpa using hrole) msg
  · rw [if_neg hauth]
    exact hs.outcome_error msg _

/-! ## The undisturbed exchange -/

theorem length_authBlobOf (a : Owner) (name : Bytes) (info : String) (shared transcript : Bytes)
    (n : Nonce) : (authBlobOf a name info shared transcript n).length = 126 + name.length := by
  simp only [authBlobOf, authPlainOf, marshalAuthPlain, List.length_append, length_lits,
    n.length_bytes, length_block, length_ed25519PublicBytes, length_putUint16, nonceSize, tagSize]
  omega

theorem openBlob_authBlobOf (a : Owner) (name : Bytes) (info : String) (shared transcript : Bytes)
    (n : Nonce) :
    openBlob (authKeyOf info shared transcript) hsAAD (authBlobOf a name info shared transcript n)
      = .ok (authPlainOf a name transcript) :=
  openBlob_eq_ok.mpr ⟨length_authKeyOf _ _ _, lits n.bytes, by rw [length_lits, n.length_bytes],
    rfl⟩

/-- The auth blob of another identity with an admissible name passes the checks. The bounds on the
name are those of `parseAuthPlain`; `sealAuth` has none, which is why they are hypotheses here. -/
theorem checkPeer_authBlobOf (hid : h.id = identityOf a name) (hne : h.shared ≠ []) {b : Owner}
    {bname : Bytes} (hpos : 0 < bname.length) (hmax : bname.length ≤ maxPeerName) (hab : b ≠ a)
    (info : String) (n : Nonce) :
    h.checkPeer (authBlobOf b bname info h.shared h.transcript n) info
      = .ok (ed25519PublicBytes b, bname) := by
  refine (checkPeer_eq_ok hne).mpr ⟨_, openBlob_authBlobOf b bname info _ _ n,
    length_ed25519PublicBytes b, hpos, hmax, length_block _ _ _,
    verifyWith_iff.mpr ⟨b, rfl, rfl⟩, fun hc => hab ?_⟩
  rw [hid] at hc
  exact ed25519PublicBytes_inj hc

theorem handleMessage_init (hs : h.Sound x a name) (hrole : h.initiator = false)
    (hdone : h.done = false) (hfirst : h.transcript = []) (y : Owner) (n : Nonce) :
    h.handleMessage (.lit hsTypeInit :: (putUint16 32 ++ x25519PublicBytes y)) (some n)
      = ({ h with
            peerEph := x25519PublicBytes y
            transcript := transcriptOf false (x25519PublicBytes x) (x25519PublicBytes y)
            shared := dhOf x y },
          .ok (some (marshalAuth (x25519PublicBytes x) (authBlobOf a name infoHS2 (dhOf x y)
            (transcriptOf false (x25519PublicBytes x) (x25519PublicBytes y)) n)), none)) := by
  have hfb : firstByte (.lit hsTypeInit :: (putUint16 32 ++ x25519PublicBytes y))
      = some hsTypeInit :=
    rfl
  have hparse : parseInit (.lit hsTypeInit :: (putUint16 32 ++ x25519PublicBytes y))
      = .ok (x25519PublicBytes y) :=
    parseInit_eq_ok.mpr ⟨length_x25519PublicBytes y, by rw [length_x25519PublicBytes]⟩
  have htr : transcriptHash [handshakeDomain, x25519PublicBytes y, h.ephPub]
      = transcriptOf false (x25519PublicBytes x) (x25519PublicBytes y) := by
    rw [hs.ephPub]
    rfl
  have hsize : ¬ ((.lit hsTypeInit :: (putUint16 32 ++ x25519PublicBytes y) : Bytes).length = 0 ∨
      (.lit hsTypeInit :: (putUint16 32 ++ x25519PublicBytes y) : Bytes).length > maxHsSize) := by
    simp [maxHsSize]
  -- the dispatch, and then `handleInit` step by step
  rw [handleMessage, handleMessageSigning, if_neg (by simp [hdone]), if_neg hsize,
    if_pos ⟨by simp [hrole], hfb, hfirst⟩]
  simp only [handleInit, hparse, htr]
  set h₁ : Handshaker := { h with
    peerEph := x25519PublicBytes y
    transcript := transcriptOf false (x25519PublicBytes x) (x25519PublicBytes y) } with hh₁
  have hd : h₁.deriveShared = .ok { h₁ with shared := dhOf x y } :=
    deriveShared_eq_ok.mpr ⟨x, _, hs.eph hdone, ecdh_public x y, rfl⟩
  have hseal :=
    sealAuth_some (h := { h₁ with shared := dhOf x y }) (dhOf_ne_nil x y) hs.id infoHS2 n
  rw [hd]
  simp only [hseal]
  simp only [hh₁, hs.ephPub]

def resultOf (b : Owner) (bname shared transcript : Bytes) (initiator : Bool) : HandshakeResult :=
  { session := freshSession (rootOf shared transcript) initiator
    peerName := bname
    peerKey := ed25519PublicBytes b
    peerFingerprint := sha256 (ed25519PublicBytes b)
    transcript := transcript }

theorem firstByte_marshalAuth (eph blob : Bytes) :
    firstByte (marshalAuth eph blob) = some hsTypeAuth :=
  rfl

theorem parseAuth_authBlobOf {eph : Bytes} (heph : eph.length = 32) (b : Owner) {bname : Bytes}
    (hmax : bname.length ≤ maxPeerName) (info : String) (shared transcript : Bytes) (n : Nonce) :
    parseAuth (marshalAuth eph (authBlobOf b bname info shared transcript n))
      = .ok (eph, authBlobOf b bname info shared transcript n) := by
  unfold maxPeerName at hmax
  refine parseAuth_eq_ok.mpr ⟨heph, ?_, ?_, rfl⟩
  all_goals
    rw [length_authBlobOf]
    omega

theorem size_authBlobOf {eph : Bytes} (heph : eph.length = 32) (b : Owner) {bname : Bytes}
    (hmax : bname.length ≤ maxPeerName) (info : String) (shared transcript : Bytes) (n : Nonce) :
    ¬ ((marshalAuth eph (authBlobOf b bname info shared transcript n)).length = 0 ∨
      (marshalAuth eph (authBlobOf b bname info shared transcript n)).length > maxHsSize) := by
  unfold maxPeerName at hmax
  simp only [marshalAuth, List.length_cons, List.length_append, heph, length_putLen32,
    length_authBlobOf, maxHsSize]
  omega

theorem handleAuthInitiator_eq {h₂ : Handshaker} {msg ephB blob pub pname msg3blob : Bytes}
    {rand : Option Nonce} {res : HandshakeResult} {signed : List Bytes}
    (hp : parseAuth msg = .ok (ephB, blob))
    (hd : deriveShared { h with
      peerEph := ephB, transcript := transcriptHash [handshakeDomain, h.ephPub, ephB] } = .ok h₂)
    (hcheck : h₂.checkPeer blob infoHS2 = .ok (pub, pname))
    (hseal : h₂.sealAuth infoHS3 rand = ⟨.ok msg3blob, signed⟩)
    (hres : h₂.complete pub pname = .ok res) :
    (h.handleAuthInitiator msg rand).val
      = (h₂.finish, .ok (some (marshalAuth h₂.ephPub msg3blob), some res)) := by
  simp only [handleAuthInitiator, hp, hd, hcheck, hseal, hres]

/-- msg2 of another identity is answered with msg3 and the result. The transcript is taken as a
variable, so that the terms do not grow while the handler is run. -/
theorem handleMessage_auth_initiator (hs : h.Sound x a name) (hrole : h.initiator = true)
    (hdone : h.done = false) {y b : Owner} {bname tr : Bytes} (hpos : 0 < bname.length)
    (hmax : bname.length ≤ maxPeerName) (hab : b ≠ a) (n n' : Nonce)
    (htr : tr = transcriptOf true (x25519PublicBytes x) (x25519PublicBytes y)) :
    h.handleMessage (marshalAuth (x25519PublicBytes y) (authBlobOf b bname infoHS2 (dhOf x y) tr n))
        (some n')
      = (finish { h with peerEph := x25519PublicBytes y, transcript := tr, shared := dhOf x y },
          .ok (some (marshalAuth (x25519PublicBytes x)
            (authBlobOf a name infoHS3 (dhOf x y) tr n')),
            some (resultOf b bname (dhOf x y) tr true))) := by
  have hhash : transcriptHash [handshakeDomain, h.ephPub, x25519PublicBytes y] = tr := by
    rw [hs.ephPub, htr]
    rfl
  obtain ⟨h₂, hh₂⟩ : ∃ h₂ : Handshaker, h₂ = { h with
    peerEph := x25519PublicBytes y, transcript := tr, shared := dhOf x y } := ⟨_, rfl⟩
  -- what the handler does, one step after the other
  have hd : deriveShared { h with
      peerEph := x25519PublicBytes y
      transcript := transcriptHash [handshakeDomain, h.ephPub, x25519PublicBytes y] } = .ok h₂ := by
    rw [hhash]
    exact deriveShared_eq_ok.mpr ⟨x, _, hs.eph hdone, ecdh_public x y, hh₂⟩
  have hsh : h₂.shared = dhOf x y := by rw [hh₂]
  have ht : h₂.transcript = tr := by rw [hh₂]
  have hid : h₂.id = identityOf a name := by rw [hh₂]; exact hs.id
  have hpub : h₂.ephPub = x25519PublicBytes x := by rw [hh₂]; exact hs.ephPub
  have hinit : h₂.initiator = true := by rw [hh₂]; exact hrole
  have hne : h₂.shared ≠ [] := by rw [hsh]; exact dhOf_ne_nil x y
  have hcheck := checkPeer_authBlobOf hid hne hpos hmax hab infoHS2 n
  have hseal := sealAuth_some hne hid infoHS3 n'
  have hres := complete_eq hne (ed25519PublicBytes b) bname
  rw [hsh, ht] at hcheck hseal hres
  rw [hinit] at hres
  have hlen := length_x25519PublicBytes y
  rw [handleMessage, handleMessageSigning, if_neg (by simp [hdone]),
    if_neg (size_authBlobOf hlen b hmax _ _ _ n),
    if_neg (by simp [hrole]), if_pos (firstByte_marshalAuth _ _), if_pos hrole,
    handleAuthInitiator_eq (parseAuth_authBlobOf hlen b hmax _ _ _ n) hd hcheck hseal hres, hpub,
      hh₂]
  rfl

theorem handleMessage_auth_responder (hs : h.Sound x a name) (hrole : h.initiator = false)
    (hdone : h.done = false) (htr : h.transcript ≠ []) (hne : h.shared ≠ []) {eph : Bytes}
    (heph : eph.length = 32) {b : Owner} {bname : Bytes} (hpos : 0 < bname.length)
    (hmax : bname.length ≤ maxPeerName) (hab : b ≠ a) (n : Nonce) (rand : Option Nonce) :
    h.handleMessage (marshalAuth eph (authBlobOf b bname infoHS3 h.shared h.transcript n)) rand
      = (h.finish, .ok (none, some (resultOf b bname h.shared h.transcript false))) := by
  rw [handleMessage, handleMessageSigning, if_neg (by simp [hdone]),
    if_neg (size_authBlobOf heph b hmax _ _ _ n),
    if_neg (by simp [htr]), if_pos (firstByte_marshalAuth _ _), if_neg (by simp [hrole]),
    handleAuthResponder, if_neg htr]
  simp only [parseAuth_authBlobOf heph b hmax, checkPeer_authBlobOf hs.id hne hpos hmax hab,
    complete_eq hne, hrole, resultOf]

end Handshaker

end Heimdall.Proto
