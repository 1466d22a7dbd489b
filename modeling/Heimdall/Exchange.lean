/-
Two handshakers and the three messages between them.

`exchange` runs msg1, msg2 and msg3 between an initiator and a responder over a `Link`, which
says what is received for each message that is sent. The default link hands over what was sent.
An attacker is a link whose messages can be computed from what is on the network; as a link may
answer anything at all, this covers every order in which the attacker lets the two ends act.

`Exchanged.Trace` is what a completed exchange implies on either side, with no assumption on the
link. Two results are read off it:

* any two identities of `identity.Generate` complete over the default link exactly if neither
  name is longer than the handshake admits, a limit `Generate` does not have
  (`generated_talk_iff`);
* over an attacker's link everything is received as it was sent, except the ephemeral key that
  msg3 repeats, which the responder does not look at (`unmodified_iff`).
-/
import Heimdall.Fifo
import Heimdall.Origins

set_option autoImplicit false

namespace Heimdall.Proto

open Heimdall.BigEndian Heimdall.Octets Heimdall.Crypto Heimdall.Runs

/-! ## `identity.Generate` -/

/-- `Generate`; `key` is the key the CSPRNG gives, or its failure. -/
def generate (name : List UInt8) (key : Option Owner) : Except IdentityErr Identity :=
  generateWith (fun name a => identityOf a (lits name)) name key

theorem generate_eq_ok {name : List UInt8} {a : Owner} {id : Identity}
    (h : generate name (some a) = .ok id) : id = identityOf a (lits name) ∧ 0 < name.length := by
  obtain ⟨hname, k, hk, rfl⟩ := generateWith_eq_ok.mp h
  obtain rfl := Option.some.inj hk
  refine ⟨rfl, List.length_pos_iff.mpr fun hnil => hname ?_⟩
  rw [hnil]
  rfl

/-! ## The exchange -/

/-- What is received for each message that is sent. -/
structure Link where
  msg1 : Bytes → Bytes := id
  msg2 : Bytes → Bytes := id
  msg3 : Bytes → Bytes := id

/-- A completed exchange: the messages as they were sent, and the result of either side. -/
structure Exchanged where
  msg1 : Bytes
  msg2 : Bytes
  msg3 : Bytes
  initiator : HandshakeResult
  responder : HandshakeResult

/-- msg1, msg2 and msg3 between an initiator of the identity `a` and a responder of `b`, with the
ephemeral keys `x` and `y`; `none` if either side fails. -/
def exchange (a b : Identity) (x y : Owner) (rand₂ rand₃ : Option Nonce) (link : Link) :
    Option Exchanged :=
  match newHandshaker a true (some x), newHandshaker b false (some y) with
  | .ok ha, .ok hb =>
    match ha.initMessage with
    | .error _ => none
    | .ok msg1 =>
      -- the responder answers msg1 with nothing but msg2, the initiator msg2 with msg3 and its
      -- result, and msg3 has no answer
      match hb.handleMessage (link.msg1 msg1) rand₂ with
      | (hb, .ok (some msg2, none)) =>
        match ha.handleMessage (link.msg2 msg2) rand₃ with
        | (_, .ok (some msg3, some resA)) =>
          match hb.handleMessage (link.msg3 msg3) none with
          | (_, .ok (none, some resB)) => some ⟨msg1, msg2, msg3, resA, resB⟩
          | _ => none
        | _ => none
      | _ => none
  | _, _ => none

/-! ## What the handlers have seen when they succeed -/

/-- Names the handshake can carry. -/
def Admissible (name : Bytes) : Prop := 0 < name.length ∧ name.length ≤ maxPeerName

instance (name : Bytes) : Decidable (Admissible name) := inferInstanceAs (Decidable (_ ∧ _))

/-- What an end has checked about the auth blob on which it completes. -/
structure Checked (info : String) (shared transcript blob : Bytes) (res : HandshakeResult) :
    Prop where
  opened : ∃ sig, sig.length = 64 ∧ verifyWith res.peerKey transcript sig = true ∧
    openBlob (authKeyOf info shared transcript) hsAAD blob
      = .ok (marshalAuthPlain res.peerKey res.peerName sig)
  key : res.peerKey.length = 32
  name : Admissible res.peerName

namespace Handshaker

variable {h h' : Handshaker} {x a : Owner} {name msg : Bytes} {rand : Option Nonce}

theorem checked_of_checkPeer {blob pub pname : Bytes} {info : String} {res : HandshakeResult}
    (hne : h.shared ≠ []) (hcheck : h.checkPeer blob info = .ok (pub, pname))
    (hres : h.complete pub pname = .ok res) : Checked info h.shared h.transcript blob res := by
  obtain ⟨sig, hopen, hkey, hpos, hmax, hsig, hver, -⟩ := (checkPeer_eq_ok hne).mp hcheck
  rw [complete_eq hne] at hres
  obtain rfl := Except.ok.inj hres
  exact ⟨⟨sig, hsig, hver, hopen⟩, hkey, hpos, hmax⟩

theorem failed_ne_ok {e : HsErr} {r : Reply} (hok : (h, Except.error e) = (h', Except.ok r)) :
    False := by
  have herr := congrArg Prod.snd hok
  simp at herr

theorem deriveShared_ok (hs : h.Sound x a name) (hdone : h.done = false) {eph tr : Bytes}
    (hd : deriveShared { h with peerEph := eph, transcript := tr } = .ok h') :
    ecdh x eph = some h'.shared ∧ h'.peerEph = eph ∧ h'.transcript = tr ∧
      h'.id = identityOf a name ∧ h'.ephPub = x25519PublicBytes x := by
  obtain ⟨x', shared, hx', hagree, rfl⟩ := deriveShared_eq_ok.mp hd
  obtain rfl : x' = x := Option.some.inj (hx'.symm.trans (hs.eph hdone))
  exact ⟨hagree, rfl, rfl, hs.id, hs.ephPub⟩

/-- Each handler is a chain of calls, any of which may fail. From the success of the whole follows
the success of each; the proofs go down the chain in the order of the source. -/
theorem handleInit_ok {r : Reply} (hok : (h.handleInit msg rand).val = (h', .ok r)) :
    ∃ eph blob, parseInit msg = .ok eph ∧
      deriveShared { h with
        peerEph := eph, transcript := transcriptHash [handshakeDomain, eph, h.ephPub] } = .ok h' ∧
      (h'.sealAuth infoHS2 rand).val = .ok blob ∧
        r = (some (marshalAuth h'.ephPub blob), none) := by
  unfold handleInit at hok
  -- each call may fail, and then the handler does
  rcases hp : parseInit msg with e | eph
  · rw [hp] at hok
    exact (failed_ne_ok hok).elim
  rw [hp] at hok
  dsimp only at hok
  rcases hd : deriveShared { h with
      peerEph := eph, transcript := transcriptHash [handshakeDomain, eph, h.ephPub] } with e | h₂
  · rw [hd] at hok
    exact (failed_ne_ok hok).elim
  rw [hd] at hok
  dsimp only at hok
  rcases hseal : h₂.sealAuth infoHS2 rand with ⟨e | blob, signed⟩
  · rw [hseal] at hok
    exact (failed_ne_ok hok).elim
  rw [hseal] at hok
  obtain ⟨rfl, hr⟩ := Prod.mk.inj hok
  exact ⟨eph, blob, rfl, hd, congrArg Signing.val hseal, (Except.ok.inj hr).symm⟩

theorem handleAuthInitiator_ok {r : Reply}
    (hok : (h.handleAuthInitiator msg rand).val = (h', .ok r)) :
    ∃ eph blob h₂ pub pname msg3 res, parseAuth msg = .ok (eph, blob) ∧
      deriveShared { h with
        peerEph := eph, transcript := transcriptHash [handshakeDomain, h.ephPub, eph] } = .ok h₂ ∧
      h₂.checkPeer blob infoHS2 = .ok (pub, pname) ∧ (h₂.sealAuth infoHS3 rand).val = .ok msg3 ∧
      h₂.complete pub pname = .ok res ∧ r = (some (marshalAuth h₂.ephPub msg3), some res) := by
  unfold handleAuthInitiator at hok
  -- each call may fail, and then the handler does
  rcases hp : parseAuth msg with e | ⟨eph, blob⟩
  · rw [hp] at hok
    exact (failed_ne_ok hok).elim
  rw [hp] at hok
  dsimp only at hok
  rcases hd : deriveShared { h with
      peerEph := eph, transcript := transcriptHash [handshakeDomain, h.ephPub, eph] } with e | h₂
  · rw [hd] at hok
    exact (failed_ne_ok hok).elim
  rw [hd] at hok
  dsimp only at hok
  rcases hcheck : h₂.checkPeer blob infoHS2 with e | ⟨pub, pname⟩
  · rw [hcheck] at hok
    exact (failed_ne_ok hok).elim
  rw [hcheck] at hok
  dsimp only at hok
  rcases hseal : h₂.sealAuth infoHS3 rand with ⟨e | msg3, signed⟩
  · rw [hseal] at hok
    exact (failed_ne_ok hok).elim
  rw [hseal] at hok
  dsimp only at hok
  rcases hres : h₂.complete pub pname with e | res
  · rw [hres] at hok
    exact (failed_ne_ok hok).elim
  rw [hres] at hok
  exact ⟨eph, blob, h₂, pub, pname, msg3, res, rfl, hd, hcheck, congrArg Signing.val hseal, hres,
    (Except.ok.inj (Prod.mk.inj hok).2).symm⟩

theorem handleAuthResponder_ok {r : Reply} (hok : h.handleAuthResponder msg = (h', .ok r)) :
    h.transcript ≠ [] ∧ ∃ eph blob pub pname res, parseAuth msg = .ok (eph, blob) ∧
      h.checkPeer blob infoHS3 = .ok (pub, pname) ∧ h.complete pub pname = .ok res ∧
      r = (none, some res) := by
  unfold handleAuthResponder at hok
  -- an auth message before the init message is refused
  by_cases hnil : h.transcript = []
  · rw [if_pos hnil] at hok
    exact (failed_ne_ok hok).elim
  rw [if_neg hnil] at hok
  rcases hp : parseAuth msg with e | ⟨eph, blob⟩
  · rw [hp] at hok
    exact (failed_ne_ok hok).elim
  rw [hp] at hok
  dsimp only at hok
  rcases hcheck : h.checkPeer blob infoHS3 with e | ⟨pub, pname⟩
  · rw [hcheck] at hok
    exact (failed_ne_ok hok).elim
  rw [hcheck] at hok
  dsimp only at hok
  rcases hres : h.complete pub pname with e | res
  · rw [hres] at hok
    exact (failed_ne_ok hok).elim
  rw [hres] at hok
  exact ⟨hnil, eph, blob, pub, pname, res, rfl, hcheck, hres,
    (Except.ok.inj (Prod.mk.inj hok).2).symm⟩

/-- Which handler a call that succeeds has gone to. The type of the message and the role decide,
and a responder takes an init message only as its first one. -/
theorem handleMessage_ok {r : Reply} (hok : h.handleMessage msg rand = (h', .ok r)) :
    (h.initiator = false ∧ (h.handleInit msg rand).val = (h', .ok r)) ∨
      (h.initiator = true ∧ (h.handleAuthInitiator msg rand).val = (h', .ok r)) ∨
      (h.initiator = false ∧ h.handleAuthResponder msg = (h', .ok r)) := by
  unfold handleMessage handleMessageSigning at hok
  -- the checks of the source, in its order
  by_cases hdone : h.done = true
  · rw [if_pos hdone] at hok
    exact (failed_ne_ok hok).elim
  rw [if_neg hdone] at hok
  by_cases hsize : msg.length = 0 ∨ msg.length > maxHsSize
  · rw [if_pos hsize] at hok
    exact (failed_ne_ok hok).elim
  rw [if_neg hsize] at hok
  by_cases hinit : ¬ h.initiator ∧ firstByte msg = some hsTypeInit ∧ h.transcript = []
  · rw [if_pos hinit] at hok
    exact .inl ⟨by simpa using hinit.1, hok⟩
  rw [if_neg hinit] at hok
  by_cases hauth : firstByte msg = some hsTypeAuth
  · rw [if_pos hauth] at hok
    by_cases hrole : h.initiator = true
    · rw [if_pos hrole] at hok
      exact .inr (.inl ⟨hrole, hok⟩)
    · rw [if_neg hrole] at hok
      exact .inr (.inr ⟨by simpa using hrole, hok⟩)
  · rw [if_neg hauth] at hok
    exact (failed_ne_ok hok).elim

/-- **A responder that answers** has taken a well-formed msg1 and agreed with the key in it. -/
theorem answered_msg1 (hs : h.Sound x a name) (hdone : h.done = false) {resp : Bytes}
    (hok : h.handleMessage msg rand = (h', .ok (some resp, none))) :
    ∃ n, rand = some n ∧ msg = .lit hsTypeInit :: (putUint16 32 ++ h'.peerEph) ∧
      h'.peerEph.length = 32 ∧ ecdh x h'.peerEph = some h'.shared ∧
      h'.transcript = transcriptOf false (x25519PublicBytes x) h'.peerEph ∧
      resp = marshalAuth (x25519PublicBytes x)
        (authBlobOf a name infoHS2 h'.shared h'.transcript n) := by
  -- the other two handlers end with a result
  rcases handleMessage_ok hok with ⟨-, hok⟩ | ⟨-, hok⟩ | ⟨-, hok⟩
  · obtain ⟨eph, blob, hp, hd, hseal, hr⟩ := handleInit_ok hok
    obtain ⟨hlen, hmsg⟩ := parseInit_eq_ok.mp hp
    obtain ⟨hagree, rfl, htr, hid, hpub⟩ := deriveShared_ok hs hdone hd
    obtain ⟨n, hn, hblob⟩ := (sealAuth_eq_ok (shared_ne_nil hagree) hid).mp hseal
    obtain rfl := Option.some.inj (Prod.mk.inj hr).1
    rw [hlen] at hmsg
    rw [hs.ephPub] at htr
    refine ⟨n, hn, hmsg, hlen, hagree, htr, ?_⟩
    rw [hblob, hpub]
  · obtain ⟨_, _, _, _, _, _, _, -, -, -, -, -, hr⟩ := handleAuthInitiator_ok hok
    exact absurd (Prod.mk.inj hr).2 (by simp)
  · obtain ⟨-, _, _, _, _, _, -, -, -, hr⟩ := handleAuthResponder_ok hok
    exact absurd (Prod.mk.inj hr).2 (by simp)

/-- **An initiator that completes** has agreed with the key in msg2 and checked the blob. -/
theorem completed_msg2 (hs : h.Sound x a name) (hrole : h.initiator = true) (hdone : h.done = false)
    {resp : Option Bytes} {res : HandshakeResult}
    (hok : h.handleMessage msg rand = (h', .ok (resp, some res))) :
    ∃ eph blob shared n, rand = some n ∧ msg = marshalAuth eph blob ∧ eph.length = 32 ∧
      ecdh x eph = some shared ∧
      Checked infoHS2 shared (transcriptOf true (x25519PublicBytes x) eph) blob res ∧
      resp = some (marshalAuth (x25519PublicBytes x) (authBlobOf a name infoHS3 shared
        (transcriptOf true (x25519PublicBytes x) eph) n)) := by
  -- the other two handlers are those of a responder
  rcases handleMessage_ok hok with ⟨hc, -⟩ | ⟨-, hok⟩ | ⟨hc, -⟩
  · exact absurd (hrole.symm.trans hc) (by simp)
  · obtain ⟨eph, blob, h₂, pub, pname, msg3, res', hp, hd, hcheck, hseal, hres, hr⟩ :=
      handleAuthInitiator_ok hok
    obtain ⟨hlen, -, -, hmsg⟩ := parseAuth_eq_ok.mp hp
    obtain ⟨hagree, -, htr, hid, hpub⟩ := deriveShared_ok hs hdone hd
    rw [hs.ephPub] at htr
    obtain ⟨n, hn, hblob⟩ := (sealAuth_eq_ok (shared_ne_nil hagree) hid).mp hseal
    have hchecked := checked_of_checkPeer (shared_ne_nil hagree) hcheck hres
    obtain ⟨rfl, hres'⟩ := Prod.mk.inj hr
    obtain rfl := Option.some.inj hres'
    rw [hblob, hpub, htr]
    rw [htr] at hchecked
    exact ⟨eph, blob, h₂.shared, n, hn, hmsg, hlen, hagree, hchecked, rfl⟩
  · exact absurd (hrole.symm.trans hc) (by simp)

/-- **A responder that completes** has checked the blob of msg3. Of the key in front of it, only
the length was looked at. -/
theorem completed_msg3 (hrole : h.initiator = false) (hne : h.shared ≠ []) {resp : Option Bytes}
    {res : HandshakeResult} (hok : h.handleMessage msg rand = (h', .ok (resp, some res))) :
    ∃ eph blob, msg = marshalAuth eph blob ∧ eph.length = 32 ∧
      Checked infoHS3 h.shared h.transcript blob res := by
  rcases handleMessage_ok hok with ⟨-, hok⟩ | ⟨hc, -⟩ | ⟨-, hok⟩
  · obtain ⟨_, _, -, -, -, hr⟩ := handleInit_ok hok
    exact absurd (Prod.mk.inj hr).2 (by simp)
  · exact absurd (hrole.symm.trans hc) (by simp)
  · obtain ⟨-, eph, blob, pub, pname, res', hp, hcheck, hres, hr⟩ := handleAuthResponder_ok hok
    obtain ⟨hlen, -, -, hmsg⟩ := parseAuth_eq_ok.mp hp
    obtain rfl := Option.some.inj (Prod.mk.inj hr).2
    exact ⟨eph, blob, hmsg, hlen, checked_of_checkPeer hne hcheck hres⟩

end Handshaker

/-! ## What a completed exchange implies -/

def started (a : Owner) (name : Bytes) (x : Owner) (initiator : Bool) : Handshaker :=
  { id := identityOf a name, initiator := initiator, eph := some x, ephPub := x25519PublicBytes x }

theorem newHandshaker_started (a : Owner) (name : Bytes) (x : Owner) (initiator : Bool) :
    newHandshaker (identityOf a name) initiator (some x) = .ok (started a name x initiator) := rfl

theorem started_sound (a : Owner) (name : Bytes) (x : Owner) (initiator : Bool) :
    (started a name x initiator).Sound x a name :=
  (Handshaker.newHandshaker_sound (newHandshaker_started a name x initiator)).1

theorem initMessage_started (a : Owner) (name : Bytes) (x : Owner) :
    (started a name x true).initMessage = .ok (World.initOf x) := rfl

/-- The exchange, seen from both ends: what each received, what it agreed on and what it
checked. -/
structure Exchanged.Trace (a b x y : Owner) (na nb : Bytes) (n₂ n₃ : Nonce) (link : Link)
    (e : Exchanged) where
  eph₁ : Bytes
  eph₂ : Bytes
  eph₃ : Bytes
  blob₂ : Bytes
  blob₃ : Bytes
  sharedA : Bytes
  sharedB : Bytes
  sent₁ : e.msg1 = World.initOf x
  got₁ : link.msg1 e.msg1 = .lit hsTypeInit :: (putUint16 32 ++ eph₁)
  length₁ : eph₁.length = 32
  agreedB : ecdh y eph₁ = some sharedB
  sent₂ : e.msg2 = marshalAuth (x25519PublicBytes y)
    (authBlobOf b nb infoHS2 sharedB (transcriptOf false (x25519PublicBytes y) eph₁) n₂)
  got₂ : link.msg2 e.msg2 = marshalAuth eph₂ blob₂
  length₂ : eph₂.length = 32
  agreedA : ecdh x eph₂ = some sharedA
  checkedA : Checked infoHS2 sharedA (transcriptOf true (x25519PublicBytes x) eph₂) blob₂
    e.initiator
  sent₃ : e.msg3 = marshalAuth (x25519PublicBytes x)
    (authBlobOf a na infoHS3 sharedA (transcriptOf true (x25519PublicBytes x) eph₂) n₃)
  got₃ : link.msg3 e.msg3 = marshalAuth eph₃ blob₃
  length₃ : eph₃.length = 32
  checkedB : Checked infoHS3 sharedB (transcriptOf false (x25519PublicBytes y) eph₁) blob₃
    e.responder

/-- **Every completed exchange has a trace**, whatever the link did. This is all that the theorems
about tampering use of the handlers. -/
theorem exchange_trace {a b x y : Owner} {na nb : Bytes} {n₂ n₃ : Nonce} {link : Link}
    {e : Exchanged}
    (h : exchange (identityOf a na) (identityOf b nb) x y (some n₂) (some n₃) link = some e) :
    Nonempty (e.Trace a b x y na nb n₂ n₃ link) := by
  unfold exchange at h
  rw [newHandshaker_started, newHandshaker_started] at h
  dsimp only at h
  rw [initMessage_started] at h
  dsimp only at h
  -- the outcome of each message; all but one of the cases end the exchange
  rcases h₁ : (started b nb y false).handleMessage (link.msg1 (World.initOf x)) (some n₂)
    with ⟨hb, err | ⟨_ | msg2, _ | res⟩⟩ <;> rw [h₁] at h <;> dsimp only at h
  · exact absurd h (by simp)
  · exact absurd h (by simp)
  · exact absurd h (by simp)
  · rcases h₂ : (started a na x true).handleMessage (link.msg2 msg2) (some n₃)
      with ⟨ha, err | ⟨_ | msg3, _ | resA⟩⟩ <;> rw [h₂] at h <;> dsimp only at h
    · exact absurd h (by simp)
    · exact absurd h (by simp)
    · exact absurd h (by simp)
    · exact absurd h (by simp)
    · rcases h₃ : hb.handleMessage (link.msg3 msg3) none
        with ⟨hb', err | ⟨_ | msg4, _ | resB⟩⟩ <;> rw [h₃] at h <;> dsimp only at h
      · exact absurd h (by simp)
      · exact absurd h (by simp)
      · -- both have completed
        obtain rfl := Option.some.inj h
        obtain ⟨n, hn, hgot₁, hlen₁, hagree, htr, rfl⟩ :=
          Handshaker.answered_msg1 (started_sound b nb y false) rfl h₁
        obtain rfl := Option.some.inj hn
        obtain ⟨eph₂, blob₂, sharedA, n', hn', hgot₂, hlen₂, hagreeA, hcheckA, hmsg3⟩ :=
          Handshaker.completed_msg2 (started_sound a na x true) rfl rfl h₂
        obtain rfl := Option.some.inj hn'
        have hrole : hb.initiator = false := by
          have hspec := (Handshaker.handleMessage_spec (started_sound b nb y false)
            (link.msg1 (World.initOf x)) (some n₂)).2.1
          rw [h₁] at hspec
          exact hspec
        obtain ⟨eph₃, blob₃, hgot₃, hlen₃, hcheckB⟩ :=
          Handshaker.completed_msg3 hrole (Handshaker.shared_ne_nil hagree) h₃
        rw [htr] at hcheckB hgot₂
        exact ⟨⟨hb.peerEph, eph₂, eph₃, blob₂, blob₃, sharedA, hb.shared, rfl, hgot₁, hlen₁, hagree,
          by rw [htr], by rw [htr]; exact hgot₂, hlen₂, hagreeA, hcheckA, Option.some.inj hmsg3,
          hgot₃, hlen₃, hcheckB⟩⟩
      · exact absurd h (by simp)
      · exact absurd h (by simp)
  · exact absurd h (by simp)

/-- An auth message determines the key in front and the blob, since the key has a fixed length. -/
theorem marshalAuth_inj {eph eph' blob blob' : Bytes} (heph : eph.length = 32)
    (heph' : eph'.length = 32) (h : marshalAuth eph blob = marshalAuth eph' blob') :
    eph = eph' ∧ blob = blob' := by
  unfold marshalAuth at h
  rw [List.append_assoc, List.append_assoc] at h
  obtain ⟨hkey, hrest⟩ := List.append_inj (List.cons.inj h).2 (heph.trans heph'.symm)
  exact ⟨hkey, (List.append_inj hrest (by rw [length_putLen32, length_putLen32])).2⟩

/-- An auth blob is accepted only with a name that the handshake admits: what is opened is what
was sealed, and its length tells the length of the name. -/
theorem Checked.admissible {info info' : String} {shared shared' tr tr' name : Bytes} {a : Owner}
    {n : Nonce} {res : HandshakeResult}
    (h : Checked info shared tr (authBlobOf a name info' shared' tr' n) res) :
    Admissible name := by
  obtain ⟨sig, hsig, -, hopen⟩ := h.opened
  obtain ⟨-, nonce, hlen, hblob⟩ := openBlob_eq_ok.mp hopen
  have hnonce : (lits n.bytes : Bytes).length = nonce.length := by
    rw [length_lits, n.length_bytes, hlen]
  obtain ⟨-, hgcm⟩ := List.append_inj hblob hnonce
  obtain ⟨-, -, htotal⟩ := block_inj (by simp [tagSize]) hgcm
  obtain ⟨hpos, hmax⟩ := h.name
  simp only [authPlainOf, marshalAuthPlain, List.length_append, length_ed25519PublicBytes,
    length_putUint16, length_block, h.key, hsig] at htotal
  constructor <;> omega

/-! ## The exchange that completes -/

section Closed

variable {a b x y : Owner} {na nb : Bytes}

def msg2Of (b : Owner) (nb : Bytes) (x y : Owner) (n : Nonce) : Bytes :=
  marshalAuth (x25519PublicBytes y) (authBlobOf b nb infoHS2 (dhOf x y)
    (transcriptOf true (x25519PublicBytes x) (x25519PublicBytes y)) n)

def msg3Of (a : Owner) (na : Bytes) (x y : Owner) (n : Nonce) (eph : Bytes) : Bytes :=
  marshalAuth eph (authBlobOf a na infoHS3 (dhOf x y)
    (transcriptOf true (x25519PublicBytes x) (x25519PublicBytes y)) n)

theorem msg3Of_inj {n : Nonce} {eph eph' : Bytes} (heph : eph.length = 32)
    (heph' : eph'.length = 32)
    (h : msg3Of a na x y n eph = msg3Of a na x y n eph') : eph = eph' :=
  (marshalAuth_inj heph heph' h).1

def completedOf (a b x y : Owner) (na nb : Bytes) (n₂ n₃ : Nonce) : Exchanged where
  msg1 := World.initOf x
  msg2 := msg2Of b nb x y n₂
  msg3 := msg3Of a na x y n₃ (x25519PublicBytes x)
  initiator := Handshaker.resultOf b nb (dhOf x y)
    (transcriptOf true (x25519PublicBytes x) (x25519PublicBytes y)) true
  responder := Handshaker.resultOf a na (dhOf x y)
    (transcriptOf true (x25519PublicBytes x) (x25519PublicBytes y)) false

/-- **The exchange completes** if msg1 and msg2 arrive as sent, and msg3 does but for the key in
front. The responder does not compare that key with the one of msg1. -/
theorem exchange_eq_completedOf (hab : a ≠ b) (hna : Admissible na) (hnb : Admissible nb)
    (n₂ n₃ : Nonce) {link : Link} (h₁ : link.msg1 (World.initOf x) = World.initOf x)
    (h₂ : link.msg2 (msg2Of b nb x y n₂) = msg2Of b nb x y n₂) {eph : Bytes}
    (heph : eph.length = 32)
    (h₃ : link.msg3 (msg3Of a na x y n₃ (x25519PublicBytes x)) = msg3Of a na x y n₃ eph) :
    exchange (identityOf a na) (identityOf b nb) x y (some n₂) (some n₃) link
      = some (completedOf a b x y na nb n₂ n₃) := by
  have hswap : dhOf y x = dhOf x y := by
    rw [dhOf, dhOf, Sym2.eq_swap]
  have htr : transcriptOf false (x25519PublicBytes y) (x25519PublicBytes x)
      = transcriptOf true (x25519PublicBytes x) (x25519PublicBytes y) := rfl
  have hsound := started_sound b nb y false
  have hmsg1 := Handshaker.handleMessage_init hsound rfl rfl rfl x n₂
  rw [hswap, htr] at hmsg1
  have hmsg2 := Handshaker.handleMessage_auth_initiator (started_sound a na x true) rfl rfl hnb.1
    hnb.2 hab.symm n₂ n₃ (y := y) rfl
  -- the responder after msg1
  obtain ⟨hb, hhb⟩ : ∃ hb : Handshaker, hb = { started b nb y false with
      peerEph := x25519PublicBytes x
      transcript := transcriptOf true (x25519PublicBytes x) (x25519PublicBytes y)
      shared := dhOf x y } := ⟨_, rfl⟩
  have hsound' : hb.Sound y b nb := by
    have hspec := (Handshaker.handleMessage_spec hsound (World.initOf x) (some n₂)).1
    rw [World.initOf, hmsg1, ← hhb] at hspec
    exact hspec
  have hshared : hb.shared = dhOf x y := by rw [hhb]
  have htr' : hb.transcript = transcriptOf true (x25519PublicBytes x) (x25519PublicBytes y) := by
    rw [hhb]
  have hmsg3 :=
    Handshaker.handleMessage_auth_responder hsound' (by rw [hhb]; rfl) (by rw [hhb]; rfl)
    (by rw [htr']; exact transcriptOf_ne_nil _ _ _) (by rw [hshared]; exact dhOf_ne_nil x y) heph
    hna.1 hna.2 hab n₃ none
  rw [hshared, htr'] at hmsg3
  rw [← hhb] at hmsg1
  unfold exchange
  rw [newHandshaker_started, newHandshaker_started]
  dsimp only
  rw [initMessage_started]
  dsimp only
  rw [h₁, World.initOf, hmsg1]
  dsimp only
  rw [show marshalAuth (x25519PublicBytes y) (authBlobOf b nb infoHS2 (dhOf x y)
    (transcriptOf true (x25519PublicBytes x) (x25519PublicBytes y)) n₂)
      = msg2Of b nb x y n₂ from rfl,
    h₂, msg2Of, hmsg2]
  dsimp only
  rw [show marshalAuth (x25519PublicBytes x) (authBlobOf a na infoHS3 (dhOf x y)
    (transcriptOf true (x25519PublicBytes x) (x25519PublicBytes y)) n₃)
      = msg3Of a na x y n₃ (x25519PublicBytes x) from rfl, h₃, msg3Of, hmsg3]
  rfl

end Closed

/-! ## Generated identities -/

/-- The session of one end, `true` being the initiator. -/
def Exchanged.session (e : Exchanged) (w : Bool) : Session :=
  if w then e.initiator.session else e.responder.session

/-- The two ends know each other, and each opens the frames of the other: the first one it seals,
and on a reliable transport every later one that is not outdated on arrival. -/
structure Exchanged.Talks (a b : Identity) (e : Exchanged) : Prop where
  names : e.initiator.peerName = b.name ∧ e.responder.peerName = a.name
  keys : e.initiator.peerKey = b.pub ∧ e.responder.peerKey = a.pub
  sessionID : e.initiator.session.sessionID = e.responder.session.sessionID
  frames : ∀ (w : Bool) (typ : UInt8) (pt : Bytes) (n : Nonce), typ ∈ frameTypes →
    pt.length ≤ maxPlaintext → ∃ wire, ((e.session w).sealFrame typ pt (some n)).2 = .ok wire ∧
      ((e.session (!w)).openFrame wire).2 = .ok (typ, pt)
  stream : ∀ (acts : List DuplexAct) (d d' : Duplex) (w : Bool) (r : Call) (rest : List Call),
    Run Duplex.Step (Duplex.start (e.session true) (e.session false)) acts d →
    d.Step (.delivery w) d' → d.queue (!w) = r :: rest →
    ∃ f, parseFrame r.wire = .ok f ∧ ((d.side w).epoch.toNat ≤ f.rotation.toNat + 1 →
      ((d.side w).openFrame r.wire).2 = .ok (r.typ, r.plaintext))

theorem session_completedOf (a b x y : Owner) (na nb : Bytes) (n₂ n₃ : Nonce) (w : Bool) :
    (completedOf a b x y na nb n₂ n₃).session w = freshSession (rootOf (dhOf x y)
      (transcriptOf true (x25519PublicBytes x) (x25519PublicBytes y))) w := by
  rcases w <;> rfl

theorem talks_completedOf (a b x y : Owner) (na nb : Bytes) (n₂ n₃ : Nonce) :
    (completedOf a b x y na nb n₂ n₃).Talks (identityOf a na) (identityOf b nb) := by
  have hroot := length_rootOf (dhOf x y)
    (transcriptOf true (x25519PublicBytes x) (x25519PublicBytes y))
  refine ⟨⟨rfl, rfl⟩, ⟨rfl, rfl⟩, rfl, ?_, ?_⟩
  · -- the first frame of either end
    intro w typ pt n htyp hpt
    rw [session_completedOf, session_completedOf,
      sealFrame_eq (freshSession_live hroot w) typ hpt n]
    have hdir : sendDir w = recvDir (!w) := by rcases w <;> rfl
    have hseq : (freshSession (rootOf (dhOf x y)
      (transcriptOf true (x25519PublicBytes x) (x25519PublicBytes y))) w).sendSeq = 0 := rfl
    have hepoch : (freshSession (rootOf (dhOf x y)
      (transcriptOf true (x25519PublicBytes x) (x25519PublicBytes y))) w).sealEpoch = 0 := rfl
    refine ⟨_, rfl, ?_⟩
    rw [hdir, hseq, hepoch, openFrame_sealedFrame (freshSession_live hroot (!w)) n htyp hpt
      (e := 0) (q := 0) (.inl rfl) rfl]
  · -- any later one
    intro acts d d' w r rest hrun hstep hq
    rw [session_completedOf, session_completedOf] at hrun
    have hinv := hrun.invariant _ (Duplex.Inv.start hroot) fun _ _ _ h hs => h.step hs
    obtain ⟨f, hp, -, hres⟩ := hinv.opens hstep hq
    exact ⟨f, hp, fun hrecent => hres.trans (if_pos hrecent)⟩

/-- **Generated identities talk exactly if their names are short enough.** For any two names that
`Generate` accepts, with different key pairs and any ephemeral keys, msg1, msg2 and msg3 over an
undisturbed channel complete on both sides, with the right names and keys and with sessions that
open each other's frames, exactly if neither name is longer than `maxPeerName`. -/
theorem generated_talk_iff {na nb : List UInt8} {a b : Owner} {ida idb : Identity}
    (ha : generate na (some a) = .ok ida) (hb : generate nb (some b) = .ok idb) (hab : a ≠ b)
    (x y : Owner) (n₂ n₃ : Nonce) :
    (∃ e, exchange ida idb x y (some n₂) (some n₃) {} = some e ∧ e.Talks ida idb) ↔
      na.length ≤ maxPeerName ∧ nb.length ≤ maxPeerName := by
  obtain ⟨rfl, hna⟩ := generate_eq_ok ha
  obtain ⟨rfl, hnb⟩ := generate_eq_ok hb
  constructor
  · rintro ⟨e, hex, htalks⟩
    obtain ⟨t⟩ := exchange_trace hex
    -- each side has checked the length of the name it was given
    have hmaxA := t.checkedB.name.2
    have hmaxB := t.checkedA.name.2
    rw [htalks.names.2] at hmaxA
    rw [htalks.names.1] at hmaxB
    simp only [identityOf, length_lits] at hmaxA hmaxB
    exact ⟨hmaxA, hmaxB⟩
  · rintro ⟨hmaxA, hmaxB⟩
    refine ⟨_, exchange_eq_completedOf hab ⟨?_, ?_⟩ ⟨?_, ?_⟩ n₂ n₃ rfl rfl
      (length_x25519PublicBytes x) rfl, talks_completedOf a b x y _ _ n₂ n₃⟩
    all_goals
      rw [length_lits]
      assumption

theorem length_zeros : (List.replicate 12 (0 : UInt8)).length = nonceSize := rfl

def zeroNonce : Nonce := ⟨List.replicate 12 0, length_zeros⟩

def alice : List UInt8 := [97, 108, 105, 99, 101]
def bob : List UInt8 := [98, 111, 98]

theorem generate_alice :
    generate alice (some (.honest 7)) = .ok (identityOf (.honest 7) (lits alice)) := by
  rw [generate, generateWith, if_neg (by decide +kernel)]

theorem generate_bob :
    generate bob (some (.honest 8)) = .ok (identityOf (.honest 8) (lits bob)) := by
  rw [generate, generateWith, if_neg (by decide +kernel)]

abbrev aliceBob (link : Link) : Option Exchanged :=
  exchange (identityOf (.honest 7) (lits alice)) (identityOf (.honest 8) (lits bob)) (.honest 0)
    (.honest 1) (some zeroNonce) (some zeroNonce) link

abbrev aliceBobDone : Exchanged :=
  completedOf (.honest 7) (.honest 8) (.honest 0) (.honest 1) (lits alice)
    (lits bob) zeroNonce zeroNonce

theorem generated_talk_alice_bob :
    ∃ e, aliceBob {} = some e ∧
      e.Talks (identityOf (.honest 7) (lits alice)) (identityOf (.honest 8) (lits bob)) :=
  (generated_talk_iff generate_alice generate_bob (by decide) (.honest 0) (.honest 1) zeroNonce
    zeroNonce).mpr (by decide)

def longName : List UInt8 := List.replicate 65 97

/-- **An identity nobody can talk to.** `Generate` accepts the long name, and the exchange with
bob fails. -/
theorem long_name_refused :
    generate longName (some (.honest 7)) = .ok (identityOf (.honest 7) (lits longName)) ∧
      generate bob (some (.honest 8)) = .ok (identityOf (.honest 8) (lits bob)) ∧
      exchange (identityOf (.honest 7) (lits longName)) (identityOf (.honest 8) (lits bob))
        (.honest 0) (.honest 1) (some zeroNonce) (some zeroNonce) {} = none := by
  refine ⟨?_, generate_bob, ?_⟩
  · rw [generate, generateWith, if_neg (by decide +kernel)]
  · refine Option.eq_none_iff_forall_ne_some.mpr fun e hex => ?_
    obtain ⟨t⟩ := exchange_trace hex
    -- msg3 is received as sent, so the responder has opened the name as it is
    obtain ⟨-, hblob⟩ := marshalAuth_inj t.length₃ (length_x25519PublicBytes _)
      (t.got₃.symm.trans t.sent₃)
    have hname := (hblob ▸ t.checkedB).admissible
    exact absurd hname.2 (by decide)

/-! ## Tampering -/

def Exchanged.observed (e : Exchanged) (o : Octet Prim) : Prop :=
  o ∈ e.msg1 ∨ o ∈ e.msg2 ∨ o ∈ e.msg3

/-- The link hands over what the attacker can compute, to whom the invite codes `leaked` are
known. -/
structure Link.Attack (leaked : ℕ → Prop) (link : Link) (e : Exchanged) : Prop where
  msg1 : KnownAll (dolevYao leaked) e.observed (link.msg1 e.msg1)
  msg2 : KnownAll (dolevYao leaked) e.observed (link.msg2 e.msg2)
  msg3 : KnownAll (dolevYao leaked) e.observed (link.msg3 e.msg3)

/-- All three messages were received as they were sent. -/
def Link.Unmodified (link : Link) (e : Exchanged) : Prop :=
  link.msg1 e.msg1 = e.msg1 ∧ link.msg2 e.msg2 = e.msg2 ∧ link.msg3 e.msg3 = e.msg3

section Tampering

variable {leaked : ℕ → Prop} {a b x y : ℕ} {na nb : List UInt8} {n₂ n₃ : Nonce} {link : Link}
  {e : Exchanged}

namespace Exchanged.Trace

variable (t : e.Trace (.honest a) (.honest b) (.honest x) (.honest y) (lits na)
  (lits nb) n₂ n₃ link)

def transcriptA : Bytes := transcriptOf true (x25519PublicBytes (.honest x)) t.eph₂

def transcriptB : Bytes := transcriptOf false (x25519PublicBytes (.honest y)) t.eph₁

/-- What the two ends have signed and encrypted. -/
def deeds : Deeds where
  signed c m := (c = a ∧ m = t.transcriptA) ∨ (c = b ∧ m = t.transcriptB)
  sealed args := .out .gcm args 0 ∈ e.msg2 ∨ .out .gcm args 0 ∈ e.msg3
  revealed _ _ := False

theorem pub {o : Octet Prim} (ho : e.observed o) : Pub leaked t.deeds o := by
  rcases ho with ho | ho | ho
  · rw [t.sent₁] at ho
    exact pub_initOf _ o ho
  · have hsealed : ∀ args, .out .gcm args 0 ∈ e.msg2 → t.deeds.sealed args := fun _ h => .inl h
    rw [t.sent₂] at ho hsealed
    exact pub_marshalAuth hsealed (.inr ⟨rfl, rfl⟩) o ho
  · have hsealed : ∀ args, .out .gcm args 0 ∈ e.msg3 → t.deeds.sealed args := fun _ h => .inr h
    rw [t.sent₃] at ho hsealed
    exact pub_marshalAuth hsealed (.inl ⟨rfl, rfl⟩) o ho

theorem sealed_cases {key nonce aad plain : Bytes} (h : t.deeds.sealed [key, nonce, aad, plain]) :
    (key = authKeyOf infoHS2 t.sharedB t.transcriptB ∧ nonce = lits n₂.bytes ∧
        plain = authPlainOf (.honest b) (lits nb) t.transcriptB) ∨
      (key = authKeyOf infoHS3 t.sharedA t.transcriptA ∧ nonce = lits n₃.bytes ∧
        plain = authPlainOf (.honest a) (lits na) t.transcriptA) := by
  rcases h with h | h
  · rw [t.sent₂] at h
    obtain ⟨hkey, hnonce, -, hplain⟩ := gcm_mem_marshalAuth h
    exact .inl ⟨hkey, hnonce, hplain⟩
  · rw [t.sent₃] at h
    obtain ⟨hkey, hnonce, -, hplain⟩ := gcm_mem_marshalAuth h
    exact .inr ⟨hkey, hnonce, hplain⟩

theorem checked_pub {info : String} {shared transcript blob eph msg : Bytes} {res : HandshakeResult}
    (hmsg : KnownAll (dolevYao leaked) e.observed msg) (hgot : msg = marshalAuth eph blob)
    (hchecked : Checked info shared transcript blob res) :
    ∃ nonce sig, verifyWith res.peerKey transcript sig = true ∧
      blob = nonce ++ block .gcm [authKeyOf info shared transcript, nonce, hsAAD,
        marshalAuthPlain res.peerKey res.peerName sig]
          ((marshalAuthPlain res.peerKey res.peerName sig).length + tagSize) ∧
      Pub leaked t.deeds (.out .gcm [authKeyOf info shared transcript, nonce, hsAAD,
        marshalAuthPlain res.peerKey res.peerName sig] 0) := by
  obtain ⟨sig, -, hver, hopen⟩ := hchecked.opened
  obtain ⟨-, nonce, -, hblob⟩ := openBlob_eq_ok.mp hopen
  have hmem : .out .gcm [authKeyOf info shared transcript, nonce, hsAAD,
      marshalAuthPlain res.peerKey res.peerName sig] 0 ∈ msg := by
    rw [hgot]
    apply List.mem_cons_of_mem
    apply List.mem_append_right
    rw [hblob]
    apply List.mem_append_right
    exact out_mem_block.mpr ⟨rfl, rfl, by simp [tagSize]⟩
  exact ⟨nonce, sig, hver, hblob, Pub.of_known (fun _ => t.pub) (hmsg _ hmem)⟩

theorem blob_sent {info : String} {shared transcript blob eph msg : Bytes} {res : HandshakeResult}
    (hmsg : KnownAll (dolevYao leaked) e.observed msg) (hgot : msg = marshalAuth eph blob)
    (hchecked : Checked info shared transcript blob res)
    (hsecret : SecretKey leaked (authKeyOf info shared transcript)) :
    ∃ nonce plain,
      blob = nonce ++ block .gcm [authKeyOf info shared transcript, nonce, hsAAD, plain]
        (plain.length + tagSize) ∧
      t.deeds.sealed [authKeyOf info shared transcript, nonce, hsAAD, plain] := by
  obtain ⟨nonce, sig, -, hblob, hpub⟩ := t.checked_pub hmsg hgot hchecked
  exact ⟨nonce, _, hblob, (hpub.gcm_cases.resolve_right fun hc => hc.1 hsecret).2⟩

/-- **The two ends have one transcript** if the initiator reports the identity of the responder:
the signature it verified, or the blob around it, is the responder's. -/
theorem transcript_eq (hab : a ≠ b) (hatt : link.Attack leaked e)
    (hkey : e.initiator.peerKey = ed25519PublicBytes (.honest b)) :
      t.transcriptA = t.transcriptB := by
  by_cases hsecret : SecretKey leaked (authKeyOf infoHS2 t.sharedA t.transcriptA)
  · obtain ⟨nonce, plain, -, hsealed⟩ := t.blob_sent hatt.msg2 t.got₂ t.checkedA hsecret
    rcases t.sealed_cases hsealed with ⟨hk, -⟩ | ⟨hk, -⟩
    · exact (authKeyOf_inj hk).2.2
    · exact absurd (authKeyOf_inj hk).1 (by decide)
  · -- the attacker may have made the blob, but not the signature in it
    obtain ⟨nonce, sig, hver, -, hpub⟩ := t.checked_pub hatt.msg2 t.got₂ t.checkedA
    obtain ⟨c, hc, rfl⟩ := verifyWith_iff.mp hver
    obtain rfl := ed25519PublicBytes_inj (hkey.symm.trans hc)
    obtain ⟨-, hplain⟩ := hpub.gcm_cases.resolve_left fun hs => hsecret hs.1
    have hsig := hplain (.out (.ed25519Sign (.honest b)) [t.transcriptA] 0)
      (List.mem_append_right _ (out_mem_block.mpr ⟨rfl, rfl, by norm_num⟩))
    rcases hsig.signed_of with ⟨hba, -⟩ | ⟨-, htr⟩
    · exact absurd hba.symm hab
    · exact htr

/-- **What an attacker can change**: nothing but the key that msg3 repeats. -/
theorem received (hab : a ≠ b) (hatt : link.Attack leaked e)
    (hkey : e.initiator.peerKey = ed25519PublicBytes (.honest b)) :
    e.msg2 = msg2Of (.honest b) (lits nb) (.honest x) (.honest y) n₂ ∧
      e.msg3 = msg3Of (.honest a) (lits na) (.honest x) (.honest y) n₃
        (x25519PublicBytes (.honest x)) ∧
      link.msg1 e.msg1 = e.msg1 ∧ link.msg2 e.msg2 = e.msg2 ∧
      link.msg3 e.msg3 = msg3Of (.honest a) (lits na) (.honest x) (.honest y) n₃ t.eph₃ := by
  have htr := t.transcript_eq hab hatt hkey
  -- one transcript means one pair of ephemeral keys, and so one secret
  have hephs := transcriptOf_inj (length_x25519PublicBytes _) (length_x25519PublicBytes _) t.length₂
    t.length₁ htr
  simp only [if_true, Bool.false_eq_true, if_false, Prod.mk.injEq] at hephs
  obtain ⟨hx, hy⟩ := hephs
  have hsharedA : t.sharedA = dhOf (.honest x) (.honest y) := by
    have hag := t.agreedA
    rw [hy, ecdh_public] at hag
    exact (Option.some.inj hag).symm
  have hsharedB : t.sharedB = dhOf (.honest x) (.honest y) := by
    have hag := t.agreedB
    rw [← hx, ecdh_comm, ecdh_public] at hag
    exact (Option.some.inj hag).symm
  have htrA : t.transcriptA = transcriptOf true (x25519PublicBytes (.honest x))
      (x25519PublicBytes (.honest y)) := by
    rw [transcriptA, hy]
  have hsecret : ∀ {info : String}, info ≠ infoSession → info ≠ infoPairConfirm →
      SecretKey leaked (authKeyOf info (dhOf (.honest x) (.honest y)) t.transcriptA) :=
    fun hs hc => secretKey_hkdf hs hc (secretKey_x25519 x y) _
  have hsent₂ : e.msg2 = msg2Of (.honest b) (lits nb) (.honest x) (.honest y) n₂ := by
    have hsent := t.sent₂
    rw [← transcriptB, ← htr, htrA, hsharedB] at hsent
    exact hsent
  have hsent₃ : e.msg3 = msg3Of (.honest a) (lits na) (.honest x) (.honest y) n₃
      (x25519PublicBytes (.honest x)) := by
    have hsent := t.sent₃
    rw [← transcriptA, htrA, hsharedA] at hsent
    exact hsent
  refine ⟨hsent₂, hsent₃, ?_, ?_, ?_⟩
  · rw [t.got₁, t.sent₁, ← hx]
    rfl
  · obtain ⟨nonce, plain, hblob, hsealed⟩ := t.blob_sent hatt.msg2 t.got₂ t.checkedA
      (by rw [hsharedA]; exact hsecret (by decide) (by decide))
    rcases t.sealed_cases hsealed with ⟨-, rfl, rfl⟩ | ⟨hk, -⟩
    · rw [t.got₂, hsent₂, msg2Of, authBlobOf, hblob, hy, hsharedA, ← htr, htrA]
    · exact absurd (authKeyOf_inj hk).1 (by decide)
  · obtain ⟨nonce, plain, hblob, hsealed⟩ := t.blob_sent hatt.msg3 t.got₃ t.checkedB
      (by rw [hsharedB, ← transcriptB, ← htr]; exact hsecret (by decide) (by decide))
    rcases t.sealed_cases hsealed with ⟨hk, -⟩ | ⟨-, rfl, rfl⟩
    · exact absurd (authKeyOf_inj hk).1 (by decide)
    · rw [t.got₃, msg3Of, authBlobOf, hblob, hsharedB, ← transcriptB, ← htr, htrA]

end Exchanged.Trace

/-- The link leaves msg1 and msg2 alone and puts another key in front of msg3. -/
def Link.RekeysMsg3 (link : Link) (a b x y : Owner) (na nb : Bytes) (n₂ n₃ : Nonce) : Prop :=
  link.msg1 (World.initOf x) = World.initOf x ∧
    link.msg2 (msg2Of b nb x y n₂) = msg2Of b nb x y n₂ ∧
    ∃ eph, eph.length = 32 ∧ eph ≠ x25519PublicBytes x ∧
      link.msg3 (msg3Of a na x y n₃ (x25519PublicBytes x)) = msg3Of a na x y n₃ eph

/-- **Only an unmodified handshake completes, but for the key in msg3.** Take two honest ends of
different identities and any attacker between them. If both ends complete with each other's
public key, all three messages have been received as they were sent, exactly unless the attacker
leaves msg1 and msg2 alone and replaces the 32 bytes of the ephemeral key in msg3, in an exchange
of names that complete at all. -/
theorem unmodified_iff (hab : a ≠ b) (na nb : List UInt8) (n₂ n₃ : Nonce)
    (hadv : ∀ e, exchange (identityOf (.honest a) (lits na)) (identityOf (.honest b) (lits nb))
      (.honest x) (.honest y) (some n₂) (some n₃) link = some e → link.Attack leaked e) :
    (∀ e, exchange (identityOf (.honest a) (lits na)) (identityOf (.honest b) (lits nb))
        (.honest x) (.honest y) (some n₂) (some n₃) link = some e →
      e.initiator.peerKey = ed25519PublicBytes (.honest b) →
      e.responder.peerKey = ed25519PublicBytes (.honest a) → link.Unmodified e) ↔
    ¬ (Admissible (lits na) ∧ Admissible (lits nb) ∧
      link.RekeysMsg3 (.honest a) (.honest b) (.honest x) (.honest y) (lits na)
        (lits nb) n₂ n₃) := by
  constructor
  · rintro hunmod ⟨hna, hnb, h₁, h₂, eph, heph, hne, h₃⟩
    have hex := exchange_eq_completedOf (by simpa using hab) hna hnb n₂ n₃ h₁ h₂ heph h₃
    have hmsg3 := (hunmod _ hex rfl rfl).2.2
    exact hne (msg3Of_inj heph (length_x25519PublicBytes _) (h₃.symm.trans hmsg3))
  · intro hfree e hex hkeyA _
    obtain ⟨t⟩ := exchange_trace hex
    obtain ⟨hsent₂, hsent₃, hgot₁, hgot₂, hgot₃⟩ := t.received hab (hadv e hex) hkeyA
    refine ⟨hgot₁, hgot₂, ?_⟩
    by_contra hmsg3
    -- both blobs are as sent, so both names have passed
    obtain ⟨-, hblob₂⟩ := marshalAuth_inj t.length₂ (length_x25519PublicBytes _)
      (t.got₂.symm.trans (hgot₂.trans t.sent₂))
    obtain ⟨-, hblob₃⟩ := marshalAuth_inj t.length₃ t.length₃ (t.got₃.symm.trans hgot₃)
    refine hfree ⟨(hblob₃ ▸ t.checkedB).admissible, (hblob₂ ▸ t.checkedA).admissible, ?_, ?_,
      t.eph₃, t.length₃, fun heq => hmsg3 ?_, ?_⟩
    · rw [← t.sent₁]
      exact hgot₁
    · rw [← hsent₂]
      exact hgot₂
    · rw [hgot₃, heq]
      exact hsent₃.symm
    · rw [← hsent₃]
      exact hgot₃

end Tampering

theorem attack_undisturbed (leaked : ℕ → Prop) (e : Exchanged) : Link.Attack leaked {} e :=
  ⟨KnownAll.seen fun _ ho => .inl ho, KnownAll.seen fun _ ho => .inr (.inl ho),
    KnownAll.seen fun _ ho => .inr (.inr ho)⟩

/-- The undisturbed exchange of alice and bob. -/
theorem unmodified_alice_bob :
    ∃ e, aliceBob {} = some e ∧
      e.initiator.peerKey = ed25519PublicBytes (.honest 8) ∧
      e.responder.peerKey = ed25519PublicBytes (.honest 7) ∧ Link.Unmodified {} e := by
  have hex : aliceBob {} = some aliceBobDone := exchange_eq_completedOf (by decide) (by decide)
    (by decide) zeroNonce zeroNonce rfl rfl (length_x25519PublicBytes _) rfl
  have hadv : ∀ e, aliceBob {} = some e → Link.Attack (fun _ => False) {} e :=
    fun e _ => attack_undisturbed _ e
  have hiff := unmodified_iff (show 7 ≠ 8 by decide) alice bob zeroNonce zeroNonce hadv
  refine ⟨_, hex, rfl, rfl, hiff.mpr ?_ _ hex rfl rfl⟩
  rintro ⟨-, -, -, -, eph, heph, hne, h₃⟩
  exact hne (msg3Of_inj (length_x25519PublicBytes _) heph h₃).symm

def zeroKey : Link where
  msg3 m := m.take 1 ++ lits (List.replicate 32 0) ++ m.drop 33

theorem zeroKey_msg3 (a : Owner) (na : Bytes) (x y : Owner) (n : Nonce) :
    zeroKey.msg3 (msg3Of a na x y n (x25519PublicBytes x))
      = msg3Of a na x y n (lits (List.replicate 32 0)) := by
  have hdrop : ∀ rest : Bytes, (x25519PublicBytes x ++ rest).drop 32 = rest :=
    fun rest => List.drop_left' (length_x25519PublicBytes x)
  simp only [zeroKey, msg3Of, marshalAuth, List.take_succ_cons, List.take_zero, List.drop_succ_cons,
    List.append_assoc, hdrop, List.nil_append, List.cons_append]

/-- **A modified handshake completes.** The attacker overwrites the key in msg3, and both sides
complete with each other's public key. -/
theorem rekeyed_msg3_accepted :
    ∃ e, aliceBob zeroKey = some e ∧
      zeroKey.Attack (fun _ => False) e ∧
      e.initiator.peerKey = ed25519PublicBytes (.honest 8) ∧
      e.responder.peerKey = ed25519PublicBytes (.honest 7) ∧ zeroKey.msg3 e.msg3 ≠ e.msg3 := by
  have hzero : (lits (List.replicate 32 0) : Bytes).length = 32 := by simp
  have hex : aliceBob zeroKey = some aliceBobDone := exchange_eq_completedOf (by decide) (by decide)
    (by decide) zeroNonce zeroNonce rfl rfl hzero (zeroKey_msg3 _ _ _ _ _)
  refine ⟨_, hex, ⟨?_, ?_, ?_⟩, rfl, rfl, ?_⟩
  · exact KnownAll.seen fun _ ho => .inl ho
  · exact KnownAll.seen fun _ ho => .inr (.inl ho)
  · -- the key is concrete, and the rest is on the network
    refine KnownAll.append.mpr ⟨KnownAll.append.mpr ⟨?_, KnownAll.lits _⟩, ?_⟩
    · exact KnownAll.seen fun _ ho => .inr (.inr (List.mem_of_mem_take ho))
    · exact KnownAll.seen fun _ ho => .inr (.inr (List.mem_of_mem_drop ho))
  · intro heq
    have hkey := msg3Of_inj hzero (length_x25519PublicBytes _)
      ((zeroKey_msg3 _ _ _ _ _).symm.trans heq)
    exact block_ne_lits (by norm_num) hkey.symm

end Heimdall.Proto
