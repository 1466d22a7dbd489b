/-
A handshaker over its whole life.

`HandleMessage` may be called with anything, any number of times. A message that fails leaves what
it had written by then: the peer's ephemeral key, the transcript, sometimes the shared secret. So it
is not plain from one call that a handshaker is good for one handshake only.

The calls are run with a ledger of the transcripts that were signed and of the results that were
returned; what a call signs comes out of `handleMessageSigning` with its answer, and the answer is
the signature of what the ledger says (`Carries`). `Effect` lists what one call can do to the
handshaker and to the ledger; the invariant `OneShot` is kept by each of its cases, for different
reasons: a responder signs when it sets its transcript, which it does once; an initiator sets its
transcript with every attempt, but what comes after the signature cannot fail any more, except for
the CSPRNG.
-/
import Heimdall.HandshakeSpec

set_option autoImplicit false

namespace Heimdall.Proto

open Heimdall.BigEndian Heimdall.Octets Heimdall.Crypto

namespace Handshaker

/-! ## What one call can do -/

/-- The handshaker with the peer's ephemeral key, as both roles set it. -/
def heard (h : Handshaker) (eph shared : Bytes) : Handshaker :=
  { h with
    peerEph := eph
    transcript := transcriptOf h.initiator h.ephPub eph
    shared := shared }

/-- The message `resp` is an auth message with a blob that holds the signature of `t`. -/
def Carries (h : Handshaker) (rand : Option Nonce) (t resp : Bytes) : Prop :=
  ∃ sig key blob, h.id.sign t = some sig ∧
    sealBlob key hsAAD (marshalAuthPlain h.id.pub h.id.name sig) rand = .ok blob ∧
    resp = marshalAuth h.ephPub blob

/-- What a call can do: the handshaker after it, what it returns, and what it has signed. -/
inductive Effect (h : Handshaker) (msg : Bytes) (rand : Option Nonce) :
    Handshaker → Except HsErr Reply → List Bytes → Prop
  /-- Nothing at all. -/
  | refused (e : HsErr) : Effect h msg rand h (.error e) []
  /-- A responder takes msg1, but there is no agreement on a secret. -/
  | unanswered {eph : Bytes} (e : HsErr) (going : h.done = false) (role : h.initiator = false)
      (first : h.transcript = []) (parsed : parseInit msg = .ok eph) :
      Effect h msg rand (h.heard eph h.shared) (.error e) []
  /-- A responder takes msg1 and signs; sealing msg2 may still fail. -/
  | answered {eph shared : Bytes} {reply : Except HsErr Reply} (going : h.done = false)
      (role : h.initiator = false) (first : h.transcript = []) (parsed : parseInit msg = .ok eph)
      (answer : ∀ resp res, reply = .ok (resp, res) →
        res = none ∧ ∃ m, resp = some m ∧ h.Carries rand (transcriptOf false h.ephPub eph) m) :
      Effect h msg rand (h.heard eph shared) reply [transcriptOf false h.ephPub eph]
  /-- An initiator does not get as far as its signature. -/
  | attempted {eph shared : Bytes} (e : HsErr) (going : h.done = false)
      (role : h.initiator = true) : Effect h msg rand (h.heard eph shared) (.error e) []
  /-- An initiator signs and has no nonce to seal msg3 with. -/
  | unsealed {eph shared : Bytes} (e : HsErr) (going : h.done = false) (role : h.initiator = true)
      (noNonce : rand = none) :
      Effect h msg rand (h.heard eph shared) (.error e) [transcriptOf true h.ephPub eph]
  | completedInitiator {eph shared resp : Bytes} {res : HandshakeResult} (going : h.done = false)
      (role : h.initiator = true) (same : res.transcript = transcriptOf true h.ephPub eph)
      (answer : h.Carries rand (transcriptOf true h.ephPub eph) resp) :
      Effect h msg rand (h.heard eph shared).finish (.ok (some resp, some res))
        [transcriptOf true h.ephPub eph]
  | completedResponder {res : HandshakeResult} (going : h.done = false)
      (role : h.initiator = false) (agreed : h.shared ≠ []) (same : res.transcript = h.transcript) :
      Effect h msg rand h.finish (.ok (none, some res)) []

section Effect

variable {h : Handshaker} {a : Owner}

theorem sign_eq (hkey : h.id.priv = some a) :
    h.id.sign h.transcript = some (block (.ed25519Sign a) [h.transcript] 64) := by
  rw [Identity.sign, hkey]
  rfl

theorem signed_sealAuth (hne : h.shared ≠ []) (hkey : h.id.priv = some a) (info : String)
    (rand : Option Nonce) : (h.sealAuth info rand).signed = [h.transcript] := by
  rw [sealAuth, authKey_eq hne]
  simp only [sign_eq hkey]
  split <;> rfl

theorem carries_of_sealAuth {info : String} {rand : Option Nonce} {blob : Bytes}
    (hok : (h.sealAuth info rand).val = .ok blob) :
    h.Carries rand h.transcript (marshalAuth h.ephPub blob) := by
  unfold sealAuth at hok
  split at hok
  · exact absurd hok (by simp)
  · rename_i key _
    split at hok
    · exact absurd hok (by simp)
    · rename_i sig hsig
      split at hok
      · exact absurd hok (by simp)
      · rename_i sealed hsealed
        obtain rfl := Except.ok.inj hok
        exact ⟨sig, key, sealed, hsig, hsealed, rfl⟩

/-- After the signature only the CSPRNG can fail: the key has the right size, as it was derived. -/
theorem sealAuth_error (hne : h.shared ≠ []) (hkey : h.id.priv = some a) {info : String}
    {rand : Option Nonce} {e : HsErr} (herr : (h.sealAuth info rand).val = .error e) :
    rand = none := by
  rcases rand with _ | n
  · rfl
  · -- the key has the right length, so with a nonce the blob is sealed
    rw [sealAuth, authKey_eq hne] at herr
    simp only [sign_eq hkey] at herr
    rw [sealBlob_ok (length_authKeyOf _ _ _)] at herr
    exact absurd herr (by simp)

theorem deriveShared_heard {eph : Bytes} {h₂ : Handshaker} (hkey : h.id.priv = some a)
    (hd : deriveShared { h with
      peerEph := eph, transcript := transcriptOf h.initiator h.ephPub eph } = .ok h₂) :
    ∃ shared, h₂ = h.heard eph shared ∧ h₂.shared ≠ [] ∧ h₂.id.priv = some a ∧
      h₂.transcript = transcriptOf h.initiator h.ephPub eph := by
  obtain ⟨x, shared, -, hagree, rfl⟩ := deriveShared_eq_ok.mp hd
  exact ⟨shared, rfl, shared_ne_nil hagree, hkey, rfl⟩

/-- `handleInit` sets the transcript first and signs it when the two have agreed. If anything
fails after that the transcript stays. -/
theorem handleInit_effect (hkey : h.id.priv = some a) (going : h.done = false)
    (role : h.initiator = false) (first : h.transcript = []) (msg : Bytes) (rand : Option Nonce) :
    Effect h msg rand (h.handleInit msg rand).val.1 (h.handleInit msg rand).val.2
      (h.handleInit msg rand).signed := by
  have htr : ∀ eph, transcriptHash [handshakeDomain, eph, h.ephPub]
      = transcriptOf h.initiator h.ephPub eph := by
    intro eph
    rw [role]
    rfl
  unfold handleInit
  rcases hp : parseInit msg with e | eph
  · exact .refused e
  simp only [htr]
  -- the peer's key and the transcript are written before anything else can fail
  rcases hd : deriveShared { h with
      peerEph := eph, transcript := transcriptOf h.initiator h.ephPub eph } with e | h₂
  · exact .unanswered e going role first hp
  obtain ⟨shared, hheard, hne, hkey₂, htr₂⟩ := deriveShared_heard hkey hd
  have hsigned := signed_sealAuth hne hkey₂ infoHS2 rand
  rw [htr₂, role] at hsigned
  simp only []
  rcases hseal : h₂.sealAuth infoHS2 rand with ⟨e | blob, signed⟩
  · rw [hseal] at hsigned
    rw [show signed = _ from hsigned, hheard]
    exact .answered going role first hp (by simp)
  · have hcarries := carries_of_sealAuth (congrArg Signing.val hseal)
    rw [hseal] at hsigned
    rw [htr₂, role, hheard] at hcarries
    rw [show signed = _ from hsigned, hheard]
    refine .answered going role first hp fun resp res heq => ?_
    obtain ⟨rfl, rfl⟩ := Prod.mk.inj (Except.ok.inj heq)
    exact ⟨rfl, _, rfl, hcarries⟩

/-- `handleAuthInitiator` signs last, after all checks, so only the CSPRNG can fail once it has
signed. -/
theorem handleAuthInitiator_effect (hkey : h.id.priv = some a) (going : h.done = false)
    (role : h.initiator = true) (msg : Bytes) (rand : Option Nonce) :
    Effect h msg rand (h.handleAuthInitiator msg rand).val.1 (h.handleAuthInitiator msg rand).val.2
      (h.handleAuthInitiator msg rand).signed := by
  have htr : ∀ eph, transcriptHash [handshakeDomain, h.ephPub, eph]
      = transcriptOf h.initiator h.ephPub eph := by
    intro eph
    rw [role]
    rfl
  unfold handleAuthInitiator
  rcases hp : parseAuth msg with e | ⟨eph, blob⟩
  · exact .refused e
  simp only [htr]
  rcases hd : deriveShared { h with
      peerEph := eph, transcript := transcriptOf h.initiator h.ephPub eph } with e | h₂
  · exact Effect.attempted e going role
  obtain ⟨shared, hheard, hne, hkey₂, htr₂⟩ := deriveShared_heard hkey hd
  rw [role] at htr₂
  have hsigned := signed_sealAuth hne hkey₂ infoHS3 rand
  rw [htr₂] at hsigned
  simp only []
  -- the peer is checked before anything is signed
  rcases h₂.checkPeer blob infoHS2 with e | ⟨pub, name⟩
  · rw [hheard]
    exact .attempted e going role
  simp only []
  rcases hseal : h₂.sealAuth infoHS3 rand with ⟨e | msg3blob, signed⟩
  · have hnone := sealAuth_error hne hkey₂ (congrArg Signing.val hseal)
    rw [hseal] at hsigned
    rw [show signed = _ from hsigned, hheard]
    exact .unsealed e going role hnone
  · -- there is a shared secret, so the session is built
    have hcarries := carries_of_sealAuth (congrArg Signing.val hseal)
    rw [hseal] at hsigned
    rw [htr₂, hheard] at hcarries
    simp only [complete_eq hne]
    rw [show signed = _ from hsigned, hheard]
    refine .completedInitiator going role ?_ hcarries
    rw [← htr₂, hheard]

/-- `handleAuthResponder` signs nothing. -/
theorem handleAuthResponder_effect (going : h.done = false) (role : h.initiator = false)
    (msg : Bytes) (rand : Option Nonce) :
    Effect h msg rand (h.handleAuthResponder msg).1 (h.handleAuthResponder msg).2 [] := by
  unfold handleAuthResponder
  split_ifs with hnil
  · exact .refused _
  rcases parseAuth msg with e | ⟨eph, blob⟩
  · exact .refused e
  simp only []
  rcases hcheck : h.checkPeer blob infoHS3 with e | ⟨pub, name⟩
  · exact .refused e
  -- without a shared secret there is no key to open the blob with
  have hne : h.shared ≠ [] := by
    intro hsh
    rw [checkPeer_nil hsh] at hcheck
    exact absurd hcheck nofun
  simp only [complete_eq hne]
  exact .completedResponder going role hne rfl

/-- **What one call can do**, by the order of the checks in `HandleMessage`. -/
theorem handleMessage_effect (hkey : h.id.priv = some a) (msg : Bytes) (rand : Option Nonce) :
    Effect h msg rand (h.handleMessageSigning msg rand).val.1
      (h.handleMessageSigning msg rand).val.2 (h.handleMessageSigning msg rand).signed := by
  unfold handleMessageSigning
  by_cases hdone : h.done = true
  · rw [if_pos hdone]
    exact .refused _
  have going : h.done = false := by simpa using hdone
  rw [if_neg hdone]
  by_cases hsize : msg.length = 0 ∨ msg.length > maxHsSize
  · rw [if_pos hsize]
    exact .refused _
  rw [if_neg hsize]
  -- a responder takes msg1 once; after that only an auth message gets any further
  by_cases hinit : ¬ h.initiator ∧ firstByte msg = some hsTypeInit ∧ h.transcript = []
  · rw [if_pos hinit]
    exact handleInit_effect hkey going (by simpa using hinit.1) hinit.2.2 msg rand
  rw [if_neg hinit]
  by_cases hauth : firstByte msg = some hsTypeAuth
  · rw [if_pos hauth]
    by_cases hrole : h.initiator = true
    · rw [if_pos hrole]
      exact handleAuthInitiator_effect hkey going hrole msg rand
    · rw [if_neg hrole]
      exact handleAuthResponder_effect going (by simpa using hrole) msg rand
  · rw [if_neg hauth]
    exact .refused _

/-- **An answer is the signature of what the call has signed**, in either role. -/
theorem Effect.carries {h' : Handshaker} {reply : Except HsErr Reply} {signed : List Bytes}
    {msg resp : Bytes} {rand : Option Nonce} {res : Option HandshakeResult}
    (heff : Effect h msg rand h' reply signed) (hreply : reply = .ok (some resp, res)) :
    ∃ t, signed = [t] ∧ h.Carries rand t resp := by
  cases heff with
  | refused | unanswered | attempted | unsealed => exact absurd hreply (by simp)
  | answered going role first parsed answer =>
    obtain ⟨-, m, hm, hcarries⟩ := answer _ _ hreply
    obtain rfl := Option.some.inj hm
    exact ⟨_, rfl, hcarries⟩
  | completedInitiator going role same answer =>
    obtain rfl := Option.some.inj (Prod.mk.inj (Except.ok.inj hreply)).1
    exact ⟨_, rfl, answer⟩
  | completedResponder => exact absurd hreply (by simp)

end Effect

/-! ## The life of a handshaker -/

/-- A handshaker with what it has signed and returned so far. -/
structure Life where
  hs : Handshaker
  signed : List Bytes := []
  results : List HandshakeResult := []

def resultOf? : Except HsErr Reply → List HandshakeResult
  | .ok (_, some res) => [res]
  | _ => []

/-- A call of `HandleMessage`; `rand` is what the CSPRNG answers during the call. -/
structure Call where
  msg : Bytes
  rand : Option Nonce

def Life.reply (l : Life) (c : Call) : Signing (Handshaker × Except HsErr Reply) :=
  l.hs.handleMessageSigning c.msg c.rand

def Life.call (l : Life) (c : Call) : Life :=
  { hs := (l.reply c).val.1
    signed := l.signed ++ (l.reply c).signed
    results := l.results ++ resultOf? (l.reply c).val.2 }

def life (h : Handshaker) (calls : List Call) : Life := calls.foldl Life.call { hs := h }

theorem life_snoc (h : Handshaker) (calls : List Call) (c : Call) :
    h.life (calls ++ [c]) = (h.life calls).call c := by
  rw [life, List.foldl_append]
  rfl

/-- What holds of a responder that started as `h₀`. -/
structure ResponderOnce (h₀ : Handshaker) (calls : List Call) (l : Life) : Prop where
  once : l.signed.length ≤ 1
  first : l.hs.transcript = [] → l.signed = [] ∧ l.hs.shared = []
  agreed : l.hs.shared ≠ [] → l.hs.transcript ∈ l.signed
  accepted : ∀ t ∈ l.signed, ∃ c ∈ calls, ∃ eph,
    parseInit c.msg = .ok eph ∧ t = transcriptOf false h₀.ephPub eph

/-- **What holds after any calls** of a handshaker that started as `h₀`. -/
structure OneShot (h₀ : Handshaker) (calls : List Call) (l : Life) : Prop where
  id : l.hs.id = h₀.id
  role : l.hs.initiator = h₀.initiator
  ephPub : l.hs.ephPub = h₀.ephPub
  going : l.hs.done = false → l.results = []
  once : l.results.length ≤ 1
  same : ∀ res ∈ l.results, res.transcript ∈ l.signed
  responder : h₀.initiator = false → ResponderOnce h₀ calls l
  /-- An initiator that signs is done, unless the CSPRNG has failed. -/
  initiator : h₀.initiator = true → (∀ c ∈ calls, c.rand ≠ none) →
    l.signed.length ≤ 1 ∧ (l.hs.done = false → l.signed = [])

section Life

variable {h₀ : Handshaker} {calls : List Call} {l : Life} {a : Owner}

theorem ResponderOnce.accepted_snoc (h : ResponderOnce h₀ calls l) (c : Call) :
    ∀ t ∈ l.signed, ∃ c' ∈ calls ++ [c], ∃ eph,
      parseInit c'.msg = .ok eph ∧ t = transcriptOf false h₀.ephPub eph := by
  intro t ht
  obtain ⟨c', hc', heph⟩ := h.accepted t ht
  exact ⟨c', List.mem_append_left _ hc', heph⟩

/-- The invariant is kept by every effect. That a call which signs is the only one of its kind
comes from the transcript for a responder, and from `done` for an initiator. -/
theorem OneShot.effect (hl : OneShot h₀ calls l) {c : Call} {h' : Handshaker}
    {reply : Except HsErr Reply} {new : List Bytes} (heff : Effect l.hs c.msg c.rand h' reply new) :
    OneShot h₀ (calls ++ [c])
      { hs := h', signed := l.signed ++ new, results := l.results ++ resultOf? reply } := by
  have hrands : (∀ c' ∈ calls ++ [c], c'.rand ≠ none) → ∀ c' ∈ calls, c'.rand ≠ none :=
    fun hc c' hc' => hc c' (List.mem_append_left _ hc')
  cases heff with
  | refused e =>
    simp only [resultOf?, List.append_nil]
    refine ⟨hl.id, hl.role, hl.ephPub, hl.going, hl.once, hl.same, fun hrole => ?_,
      fun hrole hr => hl.initiator hrole (hrands hr)⟩
    have hresp := hl.responder hrole
    exact ⟨hresp.once, hresp.first, hresp.agreed, hresp.accepted_snoc c⟩
  | unanswered e going role first parsed =>
    simp only [resultOf?, List.append_nil]
    refine ⟨hl.id, hl.role, hl.ephPub, fun _ => hl.going going, hl.once, hl.same, fun hrole => ?_,
      fun hrole => absurd (hl.role.symm.trans role) (by simp [hrole])⟩
    have hresp := hl.responder hrole
    refine ⟨hresp.once, fun hnil => absurd hnil (transcriptOf_ne_nil _ _ _), fun hne => ?_,
      hresp.accepted_snoc c⟩
    exact absurd (hresp.first first).2 hne
  | @answered eph shared reply going role first parsed answer =>
    have hno : resultOf? reply = [] := by
      rcases reply with e | ⟨resp, _ | res⟩
      · rfl
      · rfl
      · exact absurd (answer resp _ rfl).1 (by simp)
    have hresp := hl.responder (hl.role.symm.trans role)
    rw [hno, (hresp.first first).1, hl.going going]
    refine ⟨hl.id, hl.role, hl.ephPub, fun _ => rfl, Nat.zero_le 1, nofun, fun hrole => ?_,
      fun hrole => absurd (hl.role.symm.trans role) (by simp [hrole])⟩
    refine ⟨le_refl 1, fun hnil => absurd hnil (transcriptOf_ne_nil _ _ _), fun _ => ?_, ?_⟩
    · -- the transcript that was set is the one that was signed
      rw [heard, role]
      exact List.mem_singleton_self _
    · intro t ht
      refine ⟨c, List.mem_append_right _ (List.mem_singleton_self c), eph, parsed, ?_⟩
      rw [List.mem_singleton.mp ht, hl.ephPub]
  | attempted e going role =>
    simp only [resultOf?, List.append_nil]
    exact ⟨hl.id, hl.role, hl.ephPub, fun _ => hl.going going, hl.once, hl.same,
      fun hrole => absurd (hl.role.symm.trans role) (by simp [hrole]),
      fun hrole hr =>
        ⟨(hl.initiator hrole (hrands hr)).1, fun _ => (hl.initiator hrole (hrands hr)).2 going⟩⟩
  | unsealed e going role noNonce =>
    simp only [resultOf?, List.append_nil]
    refine ⟨hl.id, hl.role, hl.ephPub, fun _ => hl.going going, hl.once, fun res hres => ?_,
      fun hrole => absurd (hl.role.symm.trans role) (by simp [hrole]), fun _ hr => ?_⟩
    · exact List.mem_append_left _ (hl.same res hres)
    · exact absurd noNonce (hr c (List.mem_append_right _ (List.mem_singleton_self c)))
  | completedInitiator going role same _ =>
    rw [hl.going going]
    refine ⟨hl.id, hl.role, hl.ephPub, fun hc => absurd hc (by simp [Handshaker.finish]), le_refl 1,
      fun res hres => ?_, fun hrole => absurd (hl.role.symm.trans role) (by simp [hrole]),
      fun hrole hr => ?_⟩
    · obtain rfl := List.mem_singleton.mp hres
      rw [same]
      exact List.mem_append_right _ (List.mem_singleton_self _)
    · rw [(hl.initiator hrole (hrands hr)).2 going]
      exact ⟨le_refl 1, fun hc => absurd hc (by simp [Handshaker.finish])⟩
  | completedResponder going role agreed same =>
    have hresp := hl.responder (hl.role.symm.trans role)
    have hmem := hresp.agreed agreed
    rw [hl.going going, List.append_nil]
    refine ⟨hl.id, hl.role, hl.ephPub, fun hc => absurd hc (by simp [Handshaker.finish]), le_refl 1,
      fun res hres => ?_, fun _ => ?_,
      fun hrole => absurd (hl.role.symm.trans role) (by simp [hrole])⟩
    · obtain rfl := List.mem_singleton.mp hres
      rw [same]
      exact hmem
    · refine ⟨hresp.once, fun hnil => ?_, fun hc => absurd rfl hc, hresp.accepted_snoc c⟩
      exact absurd (hresp.first hnil).2 agreed

/-- **A run keeps the invariant**, by induction on the calls. -/
theorem oneShot_life (hkey : h₀.id.priv = some a) (hnone : h₀.shared = [])
    (calls : List Call) : OneShot h₀ calls (h₀.life calls) := by
  induction calls using List.reverseRecOn with
  | nil =>
    refine ⟨rfl, rfl, rfl, fun _ => rfl, Nat.zero_le 1, nofun, fun _ => ?_,
      fun _ _ => ⟨Nat.zero_le 1, fun _ => rfl⟩⟩
    exact ⟨Nat.zero_le 1, fun _ => ⟨rfl, hnone⟩, fun hc => absurd hnone hc, nofun⟩
  | append_singleton calls c ih =>
    rw [life_snoc]
    exact ih.effect (handleMessage_effect (ih.id ▸ hkey) c.msg c.rand)

end Life

end Handshaker

/-- **A handshaker is one-shot.** After any calls of `HandleMessage` on a new handshaker: at most
one transcript has been signed (by an initiator: as long as the CSPRNG does not fail), and at
most one result has been returned. Once there is a result, every call returns an error and signs
nothing. What a responder has signed is the transcript of a well-formed msg1 that it was given.
The transcript of a result has been signed, so a responder that returns one has taken such a
message as well. And what is signed is what goes out: the answer of a call is an auth message
with the signature of the one transcript that the call has signed. -/
theorem handshaker_one_shot {id : Identity} {initiator : Bool} {eph : Option Owner} {h : Handshaker}
    (hnew : newHandshaker id initiator eph = .ok h) (calls : List Handshaker.Call) :
    ((initiator = true → ∀ c ∈ calls, c.rand ≠ none) → (h.life calls).signed.length ≤ 1) ∧
      (h.life calls).results.length ≤ 1 ∧
      ((h.life calls).results ≠ [] → ∀ c : Handshaker.Call,
        (∃ e, ((h.life calls).reply c).val.2 = .error e) ∧ ((h.life calls).reply c).signed = []) ∧
      (initiator = false → ∀ t ∈ (h.life calls).signed, ∃ c ∈ calls, ∃ peer,
        parseInit c.msg = .ok peer ∧ t = transcriptHash [handshakeDomain, peer, h.ephPub]) ∧
      (∀ res ∈ (h.life calls).results, res.transcript ∈ (h.life calls).signed) ∧
      ∀ (c : Handshaker.Call) (resp : Bytes) (res : Option HandshakeResult),
        ((h.life calls).reply c).val.2 = .ok (some resp, res) →
        ∃ t, ((h.life calls).reply c).signed = [t] ∧ h.Carries c.rand t resp := by
  -- the key is there, or there would be no handshaker
  obtain ⟨a, hkey⟩ : ∃ a, id.priv = some a := by
    unfold newHandshaker at hnew
    split_ifs at hnew with hno
    exact Option.isSome_iff_exists.mp (by simpa [Identity.hasPrivateKey] using hno)
  obtain ⟨hid, hrole, hsh⟩ : h.id = id ∧ h.initiator = initiator ∧ h.shared = [] := by
    unfold newHandshaker at hnew
    rw [if_neg (by simp [Identity.hasPrivateKey, hkey])] at hnew
    rcases eph with _ | x
    · exact absurd hnew (by simp)
    · obtain rfl := Except.ok.inj hnew
      exact ⟨rfl, rfl, rfl⟩
  have hone := Handshaker.oneShot_life (by rw [hid, hkey]) hsh calls
  refine ⟨fun hrands => ?_, hone.once, fun hres c => ?_, fun hresp => ?_, hone.same,
    fun c resp res hreply => ?_⟩
  · cases hinit : initiator with
    | true => exact (hone.initiator (hrole.trans hinit) (hrands hinit)).1
    | false => exact (hone.responder (hrole.trans hinit)).once
  · have hdone : (h.life calls).hs.done = true := by
      by_contra hc
      exact hres (hone.going (by simpa using hc))
    refine ⟨⟨.errHandshake .alreadyComplete, ?_⟩, ?_⟩
    · rw [Handshaker.Life.reply, Handshaker.handleMessageSigning, if_pos hdone]
    · rw [Handshaker.Life.reply, Handshaker.handleMessageSigning, if_pos hdone]
  · exact (hone.responder (hrole.trans hresp)).accepted
  · -- the identity and the ephemeral key are those the handshaker was made with
    obtain ⟨t, hsigned, hcarries⟩ := (Handshaker.handleMessage_effect
      (by rw [hone.id, hid, hkey]) c.msg c.rand).carries hreply
    refine ⟨t, hsigned, ?_⟩
    unfold Handshaker.Carries at hcarries
    rw [hone.id, hone.ephPub] at hcarries
    exact hcarries

/-- A responder is given a bad msg1, a good one, the good one again and a bad msg3: it has signed
once. -/
theorem handshaker_one_shot_responder :
    ∃ h, newHandshaker (identityOf (.honest 1) (lits [98])) false (some (.honest 2)) = .ok h ∧
      ∃ calls : List Handshaker.Call, calls.length = 4 ∧ (h.life calls).signed.length = 1 ∧
        (h.life calls).results.length ≤ 1 ∧
        ∀ t ∈ (h.life calls).signed, ∃ c ∈ calls, ∃ peer, parseInit c.msg = .ok peer ∧
          t = transcriptHash [handshakeDomain, peer, h.ephPub] := by
  let msg1 : Bytes := .lit hsTypeInit :: (putUint16 32 ++ x25519PublicBytes (.attacker 3))
  let n : Nonce := ⟨List.replicate 12 0, rfl⟩
  let calls : List Handshaker.Call :=
    [⟨lits [1, 0], some n⟩, ⟨msg1, some n⟩, ⟨msg1, some n⟩, ⟨marshalAuth msg1 msg1, some n⟩]
  obtain ⟨h, hnew⟩ : ∃ h,
      newHandshaker (identityOf (.honest 1) (lits [98])) false (some (.honest 2))
        = .ok h := ⟨_, rfl⟩
  obtain ⟨-, honce, -, haccepted, -, -⟩ := handshaker_one_shot hnew calls
  refine ⟨h, hnew, calls, rfl, ?_, honce, haccepted rfl⟩
  obtain rfl := Except.ok.inj hnew
  decide +kernel

end Heimdall.Proto
