/-
Where the messages on the network come from.

Every message an honest node has sent is an init message, an auth message over the node's
final transcript, or a session frame with a text or a confirmation in it (`Emits`). It
follows that all octets on the network are `Pub` for what the honest nodes have done
(`Inv.pub`), and so is everything the attacker sends (`Inv.pub_of_known`). That in turn gives
what a completed handshake implies (`Result`): a signature of an honest identity over this
transcript was made by a node of that identity, and an auth blob under a key of two honest
ephemeral keys was sealed by the node at the other end.

All of it only ever refers to what cannot change any more (`Node.Extends`), so each step
keeps it (`Inv.step`).
-/
import Heimdall.World

set_option autoImplicit false

namespace Heimdall.Proto

open Heimdall.BigEndian Heimdall.Octets Heimdall.Crypto

/-! ## What a node has settled -/

def ownInfo (initiator : Bool) : String := if initiator then infoHS3 else infoHS2

theorem ownInfo_eq_peerInfo {i j : Bool} (h : ownInfo i = Handshaker.peerInfo j) : i = !j := by
  revert h
  rcases i <;> rcases j <;> decide

/-- Node `j` has agreed on `shared`, and its transcript is final. -/
structure Node.Authed (j : ℕ) (n : Node) (shared : Bytes) : Prop where
  fixed : n.hs.Fixed
  transcript : n.hs.transcript
    = transcriptOf n.hs.initiator (x25519PublicBytes (.honest j)) n.hs.peerEph
  agreed : ecdh (.honest j) n.hs.peerEph = some shared
  shared : n.hs.done = false → n.hs.shared = shared

/-- `n'` is a later state of the node `n`. -/
structure Node.Extends (n n' : Node) : Prop where
  owner : n'.owner = n.owner
  name : n'.name = n.name
  driver : n'.driver = n.driver
  role : n'.hs.initiator = n.hs.initiator
  fixed : n.hs.Fixed → n'.hs.Fixed ∧ n'.hs.transcript = n.hs.transcript ∧
    n'.hs.peerEph = n.hs.peerEph ∧
    (n'.hs.done = false → n.hs.done = false ∧ n'.hs.shared = n.hs.shared)
  result : ∀ res, n.result = some res → n'.result = some res

theorem Node.Extends.setPhase (n : Node) (p : Phase) : n.Extends { n with phase := p } :=
  ⟨rfl, rfl, rfl, rfl, fun hf => ⟨hf, rfl, rfl, fun hd => ⟨hd, rfl⟩⟩, fun _ hr => hr⟩

/-- A node that has a transcript or is done never changes it. What the invariant says about other
nodes is said only of such facts, so it stays true when they go on. -/
theorem Node.Authed.mono {j : ℕ} {n n' : Node} {shared : Bytes} (h : n.Authed j shared)
    (he : n.Extends n') : n'.Authed j shared := by
  obtain ⟨hf, ht, hp, hd⟩ := he.fixed h.fixed
  refine ⟨hf, ?_, ?_, fun hdone => ?_⟩
  · rw [ht, hp, he.role]
    exact h.transcript
  · rw [hp]
    exact h.agreed
  · obtain ⟨hdone', hsh⟩ := hd hdone
    exact hsh.trans (h.shared hdone')

/-- What node `i` puts on the network: handshake messages (`false`) and frames (`true`). -/
inductive Emits (i : ℕ) (n : Node) : Bool → Bytes → Prop
  | init : Emits i n false (.lit hsTypeInit :: (putUint16 32 ++ x25519PublicBytes (.honest i)))
  | auth {shared : Bytes} (nonce : Nonce) (h : n.Authed i shared) :
      Emits i n false (marshalAuth (x25519PublicBytes (.honest i))
        (authBlobOf (.honest n.owner) (lits n.name) (ownInfo n.hs.initiator) shared
          n.hs.transcript nonce))
  | text (root : Bytes) (d : Dir) (typ : UInt8) (q : UInt64) (e : UInt32) (nonce : Nonce)
      (text : List UInt8) :
      Emits i n true (marshalFrame (sealedFrame root d typ q e nonce (lits text)))
  | confirm (root : Bytes) (d : Dir) (q : UInt64) (e : UInt32) (nonce : Nonce) {code : ℕ}
      {res : HandshakeResult} (hd : n.driver = .runHandshake (some code))
      (hr : n.result = some res) :
      Emits i n true (marshalFrame (sealedFrame root d typePairConfirm q e nonce
        (confirmOf (codeKey code) res.transcript)))

theorem Emits.mono {i : ℕ} {n n' : Node} {fr : Bool} {b : Bytes} (h : Emits i n fr b)
    (he : n.Extends n') : Emits i n' fr b := by
  rcases h with _ | ⟨nonce, hauth⟩ | ⟨root, d, typ, q, e, nonce, text⟩ |
    ⟨root, d, q, e, nonce, hd, hr⟩
  · exact .init
  · have hmsg := Emits.auth nonce (hauth.mono he)
    rw [he.owner, he.name, he.role, (he.fixed hauth.fixed).2.1] at hmsg
    exact hmsg
  · exact .text root d typ q e nonce text
  · exact .confirm root d q e nonce (he.driver.trans hd) (he.result _ hr)

/-! ## The deeds of the honest nodes -/

namespace World

/-- Node `j` has called `confirmPairing` with this key and transcript. -/
def Confirms (w : World) (j : ℕ) (pairingKey transcript : Bytes) : Prop :=
  ∃ (n : Node) (res : HandshakeResult) (code : ℕ), w.nodes[j]? = some n ∧
    n.driver = .runHandshake (some code) ∧
    n.result = some res ∧ pairingKey = codeKey code ∧ transcript = res.transcript

/-- What the honest nodes have done, leaving out the frames of node `X`. -/
def deeds (w : World) (X : Option ℕ) : Deeds where
  signed b m := ∃ (j : ℕ) (n : Node) (shared : Bytes), w.nodes[j]? = some n ∧ n.owner = b ∧
    n.Authed j shared ∧
    n.hs.transcript = m
  sealed args := ∃ s ∈ w.sent, visible X s ∧ .out .gcm args 0 ∈ s.bytes
  revealed pairingKey transcript := ∃ j, some j ≠ X ∧ w.Confirms j pairingKey transcript

/-- `w'` is a later state of the world `w`. -/
def Extends (w w' : World) : Prop :=
  ∀ (j : ℕ) (n : Node), w.nodes[j]? = some n → ∃ n', w'.nodes[j]? = some n' ∧ n.Extends n'

end World

/-! ## The invariant -/

/-- What a result of node `j` implies. -/
structure Result (leaked : ℕ → Prop) (w : World) (j : ℕ) (n : Node) (res : HandshakeResult)
    (shared : Bytes) : Prop where
  authed : n.Authed j shared
  transcript : res.transcript = n.hs.transcript
  session : res.session = freshSession (rootOf shared n.hs.transcript) n.hs.initiator
  notSelf : res.peerKey ≠ ed25519PublicBytes (.honest n.owner)
  signed : ∀ b, res.peerKey = ed25519PublicBytes (.honest b) →
    (w.deeds none).signed b n.hs.transcript
  sealed : SecretKey leaked shared → ∃ (k : ℕ) (nk : Node), w.nodes[k]? = some nk ∧
    nk.Authed k shared ∧
    nk.hs.transcript = n.hs.transcript ∧ nk.hs.initiator = (!n.hs.initiator) ∧
    res.peerKey = ed25519PublicBytes (.honest nk.owner)

/-- The session a node holds in a phase is that of its result. -/
def Node.PhaseOk (n : Node) : Prop :=
  match n.phase with
  | .handshaking => n.result = none
  | .confirming s key transcript => ∃ res code, n.result = some res ∧
      n.driver = .runHandshake (some code) ∧ key = codeKey code ∧ transcript = res.transcript ∧
      Live res.session.root n.hs.initiator s
  | .established s => ∃ res, n.result = some res ∧ Live res.session.root n.hs.initiator s
  | .failed => True

structure NodeInv (leaked : ℕ → Prop) (w : World) (j : ℕ) (n : Node) : Prop where
  sound : n.hs.Sound (.honest j) (.honest n.owner) (lits n.name)
  phase : n.PhaseOk
  going : n.result = none → n.hs.done = false
  result : ∀ res, n.result = some res → ∃ shared, Result leaked w j n res shared

structure World.Inv (leaked : ℕ → Prop) (w : World) : Prop where
  nodes : ∀ (j : ℕ) (n : Node), w.nodes[j]? = some n → NodeInv leaked w j n
  sent : ∀ s ∈ w.sent, ∃ n, w.nodes[s.node]? = some n ∧ Emits s.node n s.frame s.bytes

section Mono

variable {leaked : ℕ → Prop} {w w' : World}

theorem World.Extends.signed (h : w.Extends w') {X X' : Option ℕ} {b : ℕ} {m : Bytes}
    (hs : (w.deeds X).signed b m) : (w'.deeds X').signed b m := by
  obtain ⟨j, n, shared, hj, hb, hauth, hm⟩ := hs
  obtain ⟨n', hj', he⟩ := h j n hj
  exact ⟨j, n', shared, hj', he.owner.trans hb, hauth.mono he,
    (he.fixed hauth.fixed).2.1.trans hm⟩

theorem World.Extends.confirms (h : w.Extends w') {j : ℕ} {key transcript : Bytes}
    (hc : w.Confirms j key transcript) : w'.Confirms j key transcript := by
  obtain ⟨n, res, code, hj, hd, hr, hk, ht⟩ := hc
  obtain ⟨n', hj', he⟩ := h j n hj
  exact ⟨n', res, code, hj', he.driver.trans hd, he.result _ hr, hk, ht⟩

theorem Result.mono {j : ℕ} {n n' : Node} {res : HandshakeResult} {shared : Bytes}
    (h : Result leaked w j n res shared) (hw : w.Extends w') (he : n.Extends n') :
    Result leaked w' j n' res shared := by
  -- the transcript and the role of the node do not change, and those of its peer neither
  obtain ⟨-, ht, -⟩ := he.fixed h.authed.fixed
  refine ⟨h.authed.mono he, h.transcript.trans ht.symm, ?_, ?_, fun b hb => ?_, fun hsec => ?_⟩
  · rw [ht, he.role]
    exact h.session
  · rw [he.owner]
    exact h.notSelf
  · rw [ht]
    exact hw.signed (h.signed b hb)
  · obtain ⟨k, nk, hk, hauth, htk, hrole, hkey⟩ := h.sealed hsec
    obtain ⟨nk', hk', hek⟩ := hw k nk hk
    refine ⟨k, nk', hk', hauth.mono hek, ?_, ?_, ?_⟩
    · rw [(hek.fixed hauth.fixed).2.1, ht]
      exact htk
    · rw [hek.role, he.role]
      exact hrole
    · rw [hek.owner]
      exact hkey

theorem NodeInv.mono {j : ℕ} {n : Node} (h : NodeInv leaked w j n) (hw : w.Extends w') :
    NodeInv leaked w' j n := by
  refine ⟨h.sound, h.phase, h.going, fun res hr => ?_⟩
  obtain ⟨shared, hres⟩ := h.result res hr
  exact ⟨shared, hres.mono hw (.setPhase n n.phase)⟩

end Mono

/-! ## What is on the network is public -/

section Pub

variable {leaked : ℕ → Prop} {D : Deeds}

theorem pub_lits (bs : List UInt8) : ∀ o ∈ (lits bs : Bytes), Pub leaked D o := by
  intro o ho
  obtain ⟨b, -, rfl⟩ := List.mem_map.mp ho
  exact .lit b

theorem pub_x25519Public (x : Owner) : ∀ o ∈ x25519PublicBytes x, Pub leaked D o := by
  intro o ho
  obtain ⟨i, -, rfl⟩ := mem_block.mp ho
  exact .x25519Public

theorem pub_gcm {key nonce aad plain : Bytes} (n : ℕ) (hsealed : D.sealed [key, nonce, aad, plain])
    (hplain : ∀ o ∈ plain, Pub leaked D o) :
    ∀ o ∈ block .gcm [key, nonce, aad, plain] n, Pub leaked D o := by
  intro o ho
  obtain ⟨i, -, rfl⟩ := mem_block.mp ho
  by_cases hk : SecretKey leaked key
  · exact .sealed hk hsealed
  · exact .gcm hk hplain

/-- The plaintext of an auth message is a key, a name and a signature, which is on record. -/
theorem pub_authPlainOf {b : ℕ} {name : List UInt8} {transcript : Bytes}
    (h : D.signed b transcript) :
    ∀ o ∈ authPlainOf (.honest b) (lits name) transcript, Pub leaked D o := by
  intro o ho
  simp only [authPlainOf, marshalAuthPlain, List.mem_append] at ho
  rcases ho with ((ho | ho) | ho) | ho
  · obtain ⟨i, -, rfl⟩ := mem_block.mp ho
    exact .ed25519Public
  · exact pub_lits _ o ho
  · exact pub_lits _ o ho
  · obtain ⟨i, -, rfl⟩ := mem_block.mp ho
    exact .sign h

theorem pub_initOf (x : Owner) : ∀ o ∈ World.initOf x, Pub leaked D o := by
  intro o ho
  simp only [World.initOf, List.mem_cons, List.mem_append] at ho
  rcases ho with rfl | ho | ho
  · exact .lit _
  · exact pub_lits _ o ho
  · exact pub_x25519Public _ o ho

/-- Everything that honest nodes send is built from octets the attacker may have: it gives away no
secret, and a signature or a sealed text in it is on record. -/
theorem pub_marshalAuth {x : Owner} {b : ℕ} {name : List UInt8} {info : String}
    {shared transcript : Bytes} {nonce : Nonce}
    (hsealed : ∀ args, .out .gcm args 0 ∈ marshalAuth (x25519PublicBytes x)
      (authBlobOf (.honest b) (lits name) info shared transcript nonce) → D.sealed args)
    (hsigned : D.signed b transcript) :
    ∀ o ∈ marshalAuth (x25519PublicBytes x)
      (authBlobOf (.honest b) (lits name) info shared transcript nonce), Pub leaked D o := by
  intro o ho
  simp only [marshalAuth, authBlobOf, List.mem_cons, List.mem_append] at ho hsealed
  rcases ho with rfl | (ho | ho) | ho | ho
  · exact .lit _
  · exact pub_x25519Public _ o ho
  · exact pub_lits _ o ho
  · exact pub_lits _ o ho
  · refine pub_gcm _ (hsealed _ ?_) (pub_authPlainOf hsigned) o ho
    exact .inr (.inr (.inr (out_mem_block.mpr ⟨rfl, rfl, by simp [tagSize]⟩)))

theorem gcm_mem_marshalAuth {x a : Owner} {name : Bytes} {info : String} {shared transcript : Bytes}
    {n : Nonce} {key nonce aad plain : Bytes}
    (h : .out .gcm [key, nonce, aad, plain] 0 ∈ marshalAuth (x25519PublicBytes x)
      (authBlobOf a name info shared transcript n)) :
    key = authKeyOf info shared transcript ∧ nonce = lits n.bytes ∧ aad = hsAAD ∧
      plain = authPlainOf a name transcript := by
  simp only [marshalAuth, authBlobOf, putLen32, x25519PublicBytes, List.mem_cons, List.mem_append,
    out_notMem_lits, out_mem_block, reduceCtorEq, false_or, or_false, false_and, true_and,
    List.cons.injEq, and_true] at h
  exact h.1

theorem pub_marshalFrame {root : Bytes} {d : Dir} {typ : UInt8} {q : UInt64} {e : UInt32}
    {nonce : Nonce} {pt : Bytes}
    (hsealed : ∀ args, .out .gcm args 0 ∈ marshalFrame (sealedFrame root d typ q e nonce pt) →
      D.sealed args) (hpt : ∀ o ∈ pt, Pub leaked D o) :
    ∀ o ∈ marshalFrame (sealedFrame root d typ q e nonce pt), Pub leaked D o := by
  have hmem : ∀ {o}, o ∈ (sealedFrame root d typ q e nonce pt).blob →
      o ∈ marshalFrame (sealedFrame root d typ q e nonce pt) := by
    intro o ho
    rw [marshalFrame_eq]
    exact List.mem_append_right _ ho
  intro o ho
  rw [marshalFrame_eq, List.mem_append] at ho
  rcases ho with ho | ho
  · -- the header is concrete but for the session identifier
    simp only [marshalHeaderOnly, List.mem_cons, List.mem_append] at ho
    rcases ho with rfl | rfl | (ho | ho) | ho
    · exact .lit _
    · exact .lit _
    · obtain ⟨i, -, rfl⟩ := mem_block.mp ho
      exact .sessionID
    · exact pub_lits _ o ho
    · exact pub_lits _ o ho
  · simp only [sealedFrame, List.mem_append] at ho
    rcases ho with ho | ho
    · exact pub_lits _ o ho
    · refine pub_gcm _ (hsealed _ (hmem ?_)) hpt o ho
      exact List.mem_append_right _ (out_mem_block.mpr ⟨rfl, rfl, by simp [tagSize]⟩)

end Pub

namespace World

variable {leaked : ℕ → Prop} {w : World} {X : Option ℕ}

/-- **Everything on the network is public**, also when the frames of a node are left out. -/
theorem Inv.pub (h : w.Inv leaked) {o : Octet Prim} (ho : w.observed X o) :
    Pub leaked (w.deeds X) o := by
  obtain ⟨s, hs, hvis, ho⟩ := ho
  obtain ⟨n, hn, hemits⟩ := h.sent s hs
  have hsealed : ∀ args, .out .gcm args 0 ∈ s.bytes → (w.deeds X).sealed args :=
    fun args hargs => ⟨s, hs, hvis, hargs⟩
  rcases s with ⟨j, fr, b⟩
  dsimp only at hn hemits hsealed ho
  -- an init message, an auth message, a frame with a text and one with a confirmation
  rcases hemits with _ | ⟨nonce, hauth⟩ | ⟨root, d, typ, q, e, nonce, text⟩ |
    ⟨root, d, q, e, nonce, hd, hr⟩
  · exact pub_initOf _ o ho
  · exact pub_marshalAuth hsealed ⟨j, n, _, hn, rfl, hauth, rfl⟩ o ho
  · exact pub_marshalFrame hsealed (pub_lits _) o ho
  · refine pub_marshalFrame hsealed (fun o ho => ?_) o ho
    obtain ⟨i, -, rfl⟩ := mem_block.mp ho
    exact .confirm ⟨j, hvis rfl, n, _, _, hn, hd, hr, rfl, rfl⟩

theorem Inv.pub_of_known (h : w.Inv leaked) {msg : Bytes}
    (hmsg : KnownAll (dolevYao leaked) (w.observed X) msg) :
    ∀ o ∈ msg, Pub leaked (w.deeds X) o :=
  fun o ho => Pub.of_known (fun _ ho => h.pub ho) (hmsg o ho)

/-- **Who made an AEAD call**: a node that authenticated, or a node other than `X` that sent a
frame. The key says which of the two it was, and the plaintext is then known. -/
theorem Inv.sealed_cases (h : w.Inv leaked) {key nonce aad plain : Bytes}
    (hs : (w.deeds X).sealed [key, nonce, aad, plain]) :
    (∃ (j : ℕ) (n : Node) (shared : Bytes), w.nodes[j]? = some n ∧ n.Authed j shared ∧
        key = authKeyOf (ownInfo n.hs.initiator) shared n.hs.transcript ∧
        plain = authPlainOf (.honest n.owner) (lits n.name) n.hs.transcript) ∨
      ∃ (j : ℕ) (root : Bytes) (d : Dir) (e : UInt32) (q : UInt64), some j ≠ X ∧
        key = messageKeyOf root d e q ∧
        ((∃ text, plain = lits text) ∨
          ∃ pairingKey transcript, w.Confirms j pairingKey transcript ∧
            plain = confirmOf pairingKey transcript) := by
  obtain ⟨s, hs, hvis, hmem⟩ := hs
  obtain ⟨n, hn, hemits⟩ := h.sent s hs
  rcases s with ⟨j, fr, b⟩
  dsimp only at hn hemits hmem
  -- a frame carries one such call, in its blob
  have hframe : ∀ {root d typ q e nonce' pt},
      .out .gcm [key, nonce, aad, plain] 0 ∈ marshalFrame (sealedFrame root d typ q e nonce' pt) →
      key = messageKeyOf root d e q ∧ plain = pt := by
    intro root d typ q e nonce' pt hm
    simp only [marshalFrame, sealedFrame, sessionIDOf, putUint64, putUint32, List.mem_cons,
      List.mem_append, out_notMem_lits, out_mem_block, reduceCtorEq, false_or, or_false, false_and,
      List.cons.injEq, and_true, true_and] at hm
    exact ⟨hm.1.1, hm.1.2.2.2⟩
  rcases hemits with _ | ⟨nonce', hauth⟩ | ⟨root, d, typ, q, e, nonce', text⟩ |
    ⟨root, d, q, e, nonce', hd, hr⟩
  · simp only [putUint16, x25519PublicBytes, List.mem_cons, List.mem_append, out_notMem_lits,
      out_mem_block, reduceCtorEq, false_or, false_and] at hmem
  · obtain ⟨hkey, -, -, hplain⟩ := gcm_mem_marshalAuth hmem
    exact .inl ⟨j, n, _, hn, hauth, hkey, hplain⟩
  · obtain ⟨hk, hp⟩ := hframe hmem
    exact .inr ⟨j, root, d, e, q, hvis rfl, hk, .inl ⟨text, hp⟩⟩
  · obtain ⟨hk, hp⟩ := hframe hmem
    exact .inr ⟨j, root, d, e, q, hvis rfl, hk, .inr ⟨_, _, ⟨n, _, _, hn, hd, hr, rfl, rfl⟩, hp⟩⟩

end World

/-! ## What a completed handshake implies -/

theorem authKeyOf_inj {info info' : String} {sh sh' t t' : Bytes}
    (h : authKeyOf info sh t = authKeyOf info' sh' t') : info = info' ∧ sh = sh' ∧ t = t' := by
  obtain ⟨hf, hargs, -⟩ := block_inj (by norm_num [keySize]) h
  simp only [Prim.hkdf.injEq, and_true] at hf
  simp only [List.cons.injEq, and_true] at hargs
  exact ⟨hf, hargs⟩

theorem authKeyOf_ne_messageKeyOf {info : String} (hinfo : info ≠ infoMsg) (sh t root : Bytes)
    (d : Dir) (e : UInt32) (q : UInt64) : authKeyOf info sh t ≠ messageKeyOf root d e q := by
  intro h
  obtain ⟨hf, -⟩ := block_inj (by norm_num [keySize]) h
  exact hinfo (Prim.hkdf.inj hf).1

theorem peerInfo_ne (i : Bool) : Handshaker.peerInfo i ≠ infoSession ∧
    Handshaker.peerInfo i ≠ infoPairConfirm ∧ Handshaker.peerInfo i ≠ infoMsg := by
  rcases i <;> decide

namespace World

variable {leaked : ℕ → Prop} {w : World} {i : ℕ} {n : Node}

/-- **A handshake that completes has a peer.** Its signature is on record if the key is that of an
honest owner, and if the shared secret is secret, an honest node of the other role has sealed the
auth message under the same transcript. -/
theorem Inv.result (h : w.Inv leaked) {hs : Handshaker} {msg shared : Bytes} {resp : Option Bytes}
    {res : HandshakeResult}
    (hc : Handshaker.Completed (.honest i) (.honest n.owner) (lits n.name) hs msg shared resp res)
    (hmsg : ∀ o ∈ msg, Pub leaked (w.deeds none) o) :
    Result leaked w i { n with hs := hs, result := some res } res shared := by
  obtain ⟨eph, blob, sig, rfl, hopen, hlen, hsiglen, hver⟩ := hc.peer
  obtain ⟨nonce, hmem⟩ := gcm_mem_of_openBlob hopen
  have hpub := hmsg _ (List.mem_cons_of_mem _ (List.mem_append_right _ hmem))
  -- under a secret key, the blob is the auth blob of the node at the other end
  have hother :
    SecretKey leaked (authKeyOf (Handshaker.peerInfo hs.initiator) shared hs.transcript) →
      ∃ (k : ℕ) (nk : Node), w.nodes[k]? = some nk ∧ nk.Authed k shared ∧
        nk.hs.transcript = hs.transcript ∧ nk.hs.initiator = (!hs.initiator) ∧
        res.peerKey = ed25519PublicBytes (.honest nk.owner) := by
    intro hsec
    obtain ⟨-, hsealed⟩ := hpub.gcm_cases.resolve_right fun hc => hc.1 hsec
    rcases h.sealed_cases hsealed with ⟨k, nk, shared', hk, hauth, hkey, hplain⟩ |
      ⟨k, root, d, e, q, -, hkey, -⟩
    · obtain ⟨hinfo, rfl, ht⟩ := authKeyOf_inj hkey
      refine ⟨k, nk, hk, hauth, ht.symm, ownInfo_eq_peerInfo hinfo.symm, ?_⟩
      rw [authPlainOf, marshalAuthPlain, marshalAuthPlain, List.append_assoc, List.append_assoc,
        List.append_assoc, List.append_assoc] at hplain
      exact (List.append_inj hplain (by rw [hlen, length_ed25519PublicBytes])).1
    · exact absurd hkey (authKeyOf_ne_messageKeyOf (peerInfo_ne _).2.2 _ _ _ _ _ _)
  refine ⟨⟨.inl hc.done, hc.transcript, hc.agreed, fun hd => ?_⟩, hc.result, hc.session, hc.notSelf,
    fun b hb => ?_, fun hsec => ?_⟩
  · exact absurd (hc.done.symm.trans hd) (by simp)
  · by_cases hsec : SecretKey leaked
        (authKeyOf (Handshaker.peerInfo hs.initiator) shared hs.transcript)
    · obtain ⟨k, nk, hk, hauth, ht, -, hkey⟩ := hother hsec
      have howner := ed25519PublicBytes_inj (hkey.symm.trans hb)
      exact ⟨k, nk, shared, hk, Owner.honest.inj howner, hauth, ht⟩
    · -- the attacker has the plaintext, and a signature of an honest identity in it
      obtain ⟨-, hplain⟩ := hpub.gcm_cases.resolve_left fun hc => hsec hc.1
      obtain ⟨a, ha, rfl⟩ := verifyWith_iff.mp hver
      obtain rfl := ed25519PublicBytes_inj (hb.symm.trans ha)
      refine Pub.signed_of (hplain (.out (.ed25519Sign (.honest b)) [hs.transcript] 0) ?_)
      exact List.mem_append_right _ (out_mem_block.mpr ⟨rfl, rfl, by norm_num⟩)
  · exact hother (secretKey_hkdf (peerInfo_ne _).1 (peerInfo_ne _).2.1 hsec _)

/-! ## Every step keeps the invariant -/

theorem extends_put {n' : Node} (hi : w.nodes[i]? = some n) (he : n.Extends n')
    (out : List (Bool × Bytes)) : w.Extends (w.put i n' out) := by
  intro j m hj
  by_cases hji : j = i
  · subst hji
    obtain rfl : m = n := Option.some.inj (hj.symm.trans hi)
    refine ⟨n', ?_, he⟩
    exact List.getElem?_set_self (List.getElem?_eq_some_iff.mp hi).1
  · refine ⟨m, ?_, .setPhase m m.phase⟩
    rw [World.put, List.getElem?_set_ne (Ne.symm hji)]
    exact hj

/-- A node may move to any state that extends it and keeps its invariant, sending what such a node
sends. -/
theorem Inv.put (h : w.Inv leaked) {n' : Node} {out : List (Bool × Bytes)}
    (hi : w.nodes[i]? = some n) (he : n.Extends n') (hn' : NodeInv leaked w i n')
    (hout : ∀ m ∈ out, Emits i n' m.1 m.2) : (w.put i n' out).Inv leaked := by
  have hext := extends_put hi he out
  have hget : (w.put i n' out).nodes[i]? = some n' :=
    List.getElem?_set_self (List.getElem?_eq_some_iff.mp hi).1
  -- the node itself, the other nodes, what was sent before and what is sent now
  refine ⟨fun j m hj => ?_, fun s hs => ?_⟩
  · by_cases hji : j = i
    · subst hji
      obtain rfl : m = n' := Option.some.inj (hj.symm.trans hget)
      exact hn'.mono hext
    · rw [World.put, List.getElem?_set_ne (Ne.symm hji)] at hj
      exact (h.nodes j m hj).mono hext
  · rcases List.mem_append.mp hs with hs | hs
    · obtain ⟨m, hm, hemits⟩ := h.sent s hs
      obtain ⟨m', hm', hem⟩ := hext s.node m hm
      exact ⟨m', hm', hemits.mono hem⟩
    · obtain ⟨m, hm, rfl⟩ := List.mem_map.mp hs
      exact ⟨n', hget, hout m hm⟩

end World

theorem NodeInv.setPhase {leaked : ℕ → Prop} {w : World} {i : ℕ} {n : Node}
    (h : NodeInv leaked w i n) {p : Phase} (hp : Node.PhaseOk { n with phase := p }) :
    NodeInv leaked w i { n with phase := p } := by
  refine ⟨h.sound, hp, h.going, fun res hr => ?_⟩
  obtain ⟨shared, hres⟩ := h.result res hr
  exact ⟨shared, hres.mono (fun j m hj => ⟨m, hj, .setPhase m m.phase⟩) (.setPhase n p)⟩

section Steps

variable {leaked : ℕ → Prop} {w : World} {i : ℕ} {n : Node}

/-- What one action of a node must give for the invariant to survive. -/
def Keeps (leaked : ℕ → Prop) (w : World) (i : ℕ) (n : Node) (r : Node × List (Bool × Bytes)) :
    Prop :=
  n.Extends r.1 ∧ NodeInv leaked w i r.1 ∧ ∀ m ∈ r.2, Emits i r.1 m.1 m.2

theorem NodeInv.keeps_phase (h : NodeInv leaked w i n) {p : Phase}
    (hp : Node.PhaseOk { n with phase := p }) : Keeps leaked w i n ({ n with phase := p }, []) :=
  ⟨.setPhase n p, h.setPhase hp, fun _ hm => absurd hm List.not_mem_nil⟩

theorem codeKey_ne_nil (code : ℕ) : codeKey code ≠ [] :=
  ne_nil_of_length (length_block _ _ _)

/-- After the handshake: the confirmation is sealed and sent, or there is nothing to confirm. In
either case the session of the new phase is that of the result. -/
theorem Result.proceed {res : HandshakeResult} {shared : Bytes} (h : Result leaked w i n res shared)
    (hr : n.result = some res) (rand : Option Nonce) :
    Node.PhaseOk { n with phase := (n.driver.proceed res rand).1 } ∧
      ∀ b ∈ (n.driver.proceed res rand).2, Emits i n true b := by
  have hlive : Live res.session.root n.hs.initiator res.session := by
    rw [h.session]
    exact freshSession_live (length_rootOf _ _) _
  -- only `runHandshake` with a code confirms
  rcases hd : n.driver with _ | _ | code
  · exact ⟨⟨res, hr, hlive⟩, fun _ hb => absurd hb List.not_mem_nil⟩
  · exact ⟨⟨res, hr, hlive⟩, fun _ hb => absurd hb List.not_mem_nil⟩
  have htr : res.transcript ≠ [] := by
    rw [h.transcript, h.authed.transcript]
    exact transcriptOf_ne_nil _ _ _
  simp only [Driver.proceed, Session.sealPairConfirm, pairConfirm_eq (codeKey_ne_nil code) htr]
  obtain ⟨hlive', -, hcases⟩ :=
    sealFrame_spec hlive typePairConfirm (confirmOf (codeKey code) res.transcript) rand
  rcases hseal :
    res.session.sealFrame typePairConfirm (confirmOf (codeKey code) res.transcript) rand
    with ⟨s, e | out⟩
  · exact ⟨trivial, fun _ hb => absurd hb List.not_mem_nil⟩
  · rw [hseal] at hlive' hcases
    refine ⟨⟨res, code, hr, rfl, rfl, rfl, hlive'⟩, fun b hb => ?_⟩
    rcases hcases with ⟨e, he, -⟩ | ⟨nonce, -, -, hout, -⟩
    · exact absurd he (by simp)
    · rw [List.mem_singleton.mp hb, Except.ok.inj hout]
      exact .confirm _ _ _ _ nonce hd hr

theorem afterError_phaseOk (h : n.result = none) :
    Node.PhaseOk { n with phase := n.driver.afterError } := by
  rcases hd : n.driver with _ | code
  · exact h
  · trivial

/-- A node is changed by one action at a time, and this is the one that matters: a message comes
from the attacker, so whatever is accepted of it is `Pub` and has an honest origin. -/
theorem World.Inv.keeps_deliver (h : w.Inv leaked) (hi : w.nodes[i]? = some n) {msg : Bytes}
    (hmsg : ∀ o ∈ msg, Pub leaked (w.deeds none) o) (rand rand' : Option Nonce) :
    Keeps leaked w i n (n.deliver msg rand rand') := by
  have hn := h.nodes i n hi
  have hphase := hn.phase
  unfold Node.deliver
  unfold Node.PhaseOk at hphase
  rcases hp : n.phase with _ | ⟨s, key, transcript⟩ | s | _
  · -- handshaking: the three outcomes of `HandleMessage`
    rw [hp] at hphase
    dsimp only at hphase ⊢
    obtain ⟨hsound, hrole, hfix, hcases⟩ := Handshaker.handleMessage_spec hn.sound msg rand
    rcases hres : n.hs.handleMessage msg rand with ⟨hs, r⟩
    rw [hres] at hsound hrole hfix hcases
    dsimp only at hsound hrole hfix hcases
    have hext : ∀ p, n.Extends { n with hs := hs, phase := p } := fun p =>
      ⟨rfl, rfl, rfl, hrole, hfix, fun _ hr => hr⟩
    have hinv : ∀ p, hs.done = false → Node.PhaseOk { n with hs := hs, phase := p } →
        NodeInv leaked w i { n with hs := hs, phase := p } := fun p hgoing hok =>
      ⟨hsound, hok, fun _ => hgoing, fun res hr => absurd (hphase.symm.trans hr) (by simp)⟩
    rcases hcases with ⟨e, rfl, hgoing⟩ | ⟨resp, rfl, -, hans⟩ | ⟨shared, resp, res, rfl, hcomp⟩
    · exact ⟨hext _, hinv _ (hgoing.trans (hn.going hphase))
        (afterError_phaseOk (n := { n with hs := hs }) hphase),
        fun _ hm => absurd hm List.not_mem_nil⟩
    · obtain ⟨nonce, rfl⟩ := hans.reply
      have hfixed : hs.Fixed := .inr ⟨hans.role, by
        rw [hans.transcript]
        exact transcriptOf_ne_nil _ _ _⟩
      have hauth : Node.Authed i { n with hs := hs, phase := .handshaking } hs.shared := by
        refine ⟨hfixed, ?_, hans.agreed, fun _ => rfl⟩
        show hs.transcript = transcriptOf hs.initiator _ _
        rw [hans.role]
        exact hans.transcript
      have hreply := Emits.auth nonce hauth
      simp only [hans.role] at hreply
      refine ⟨hext .handshaking, hinv .handshaking hans.going hphase, fun m hm => ?_⟩
      rw [List.mem_singleton.mp hm]
      exact hreply
    · set n' : Node := { n with
        hs := hs, result := some res, phase := (n.driver.proceed res rand').1 } with hn'
      have hres' : Result leaked w i n' res shared :=
        (h.result hcomp hmsg).mono (fun j m hj => ⟨m, hj, .setPhase m m.phase⟩) (.setPhase _ _)
      obtain ⟨hok, hemits⟩ := hres'.proceed rfl rand'
      refine ⟨?_, ⟨hsound, hok, fun hnone => absurd hnone (by simp), fun res' hr => ?_⟩, fun m hm =>
        ?_⟩
      · exact ⟨rfl, rfl, rfl, hrole, hfix, fun _ hr => absurd (hphase.symm.trans hr) (by simp)⟩
      · obtain rfl := Option.some.inj hr
        exact ⟨shared, hres'⟩
      · rcases List.mem_append.mp hm with hm | hm
        · obtain ⟨b, hb, rfl⟩ := List.mem_map.mp hm
          -- only an initiator answers msg2, with msg3
          have hreply := hcomp.reply
          by_cases hrole' : hs.initiator = true
          · rw [if_pos hrole'] at hreply
            obtain ⟨nonce, rfl⟩ := hreply
            rw [Option.toList_some, List.mem_singleton] at hb
            rw [hb]
            have hmsg3 := Emits.auth nonce hres'.authed
            simp only [hn', hrole'] at hmsg3
            exact hmsg3
          · rw [if_neg hrole'] at hreply
            rw [hreply] at hb
            exact absurd hb List.not_mem_nil
        · obtain ⟨b, hb, rfl⟩ := List.mem_map.mp hm
          exact hemits b hb
  · rw [hp] at hphase
    obtain ⟨res, code, hr, hd, hkey, ht, hlive⟩ := hphase
    refine hn.keeps_phase ?_
    obtain ⟨hlive', -⟩ := openFrame_spec hlive msg
    unfold confirmTurn
    rcases hopen : s.openFrame msg with ⟨s', e | ⟨typ, pt⟩⟩
    · trivial
    · rw [hopen] at hlive'
      dsimp only
      split_ifs
      · exact ⟨res, code, hr, hd, hkey, ht, hlive'⟩
      · exact ⟨res, hr, hlive'⟩
      · trivial
  · rw [hp] at hphase
    obtain ⟨res, hr, hlive⟩ := hphase
    exact hn.keeps_phase ⟨res, hr, (openFrame_spec hlive msg).1⟩
  · exact ⟨.setPhase n n.phase, hn, fun _ hm => absurd hm List.not_mem_nil⟩

theorem NodeInv.keeps_speak (hn : NodeInv leaked w i n) (typ : UInt8) (text : List UInt8)
    (rand : Option Nonce) : Keeps leaked w i n (n.speak typ text rand) := by
  have hphase := hn.phase
  have hstay : Keeps leaked w i n (n, []) :=
    ⟨.setPhase n n.phase, hn, fun _ hm => absurd hm List.not_mem_nil⟩
  unfold Node.speak
  unfold Node.PhaseOk at hphase
  -- only an established session is used
  rcases hp : n.phase with _ | ⟨s, key, transcript⟩ | s | _
  · exact hstay
  · exact hstay
  · rw [hp] at hphase
    obtain ⟨res, hr, hlive⟩ := hphase
    obtain ⟨hlive', -, hcases⟩ := sealFrame_spec hlive typ (lits text) rand
    dsimp only
    rcases hseal : s.sealFrame typ (lits text) rand with ⟨s', e | wire⟩
    · rw [hseal] at hlive'
      exact hn.keeps_phase ⟨res, hr, hlive'⟩
    · rw [hseal] at hlive' hcases
      refine ⟨.setPhase n _, hn.setPhase ⟨res, hr, hlive'⟩, fun m hm => ?_⟩
      rcases hcases with ⟨e, he, -⟩ | ⟨nonce, -, -, hout, -⟩
      · exact absurd he (by simp)
      · rw [List.mem_singleton.mp hm, Except.ok.inj hout]
        exact .text _ _ _ _ _ nonce text
  · exact hstay

theorem NodeInv.keeps_expire (hn : NodeInv leaked w i n) : Keeps leaked w i n (n.expire, []) := by
  have hphase := hn.phase
  have hstay : Keeps leaked w i n (n, []) :=
    ⟨.setPhase n n.phase, hn, fun _ hm => absurd hm List.not_mem_nil⟩
  unfold Node.expire
  unfold Node.PhaseOk at hphase
  rcases hp : n.phase with _ | ⟨s, key, transcript⟩ | s | _
  · rw [hp] at hphase
    exact hn.keeps_phase (afterError_phaseOk hphase)
  · exact hn.keeps_phase trivial
  · exact hstay
  · exact hstay

theorem World.Inv.spawn (h : w.Inv leaked) {w' : World} {owner : ℕ} {name : List UInt8}
    {initiator : Bool} {driver : Driver}
    (hnext : w.next (.spawn owner name initiator driver) = some w') :
    w.Extends w' ∧ w'.Inv leaked := by
  rw [World.next] at hnext
  rcases hnew : newHandshaker (identityOf (.honest owner) (lits name)) initiator
      (some (.honest w.nodes.length)) with e | hs
  · rw [hnew] at hnext
    exact absurd hnext (by simp)
  rw [hnew] at hnext
  obtain rfl := Option.some.inj hnext
  obtain ⟨hsound, hrole, hgoing, -⟩ := Handshaker.newHandshaker_sound hnew
  set w' : World := { nodes := _, sent := _ } with hw'
  have hext : w.Extends w' := by
    intro j m hj
    refine ⟨m, ?_, .setPhase m m.phase⟩
    rw [hw', List.getElem?_append_left (List.getElem?_eq_some_iff.mp hj).1]
    exact hj
  have hnew' : w'.nodes[w.nodes.length]?
      = some { owner := owner, name := name, driver := driver, hs := hs } := by
    rw [hw', List.getElem?_append_right le_rfl, Nat.sub_self]
    rfl
  refine ⟨hext, fun j m hj => ?_, fun s hs' => ?_⟩
  · rcases Nat.lt_trichotomy j w.nodes.length with hlt | rfl | hgt
    · rw [hw', List.getElem?_append_left hlt] at hj
      exact (h.nodes j m hj).mono hext
    · obtain rfl := Option.some.inj (hnew'.symm.trans hj)
      exact ⟨hsound, rfl, fun _ => hgoing, fun res hr => absurd hr (by simp)⟩
    · rw [hw', List.getElem?_eq_none (by simpa using hgt)] at hj
      exact absurd hj (by simp)
  · rcases List.mem_append.mp hs' with hs' | hs'
    · obtain ⟨m, hm, hemits⟩ := h.sent s hs'
      obtain ⟨m', hm', hem⟩ := hext s.node m hm
      exact ⟨m', hm', hemits.mono hem⟩
    · obtain ⟨b, hb, rfl⟩ := List.mem_map.mp hs'
      refine ⟨_, hnew', ?_⟩
      -- only an initiator has an init message
      unfold Handshaker.initMessage at hb
      by_cases hi : hs.initiator = true
      · rw [if_neg (not_not.mpr hi), hsound.ephPub, length_x25519PublicBytes] at hb
        rw [List.mem_singleton.mp hb]
        exact .init
      · rw [if_pos hi] at hb
        exact absurd hb List.not_mem_nil

/-- **Every step keeps the invariant**, and what the nodes have settled. -/
theorem World.Inv.step (h : w.Inv leaked) {a : WorldAct} {w' : World} (hs : w.Step leaked a w') :
    w.Extends w' ∧ w'.Inv leaked := by
  obtain ⟨hnext, hknown⟩ := hs
  have hput : ∀ {i : ℕ} {f : Node → Node × List (Bool × Bytes)},
      (w.nodes[i]?).map (fun n => w.put i (f n).1 (f n).2) = some w' →
      (∀ n, w.nodes[i]? = some n → Keeps leaked w i n (f n)) → w.Extends w' ∧ w'.Inv leaked := by
    intro i f heq hkeeps
    obtain ⟨n, hn, rfl⟩ := Option.map_eq_some_iff.mp heq
    obtain ⟨hext, hinv, hemits⟩ := hkeeps n hn
    exact ⟨extends_put hn hext _, h.put hn hext hinv hemits⟩
  rcases a with ⟨owner, name, initiator, driver⟩ | ⟨i, msg, rand, rand'⟩ | ⟨i, typ, text, rand⟩ | i
  · exact h.spawn hnext
  · exact hput hnext fun n hn =>
      h.keeps_deliver hn (h.pub_of_known (hknown i msg rand rand' rfl)) rand rand'
  · exact hput hnext fun n hn => (h.nodes i n hn).keeps_speak typ text rand
  · exact hput (f := fun n => (n.expire, [])) hnext fun n hn => (h.nodes i n hn).keeps_expire

theorem World.Inv.start : World.Inv leaked {} :=
  ⟨fun _ _ hj => absurd hj (by simp), fun _ hs => absurd hs List.not_mem_nil⟩

end Steps

end Heimdall.Proto
