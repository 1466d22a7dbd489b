/-
The pairing confirmation against an active relay.

`confirmPairing` sends `PairConfirm(K, transcript)` and waits for the very same bytes to come
back: the confirmation does not depend on the role of the node. An attacker that is the other
end of the session can therefore open the node's own confirmation and seal it back, and the
node accepts it (`reflected_confirmation_accepted`). Where the attacker does not use a node's own
frames against that node, the confirmation does what it is for: it can only have come from
another holder of the code (`confirmed_by_other`).
-/
import Heimdall.Agreement

set_option autoImplicit false

namespace Heimdall.Proto

open Heimdall.BigEndian Heimdall.Runs Heimdall.Octets Heimdall.Crypto

/-! ## Where an accepted confirmation comes from -/

section Origin

variable {leaked : ℕ → Prop} {w : World} {i c : ℕ}

theorem codeKey_secret (hc : ¬ leaked c) : SecretKey leaked (codeKey c) :=
  ⟨_, mem_block.mpr ⟨0, by norm_num, rfl⟩, .pairingKey hc⟩

/-- **The origin of a confirmation.** A blob under a message key that opens to the confirmation of
an unleaked code, made without the frames of node `i`, is owed to another node. Either the
attacker has the confirmation, which it can only have from a node that sent it, or it has passed
on a blob whole. -/
theorem World.Inv.confirm_origin (h : w.Inv leaked) (hc : ¬ leaked c) {msg blob aad root : Bytes}
    {d : Dir} {e : UInt32} {q : UInt64} {transcript : Bytes}
    (hmsg : KnownAll (dolevYao leaked) (w.observed (some i)) msg) (hblob : blob ⊆ msg)
    (hopen : openBlob (messageKeyOf root d e q) aad blob = .ok (confirmOf (codeKey c) transcript)) :
    ∃ j, j ≠ i ∧ w.Confirms j (codeKey c) transcript := by
  obtain ⟨nonce, hmem⟩ := gcm_mem_of_openBlob hopen
  have hfirst : .out (.hkdf infoPairConfirm pairConfirmSize) [codeKey c, transcript] 0
      ∈ confirmOf (codeKey c) transcript :=
    mem_block.mpr ⟨0, by norm_num [pairConfirmSize], rfl⟩
  have hne : ∀ {j : ℕ}, some j ≠ some i → j ≠ i := fun hj hji => hj (congrArg some hji)
  rcases (h.pub_of_known hmsg _ (hblob hmem)).gcm_cases with ⟨-, hsealed⟩ | ⟨-, hplain⟩
  · -- an honest node made the AEAD call
    rcases h.sealed_cases hsealed with ⟨j, n, shared, -, -, hkey, -⟩ |
      ⟨j, root', d', e', q', hj, -, ⟨text, htext⟩ | ⟨key, transcript', hconf, heq⟩⟩
    · have hinfo : ownInfo n.hs.initiator ≠ infoMsg := by
        rcases n.hs.initiator <;> decide
      exact absurd hkey.symm (authKeyOf_ne_messageKeyOf hinfo _ _ _ _ _ _)
    · rw [htext] at hfirst
      exact absurd hfirst (out_notMem_lits _)
    · obtain ⟨rfl, rfl⟩ := confirmOf_inj heq
      exact ⟨j, hne hj, hconf⟩
  · -- the attacker has the plaintext, which it cannot derive without the code
    obtain ⟨j, hj, hconf⟩ := Pub.revealed_of (codeKey_secret hc) (hplain _ hfirst)
    exact ⟨j, hne hj, hconf⟩

/-- A confirmation that was accepted has come through the session and is the one expected. -/
theorem confirmTurn_established {s s' : Session} {key transcript buf : Bytes}
    (h : confirmTurn s key transcript buf = .established s') :
    ∃ pt, (s.openFrame buf).2 = .ok (typePairConfirm, pt) ∧
      verifyPairConfirm key transcript pt = true := by
  unfold confirmTurn at h
  rcases hopen : s.openFrame buf with ⟨s₁, e | ⟨typ, pt⟩⟩
  · rw [hopen] at h
    exact absurd h (by simp)
  · rw [hopen] at h
    dsimp only at h
    by_cases htyp : typ ≠ typePairConfirm
    · rw [if_pos htyp] at h
      exact absurd h (by simp)
    · rw [if_neg htyp] at h
      by_cases hver : verifyPairConfirm key transcript pt = true
      · rw [not_not.mp htyp]
        exact ⟨pt, rfl, hver⟩
      · rw [if_neg hver] at h
        exact absurd h (by simp)

theorem verifyPairConfirm_iff {key transcript got : Bytes} (hk : key ≠ []) (ht : transcript ≠ []) :
    verifyPairConfirm key transcript got = true ↔ got = confirmOf key transcript := by
  rw [verifyPairConfirm, pairConfirm_eq hk ht]
  simp only [decide_eq_true_eq]
  exact eq_comm

/-- A node with a code gets to `established` from `confirmPairing` only. Completing the handshake
takes it to `confirming`, and nothing else leads out of there. -/
theorem Node.deliver_established {n : Node} (hd : n.driver = .runHandshake (some c)) {msg : Bytes}
    {rand rand' : Option Nonce} {s' : Session}
    (h : (n.deliver msg rand rand').1.phase = .established s') :
    (∃ s, n.phase = .established s) ∨
      ∃ s key transcript, n.phase = .confirming s key transcript ∧
        confirmTurn s key transcript msg = .established s' := by
  unfold Node.deliver at h
  rcases hp : n.phase with _ | ⟨s, key, transcript⟩ | s | _
  · -- the handshake ends in `confirming` or `failed`
    rw [hp] at h
    dsimp only at h
    rcases hmsg : n.hs.handleMessage msg rand with ⟨hs, e | ⟨resp, _ | res⟩⟩
    · rw [hmsg, hd] at h
      exact absurd h (by simp [Driver.afterError])
    · rw [hmsg] at h
      exact absurd h (by simp)
    · rw [hmsg, hd] at h
      simp only [Driver.proceed] at h
      rcases hseal : res.session.sealPairConfirm (codeKey c) res.transcript rand' with ⟨s, e | out⟩
      · rw [hseal] at h
        exact absurd h (by simp)
      · rw [hseal] at h
        exact absurd h (by simp)
  · rw [hp] at h
    exact .inr ⟨s, key, transcript, rfl, h⟩
  · exact .inl ⟨s, rfl⟩
  · rw [hp] at h
    exact absurd (hp.symm.trans h) (by simp)

theorem Node.speak_established {n : Node} {typ : UInt8} {text : List UInt8} {rand : Option Nonce}
    {s' : Session} (h : (n.speak typ text rand).1.phase = .established s') :
    ∃ s, n.phase = .established s := by
  unfold Node.speak at h
  rcases hp : n.phase with _ | ⟨s, key, transcript⟩ | s | _
  · rw [hp] at h
    exact absurd (hp.symm.trans h) (by simp)
  · rw [hp] at h
    exact absurd (hp.symm.trans h) (by simp)
  · exact ⟨s, rfl⟩
  · rw [hp] at h
    exact absurd (hp.symm.trans h) (by simp)

theorem Node.expire_established {n : Node} {s' : Session} (h : n.expire.phase = .established s') :
    ∃ s, n.phase = .established s := by
  unfold Node.expire at h
  rcases hp : n.phase with _ | ⟨s, key, transcript⟩ | s | _
  · rw [hp] at h
    rcases hd : n.driver with _ | code
    · rw [hd] at h
      exact absurd h (by simp [Driver.afterError])
    · rw [hd] at h
      exact absurd h (by simp [Driver.afterError])
  · rw [hp] at h
    exact absurd h (by simp)
  · exact ⟨s, rfl⟩
  · rw [hp] at h
    exact absurd (hp.symm.trans h) (by simp)

end Origin

/-! ## Soundness without reflection -/

section Sound

variable {leaked : ℕ → Prop} {w w' : World} {i c : ℕ}

/-- A confirmation is keyed by the code. Under a code that the attacker does not have, only a
holder of it can have made it, and without reflection that is another node. -/
theorem World.Inv.confirmed_turn (h : w.Inv leaked) {n : Node} (hi : w.nodes[i]? = some n)
    (hd : n.driver = .runHandshake (some c)) (hc : ¬ leaked c) {msg : Bytes}
    (hmsg : KnownAll (dolevYao leaked) (w.observed (some i)) msg) {s s' : Session}
    {key transcript : Bytes} (hp : n.phase = .confirming s key transcript)
    (hturn : confirmTurn s key transcript msg = .established s') :
    ∃ res, n.result = some res ∧ ∃ j, j ≠ i ∧ w.Confirms j (codeKey c) res.transcript := by
  have hphase := (h.nodes i n hi).phase
  rw [Node.PhaseOk, hp] at hphase
  obtain ⟨res, c', hr, hd', rfl, rfl, hlive⟩ := hphase
  obtain rfl : c' = c := Option.some.inj (Driver.runHandshake.inj (hd'.symm.trans hd))
  obtain ⟨shared, hres⟩ := (h.nodes i n hi).result res hr
  have htr : res.transcript ≠ [] := by
    rw [hres.transcript, hres.authed.transcript]
    exact transcriptOf_ne_nil _ _ _
  -- the frame that was opened, and the key it was opened under
  obtain ⟨pt, hopen, hver⟩ := confirmTurn_established hturn
  obtain ⟨-, -, -, ⟨e, he, -⟩ | ⟨f, pt', hparse, -, -, hblob, -, -, hok⟩⟩ :=
    openFrame_spec hlive msg
  · exact absurd (hopen.symm.trans he) (by simp)
  have hpt : pt' = confirmOf (codeKey c') res.transcript := by
    rw [hok] at hopen
    rw [(Prod.mk.inj (Except.ok.inj hopen)).2]
    exact (verifyPairConfirm_iff (codeKey_ne_nil c') htr).mp hver
  rw [hpt] at hblob
  refine ⟨res, hr, h.confirm_origin hc hmsg ?_ hblob⟩
  rw [(parseFrame_eq_ok.mp hparse).1, marshalFrame_eq]
  exact List.subset_append_right _ _

/-- Every node that passed the confirmation of an unleaked code has a counterpart. -/
def World.Confirmed (leaked : ℕ → Prop) (w : World) : Prop :=
  ∀ (i : ℕ) (n : Node) (c : ℕ) (s : Session), w.nodes[i]? = some n →
    n.driver = .runHandshake (some c) → ¬ leaked c → n.phase = .established s →
    ∃ res, n.result = some res ∧ ∃ j, j ≠ i ∧ w.Confirms j (codeKey c) res.transcript

theorem World.Inv.confirmed_step (h : w.Inv leaked) (hconf : w.Confirmed leaked) {a : WorldAct}
    (hs : w.StepApart leaked a w') : w'.Confirmed leaked := by
  obtain ⟨hext, -⟩ := h.step hs.1
  intro i n' c s' hi' hd' hc hp'
  rcases World.next_node hs.1.1 hi' with hnew | ⟨n, hi, hcases⟩
  · exact absurd (hnew.symm.trans hp') (by simp)
  obtain ⟨m, hm, hnm⟩ := hext i n hi
  obtain rfl : m = n' := Option.some.inj (hm.symm.trans hi')
  have hd : n.driver = .runHandshake (some c) := hnm.driver.symm.trans hd'
  -- what was known of the node before still holds, and its result is the same
  have hlift : (∃ res, n.result = some res ∧ ∃ j, j ≠ i ∧ w.Confirms j (codeKey c) res.transcript) →
      ∃ res, m.result = some res ∧ ∃ j, j ≠ i ∧ w'.Confirms j (codeKey c) res.transcript := by
    rintro ⟨res, hr, j, hji, hj⟩
    exact ⟨res, hnm.result res hr, j, hji, hext.confirms hj⟩
  rcases hcases with rfl | ⟨msg, rand, rand', rfl, rfl⟩ | ⟨typ, text, rand, rfl⟩ | rfl
  · exact hlift (hconf i _ c s' hi hd hc hp')
  · obtain ⟨s, hp⟩ | ⟨s, key, transcript, hp, hturn⟩ := Node.deliver_established hd hp'
    · exact hlift (hconf i n c s hi hd hc hp)
    · have hmsg := hs.2 i msg rand rand' n s key transcript rfl hi hp
      exact hlift (h.confirmed_turn hi hd hc hmsg hp hturn)
  · obtain ⟨s, hp⟩ := Node.speak_established hp'
    exact hlift (hconf i n c s hi hd hc hp)
  · obtain ⟨s, hp⟩ := Node.expire_established hp'
    exact hlift (hconf i n c s hi hd hc hp)

end Sound

/-! ## The two confirmations of a session -/

section Exchange

variable {root transcript : Bytes} {i : Bool} {s : Session}

theorem Driver.proceed_code (hroot : root.length = keySize) (i : Bool) (c : ℕ)
    {res : HandshakeResult} (hs : res.session = freshSession root i) (ht : res.transcript ≠ [])
    (rand : Nonce) :
    ∃ s, (Driver.runHandshake (some c)).proceed res (some rand)
        = (.confirming s (codeKey c) res.transcript,
          [marshalFrame (sealedFrame root (sendDir i) typePairConfirm 0 0 rand
            (confirmOf (codeKey c) res.transcript))]) ∧
      Live root i s ∧ s.epoch = 0 ∧ (check s.recvWin 0).2 = true := by
  have hfresh := freshSession_live hroot i
  have hlen : (confirmOf (codeKey c) res.transcript).length ≤ maxPlaintext := by
    rw [confirmOf, length_block]
    decide
  -- the confirmation is short enough to be sealed, and the epoch does not rotate at the first
  -- frame
  have hseal := sealFrame_eq hfresh typePairConfirm hlen rand
  obtain ⟨hlive, hwin, -⟩ := sealFrame_spec hfresh typePairConfirm
    (confirmOf (codeKey c) res.transcript) (some rand)
  rw [hseal] at hlive hwin
  refine ⟨_, ?_, hlive, rfl, ?_⟩
  · simp only [Driver.proceed, Session.sealPairConfirm, pairConfirm_eq (codeKey_ne_nil c) ht, hs,
      hseal]
    rfl
  · rw [hwin]
    show (check {} 0).2 = true
    decide

theorem confirmTurn_confirmOf (h : Live root i s) (he : s.epoch = 0)
    (hwin : (check s.recvWin 0).2 = true) (ht : transcript ≠ []) (c : ℕ) (rand : Nonce) :
    ∃ s', confirmTurn s (codeKey c) transcript (marshalFrame (sealedFrame root (recvDir i)
      typePairConfirm 0 0 rand (confirmOf (codeKey c) transcript))) = .established s' := by
  have hlen : (confirmOf (codeKey c) transcript).length ≤ maxPlaintext := by
    rw [confirmOf, length_block]
    decide
  have hopen := openFrame_sealedFrame h rand (show typePairConfirm ∈ frameTypes by decide) hlen
    (e := 0) (.inl he.symm) hwin
  have hver := (verifyPairConfirm_iff (codeKey_ne_nil c) ht).mpr (rfl :
    _ = confirmOf (codeKey c) transcript)
  unfold confirmTurn
  rw [hopen]
  dsimp only
  rw [if_neg (by simp), if_pos hver]
  exact ⟨_, rfl⟩

theorem pairing_run (leaked : ℕ → Prop) (c : ℕ) (rand : Nonce) :
    ∃ (acts : List WorldAct) (w : World) (n : Node) (s : Session),
      Run (World.StepApart leaked) {} acts w ∧ w.nodes[0]? = some n ∧
      n.driver = .runHandshake (some c) ∧ n.phase = .established s := by
  obtain ⟨sh, hsh⟩ : ∃ sh, sh = dhOf (.honest 0) (.honest 1) := ⟨_, rfl⟩
  obtain ⟨tr, htr⟩ : ∃ tr, tr = transcriptOf true (x25519PublicBytes (.honest 0))
    (x25519PublicBytes (.honest 1)) := ⟨_, rfl⟩
  have htrne : tr ≠ [] := by
    rw [htr]
    exact transcriptOf_ne_nil _ _ _
  obtain ⟨acts, w, n, m, hrun, hnodes, ⟨-, hp, hd⟩, ⟨hms, hmp, hmrole, hmdone, hmtr, hmsh, hmd⟩,
      hsent⟩ :=
    exchange_run leaked (.runHandshake (some c)) (show 8 ≠ 7 by decide) rand hsh htr rfl
  -- node 0 waits for the confirmation of node 1
  obtain ⟨s, hproc, hlive, hepoch, hwin⟩ := Driver.proceed_code (length_rootOf sh tr) true c
    (show (Handshaker.resultOf (.honest 8) (lits [66]) sh tr true).session
      = freshSession (rootOf sh tr) true from rfl) htrne rand
  rw [hproc] at hp
  -- msg3 makes node 1 send it
  have hswap : sh = dhOf (.honest 1) (.honest 0) := by
    rw [hsh, dhOf, dhOf, Sym2.eq_swap]
  obtain ⟨m', hdm, -⟩ := Node.deliver_msg3 hms hmp hmrole hmdone (.honest 0) hmtr htrne
    (hmsh.trans hswap) (show 0 < (lits [65] : Bytes).length by simp) (by simp [maxPeerName])
    (b := .honest 7) (by simp) rand none (some rand) rfl
  obtain ⟨s₁, hproc₁, -⟩ := Driver.proceed_code (length_rootOf sh tr) false c
    (show (Handshaker.resultOf (.honest 7) (lits [65]) sh tr false).session
      = freshSession (rootOf sh tr) false from rfl) htrne rand
  rw [← hswap, hmd, hproc₁] at hdm
  obtain ⟨conf, hconf⟩ : ∃ conf, conf = marshalFrame (sealedFrame (rootOf sh tr) (sendDir false)
    typePairConfirm 0 0 rand (confirmOf (codeKey c) tr)) := ⟨_, rfl⟩
  have hout : m.deliver _ none (some rand) = (m', [(true, conf)]) := hdm.trans (by rw [hconf]; rfl)
  have hknown : KnownAll (dolevYao leaked) (w.observed none) _ :=
    World.knownAll_sent hsent fun _ => by simp
  have h₁ := World.stepApart_deliver (i := 1) hknown (by rw [hnodes]; rfl) (.inl hmp) hout
  -- and its confirmation makes node 0 return
  obtain ⟨s', hturn⟩ := confirmTurn_confirmOf hlive hepoch hwin htrne c rand
  have hturn' : confirmTurn s (codeKey c) tr conf = .established s' := by
    rw [hconf]
    exact hturn
  have hdn : n.deliver conf none none = ({ n with phase := .established s' }, []) := by
    rw [Node.deliver, hp]
    simp only [Handshaker.resultOf, hturn']
  have hsent' : ⟨1, true, conf⟩ ∈ (w.put 1 m' [(true, conf)]).sent :=
    List.mem_append_right _ (List.mem_singleton_self _)
  have hknown' : KnownAll (dolevYao leaked) ((w.put 1 m' [(true, conf)]).observed (some 0)) conf :=
    World.knownAll_sent hsent' fun _ => by simp
  have h₂ := World.stepApart_deliver (World.knownAll_sent hsent' fun _ => by simp)
    (by rw [World.put, hnodes]; rfl) (.inr hknown') hdn
  refine ⟨_, _, { n with phase := .established s' }, s', (hrun.snoc h₁).snoc h₂, ?_, hd, rfl⟩
  rw [World.put, World.put, hnodes]
  rfl

end Exchange

/-! ## Soundness -/

section Soundness

variable {leaked : ℕ → Prop} {w : World} {i c : ℕ}

/-- **The confirmation is sound where nothing is reflected.** In every run in which each message
delivered to a node in `confirmPairing` can be computed without that node's own frames, a node
whose `confirmPairing` returned nil has a counterpart: another node that called `confirmPairing`
with the same code and the same transcript. -/
theorem confirmed_by_other {acts : List WorldAct} (hrun : Run (World.StepApart leaked) {} acts w)
    {n : Node} {s : Session} (hi : w.nodes[i]? = some n) (hd : n.driver = .runHandshake (some c))
    (hc : ¬ leaked c) (hp : n.phase = .established s) :
    ∃ res, n.result = some res ∧ ∃ j, j ≠ i ∧ w.Confirms j (codeKey c) res.transcript := by
  have h : w.Inv leaked ∧ w.Confirmed leaked := by
    refine hrun.invariant (fun w => w.Inv leaked ∧ w.Confirmed leaked)
      ⟨World.Inv.start, fun i n c s hi => absurd hi (by simp)⟩ ?_
    intro t a u ht hs
    exact ⟨(ht.1.step hs.1).2, ht.1.confirmed_step ht.2 hs⟩
  exact h.2 i n c s hi hd hc hp

/-- The theorem at two nodes that pair undisturbed. -/
theorem confirmed_by_other_pairing :
    ∃ (acts : List WorldAct) (w : World) (n : Node) (s : Session),
      Run (World.StepApart fun _ => False) {} acts w ∧ w.nodes[0]? = some n ∧
      n.driver = .runHandshake (some 5) ∧ n.phase = .established s ∧
      ∃ res, n.result = some res ∧ ∃ j, j ≠ 0 ∧ w.Confirms j (codeKey 5) res.transcript := by
  obtain ⟨acts, w, n, s, hrun, hi, hd, hp⟩ :=
    pairing_run (fun _ => False) 5 ⟨List.replicate 12 0, rfl⟩
  exact ⟨acts, w, n, s, hrun, hi, hd, hp, confirmed_by_other hrun hi hd id hp⟩

end Soundness

/-! ## The reflection -/

section Endpoint

variable {leaked : ℕ → Prop} {S : Octet Prim → Prop} {root : Bytes}

theorem knownAll_hkdf {secret salt : Bytes} (hsecret : KnownAll (dolevYao leaked) S secret)
    (hsalt : KnownAll (dolevYao leaked) S salt) (info : String) (n m : ℕ) :
    KnownAll (dolevYao leaked) S (block (.hkdf info n) [secret, salt] m) :=
  KnownAll.block m (show [secret, salt].length = 2 from rfl) (by simp [hsecret, hsalt])

theorem knownAll_gcm {key aad plain : Bytes} (nonce : Nonce)
    (hkey : KnownAll (dolevYao leaked) S key) (haad : KnownAll (dolevYao leaked) S aad)
    (hplain : KnownAll (dolevYao leaked) S plain) (m : ℕ) :
    KnownAll (dolevYao leaked) S
      (lits nonce.bytes ++ block .gcm [key, lits nonce.bytes, aad, plain] m) :=
  KnownAll.append.mpr ⟨KnownAll.lits _, KnownAll.block m
    (show [key, lits nonce.bytes, aad, plain].length = 4 from rfl)
    (by simp [hkey, haad, hplain, KnownAll.lits])⟩

theorem knownAll_messageKeyOf (hroot : KnownAll (dolevYao leaked) S root) (d : Dir) (e : UInt32)
    (q : UInt64) : KnownAll (dolevYao leaked) S (messageKeyOf root d e q) :=
  knownAll_hkdf (knownAll_hkdf (knownAll_hkdf hroot .nil _ _ _) .nil _ _ _) (KnownAll.lits _) _ _ _

theorem knownAll_sealedFrame (hroot : KnownAll (dolevYao leaked) S root) (d : Dir) (typ : UInt8)
    (q : UInt64) (e : UInt32) (rand : Nonce) {pt : Bytes} (hpt : KnownAll (dolevYao leaked) S pt) :
    KnownAll (dolevYao leaked) S (marshalFrame (sealedFrame root d typ q e rand pt)) := by
  have hheader : ∀ blob, KnownAll (dolevYao leaked) S (marshalHeaderOnly
      { typ := typ, session := sessionIDOf root, sequence := q, rotation := e, blob := blob }) := by
    intro blob
    have hsid : KnownAll (dolevYao leaked) S (sessionIDOf root) := knownAll_hkdf hroot .nil _ _ _
    simp only [marshalHeaderOnly, KnownAll.cons, KnownAll.append, hsid, putUint64, putUint32,
      KnownAll.lits, and_true]
    exact ⟨.lit _, .lit _⟩
  rw [marshalFrame_eq]
  exact KnownAll.append.mpr ⟨hheader _, knownAll_gcm rand (knownAll_messageKeyOf hroot d e q)
    (hheader _) hpt _⟩

theorem knownAll_of_sealedFrame (hroot : KnownAll (dolevYao leaked) S root) {d : Dir} {typ : UInt8}
    {q : UInt64} {e : UInt32} {rand : Nonce} {pt : Bytes}
    (h : KnownAll (dolevYao leaked) S (marshalFrame (sealedFrame root d typ q e rand pt))) :
    KnownAll (dolevYao leaked) S pt := by
  intro o ho
  rw [marshalFrame_eq] at h
  have hblob := (KnownAll.append.mp (KnownAll.append.mp h).2).2
  exact .extract ⟨rfl, _, _, rfl⟩ (hblob _ (mem_block.mpr ⟨0, by simp [tagSize], rfl⟩))
    (knownAll_messageKeyOf hroot d e q) ho

variable (leaked S) in
/-- The attacker's msg2 to the node with the ephemeral key `x`. It takes part with keys of its
own, so it can compute the shared secret, the transcript and its signature of it. -/
theorem knownAll_msg2 (x : Owner) (k : ℕ) (name : List UInt8) (rand : Nonce) {tr : Bytes}
    (htr : tr = transcriptOf true (x25519PublicBytes x) (x25519PublicBytes (.attacker k))) :
    KnownAll (dolevYao leaked) S (dhOf x (.attacker k)) ∧ KnownAll (dolevYao leaked) S tr ∧
      KnownAll (dolevYao leaked) S (marshalAuth (x25519PublicBytes (.attacker k))
        (authBlobOf (.attacker k) (lits name) infoHS2 (dhOf x (.attacker k)) tr rand)) := by
  have hdh : KnownAll (dolevYao leaked) S (dhOf x (.attacker k)) :=
    KnownAll.block 32 ⟨k, Sym2.mem_mk_right _ _⟩ (by simp)
  have hpub : ∀ y, KnownAll (dolevYao leaked) S (x25519PublicBytes y) := fun y =>
    KnownAll.block 32 trivial (by simp)
  have hktr : KnownAll (dolevYao leaked) S tr := by
    have hdomain : KnownAll (dolevYao leaked) S handshakeDomain := KnownAll.lits _
    rw [htr]
    exact KnownAll.block 32 trivial (by simp [hdomain, hpub])
  -- the identity and the signature are the attacker's own
  have hplain : KnownAll (dolevYao leaked) S (authPlainOf (.attacker k) (lits name) tr) := by
    have hid : KnownAll (dolevYao leaked) S (ed25519PublicBytes (.attacker k)) :=
      KnownAll.block 32 trivial (by simp)
    have hsig : KnownAll (dolevYao leaked) S (block (.ed25519Sign (.attacker k)) [tr] 64) :=
      KnownAll.block 64 ⟨k, rfl⟩ (by simp [hktr])
    simp only [authPlainOf, marshalAuthPlain, KnownAll.append, hid, hsig, putUint16, KnownAll.lits,
      and_self]
  refine ⟨hdh, hktr, ?_⟩
  simp only [marshalAuth, KnownAll.cons, KnownAll.append, hpub, putLen32, KnownAll.lits, true_and]
  exact ⟨.lit _, knownAll_gcm rand (knownAll_hkdf hdh hktr _ _ _) (KnownAll.lits _) hplain _⟩

end Endpoint

/-- The attacker answers msg1 of a node with a code: the node sends its confirmation to it. The
frame is on the network then, under a key that the attacker has. -/
theorem attacked_run (leaked : ℕ → Prop) (c : ℕ) (rand : Nonce) {sh tr : Bytes}
    (hsh : sh = dhOf (.honest 0) (.attacker 0))
    (htr : tr = transcriptOf true (x25519PublicBytes (.honest 0)) (x25519PublicBytes (.attacker 0)))
      :
    ∃ (acts : List WorldAct) (w : World) (n : Node) (s : Session),
      Run (World.Step leaked) {} acts w ∧ w.nodes = [n] ∧ n.driver = .runHandshake (some c) ∧
      n.result = some (Handshaker.resultOf (.attacker 0) (lits [77]) sh tr true) ∧
      n.phase = .confirming s (codeKey c) tr ∧
      (Live (rootOf sh tr) true s ∧ s.epoch = 0 ∧ (check s.recvWin 0).2 = true) ∧
      ⟨0, true, marshalFrame (sealedFrame (rootOf sh tr) (sendDir true) typePairConfirm 0 0 rand
        (confirmOf (codeKey c) tr))⟩ ∈ w.sent := by
  obtain ⟨n, hn⟩ : ∃ n, n = World.startNode 0 0 [65] true (.runHandshake (some c)) := ⟨_, rfl⟩
  have hns : n.hs.Sound (.honest 0) (.honest 0) (lits [65]) := by
    rw [hn]
    exact World.startNode_sound 0 0 [65] true (.runHandshake (some c))
  have hnd : n.driver = .runHandshake (some c) := by rw [hn]; rfl
  obtain ⟨w₁, hw₁⟩ :
      ∃ w : World, w = { nodes := [n], sent := [⟨0, false, World.initOf (.honest 0)⟩] } :=
    ⟨_, rfl⟩
  have h₁ : World.Step leaked {} (.spawn 0 [65] true (.runHandshake (some c))) w₁ := by
    refine (World.stepApart_spawn ?_).1
    rw [World.next_spawn, hw₁, hn]
    rfl
  have htrne : tr ≠ [] := by
    rw [htr]
    exact transcriptOf_ne_nil _ _ _
  obtain ⟨n', hd, hres, hphase, hdrv⟩ := Node.deliver_msg2 hns (by rw [hn]; rfl) (by rw [hn]; rfl)
    (by rw [hn]; rfl) (.attacker 0) (show 0 < (lits [77] : Bytes).length by simp)
    (by simp [maxPeerName]) (b := .attacker 0) (by simp) rand rand (some rand) htr rfl
  obtain ⟨s, hproc, hlive⟩ := Driver.proceed_code (length_rootOf sh tr) true c
    (show (Handshaker.resultOf (.attacker 0) (lits [77]) sh tr true).session
      = freshSession (rootOf sh tr) true from rfl) htrne rand
  rw [hnd, ← hsh, hproc] at hd hphase
  rw [← hsh] at hres
  -- msg2 can be computed from nothing that was sent
  have hknown := (knownAll_msg2 leaked (w₁.observed none) (.honest 0) 0 [77] rand htr).2.2
  rw [← hsh] at hknown
  have h₂ := World.step_deliver hknown (show w₁.nodes[0]? = some n by rw [hw₁]; rfl) hd
  refine ⟨_, _, n', s, (Run.single h₁).snoc h₂, ?_, hdrv.trans hnd, hres, hphase, hlive, ?_⟩
  · rw [World.put, hw₁]
    rfl
  · exact List.mem_append_right _ (List.mem_cons_of_mem _ List.mem_cons_self)

/-- **A node confirms with the attacker.** The code is not leaked and there is no other node.
The attacker, who is the other end of the session, opens the node's own confirmation and seals
it back in its own direction. -/
theorem reflected_confirmation_accepted :
    ∃ (acts : List WorldAct) (w : World) (n : Node) (s : Session) (res : HandshakeResult),
      Run (World.Step fun _ => False) {} acts w ∧ w.nodes[0]? = some n ∧
      n.driver = .runHandshake (some 0) ∧ n.phase = .established s ∧ n.result = some res ∧
      res.peerKey = ed25519PublicBytes (.attacker 0) ∧
      ∀ j, j ≠ 0 → ¬ w.Confirms j (codeKey 0) res.transcript := by
  obtain ⟨rand, -⟩ : ∃ rand : Nonce, rand = ⟨List.replicate 12 0, rfl⟩ := ⟨_, rfl⟩
  obtain ⟨sh, hsh⟩ : ∃ sh, sh = dhOf (.honest 0) (.attacker 0) := ⟨_, rfl⟩
  obtain ⟨tr, htr⟩ : ∃ tr, tr = transcriptOf true (x25519PublicBytes (.honest 0))
    (x25519PublicBytes (.attacker 0)) := ⟨_, rfl⟩
  have htrne : tr ≠ [] := by
    rw [htr]
    exact transcriptOf_ne_nil _ _ _
  obtain ⟨acts, w, n, s, hrun, hnodes, hd, hr, hp, ⟨hlive, hepoch, hwin⟩, hsent⟩ :=
    attacked_run (fun _ => False) 0 rand hsh htr
  -- the attacker knows the root, so it opens the confirmation and seals it again
  obtain ⟨hdh, hktr, -⟩ := knownAll_msg2 (fun _ => False) (w.observed none) (.honest 0) 0
    [77] rand htr
  rw [← hsh] at hdh
  have hroot : KnownAll (dolevYao fun _ => False) (w.observed none) (rootOf sh tr) :=
    knownAll_hkdf hdh hktr _ _ _
  have hconf := knownAll_of_sealedFrame hroot (World.knownAll_sent hsent fun _ => by simp)
  have hback := knownAll_sealedFrame hroot (recvDir true) typePairConfirm 0 0 rand hconf
  -- and the node takes it for the other side's
  obtain ⟨s', hturn⟩ := confirmTurn_confirmOf hlive hepoch hwin htrne 0 rand
  have hdn : n.deliver (marshalFrame (sealedFrame (rootOf sh tr) (recvDir true) typePairConfirm 0 0
      rand (confirmOf (codeKey 0) tr))) none none = ({ n with phase := .established s' }, []) := by
    rw [Node.deliver, hp]
    simp only [hturn]
  have h := World.step_deliver hback (show w.nodes[0]? = some n by rw [hnodes]; rfl) hdn
  refine ⟨_, _, { n with phase := .established s' }, s', _, hrun.snoc h, ?_, hd, rfl, hr, rfl, ?_⟩
  · rw [World.put, hnodes]
    rfl
  · rintro j hj ⟨m, -, -, hm, -⟩
    rw [World.put, hnodes] at hm
    obtain ⟨k, rfl⟩ := Nat.exists_eq_succ_of_ne_zero hj
    exact absurd hm (by simp)

end Heimdall.Proto
