/-
What the network and the relay can make of a session between two honest nodes: nothing, ever.

The attacker of `World` carries every message and may take part with keys of its own. When the run
is over it is given what lives longer than a session: the pairing key of every invite code, and the
signature of every identity on any message it likes, which is all that a signing key is good for.
It is not given ephemeral keys, which `finish` drops when the handshake is done.

A session key is then still out of reach if the handshake ended with the key of an honest identity.
The signature it ended with was made by a node of that identity over this transcript, so the
transcript has two honest ephemeral keys in it, and everything the session uses is derived from
what those two agree on.
-/
import Heimdall.Agreement

set_option autoImplicit false

namespace Heimdall.Proto

open Heimdall.Octets Heimdall.Crypto Heimdall.Runs

/-! ## What is given away afterwards -/

/-- The network of a run, and every signature of every identity. -/
def World.afterwards (w : World) (o : Octet Prim) : Prop :=
  w.observed none o ∨ ∃ (b : ℕ) (m : Bytes) (i : ℕ), o = .out (.ed25519Sign (.honest b)) [m] i

/-- No octet of `k` is known, not even with all invite codes besides. -/
def World.Hidden (w : World) (k : Bytes) : Prop :=
  ∀ o ∈ k, ¬ Known (dolevYao fun _ => True) w.afterwards o

/-- The deeds of a world whose identities have signed, and whose nodes have confirmed, anything. -/
def World.exposed (w : World) : Deeds where
  signed _ _ := True
  sealed := (w.deeds none).sealed
  revealed _ _ := True

section Exposed

variable {leaked : ℕ → Prop} {w : World}

theorem Emits.pub {j : ℕ} {n : Node} {fr : Bool} {b : Bytes} {D : Deeds} (h : Emits j n fr b)
    (hsealed : ∀ args, .out .gcm args 0 ∈ b → D.sealed args) (hsigned : ∀ a m, D.signed a m)
    (hrevealed : ∀ k t, D.revealed k t) : ∀ o ∈ b, Pub leaked D o := by
  rcases h with _ | ⟨nonce, hauth⟩ | ⟨root, d, typ, q, e, nonce, text⟩ |
    ⟨root, d, q, e, nonce, hd, hr⟩
  · exact pub_initOf _
  · exact pub_marshalAuth hsealed (hsigned _ _)
  · exact pub_marshalFrame hsealed (pub_lits _)
  · refine pub_marshalFrame hsealed fun o ho => ?_
    obtain ⟨i, -, rfl⟩ := mem_block.mp ho
    exact .confirm (hrevealed _ _)

/-- The disclosures are made after the run, because a signing key given away during it would let
the attacker take part as that identity. The invariant of the run bounds what is known with them. -/
theorem World.Inv.pub_afterwards (h : w.Inv leaked) {o : Octet Prim} (ho : w.afterwards o) :
    Pub (fun _ => True) w.exposed o := by
  rcases ho with ⟨s, hs, hvis, ho⟩ | ⟨b, m, i, rfl⟩
  · obtain ⟨n, -, hemits⟩ := h.sent s hs
    have hsealed : ∀ args, .out .gcm args 0 ∈ s.bytes → w.exposed.sealed args :=
      fun args hargs => ⟨s, hs, hvis, hargs⟩
    exact hemits.pub hsealed (fun _ _ => trivial) (fun _ _ => trivial) o ho
  · exact .sign trivial

theorem World.Inv.hidden (h : w.Inv leaked) {k : Bytes} (hk : ∀ o ∈ k, Sec (fun _ => True) o) :
    w.Hidden k :=
  fun o ho hknown => (Pub.of_known (fun _ => h.pub_afterwards) hknown).not_sec (hk o ho)

end Exposed

/-! ## The keys of a session -/

section Keys

variable {leaked : ℕ → Prop}

/-- What is derived from a secret key is secret, unless the label is one of the two whose outputs
are published. The labels of a session's keys are others. -/
theorem sec_hkdf {info : String} {n : ℕ} {secret salt : Bytes} (hs : info ≠ infoSession)
    (hc : info ≠ infoPairConfirm) (h : SecretKey leaked secret) :
    ∀ o ∈ block (.hkdf info n) [secret, salt] n, Sec leaked o := by
  intro o ho
  obtain ⟨i, -, rfl⟩ := mem_block.mp ho
  obtain ⟨k, hk, hsec⟩ := h
  exact .hkdf hs hc hk hsec

theorem rotateLabel_ne (e : UInt32) : infoRotate ++ " " ++ itoa e ≠ infoSession ∧
    infoRotate ++ " " ++ itoa e ≠ infoPairConfirm := by
  have htake : (infoRotate ++ " " ++ itoa e).toList.take 13 = infoRotate.toList.take 13 := by
    simp only [String.toList_append, List.append_assoc]
    exact List.take_append_of_le_length (by decide)
  -- the labels differ before the epoch comes in
  constructor
  · intro h
    rw [h] at htake
    exact absurd htake (by decide)
  · intro h
    rw [h] at htake
    exact absurd htake (by decide)

theorem Dir.info_ne (d : Dir) : d.info ≠ infoSession ∧ d.info ≠ infoPairConfirm := by
  rcases d <;> decide

variable {shared : Bytes}

theorem secretKey_rootOf (h : SecretKey leaked shared) (transcript : Bytes) :
    SecretKey leaked (rootOf shared transcript) :=
  secretKey_hkdf (by decide) (by decide) h transcript

theorem secretKey_seedOf {root : Bytes} (h : SecretKey leaked root) (e : UInt32) :
    SecretKey leaked (seedOf root e) :=
  secretKey_hkdf (rotateLabel_ne e).1 (rotateLabel_ne e).2 h []

theorem secretKey_chainKey {root : Bytes} (h : SecretKey leaked root) (d : Dir) (e : UInt32) :
    SecretKey leaked (chainKey root d e) :=
  secretKey_hkdf d.info_ne.1 d.info_ne.2 (secretKey_seedOf h e) []

end Keys

section Counterpart

variable {leaked : ℕ → Prop} {w : World} {i b : ℕ} {n : Node} {res : HandshakeResult}
  {shared : Bytes}

/-- A handshake that ended with the key of an honest identity has agreed on a secret of two honest
ephemeral keys: the identity has signed the transcript, so its node has put its own key there. -/
theorem Result.honest_shared (hi : w.nodes[i]? = some n) (hres : Result leaked w i n res shared)
    (hb : res.peerKey = ed25519PublicBytes (.honest b)) :
    ∃ j, shared = dhOf (.honest i) (.honest j) := by
  obtain ⟨j, m, shared', hj, rfl, hm, ht⟩ := hres.signed b hb
  obtain ⟨rfl, -⟩ | ⟨-, hsh, -⟩ := hres.authed.same_or_opposite hm ht
  · -- the signature would be its own
    obtain rfl : m = n := Option.some.inj (hj.symm.trans hi)
    exact absurd hb hres.notSelf
  · exact ⟨j, hsh⟩

end Counterpart

/-- **Session keys are out of reach.** In every run, if a node has completed its handshake with the
key of an honest identity, then the root, the chain keys and the message keys of its session, in all
epochs and both directions, are unknown to the attacker for good, whatever invite codes and signing
keys it is given afterwards. So are the keys under which the node has sent its name and identity. -/
theorem session_keys_hidden {leaked : ℕ → Prop} {acts : List WorldAct} {w : World}
    (hrun : Run (World.Step leaked) {} acts w) {i b : ℕ} {n : Node} {res : HandshakeResult}
    (hi : w.nodes[i]? = some n) (hr : n.result = some res)
    (hb : res.peerKey = ed25519PublicBytes (.honest b)) :
    (w.Hidden res.session.root ∧ ∀ (d : Dir)
      (e : UInt32), w.Hidden (chainKey res.session.root d e) ∧
        ∀ q : UInt64, w.Hidden (messageKeyOf res.session.root d e q)) ∧
      ∀ s ∈ w.sent, s.node = i → s.frame = false → ∀ key nonce aad plain : Bytes,
        .out .gcm [key, nonce, aad, plain] 0 ∈ s.bytes → w.Hidden key := by
  have h : w.Inv leaked := hrun.invariant _ World.Inv.start fun _ _ _ hw hs => (hw.step hs).2
  obtain ⟨shared, hres⟩ := (h.nodes i n hi).result res hr
  obtain ⟨j, hsh⟩ := hres.honest_shared hi hb
  have hsec : SecretKey (fun _ => True) shared := by
    rw [hsh]
    exact secretKey_x25519 i j
  have hroot : res.session.root = rootOf shared n.hs.transcript := by
    rw [hres.session]
    rfl
  rw [hroot]
  have hsecroot := secretKey_rootOf hsec n.hs.transcript
  refine ⟨⟨h.hidden (sec_hkdf (by decide) (by decide) hsec), fun d e => ⟨?_, fun q => ?_⟩⟩, ?_⟩
  · exact h.hidden (sec_hkdf d.info_ne.1 d.info_ne.2 (secretKey_seedOf hsecroot e))
  · exact h.hidden (sec_hkdf (by decide) (by decide) (secretKey_chainKey hsecroot d e))
  · rintro ⟨k, fr, bytes⟩ hs rfl rfl key nonce aad plain hmem
    obtain ⟨m, hm, hemits⟩ := h.sent _ hs
    dsimp only at hm hemits hmem
    obtain rfl : m = n := Option.some.inj (hm.symm.trans hi)
    rcases hemits with _ | ⟨nonce', hauth⟩
    · -- msg1 has no ciphertext in it
      simp only [putUint16, x25519PublicBytes, List.mem_cons, List.mem_append, out_notMem_lits,
        out_mem_block, reduceCtorEq, false_or, false_and] at hmem
    · obtain ⟨rfl, -⟩ := gcm_mem_marshalAuth hmem
      obtain rfl := Option.some.inj (hauth.agreed.symm.trans hres.authed.agreed)
      refine h.hidden (sec_hkdf ?_ ?_ hsec)
      · cases m.hs.initiator <;> decide
      · cases m.hs.initiator <;> decide

/-- The theorem at the undisturbed exchange of two identities. -/
theorem session_keys_hidden_exchange :
    ∃ (acts : List WorldAct) (w : World) (n : Node) (res : HandshakeResult),
      Run (World.Step fun _ => False) {} acts w ∧ w.nodes[0]? = some n ∧ n.result = some res ∧
      res.peerKey = ed25519PublicBytes (.honest 8) ∧ w.Hidden res.session.root ∧
      w.Hidden (messageKeyOf res.session.root .ab 0 0) := by
  obtain ⟨acts, w, n, m, hrun, hnodes, ⟨hr, -⟩, -⟩ :=
    exchange_run (fun _ => False) .bare (show 8 ≠ 7 by decide)
      ⟨List.replicate 12 0, rfl⟩ rfl rfl rfl
  have hi : w.nodes[0]? = some n := by rw [hnodes]; rfl
  have hrun' : Run (World.Step fun _ => False) {} acts w := hrun.mono fun _ _ _ hs => hs.1
  obtain ⟨⟨hroot, hkeys⟩, -⟩ := session_keys_hidden hrun' hi hr rfl
  exact ⟨acts, w, n, _, hrun', hi, hr, rfl, hroot, (hkeys .ab 0).2 0⟩

end Heimdall.Proto
