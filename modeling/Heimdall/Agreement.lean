/-
Mutual authentication and agreement of the handshake.

Both roles sign the same hash, and it covers the two ephemeral keys only. What makes the two
ends agree all the same is the order of the keys in it: two nodes with one transcript are the
same node, or they have opposite roles and each holds the other's ephemeral key
(`Node.Authed.same_or_opposite`). In the second case the Diffie-Hellman secret is theirs alone,
so the auth blob that each of them accepts was sealed by the other, under the other's identity
(`World.Inv.peer_of_opposite`).
-/
import Heimdall.Origins

set_option autoImplicit false

namespace Heimdall.Proto

open Heimdall.Runs Heimdall.Octets Heimdall.Crypto

/-! ## One transcript, two nodes -/

section Transcript

variable {leaked : ℕ → Prop} {w : World} {j k : ℕ} {n m : Node} {shared shared' : Bytes}

/-- **Nodes with the same transcript** are one node, or the two ends of one exchange. A transcript
has two ephemeral keys in it, in the order of the roles, and every node has a key of its own. -/
theorem Node.Authed.same_or_opposite (hn : n.Authed j shared) (hm : m.Authed k shared')
    (ht : m.hs.transcript = n.hs.transcript) :
    (k = j ∧ m.hs.initiator = n.hs.initiator) ∨
      (m.hs.initiator = (!n.hs.initiator) ∧
        shared = dhOf (.honest j) (.honest k) ∧ shared' = dhOf (.honest j) (.honest k)) := by
  rw [hn.transcript, hm.transcript] at ht
  have hpair := transcriptOf_inj (length_x25519PublicBytes _) (length_x25519PublicBytes _)
    (ecdh_peer_length hm.agreed) (ecdh_peer_length hn.agreed) ht
  -- the secret is that of the two ephemeral keys once each is the other's peer key
  have hcross : x25519PublicBytes (.honest k) = n.hs.peerEph →
      m.hs.peerEph = x25519PublicBytes (.honest j) →
      shared = dhOf (.honest j) (.honest k) ∧ shared' = dhOf (.honest j) (.honest k) := by
    intro hpn hpm
    have hagn := hn.agreed
    have hagm := hm.agreed
    rw [← hpn, ecdh_public] at hagn
    rw [hpm, ecdh_comm, ecdh_public] at hagm
    exact ⟨(Option.some.inj hagn).symm, (Option.some.inj hagm).symm⟩
  have hsame : x25519PublicBytes (.honest k) = x25519PublicBytes (.honest j) → k = j := fun hkj =>
    Owner.honest.inj (x25519PublicBytes_inj hkj)
  rcases hin : n.hs.initiator <;> rcases him : m.hs.initiator <;>
    simp only [hin, him, if_true, Bool.false_eq_true, if_false, Prod.mk.injEq] at hpair
  · exact .inl ⟨hsame hpair.2, rfl⟩
  · exact .inr ⟨rfl, hcross hpair.1 hpair.2⟩
  · exact .inr ⟨rfl, hcross hpair.2 hpair.1⟩
  · exact .inl ⟨hsame hpair.1, rfl⟩

/-! ## What each end derives -/

/-- The session a handshaker derives: the one in its result or, before it has one, the one that
`newSession` makes of what it holds. -/
def Node.derived (n : Node) : Option Session :=
  match n.result with
  | some res => some res.session
  | none => (newSession n.hs.shared n.hs.transcript n.hs.initiator).toOption

/-- Everything in a session follows from the shared secret, the transcript and the role. -/
theorem NodeInv.derived_eq (h : NodeInv leaked w j n) (hn : n.Authed j shared) :
    n.derived = some (freshSession (rootOf shared n.hs.transcript) n.hs.initiator) := by
  unfold Node.derived
  rcases hr : n.result with _ | res
  · have hsh := hn.shared (h.going hr)
    have hne : shared ≠ [] := Handshaker.shared_ne_nil hn.agreed
    dsimp only
    rw [hsh, newSession_eq hne]
    rfl
  · obtain ⟨shared', hres⟩ := h.result res hr
    have hsh : shared' = shared := Option.some.inj (hres.authed.agreed.symm.trans hn.agreed)
    dsimp only
    rw [hres.session, hsh]

/-- Two nodes with the same secret and transcript have the same chains, with the directions
exchanged. -/
theorem freshSession_not (root : Bytes) (i : Bool) :
    (freshSession root (!i)).send = (freshSession root i).recv ∧
      (freshSession root (!i)).recv = (freshSession root i).send := by
  rcases i <;> exact ⟨rfl, rfl⟩

/-- A node that completes opposite to `n`, on the same transcript, reports the identity of `n`:
the auth blob it accepted can only have been sealed by the other end. -/
theorem World.Inv.peer_of_opposite (h : w.Inv leaked) (hj : w.nodes[j]? = some n)
    (hk : w.nodes[k]? = some m) (hn : n.Authed j shared) (hm : m.Authed k shared')
    (ht : m.hs.transcript = n.hs.transcript) (hrole : m.hs.initiator = (!n.hs.initiator))
    {res : HandshakeResult} (hres : m.result = some res) :
    res.peerKey = ed25519PublicBytes (.honest n.owner) := by
  obtain ⟨sh, hr⟩ := (h.nodes k m hk).result res hres
  obtain rfl : sh = shared' := Option.some.inj (hr.authed.agreed.symm.trans hm.agreed)
  obtain ⟨-, hsh⟩ | ⟨-, -, hsh⟩ := hn.same_or_opposite hm ht
  · exact absurd (hrole.symm.trans hsh) (by simp)
  -- the secret belongs to two honest ephemeral keys
  have hsec : SecretKey leaked sh := by
    rw [hsh]
    exact secretKey_x25519 j k
  obtain ⟨l, p, hl, hp, htp, hrp, hkey⟩ := hr.sealed hsec
  -- whoever sealed it has the transcript and the role of `n`, so it is `n`
  obtain ⟨rfl, -⟩ | ⟨hc, -⟩ := hn.same_or_opposite hp (htp.trans ht)
  · rw [hkey, Option.some.inj (hl.symm.trans hj)]
  · rw [hrp, hrole] at hc
    exact absurd hc (by simp)

end Transcript

/-! ## The undisturbed exchange -/

/-- An exchange that nobody disturbs, up to msg3: the initiator, node 0, is done, and msg3 is on
its way to node 1. The driver of the two is left open, so that it serves for pairings as well. -/
theorem exchange_run (leaked : ℕ → Prop) (driver : Driver) {a b : ℕ} (hab : b ≠ a) (rand : Nonce)
    {sh tr : Bytes} (hsh : sh = dhOf (.honest 0) (.honest 1))
    (htr : tr = transcriptOf true (x25519PublicBytes (.honest 0)) (x25519PublicBytes (.honest 1)))
    {res : HandshakeResult} (hres : res = Handshaker.resultOf (.honest b) (lits [66]) sh tr true) :
    ∃ (acts : List WorldAct) (w : World) (n m : Node),
      Run (World.StepApart leaked) {} acts w ∧ w.nodes = [n, m] ∧
        (n.result = some res ∧ n.phase = (driver.proceed res (some rand)).1 ∧ n.driver = driver) ∧
        (m.hs.Sound (.honest 1) (.honest b) (lits [66]) ∧ m.phase = .handshaking ∧
          m.hs.initiator = false ∧ m.hs.done = false ∧ m.hs.transcript = tr ∧ m.hs.shared = sh ∧
          m.driver = driver) ∧
        ⟨0, false, marshalAuth (x25519PublicBytes (.honest 0))
          (authBlobOf (.honest a) (lits [65]) infoHS3 sh tr rand)⟩ ∈ w.sent := by
  obtain ⟨n, hn⟩ : ∃ n, n = World.startNode 0 a [65] true driver := ⟨_, rfl⟩
  obtain ⟨m, hm⟩ : ∃ m, m = World.startNode 1 b [66] false driver := ⟨_, rfl⟩
  have hns : n.hs.Sound (.honest 0) (.honest a) (lits [65]) := by
    rw [hn]
    exact World.startNode_sound 0 a [65] true driver
  have hms : m.hs.Sound (.honest 1) (.honest b) (lits [66]) := by
    rw [hm]
    exact World.startNode_sound 1 b [66] false driver
  have hnp : n.phase = .handshaking := by rw [hn]; rfl
  have hmp : m.phase = .handshaking := by rw [hm]; rfl
  obtain ⟨w₁, hw₁⟩ :
      ∃ w : World, w = { nodes := [n], sent := [⟨0, false, World.initOf (.honest 0)⟩] } :=
    ⟨_, rfl⟩
  obtain ⟨w₂, hw₂⟩ : ∃ w : World, w = { w₁ with nodes := [n, m] } := ⟨_, rfl⟩
  have h₁ : World.StepApart leaked {} (.spawn a [65] true driver) w₁ := by
    apply World.stepApart_spawn
    rw [World.next_spawn, hw₁, hn]
    rfl
  have h₂ : World.StepApart leaked w₁ (.spawn b [66] false driver) w₂ := by
    apply World.stepApart_spawn
    rw [World.next_spawn, hw₂, hw₁, hm]
    rfl
  -- msg1 goes to the responder
  obtain ⟨m', hd₁, hm'⟩ := Node.deliver_msg1 hms hmp (by rw [hm]; rfl) (by rw [hm]; rfl)
    (by rw [hm]; rfl) (.honest 0) rand none htr
  have hswap : dhOf (.honest 1) (.honest 0) = sh := by
    rw [hsh, dhOf, dhOf, Sym2.eq_swap]
  rw [hswap] at hd₁ hm'
  obtain ⟨msg2, hmsg2⟩ : ∃ msg2, msg2 = marshalAuth (x25519PublicBytes (.honest 1))
    (authBlobOf (.honest b) (lits [66]) infoHS2 sh tr rand) := ⟨_, rfl⟩
  rw [← hmsg2] at hd₁
  have h₃ : World.StepApart leaked w₂ (.deliver 1 (World.initOf (.honest 0)) (some rand) none)
      (w₂.put 1 m' [(false, msg2)]) := by
    have hsent : ⟨0, false, World.initOf (.honest 0)⟩ ∈ w₂.sent := by
      rw [hw₂, hw₁]
      exact List.mem_singleton_self _
    exact World.stepApart_deliver (World.knownAll_sent hsent (fun _ => by simp)) (by rw [hw₂]; rfl)
      (.inl hmp) hd₁
  -- and msg2 back to the initiator
  have hres' : res
      = Handshaker.resultOf (.honest b) (lits [66]) (dhOf (.honest 0) (.honest 1)) tr true := by
    rw [hres, hsh]
  obtain ⟨n', hd₂, hn'⟩ := Node.deliver_msg2 hns hnp (by rw [hn]; rfl) (by rw [hn]; rfl) (.honest 1)
    (show 0 < (lits [66] : Bytes).length by simp) (by simp [maxPeerName]) (b := .honest b)
    (by simpa using hab) rand rand (some rand) htr hres'
  rw [← hsh, ← hmsg2] at hd₂
  rw [show n.driver = driver by rw [hn]; rfl] at hd₂ hn'
  rw [show m.driver = driver by rw [hm]; rfl] at hm'
  have hsent : ⟨1, false, msg2⟩ ∈ (w₂.put 1 m' [(false, msg2)]).sent :=
    List.mem_append_right _ (List.mem_singleton_self _)
  have hknown : KnownAll (dolevYao leaked) ((w₂.put 1 m' [(false, msg2)]).observed none) msg2 :=
    World.knownAll_sent hsent fun _ => by simp
  have h₄ := World.stepApart_deliver (i := 0) hknown (by rw [hw₂]; rfl) (.inl hnp) hd₂
  refine ⟨_, _, n', m', (((Run.single h₁).snoc h₂).snoc h₃).snoc h₄, ?_, hn', hm', ?_⟩
  · rw [hw₂]
    rfl
  · exact List.mem_append_right _ List.mem_cons_self

/-! ## Agreement -/

/-- **Agreement.** In every run, a handshaker that completes with the key of an honest identity
has a counterpart of that identity, in the opposite role and with the same transcript. Both
derive one session with each other's chains, and if the counterpart completes as well, it does
so with the key of the first. -/
theorem completed_agrees {leaked : ℕ → Prop} {acts : List WorldAct} {w : World}
    (hrun : Run (World.Step leaked) {} acts w) {i b : ℕ} {n : Node} {res : HandshakeResult}
    (hi : w.nodes[i]? = some n) (hr : n.result = some res)
    (hb : res.peerKey = ed25519PublicBytes (.honest b)) :
    ∃ (j : ℕ) (m : Node) (s : Session), w.nodes[j]? = some m ∧
      m.hs.id.pub = ed25519PublicBytes (.honest b) ∧ m.hs.initiator = (!n.hs.initiator) ∧
      m.hs.transcript = res.transcript ∧ m.derived = some s ∧
      s.sessionID = res.session.sessionID ∧ s.root = res.session.root ∧
      res.session.send = s.recv ∧ res.session.recv = s.send ∧
      ∀ res', m.result = some res' → res'.peerKey = n.hs.id.pub := by
  have h : w.Inv leaked := hrun.invariant _ World.Inv.start fun _ _ _ hw hs => (hw.step hs).2
  have hid : ∀ {j : ℕ} {m : Node}, w.nodes[j]? = some m →
      m.hs.id.pub = ed25519PublicBytes (.honest m.owner) := by
    intro j m hj
    rw [(h.nodes j m hj).sound.id]
    rfl
  obtain ⟨shared, hres⟩ := (h.nodes i n hi).result res hr
  obtain ⟨j, m, shared', hj, rfl, hm, ht⟩ := hres.signed b hb
  obtain ⟨rfl, -⟩ | ⟨hrole, hsh, hsh'⟩ := hres.authed.same_or_opposite hm ht
  · -- the signature would be this handshaker's own, and its own key is refused
    obtain rfl : m = n := Option.some.inj (hj.symm.trans hi)
    exact absurd hb hres.notSelf
  · obtain ⟨hsend, hrecv⟩ := freshSession_not (rootOf shared n.hs.transcript) n.hs.initiator
    refine ⟨j, m, freshSession (rootOf shared n.hs.transcript) (!n.hs.initiator), hj, hid hj, hrole,
      ht.trans hres.transcript.symm, ?_, ?_, ?_, ?_, ?_, ?_⟩
    · rw [(h.nodes j m hj).derived_eq hm, hrole, ht, hsh, hsh']
    · rw [hres.session]
      rfl
    · rw [hres.session]
      rfl
    · rw [hres.session, hrecv]
    · rw [hres.session, hsend]
    · intro res' hr'
      rw [hid hi]
      exact h.peer_of_opposite hi hj hres.authed hm ht hrole hr'

/-- The theorem at the undisturbed exchange of two identities. -/
theorem completed_agrees_exchange :
    ∃ (acts : List WorldAct) (w : World) (n : Node) (res : HandshakeResult),
      Run (World.Step fun _ => False) {} acts w ∧ w.nodes[0]? = some n ∧ n.result = some res ∧
      res.peerKey = ed25519PublicBytes (.honest 8) ∧
      ∃ (j : ℕ) (m : Node) (s : Session), w.nodes[j]? = some m ∧
        m.hs.id.pub = ed25519PublicBytes (.honest 8) ∧ m.hs.transcript = res.transcript ∧
        m.derived = some s ∧ s.root = res.session.root := by
  obtain ⟨acts, w, n, m, hrun, hnodes, ⟨hr, -⟩, -⟩ :=
    exchange_run (fun _ => False) .bare (show 8 ≠ 7 by decide)
      ⟨List.replicate 12 0, rfl⟩ rfl rfl rfl
  have hi : w.nodes[0]? = some n := by rw [hnodes]; rfl
  have hrun' : Run (World.Step fun _ => False) {} acts w := hrun.mono fun _ _ _ hs => hs.1
  obtain ⟨j, m', s, hj, hid, -, ht, hd, -, hroot, -⟩ := completed_agrees hrun' hi hr rfl
  exact ⟨acts, w, n, _, hrun', hi, hr, rfl, j, m', s, hj, hid, ht, hd, hroot⟩

end Heimdall.Proto
