/-
What the key material an open session keeps still gives away.

`internal/proto/session.go` derives every message key from `root`, and keeps `root` until
`Close`: `installEpochLocked` wipes the chain it displaces, but the next `epochSeed` could
derive that chain again. The ratchet of `docs/protocol.md` §8, in which each message
replaces the chain key by its image and discards it, is not in the code (its label is never
used). So the message key of a past frame can be recomputed from the state, and
`past_keys_hidden_iff` says that this happens as soon as there is a past frame.

`DeriveKey` is one-way here by construction: `Computable` only ever goes from a secret to
what is derived from it.
-/
import Heimdall.Runs
import Heimdall.SessionSpec

set_option autoImplicit false

namespace Heimdall.Proto

open Heimdall.BigEndian Heimdall.Octets Heimdall.Crypto Heimdall.Runs

/-! ## Computability from held material -/

/-- What `DeriveKey` yields from the material `held`, with literal salts and any label. -/
inductive Computable (held : List Bytes) : Bytes → Prop
  | held {k : Bytes} : k ∈ held → Computable held k
  | derive {k k' : Bytes} (salt : List UInt8) (info : String) (length : ℕ) :
      Computable held k → deriveKey k (lits salt) info length = .ok k' → Computable held k'

/-- The key material of a session: the root and the chain keys it points to. -/
def Session.held (s : Session) : List Bytes :=
  s.root :: ([s.send, s.recv, s.recvOld].filterMap id).map Chain.key

/-- Whoever holds a key can derive others with the labels, which are constants, and with salts of
their own choice. -/
theorem Computable.block {held : List Bytes} {k : Bytes} (h : Computable held k) (hk : k ≠ [])
    (salt : List UInt8) (info : String) (n : ℕ) :
    Computable held (Octets.block (.hkdf info n) [k, lits salt] n) :=
  h.derive salt info n (deriveKey_ok hk _ _ _)

/-- **The root gives every message key**, of either direction, any epoch and any number: three
derivations, with a salt in the last one only. -/
theorem computable_messageKeyOf {held : List Bytes} {root : Bytes} (hroot : Computable held root)
    (hlen : root.length = keySize) (d : Dir) (e : UInt32) (q : UInt64) :
    Computable held (messageKeyOf root d e q) := by
  -- epoch seed, then the direction's chain, then the message key: three derivations
  have hseed : Computable held (seedOf root e) :=
    hroot.block (ne_nil_of_length hlen) [] _ keySize
  have hchain : Computable held (chainKey root d e) :=
    hseed.block (ne_nil_of_length (length_seedOf _ _)) [] d.info keySize
  exact hchain.block (ne_nil_of_length (length_chainKey _ _ _)) (beBytes 8 q.toNat) infoMsg keySize

/-! ## A session with the keys it has used -/

def Session.sealKey (s : Session) : Except ProtoErr Bytes := do
  let s' ← s.rotateIfDue
  match s'.send with
  | none => .error .nilChain
  | some c => c.messageKey s'.sendSeq

def Session.openKey (s : Session) (buf : Bytes) : Except ProtoErr Bytes := do
  let f ← parseFrame buf
  match s.chainForEpochLocked f.rotation with
  | (_, .error e) => .error e
  | (_, .ok none) => .error .nilChain
  | (_, .ok (some c)) => c.messageKey f.sequence

/-- A session beside the message keys of the frames it has sealed or successfully opened. -/
structure Logged where
  session : Session
  past : List Bytes := []

inductive SessionAct where
  | sealing (typ : UInt8) (plaintext : Bytes) (rand : Option Nonce)
  | opening (buf : Bytes)
  | closing

namespace Logged

/-- Go on with `s`, noting the key if the call succeeded. -/
def note {α : Type} (l : Logged) (s : Session) (result : Except ProtoErr α)
    (key : Except ProtoErr Bytes) : Logged :=
  match result, key with
  | .ok _, .ok k => ⟨s, l.past ++ [k]⟩
  | _, _ => ⟨s, l.past⟩

def next (l : Logged) : SessionAct → Logged
  | .sealing typ pt rand =>
    l.note (l.session.sealFrame typ pt rand).1 (l.session.sealFrame typ pt rand).2 l.session.sealKey
  | .opening buf =>
    l.note (l.session.openFrame buf).1 (l.session.openFrame buf).2 (l.session.openKey buf)
  | .closing => ⟨l.session.close, l.past⟩

def Step (l : Logged) (a : SessionAct) (l' : Logged) : Prop := l.next a = l'

/-- The property that is at stake: no key of a past frame can be computed any more. -/
def PastHidden (l : Logged) : Prop := ∀ k ∈ l.past, ¬ Computable l.session.held k

/-! ## The keys are those of the closed form -/

/-- The session is closed or live over `root`, and the past keys are message keys of it. -/
structure Inv (root : Bytes) (i : Bool) (l : Logged) : Prop where
  session : l.session.closed = true ∨ Live root i l.session
  past : ∀ k ∈ l.past, ∃ d e q, k = messageKeyOf root d e q

variable {root : Bytes} {i : Bool} {l : Logged}

/-- By `Live` the key is a `messageKeyOf` of the root, whatever was stored when it was used. So it
can be derived from the root alone. -/
theorem sealKey_eq {s : Session} (h : Live root i s) :
    s.sealKey = .ok (messageKeyOf root (sendDir i) s.sealEpoch s.sendSeq) := by
  have hkey : chainKey root (sendDir i) s.rotated.epoch ≠ [] :=
    ne_nil_of_length (length_chainKey _ _ _)
  rw [Session.sealKey, rotateIfDue_eq h]
  show (match s.rotated.send with
    | none => _
    | some c => c.messageKey s.rotated.sendSeq) = _
  rw [h.rotated.send]
  show liftCrypto (deriveKey _ _ _ _) = _
  rw [liftCrypto_deriveKey hkey, Session.rotated_sendSeq, Session.rotated_epoch]
  rfl

theorem openKey_eq {s : Session} (h : Live root i s) {buf k : Bytes} (hk : s.openKey buf = .ok k) :
    ∃ e q, k = messageKeyOf root (recvDir i) e q := by
  unfold Session.openKey at hk
  rcases hp : parseFrame buf with e | f
  · rw [hp] at hk
    exact absurd hk (by simp [bind, Except.bind])
  · have hkey : chainKey root (recvDir i) f.rotation ≠ [] :=
      ne_nil_of_length (length_chainKey _ _ _)
    rw [hp] at hk
    simp only [bind, Except.bind, chainForEpochLocked_spec h] at hk
    by_cases hr : s.inRange f.rotation
    · simp only [if_pos hr, Chain.messageKey, liftCrypto_deriveKey hkey] at hk
      exact ⟨_, _, (Except.ok.inj hk).symm⟩
    · simp only [if_neg hr] at hk
      exact absurd hk (by simp)

theorem Inv.note {α : Type} {s : Session} {result : Except ProtoErr α}
    {key : Except ProtoErr Bytes} (h : l.Inv root i) (hs : s.closed = true ∨ Live root i s)
    (hkey : ∀ r k, result = .ok r → key = .ok k → ∃ d e q, k = messageKeyOf root d e q) :
    (l.note s result key).Inv root i := by
  rcases result with e | r
  · exact ⟨hs, h.past⟩
  · rcases key with e | k
    · exact ⟨hs, h.past⟩
    · refine ⟨hs, fun k' hk' => ?_⟩
      rcases List.mem_append.mp hk' with hk' | hk'
      · exact h.past k' hk'
      · rw [List.mem_singleton.mp hk']
        exact hkey r k rfl rfl

/-- Step lemma: a call on a closed session fails and notes nothing, and a call on a live one notes
a message key. -/
theorem Inv.step (h : l.Inv root i) {a : SessionAct} {l' : Logged} (hs : l.Step a l') :
    l'.Inv root i := by
  obtain rfl := hs
  rcases a with ⟨typ, pt, rand⟩ | buf | _
  · rcases h.session with hclosed | hlive
    · refine h.note ?_ fun r k hr => ?_
      · exact .inl (by rw [sealFrame_closed hclosed]; exact hclosed)
      · rw [sealFrame_closed hclosed] at hr
        exact absurd hr (by simp)
    · refine h.note (.inr (sealFrame_spec hlive typ pt rand).1) fun r k _ hk => ?_
      rw [sealKey_eq hlive] at hk
      exact ⟨_, _, _, (Except.ok.inj hk).symm⟩
  · rcases h.session with hclosed | hlive
    · refine h.note ?_ fun r k hr => ?_
      · exact .inl (by rw [openFrame_closed hclosed]; exact hclosed)
      · rw [openFrame_closed hclosed] at hr
        exact absurd hr (by simp)
    · refine h.note (.inr (openFrame_spec hlive buf).1) fun r k _ hk => ?_
      obtain ⟨e, q, rfl⟩ := openKey_eq hlive hk
      exact ⟨_, _, _, rfl⟩
  · exact ⟨.inl rfl, h.past⟩

theorem Inv.start {s : Session} (hs : Live root i s) : Inv root i { session := s } :=
  ⟨.inr hs, fun _ hk => absurd hk List.not_mem_nil⟩

/-- An open session can recompute every key it has used: it still has the root. -/
theorem Inv.computable (h : l.Inv root i) (hopen : l.session.closed = false) {k : Bytes}
    (hk : k ∈ l.past) : Computable l.session.held k := by
  obtain ⟨d, e, q, rfl⟩ := h.past k hk
  have hlive : Live root i l.session := by
    rcases h.session with hclosed | hlive
    · exact absurd hclosed (by simp [hopen])
    · exact hlive
  refine computable_messageKeyOf (.held ?_) hlive.root_length d e q
  rw [← hlive.root_eq]
  exact List.mem_cons_self

theorem past_sealing (h : Live root i l.session) (typ : UInt8) {pt : Bytes}
    (hpt : pt.length ≤ maxPlaintext) (n : Nonce) :
    (l.next (.sealing typ pt (some n))).past
      = l.past ++ [messageKeyOf root (sendDir i) l.session.sealEpoch l.session.sendSeq] := by
  rw [next, sealFrame_eq h typ hpt n, sealKey_eq h]
  rfl

end Logged

/-! ## The result -/

/-- **Past keys are hidden exactly while there are none.** In every run of a session, at
every state that is not closed, the keys of the frames sealed or opened so far are out of
reach of the material the session holds iff no frame has been sealed or opened yet. -/
theorem past_keys_hidden_iff {shared transcript : Bytes} {i : Bool} {s : Session}
    (hs : newSession shared transcript i = .ok s) {acts : List SessionAct} {l : Logged}
    (hrun : Run Logged.Step { session := s } acts l) (hopen : l.session.closed = false) :
    l.PastHidden ↔ l.past = [] := by
  obtain ⟨-, rfl⟩ := newSession_eq_ok hs
  have hinv : l.Inv (rootOf shared transcript) i :=
    hrun.invariant _ (.start (freshSession_live (length_rootOf _ _) i)) fun _ _ _ h hs => h.step hs
  refine ⟨fun hhidden => ?_, fun hnil k hk => ?_⟩
  · by_contra hne
    obtain ⟨k, hk⟩ := List.exists_mem_of_ne_nil _ hne
    exact hhidden k hk (hinv.computable hopen hk)
  · rw [hnil] at hk
    exact absurd hk List.not_mem_nil

def demoSession : Session := freshSession (rootOf (lits [7]) []) true

theorem newSession_demo : newSession (lits [7]) [] true = .ok demoSession :=
  newSession_eq (by simp) _ _

/-- One chat message is enough: its key can be computed from what the session keeps. -/
theorem past_key_computable_after_one_seal :
    ∃ l, Run Logged.Step { session := demoSession }
        [.sealing typeChat (lits [104, 105]) (some ⟨List.replicate 12 0, rfl⟩)] l ∧
      l.session.closed = false ∧ ¬ l.PastHidden := by
  have hlive : Live (rootOf (lits [7]) []) true demoSession :=
    freshSession_live (length_rootOf _ _) true
  have hpt : (lits [104, 105] : Bytes).length ≤ maxPlaintext := by simp [maxPlaintext]
  set l := Logged.next { session := demoSession }
    (.sealing typeChat (lits [104, 105]) (some ⟨List.replicate 12 0, rfl⟩)) with hl
  have hinv : l.Inv (rootOf (lits [7]) []) true := (Logged.Inv.start hlive).step hl.symm
  have hopen : l.session.closed = false := by
    rw [hl, Logged.next, sealFrame_eq hlive typeChat hpt, Logged.sealKey_eq hlive]
    rfl
  have hpast := Logged.past_sealing (l := { session := demoSession }) hlive typeChat hpt
    ⟨List.replicate 12 0, rfl⟩
  -- the key of the first frame is among the past ones
  have hmem : messageKeyOf (rootOf (lits [7]) []) (sendDir true) 0 0 ∈ l.past := by
    rw [hl, hpast]
    exact List.mem_append_right _ (List.mem_singleton_self _)
  exact ⟨l, .single rfl, hopen, fun hhidden => hhidden _ hmem (hinv.computable hopen hmem)⟩

/-- A buffer with the header of a chat frame of the session, and nothing sealed in it. -/
def emptyFrame : Bytes :=
  lits [protocolVersion, typeChat] ++ demoSession.sessionID ++ lits (List.replicate 12 0)

/-- Before the first frame there is nothing to hide, whatever was refused. -/
theorem past_keys_hidden_at_start :
    newSession (lits [7]) [] true = .ok demoSession ∧
      ∃ l, Run Logged.Step { session := demoSession } [.opening [], .opening emptyFrame] l ∧
        l.session.closed = false ∧ l.past = [] ∧ l.PastHidden := by
  have hshort : Logged.Step { session := demoSession } (.opening []) { session := demoSession } :=
    rfl
  have hforged : Logged.Step { session := demoSession } (.opening emptyFrame)
      { session := demoSession } := rfl
  have hrun := (Run.single hshort).snoc hforged
  exact ⟨newSession_demo, _, hrun, rfl, rfl,
    (past_keys_hidden_iff newSession_demo hrun rfl).mpr rfl⟩

end Heimdall.Proto
