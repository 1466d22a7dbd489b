/-
Honest nodes in a network that is the attacker.

A node is one handshake and what follows it: `internal/session/manager.go` runs the
handshaker, and when the connection came from an invite code it goes on to
`confirmPairing` (`internal/proto/pairing.go`). A node may also be a bare `Handshaker` whose
caller goes on feeding it after an error, which `runHandshake` never does. There are any
number of nodes, of any number of honest identities; node `i` has the ephemeral key
`Owner.honest i`. Every message goes to the attacker, and a node receives whatever the
attacker can compute (`Known`).
-/
import Heimdall.Knowledge
import Heimdall.Runs

set_option autoImplicit false

namespace Heimdall.Proto

open Heimdall.BigEndian Heimdall.Octets Heimdall.Crypto

/-! ## `internal/proto/pairing.go` -/

def pairConfirmSize : ℕ := 32

def pairConfirm (pairingKey transcript : Bytes) : Except ProtoErr Bytes :=
  if pairingKey.length = 0 then .error .emptyPairingKey
  else if transcript.length = 0 then .error .emptyTranscript
  else liftCrypto (deriveKey pairingKey transcript infoPairConfirm pairConfirmSize)

def verifyPairConfirm (pairingKey transcript got : Bytes) : Bool :=
  match pairConfirm pairingKey transcript with
  | .error _ => false
  | .ok want => want = got

def Session.sealPairConfirm (s : Session) (pairingKey transcript : Bytes) (rand : Option Nonce) :
    Session × Except ProtoErr Bytes :=
  match pairConfirm pairingKey transcript with
  | .error e => (s, .error e)
  | .ok confirm => s.sealFrame typePairConfirm confirm rand

def confirmOf (pairingKey transcript : Bytes) : Bytes :=
  block (.hkdf infoPairConfirm pairConfirmSize) [pairingKey, transcript] pairConfirmSize

theorem pairConfirm_eq {pairingKey transcript : Bytes} (hk : pairingKey ≠ [])
    (ht : transcript ≠ []) :
    pairConfirm pairingKey transcript = .ok (confirmOf pairingKey transcript) := by
  rw [pairConfirm, if_neg (by simpa using hk), if_neg (by simpa using ht), liftCrypto_deriveKey hk]
  rfl

theorem confirmOf_inj {k k' t t' : Bytes} (h : confirmOf k t = confirmOf k' t') :
    k = k' ∧ t = t' := by
  obtain ⟨-, hargs, -⟩ := block_inj (by norm_num [pairConfirmSize]) h
  simpa using hargs

/-! ## Nodes -/

/-- The pairing key of an invite code. -/
def codeKey (code : ℕ) : Bytes := block (.pairingKey code) [] 32

/-- Who calls `HandleMessage`: some caller that does as it likes, or `runHandshake`, with the
code whose key it was given, if any. -/
inductive Driver where
  | bare
  | runHandshake (code : Option ℕ)
  deriving DecidableEq

/-- Where a node is. `confirming` is the loop of `confirmPairing`, with the key and the
transcript it was called with; `established` is what comes after it returned nil, or after
the handshake when there is nothing to confirm. -/
inductive Phase where
  | handshaking
  | confirming (s : Session) (pairingKey transcript : Bytes)
  | established (s : Session)
  | failed

structure Node where
  owner : ℕ
  name : List UInt8
  driver : Driver
  hs : Handshaker
  phase : Phase := .handshaking
  result : Option HandshakeResult := none

/-- After an error `runHandshake` closes the connection; another caller may go on. -/
def Driver.afterError : Driver → Phase
  | .bare => .handshaking
  | .runHandshake _ => .failed

/-- `runHandshake` once the handshake has given a result: with a pairing key, `confirmPairing`
sends this side's confirmation and starts to wait. -/
def Driver.proceed (d : Driver) (res : HandshakeResult) (rand : Option Nonce) :
    Phase × List Bytes :=
  match d with
  | .runHandshake (some code) =>
    match res.session.sealPairConfirm (codeKey code) res.transcript rand with
    | (_, .error _) => (.failed, [])
    | (s, .ok out) => (.confirming s (codeKey code) res.transcript, [out])
  | _ => (.established res.session, [])

def confirmTurn (s : Session) (pairingKey transcript buf : Bytes) : Phase :=
  match s.openFrame buf with
  | (_, .error _) => .failed
  | (s', .ok (typ, pt)) =>
    if typ ≠ typePairConfirm then .confirming s' pairingKey transcript
    else if verifyPairConfirm pairingKey transcript pt then .established s'
    else .failed

def Node.deliver (n : Node) (msg : Bytes) (rand rand' : Option Nonce) :
    Node × List (Bool × Bytes) :=
  match n.phase with
  | .handshaking =>
    match n.hs.handleMessage msg rand with
    | (h, .error _) => ({ n with hs := h, phase := n.driver.afterError }, [])
    | (h, .ok (resp, none)) => ({ n with hs := h }, resp.toList.map fun b => (false, b))
    | (h, .ok (resp, some res)) =>
      ({ n with hs := h, result := some res, phase := (n.driver.proceed res rand').1 },
        (resp.toList.map fun b => (false, b)) ++ (n.driver.proceed res rand').2.map fun b =>
          (true, b))
  | .confirming s key transcript => ({ n with phase := confirmTurn s key transcript msg }, [])
  | .established s => ({ n with phase := .established (s.openFrame msg).1 }, [])
  | .failed => (n, [])

def Node.speak (n : Node) (typ : UInt8) (text : List UInt8) (rand : Option Nonce) :
    Node × List (Bool × Bytes) :=
  match n.phase with
  | .established s =>
    match s.sealFrame typ (lits text) rand with
    | (s', .ok wire) => ({ n with phase := .established s' }, [(true, wire)])
    | (s', .error _) => ({ n with phase := .established s' }, [])
  | _ => (n, [])

/-- A deadline of `runHandshake` or `confirmPairing` passes, or the connection breaks. -/
def Node.expire (n : Node) : Node :=
  match n.phase with
  | .handshaking => { n with phase := n.driver.afterError }
  | .confirming _ _ _ => { n with phase := .failed }
  | _ => n

/-! ## The world -/

/-- A message on the network. -/
structure Sent where
  node : ℕ
  frame : Bool
  bytes : Bytes

structure World where
  nodes : List Node := []
  sent : List Sent := []

inductive WorldAct where
  | spawn (owner : ℕ) (name : List UInt8) (initiator : Bool) (driver : Driver)
  | deliver (i : ℕ) (msg : Bytes) (rand rand' : Option Nonce)
  | speak (i : ℕ) (typ : UInt8) (text : List UInt8) (rand : Option Nonce)
  | expire (i : ℕ)

namespace World

def put (w : World) (i : ℕ) (n : Node) (out : List (Bool × Bytes)) : World :=
  { nodes := w.nodes.set i n, sent := w.sent ++ out.map fun m => ⟨i, m.1, m.2⟩ }

def next (w : World) : WorldAct → Option World
  | .spawn owner name initiator driver =>
    match newHandshaker (identityOf (.honest owner) (lits name)) initiator
        (some (.honest w.nodes.length)) with
    | .error _ => none
    | .ok h => some
        { nodes := w.nodes ++ [{ owner := owner, name := name, driver := driver, hs := h }]
          sent := w.sent ++ (h.initMessage.toOption.toList.map fun b => ⟨w.nodes.length, false, b⟩)
            }
  | .deliver i msg rand rand' =>
    (w.nodes[i]?).map fun n => w.put i (n.deliver msg rand rand').1 (n.deliver msg rand rand').2
  | .speak i typ text rand =>
    (w.nodes[i]?).map fun n => w.put i (n.speak typ text rand).1 (n.speak typ text rand).2
  | .expire i => (w.nodes[i]?).map fun n => w.put i n.expire []

/-- Everything on the network, except the session frames of node `X`. -/
def visible (X : Option ℕ) (s : Sent) : Prop := s.frame = true → some s.node ≠ X

def observed (w : World) (X : Option ℕ) (o : Octet Prim) : Prop :=
  ∃ s ∈ w.sent, visible X s ∧ o ∈ s.bytes

/-- One step: a message that is delivered is one the attacker can compute. -/
def Step (leaked : ℕ → Prop) (w : World) (a : WorldAct) (w' : World) : Prop :=
  w.next a = some w' ∧ ∀ i msg rand rand', a = .deliver i msg rand rand' →
    KnownAll (dolevYao leaked) (w.observed none) msg

/-- A step in which nothing is reflected: what is delivered to a node that waits in
`confirmPairing` can be computed without the frames of that node. -/
def StepApart (leaked : ℕ → Prop) (w : World) (a : WorldAct) (w' : World) : Prop :=
  w.Step leaked a w' ∧ ∀ i msg rand rand' n s key transcript, a = .deliver i msg rand rand' →
    w.nodes[i]? = some n → n.phase = .confirming s key transcript →
    KnownAll (dolevYao leaked) (w.observed (some i)) msg

/-- **What a step does to a node**: it is new, or as it was, or it was its turn. A node that is
new is still in its handshake. -/
theorem next_node {w w' : World} {a : WorldAct} (h : w.next a = some w') {i : ℕ} {n' : Node}
    (hi : w'.nodes[i]? = some n') :
    n'.phase = .handshaking ∨ ∃ n, w.nodes[i]? = some n ∧ (n' = n ∨
      (∃ msg rand rand', a = .deliver i msg rand rand' ∧ n' = (n.deliver msg rand rand').1) ∨
      (∃ typ text rand, n' = (n.speak typ text rand).1) ∨ n' = n.expire) := by
  -- a step of node `k` leaves the others as they are
  have hput : ∀ {k : ℕ} {f : Node → Node × List (Bool × Bytes)},
      (w.nodes[k]?).map (fun n => w.put k (f n).1 (f n).2) = some w' →
      ∃ n, w.nodes[i]? = some n ∧ (n' = n ∨ (k = i ∧ n' = (f n).1)) := by
    intro k f heq
    obtain ⟨m, hm, rfl⟩ := Option.map_eq_some_iff.mp heq
    by_cases hki : k = i
    · subst hki
      refine ⟨m, hm, .inr ⟨rfl, ?_⟩⟩
      rw [put, List.getElem?_set_self (List.getElem?_eq_some_iff.mp hm).1] at hi
      exact (Option.some.inj hi).symm
    · rw [put, List.getElem?_set_ne hki] at hi
      exact ⟨n', hi, .inl rfl⟩
  rcases a with ⟨owner, name, initiator, driver⟩ | ⟨k, msg, rand, rand'⟩ | ⟨k, typ, text, rand⟩ | k
  · rw [next] at h
    rcases hnew : newHandshaker (identityOf (.honest owner) (lits name)) initiator
        (some (.honest w.nodes.length)) with e | hs
    · rw [hnew] at h
      exact absurd h (by simp)
    · rw [hnew] at h
      obtain rfl := Option.some.inj h
      by_cases hlt : i < w.nodes.length
      · rw [List.getElem?_append_left hlt] at hi
        exact .inr ⟨n', hi, .inl rfl⟩
      · rw [List.getElem?_append_right (not_lt.mp hlt)] at hi
        rw [List.mem_singleton.mp (List.mem_of_getElem? hi)]
        exact .inl rfl
  · obtain ⟨n, hn, heq | ⟨rfl, heq⟩⟩ := hput h
    · exact .inr ⟨n, hn, .inl heq⟩
    · exact .inr ⟨n, hn, .inr (.inl ⟨msg, rand, rand', rfl, heq⟩)⟩
  · obtain ⟨n, hn, heq | ⟨rfl, heq⟩⟩ := hput h
    · exact .inr ⟨n, hn, .inl heq⟩
    · exact .inr ⟨n, hn, .inr (.inr (.inl ⟨typ, text, rand, heq⟩))⟩
  · obtain ⟨n, hn, heq | ⟨rfl, heq⟩⟩ := hput (f := fun n => (n.expire, [])) h
    · exact .inr ⟨n, hn, .inl heq⟩
    · exact .inr ⟨n, hn, .inr (.inr (.inr heq))⟩

/-! ## Steps in closed form -/

def startNode (j owner : ℕ) (name : List UInt8) (initiator : Bool) (driver : Driver) : Node :=
  { owner := owner
    name := name
    driver := driver
    hs := { id := identityOf (.honest owner) (lits name)
            initiator := initiator
            eph := some (.honest j)
            ephPub := x25519PublicBytes (.honest j) } }

def initOf (x : Owner) : Bytes := .lit hsTypeInit :: (putUint16 32 ++ x25519PublicBytes x)

theorem next_spawn (w : World) (owner : ℕ) (name : List UInt8) (initiator : Bool)
    (driver : Driver) :
    w.next (.spawn owner name initiator driver) = some
      { nodes := w.nodes ++ [startNode w.nodes.length owner name initiator driver]
        sent := w.sent ++
          if initiator then [⟨w.nodes.length, false, initOf (.honest w.nodes.length)⟩]
            else [] } := by
  rcases initiator <;> rfl

theorem next_deliver {w : World} {i : ℕ} {n n' : Node} {msg : Bytes} {rand rand' : Option Nonce}
    {out : List (Bool × Bytes)} (hn : w.nodes[i]? = some n)
    (hd : n.deliver msg rand rand' = (n', out)) :
    w.next (.deliver i msg rand rand') = some (w.put i n' out) := by
  rw [next, hn, Option.map_some, hd]

theorem step_deliver {leaked : ℕ → Prop} {w : World} {i : ℕ} {n n' : Node} {msg : Bytes}
    {rand rand' : Option Nonce} {out : List (Bool × Bytes)}
    (hknown : KnownAll (dolevYao leaked) (w.observed none) msg) (hn : w.nodes[i]? = some n)
    (hd : n.deliver msg rand rand' = (n', out)) :
    w.Step leaked (.deliver i msg rand rand') (w.put i n' out) := by
  refine ⟨next_deliver hn hd, fun j msg' r r' heq => ?_⟩
  obtain ⟨-, rfl, -, -⟩ := WorldAct.deliver.inj heq
  exact hknown

theorem knownAll_sent {leaked : ℕ → Prop} {w : World} {X : Option ℕ} {s : Sent} (hs : s ∈ w.sent)
    (hX : visible X s) : KnownAll (dolevYao leaked) (w.observed X) s.bytes :=
  KnownAll.seen fun _ ho => ⟨s, hs, hX, ho⟩

theorem stepApart_deliver {leaked : ℕ → Prop} {w : World} {i : ℕ} {n n' : Node} {msg : Bytes}
    {rand rand' : Option Nonce} {out : List (Bool × Bytes)}
    (hknown : KnownAll (dolevYao leaked) (w.observed none) msg) (hn : w.nodes[i]? = some n)
    (hapart : n.phase = .handshaking ∨ KnownAll (dolevYao leaked) (w.observed (some i)) msg)
    (hd : n.deliver msg rand rand' = (n', out)) :
    w.StepApart leaked (.deliver i msg rand rand') (w.put i n' out) := by
  refine ⟨step_deliver hknown hn hd, fun j msg' r r' m s key transcript heq hj hp => ?_⟩
  obtain ⟨rfl, rfl, -, -⟩ := WorldAct.deliver.inj heq
  obtain rfl : m = n := Option.some.inj (hj.symm.trans hn)
  exact hapart.resolve_left fun hc => by rw [hc] at hp; cases hp

theorem stepApart_spawn {leaked : ℕ → Prop} {w w' : World} {owner : ℕ} {name : List UInt8}
    {initiator : Bool} {driver : Driver}
    (h : w.next (.spawn owner name initiator driver) = some w') :
    w.StepApart leaked (.spawn owner name initiator driver) w' :=
  ⟨⟨h, fun _ _ _ _ heq => by cases heq⟩, fun _ _ _ _ _ _ _ _ heq => by cases heq⟩

theorem startNode_sound (j owner : ℕ) (name : List UInt8) (initiator : Bool) (driver : Driver) :
    (startNode j owner name initiator driver).hs.Sound (.honest j) (.honest owner) (lits name) :=
  (Handshaker.newHandshaker_sound (show newHandshaker (identityOf (.honest owner) (lits name))
    initiator (some (.honest j)) = .ok (startNode j owner name initiator driver).hs from rfl)).1

end World

/-! ## The undisturbed exchange, node by node -/

section Exchange

variable {n : Node} {x a : Owner} {name : Bytes} {tr : Bytes}

/-- The responder answers msg1 and keeps the transcript. This and the next two are the turns of
two nodes whose messages are passed on as they are. -/
theorem Node.deliver_msg1 (hs : n.hs.Sound x a name) (hphase : n.phase = .handshaking)
    (hrole : n.hs.initiator = false) (hdone : n.hs.done = false) (hfirst : n.hs.transcript = [])
    (y : Owner) (rand : Nonce) (rand' : Option Nonce)
    (htr : tr = transcriptOf false (x25519PublicBytes x) (x25519PublicBytes y)) :
    ∃ m : Node, n.deliver (World.initOf y) (some rand) rand' = (m,
        [(false, marshalAuth (x25519PublicBytes x) (authBlobOf a name infoHS2 (dhOf x y) tr rand))])
          ∧
      m.hs.Sound x a name ∧ m.phase = .handshaking ∧ m.hs.initiator = false ∧ m.hs.done = false ∧
      m.hs.transcript = tr ∧ m.hs.shared = dhOf x y ∧ m.driver = n.driver := by
  have hmsg := Handshaker.handleMessage_init hs hrole hdone hfirst y rand
  have hsound := (Handshaker.handleMessage_spec hs (World.initOf y) (some rand)).1
  rw [← htr] at hmsg
  rw [World.initOf] at hsound ⊢
  rw [hmsg] at hsound
  simp only [Node.deliver, hphase, hmsg]
  exact ⟨_, rfl, hsound, rfl, hrole, hdone, rfl, rfl, rfl⟩

/-- The initiator checks the answer, sends msg3 and has its result. -/
theorem Node.deliver_msg2 (hs : n.hs.Sound x a name) (hphase : n.phase = .handshaking)
    (hrole : n.hs.initiator = true) (hdone : n.hs.done = false) (y : Owner) {b : Owner}
    {bname : Bytes} (hpos : 0 < bname.length) (hmax : bname.length ≤ maxPeerName) (hab : b ≠ a)
    (rand rand₃ : Nonce) (rand' : Option Nonce)
    (htr : tr = transcriptOf true (x25519PublicBytes x) (x25519PublicBytes y))
    {res : HandshakeResult} (hres : res = Handshaker.resultOf b bname (dhOf x y) tr true) :
    ∃ n' : Node, n.deliver (marshalAuth (x25519PublicBytes y)
        (authBlobOf b bname infoHS2 (dhOf x y) tr rand)) (some rand₃) rand' = (n',
          (false, marshalAuth (x25519PublicBytes x) (authBlobOf a name infoHS3 (dhOf x y) tr rand₃))
            :: (n.driver.proceed res rand').2.map fun b => (true, b)) ∧
      n'.result = some res ∧ n'.phase = (n.driver.proceed res rand').1 ∧ n'.driver = n.driver := by
  have hmsg := Handshaker.handleMessage_auth_initiator hs hrole hdone hpos hmax hab rand rand₃ htr
  rw [← hres] at hmsg
  simp only [Node.deliver, hphase, hmsg]
  exact ⟨_, rfl, rfl, rfl, rfl⟩

/-- The responder checks msg3 and has its result. -/
theorem Node.deliver_msg3 (hs : n.hs.Sound x a name) (hphase : n.phase = .handshaking)
    (hrole : n.hs.initiator = false) (hdone : n.hs.done = false) (y : Owner)
    (htr : n.hs.transcript = tr) (hne : tr ≠ []) (hsh : n.hs.shared = dhOf x y) {b : Owner}
    {bname : Bytes} (hpos : 0 < bname.length) (hmax : bname.length ≤ maxPeerName) (hab : b ≠ a)
    (rand : Nonce) (rand₃ rand' : Option Nonce) {res : HandshakeResult}
    (hres : res = Handshaker.resultOf b bname (dhOf x y) tr false) :
    ∃ n' : Node, n.deliver (marshalAuth (x25519PublicBytes y)
        (authBlobOf b bname infoHS3 (dhOf x y) tr rand)) rand₃ rand' = (n',
          (n.driver.proceed res rand').2.map fun b => (true, b)) ∧
      n'.result = some res ∧ n'.phase = (n.driver.proceed res rand').1 ∧ n'.driver = n.driver := by
  have hshne : n.hs.shared ≠ [] := by
    rw [hsh]
    exact dhOf_ne_nil x y
  have hmsg := Handshaker.handleMessage_auth_responder hs hrole hdone (by rw [htr]; exact hne) hshne
    (length_x25519PublicBytes y) hpos hmax hab rand rand₃
  rw [htr, hsh, ← hres] at hmsg
  simp only [Node.deliver, hphase, hmsg]
  exact ⟨_, rfl, rfl, rfl, rfl⟩

end Exchange

end Heimdall.Proto
