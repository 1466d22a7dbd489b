/-
`runHandshake` and `confirmPairing`, `internal/session/manager.go`: from a connected transport to
a registered peer.

The modules on the handshake follow its messages. This one follows the driver: which of its exits
a call takes, and what it has done to the trust store, the manager, the transport and the session
by then. Everything the call depends on from outside (the CSPRNG, the transport, the clock and the
disk) is an `Encounter`.

The driver returns at the first error, so the model is a chain of early returns, and
`runHandshake_cases` lists its ends: a failure that leaves nothing behind, a failed `Send` of msg3,
after which nobody closes the session, a failed confirmation, or `enlist`.
-/
import Heimdall.Exchange
import Heimdall.Names

set_option autoImplicit false

namespace Heimdall.Sessions

open Heimdall.Peers Heimdall.Octets
open Heimdall.Crypto (Bytes Identity Nonce Owner identityOf)
open Heimdall.Proto (HandshakeResult Handshaker HsErr ProtoErr Session newHandshaker pairConfirm
  typePairConfirm verifyPairConfirm)

/-! ## Events -/

inductive EventType where
  | peerConnected
  | peerDisconnected
  | message
  | securityWarning
  | error
  deriving DecidableEq

/-- `session.Event`, as `runHandshake` fills it. -/
structure Notice where
  type : EventType
  peer : GoString := []
  fingerprint : GoString := []
  text : GoString := []
  trust : TrustLevel := .unknown

def goText (s : String) : GoString := s.toList.map fun c => UInt8.ofNat c.toNat

/-- The node a connection is adopted by: its manager, its trust store and what it has handed to
`emit`. The events of `announce` and `dropConn` are with the manager. -/
structure Host where
  mgr : Manager
  store : Store
  emitted : List Notice := []

def Host.emit (h : Host) (n : Notice) : Host := { h with emitted := h.emitted ++ [n] }

/-! ## What a call depends on -/

/-- `AdoptOptions`, with the bytes of the key; no path is `""`. -/
structure Adoption where
  initiator : Bool
  pairingKey : Bytes
  path : Option Path := none

/-- What a call meets: the ephemeral key and the nonces of the CSPRNG, which of its `Send`s
succeed, what its `Recv`s return, the frames of the confirmation loop and whether the loop ends
because the deadline has passed or because `RecvBefore` fails; then the order of `Observe`'s
scan, the clock, the remote address and whether the store could be saved. -/
structure Encounter where
  eph : Option Owner
  sent : ℕ → Bool
  received : ℕ → Option Bytes
  nonce : ℕ → Option Nonce
  confirmNonce : Option Nonce
  confirmSent : Bool
  frames : List Bytes
  expired : Bool
  order : List GoString
  now : ℕ
  addr : GoString
  saved : Bool

/-- How the concrete values of the store and the manager are read off the octets of the
handshake, and the digest of `FingerprintOf`. -/
structure Reading where
  bytes : Bytes → List UInt8
  uint64 : Bytes → UInt64
  sha256 : List UInt8 → List UInt8

/-- What `runHandshake` returns when it fails. -/
inductive RunErr where
  | handshake (e : HsErr)
  | proto (e : ProtoErr)
  | transport
  | noSession
  | pairConfirm
  | store (e : StoreErr)
  deriving DecidableEq

/-- What is left when `runHandshake` returns. `result` is its variable `res`, `created` the
sessions that `HandleMessage` made, as they are now, and `opened` what `Session.Open` returned;
`closed` says whether the transport is. -/
structure Outcome where
  host : Host
  err : Option RunErr
  closed : Bool
  result : Option HandshakeResult := none
  created : List Session := []
  opened : List (UInt8 × Bytes) := []
  observed : Bool := false
  registered : Bool := false

/-! ## The handshake -/

/-- How the messages end: an error, with what is emitted and the sessions there are, or what `res`
is, beside the sessions of results nobody looked at. -/
inductive Ending where
  | failed (err : RunErr) (notices : List Notice) (created : List Session)
  | done (res : Option HandshakeResult) (dropped : List Session)

def handshakeFailed (err : HsErr) : Notice :=
  { type := .error, text := goText ("handshake failed (possible MITM): " ++ err.message) }

def sessionsOf (res : Option HandshakeResult) : List Session :=
  (res.map HandshakeResult.session).toList

def runInitiator (h : Handshaker) (e : Encounter) : Ending :=
  match h.initMessage with
  | .error err => .failed (.handshake err) [] []
  | .ok _ =>
    if e.sent 0 = false then .failed .transport [] []
    else
      match e.received 0 with
      | none => .failed .transport [] []
      | some msg2 =>
        match h.handleMessage msg2 (e.nonce 0) with
        | (_, .error err) => .failed (.handshake err) [handshakeFailed err] []
        | (_, .ok (_, res)) =>
          if e.sent 1 = false then .failed .transport [] (sessionsOf res) else .done res []

/-- The branch of the responder. It ignores the result of the first call. -/
def runResponder (h : Handshaker) (e : Encounter) : Ending :=
  match e.received 0 with
  | none => .failed .transport [] []
  | some msg1 =>
    match h.handleMessage msg1 (e.nonce 0) with
    | (_, .error err) => .failed (.handshake err) [] []
    | (h', .ok (_, ignored)) =>
      if e.sent 0 = false then .failed .transport [] (sessionsOf ignored)
      else
        match e.received 1 with
        | none => .failed .transport [] (sessionsOf ignored)
        | some msg3 =>
          match h'.handleMessage msg3 (e.nonce 1) with
          | (_, .error err) => .failed (.handshake err) [handshakeFailed err] (sessionsOf ignored)
          | (_, .ok (_, res)) => .done res (sessionsOf ignored)

/-! ## `confirmPairing` -/

/-- The loop, with what `Open` has returned. -/
def confirmLoop (pairingKey transcript : Bytes) (expired : Bool) :
    Session → List Bytes → Session × Option RunErr × List (UInt8 × Bytes)
  | s, [] => (s, some (if expired then .pairConfirm else .transport), [])
  | s, buf :: bufs =>
    match s.openFrame buf with
    | (s', .error _) => (s', some .pairConfirm, [])
    | (s', .ok (typ, pt)) =>
      if typ ≠ typePairConfirm then
        let rest := confirmLoop pairingKey transcript expired s' bufs
        (rest.1, rest.2.1, (typ, pt) :: rest.2.2)
      else if verifyPairConfirm pairingKey transcript pt = false then
        (s', some .pairConfirm, [(typ, pt)])
      else (s', none, [(typ, pt)])

def confirmPairing (res : HandshakeResult) (pairingKey : Bytes) (e : Encounter) :
    Session × Option RunErr × List (UInt8 × Bytes) :=
  match res.session.sealPairConfirm pairingKey res.transcript e.confirmNonce with
  | (s, .error err) => (s, some (.proto err), [])
  | (s, .ok _) =>
    if e.confirmSent = false then (s, some .transport, [])
    else confirmLoop pairingKey res.transcript e.expired s e.frames

/-! ## `runHandshake` -/

section Run

variable (R : Reading)

def pendingFingerprint (p : Peer) : GoString :=
  if p.pendingKey = [] then [] else fingerprintOf R.sha256 p.pendingKey

/-- The warning about a peer that could not confirm the pairing. -/
def unconfirmed (res : HandshakeResult) : Notice :=
  { type := .securityWarning
    peer := R.bytes res.peerName
    text := goText
      ("The peer that answered this invite code could not prove it holds the code.\n\n" ++
      "This is what a relay attempting a man-in-the-middle attack looks like.\n" ++
      "The connection was dropped and the peer was NOT recorded as known.")
    fingerprint := fingerprintOf R.sha256 (R.bytes res.peerKey) }

def keyChanged (res : HandshakeResult) (p : Peer) : Notice :=
  { type := .securityWarning
    peer := R.bytes res.peerName
    text := goText "The identity key for '" ++ R.bytes res.peerName ++
      goText "' has changed.\n\nPrevious fingerprint:\n" ++ p.fingerprint ++
      goText "\n\nNew fingerprint:\n" ++ pendingFingerprint R p ++
      goText ("\n\nPossible MITM attack or legitimate key replacement.\n" ++
        "Connection marked UNTRUSTED.")
    fingerprint := pendingFingerprint R p
    trust := .changed }

def connOf (res : HandshakeResult) (opts : Adoption) (trust : TrustLevel) : Conn :=
  newConn (fingerprintOf R.sha256 (R.bytes res.peerKey)) (R.bytes res.peerName)
    (R.uint64 res.session.sessionID) trust (opts.path.getD .direct)

/-- `runHandshake` from the trust decision on. The store has been called by then, whatever it
answers; a connection that is not kept is closed without an error. -/
def enlist (host : Host) (opts : Adoption) (e : Encounter) (res : HandshakeResult)
    (dropped : List Session) (opened : List (UInt8 × Bytes)) : Outcome :=
  match host.store.observe R.sha256 e.order e.now (R.bytes res.peerName) e.addr
    (R.bytes res.peerKey)
      e.saved with
  | (store, _, _, some err) =>
    { host := { host with store := store }, err := some (.store err), closed := true
      result := some { res with session := res.session.close }
      created := dropped ++ [res.session.close], opened := opened, observed := true }
  | (store, a, trust, none) =>
    let host' := { host with store := store }
    let warned := if trust = .changed then host'.emit (keyChanged R res (store.heap.get a))
      else host'
    let x := connOf R res opts trust
    let kept := ({ host.mgr with heap := host.mgr.heap.alloc x }.register host.mgr.heap.next).2
    let session := if kept then res.session else res.session.close
    { host := { warned with mgr := host.mgr.welcome x }, err := none, closed := !kept
      result := some { res with session := session }, created := dropped ++ [session]
      opened := opened, observed := true, registered := true }

/-- A return with an error before the trust decision. -/
def abort (host : Host) (err : RunErr) (notices : List Notice) (res : Option HandshakeResult)
    (created : List Session) (opened : List (UInt8 × Bytes)) : Outcome :=
  { host := { host with emitted := host.emitted ++ notices }, err := some err, closed := true
    result := res, created := created, opened := opened }

/-- `runHandshake` once the messages have been exchanged. -/
def afterMessages (host : Host) (opts : Adoption) (e : Encounter) : Ending → Outcome
  | .failed err notices created => abort host err notices none created []
  | .done none dropped => abort host .noSession [] none dropped []
  | .done (some res) dropped =>
    if opts.pairingKey = [] then enlist R host opts e res dropped []
    else
      match confirmPairing res opts.pairingKey e with
      | (s, some err, opened) =>
        abort host err [unconfirmed R res] (some { res with session := s.close })
          (dropped ++ [s.close]) opened
      | (s, none, opened) => enlist R host opts e { res with session := s } dropped opened

def runHandshake (id : Identity) (host : Host) (opts : Adoption) (e : Encounter) : Outcome :=
  match newHandshaker id opts.initiator e.eph with
  | .error err => abort host (.handshake err) [] none [] []
  | .ok h =>
    afterMessages R host opts e (if opts.initiator then runInitiator h e else runResponder h e)

end Run

/-! ## The confirmation loop -/

theorem verifyPairConfirm_eq_true {pairingKey transcript got : Bytes}
    (h : verifyPairConfirm pairingKey transcript got = true) :
    pairConfirm pairingKey transcript = .ok got := by
  unfold verifyPairConfirm at h
  rcases hconfirm : pairConfirm pairingKey transcript with err | want
  · rw [hconfirm] at h
    exact absurd h (by simp)
  · rw [hconfirm] at h
    rw [of_decide_eq_true h]

/-- A session frame that proves the peer has the pairing key. -/
def Confirmed (pairingKey transcript : Bytes) (opened : List (UInt8 × Bytes)) : Prop :=
  ∃ pt, (typePairConfirm, pt) ∈ opened ∧ pairConfirm pairingKey transcript = .ok pt

theorem refused_ne_accepted {s s' : Session} {err : RunErr} {l l' : List (UInt8 × Bytes)}
    (h : (s, some err, l) = (s', (none : Option RunErr), l')) : False := by
  have herr := congrArg (fun r => r.2.1) h
  simp at herr

/-- **The loop returns nil** only on a confirmation, however many other frames it has skipped. By
induction on the frames: a frame of another type is opened and passed over, anything else ends the
loop. -/
theorem confirmLoop_accepted {pairingKey transcript : Bytes} {expired : Bool} {frames : List Bytes}
    {s s' : Session} {opened : List (UInt8 × Bytes)}
    (h : confirmLoop pairingKey transcript expired s frames = (s', none, opened)) :
    Confirmed pairingKey transcript opened := by
  induction frames generalizing s opened with
  | nil => exact (refused_ne_accepted h).elim
  | cons buf bufs ih =>
    unfold confirmLoop at h
    rcases hopen : s.openFrame buf with ⟨s₁, err | ⟨typ, pt⟩⟩
    · rw [hopen] at h
      exact (refused_ne_accepted h).elim
    rw [hopen] at h
    dsimp only at h
    by_cases htyp : typ ≠ typePairConfirm
    · -- skipped: the confirmation is among the later frames
      rw [if_pos htyp] at h
      obtain ⟨hs, hrest⟩ := Prod.mk.inj h
      obtain ⟨hnone, hopened⟩ := Prod.mk.inj hrest
      obtain ⟨pt', hmem, hconfirm⟩ := ih (Prod.ext hs (Prod.ext hnone rfl))
      exact ⟨pt', hopened ▸ List.mem_cons_of_mem _ hmem, hconfirm⟩
    rw [if_neg htyp] at h
    by_cases hver : verifyPairConfirm pairingKey transcript pt = false
    · rw [if_pos hver] at h
      exact (refused_ne_accepted h).elim
    rw [if_neg hver] at h
    have hopened : [(typ, pt)] = opened := congrArg (fun r => r.2.2) h
    refine ⟨pt, ?_, verifyPairConfirm_eq_true (by simpa using hver)⟩
    rw [← hopened, not_not.mp htyp]
    exact List.mem_singleton_self _

/-- `confirmPairing` sends the confirmation of its own before it waits for the other one. When it
ends without an error, the wait has found a confirmation of this transcript. -/
theorem confirmPairing_accepted {res : HandshakeResult} {pairingKey : Bytes} {e : Encounter}
    {s : Session} {opened : List (UInt8 × Bytes)}
    (h : confirmPairing res pairingKey e = (s, none, opened)) :
    Confirmed pairingKey res.transcript opened := by
  unfold confirmPairing at h
  rcases hseal : res.session.sealPairConfirm pairingKey res.transcript e.confirmNonce
    with ⟨s₁, err | out⟩
  · rw [hseal] at h
    exact (refused_ne_accepted h).elim
  rw [hseal] at h
  dsimp only at h
  by_cases hsent : e.confirmSent = false
  · rw [if_pos hsent] at h
    exact (refused_ne_accepted h).elim
  · rw [if_neg hsent] at h
    exact confirmLoop_accepted h

/-! ## The messages -/

section Messages

variable {id : Identity} {initiator : Bool} {eph : Option Owner} {h h' : Handshaker} {msg : Bytes}
  {rand : Option Nonce} {resp : Option Bytes} {res : Option HandshakeResult}

theorem newHandshaker_fresh (hnew : newHandshaker id initiator eph = .ok h) :
    h.initiator = initiator ∧ h.transcript = [] := by
  unfold newHandshaker at hnew
  split_ifs at hnew
  rcases eph with _ | x
  · exact absurd hnew (by simp)
  · obtain rfl := Except.ok.inj hnew
    exact ⟨rfl, rfl⟩

theorem first_reply (hrole : h.initiator = false) (hfirst : h.transcript = [])
    (hok : h.handleMessage msg rand = (h', .ok (resp, res))) : res = none := by
  rcases Handshaker.handleMessage_ok hok with ⟨-, hinit⟩ | ⟨hinit, -⟩ | ⟨-, hauth⟩
  · obtain ⟨eph, blob, -, -, -, hreply⟩ := Handshaker.handleInit_ok hinit
    exact (Prod.mk.inj hreply).2
  · exact absurd (hrole.symm.trans hinit) (by simp)
  · exact absurd hfirst (Handshaker.handleAuthResponder_ok hauth).1

theorem accepted_reply (hrole : h.initiator = true)
    (hok : h.handleMessage msg rand = (h', .ok (resp, res))) :
    ∃ r, res = some r ∧ r.session.closed = false := by
  rcases Handshaker.handleMessage_ok hok with ⟨hresp, -⟩ | ⟨-, hauth⟩ | ⟨hresp, -⟩
  · exact absurd (hrole.symm.trans hresp) (by simp)
  · obtain ⟨eph, blob, h₂, pub, pname, msg3, r, -, -, -, -, hres, hreply⟩ :=
      Handshaker.handleAuthInitiator_ok hauth
    refine ⟨r, (Prod.mk.inj hreply).2, ?_⟩
    -- the session of a result is the one `newSession` has just made
    unfold Handshaker.complete at hres
    rcases hnew : Proto.newSession h₂.shared h₂.transcript h₂.initiator with err | s
    · rw [hnew] at hres
      exact absurd hres (by simp)
    · rw [hnew] at hres
      obtain rfl := Except.ok.inj hres
      rw [(Proto.newSession_eq_ok hnew).2]
      rfl
  · exact absurd (hrole.symm.trans hresp) (by simp)

end Messages

/-! ## Failing closed -/

/-- What a call that fails may leave behind: the store and both indexes as they were, no event
that shows a peer or a message, and nothing open. -/
structure NoTrace (host : Host) (o : Outcome) : Prop where
  store : o.host.store = host.store
  conns : o.host.mgr.conns = host.mgr.conns
  byName : o.host.mgr.byName = host.mgr.byName
  events : o.host.mgr.events = host.mgr.events
  emitted : ∃ ns, o.host.emitted = host.emitted ++ ns ∧
    ∀ n ∈ ns, n.type ≠ .peerConnected ∧ n.type ≠ .message
  transport : o.closed = true
  sessions : ∀ s ∈ o.created, s.closed = true

/-- The trust decision and `register` are reached on a confirmation only, and an error before
them leaves no trace. -/
structure FailsClosed (host : Host) (pairingKey : Bytes) (o : Outcome) : Prop where
  gate : o.observed = true ∨ o.registered = true →
    ∃ res, o.result = some res ∧ Confirmed pairingKey res.transcript o.opened
  clean : o.err ≠ none → o.observed = false → o.registered = false → NoTrace host o

/-- An initiator accepts msg2, and then the transport does not take msg3. -/
def Stranded (id : Identity) (opts : Adoption) (e : Encounter) : Prop :=
  opts.initiator = true ∧ e.sent 0 = true ∧ e.sent 1 = false ∧
    ∃ h msg2 h' reply, newHandshaker id true e.eph = .ok h ∧ e.received 0 = some msg2 ∧
      h.handleMessage msg2 (e.nonce 0) = (h', .ok reply)

section FailsClosed

variable {R : Reading} {id : Identity} {host : Host} {opts : Adoption} {e : Encounter}

/-- A return before the trust decision: it changes nothing but the list of events, and the
transport is closed. What has to be asked is that its events are harmless and its sessions
closed. -/
theorem abort_failsClosed {err : RunErr} {ns : List Notice} {res : Option HandshakeResult}
    {created : List Session} {opened : List (UInt8 × Bytes)} {pairingKey : Bytes}
    (hns : ∀ n ∈ ns, n.type ≠ .peerConnected ∧ n.type ≠ .message)
    (hcreated : ∀ s ∈ created, s.closed = true) :
    FailsClosed host pairingKey (abort host err ns res created opened) where
  gate := by
    rintro (hobs | hreg)
    · exact absurd hobs (by simp [abort])
    · exact absurd hreg (by simp [abort])
  clean _ _ _ := ⟨rfl, rfl, rfl, rfl, ⟨ns, rfl, hns⟩, rfl, hcreated⟩

/-- From the trust decision on nothing is asked but the confirmation, which is there. -/
theorem enlist_failsClosed {res : HandshakeResult} {dropped : List Session}
    {opened : List (UInt8 × Bytes)} {pairingKey : Bytes}
    (hconfirmed : Confirmed pairingKey res.transcript opened) :
    FailsClosed host pairingKey (enlist R host opts e res dropped opened) := by
  unfold enlist
  rcases host.store.observe R.sha256 e.order e.now (R.bytes res.peerName) e.addr
    (R.bytes res.peerKey) e.saved with ⟨store, a, trust, _ | err⟩
  · exact ⟨fun _ => ⟨_, rfl, hconfirmed⟩, fun herr => absurd rfl herr⟩
  · exact ⟨fun _ => ⟨_, rfl, hconfirmed⟩, fun _ hobs => absurd hobs (by simp)⟩

/-- With a pairing key, whoever has come through the messages still has to confirm. Without a
result there is no session to close, and with one it is closed when the confirmation fails. -/
theorem done_failsClosed (hkey : opts.pairingKey ≠ []) (res : Option HandshakeResult) :
    FailsClosed host opts.pairingKey (afterMessages R host opts e (.done res [])) := by
  rcases res with _ | res
  · exact abort_failsClosed (by simp) (by simp)
  · dsimp only [afterMessages]
    rw [if_neg hkey]
    rcases hconfirm : confirmPairing res opts.pairingKey e with ⟨s, _ | err, opened⟩
    · have hconfirmed := confirmPairing_accepted hconfirm
      exact enlist_failsClosed hconfirmed
    · refine abort_failsClosed ?_ ?_
      · simp [unconfirmed]
      · simp [Session.close]

/-- Endings that leave no session behind and show only errors. -/
def Ending.Clean : Ending → Prop
  | .failed _ notices created => (∀ n ∈ notices, n.type = .error) ∧ created = []
  | .done _ dropped => dropped = []

/-- Every return of `runHandshake` is looked at once. Those with an error before the trust
decision go through `abort`, and the others have passed the confirmation. -/
theorem Ending.Clean.failsClosed (hkey : opts.pairingKey ≠ []) {en : Ending} (hen : en.Clean) :
    FailsClosed host opts.pairingKey (afterMessages R host opts e en) := by
  rcases en with ⟨err, notices, created⟩ | ⟨res, dropped⟩
  · obtain ⟨hnotices, rfl⟩ := hen
    refine abort_failsClosed ?_ (by simp)
    intro n hn
    simp [hnotices n hn]
  · obtain rfl : dropped = [] := hen
    exact done_failsClosed hkey res

variable {h : Handshaker}

theorem clean_failed (err : RunErr) : (Ending.failed err [] []).Clean := ⟨by simp, rfl⟩

theorem clean_reported (err : HsErr) :
    (Ending.failed (.handshake err) [handshakeFailed err] []).Clean := ⟨by simp [handshakeFailed],
      rfl⟩

theorem runResponder_clean (hrole : h.initiator = false) (hfirst : h.transcript = []) :
    (runResponder h e).Clean := by
  unfold runResponder
  rcases e.received 0 with _ | msg1
  · exact clean_failed _
  dsimp only
  rcases hreply : h.handleMessage msg1 (e.nonce 0) with ⟨h', err | ⟨msg2, ignored⟩⟩
  · exact clean_failed _
  -- nothing is ignored, so the later exits have no session to close
  obtain rfl := first_reply hrole hfirst hreply
  dsimp only
  by_cases hsent : e.sent 0 = false
  · rw [if_pos hsent]
    exact clean_failed _
  rw [if_neg hsent]
  rcases e.received 1 with _ | msg3
  · exact clean_failed _
  dsimp only
  rcases h'.handleMessage msg3 (e.nonce 1) with ⟨h'', err | ⟨resp, res⟩⟩
  · exact clean_reported _
  · rfl

/-- The initiator ends cleanly, or with the session of a msg2 it could not answer. The two cases
exclude each other, and which one it is depends on the messages and the transport alone. -/
theorem runInitiator_cases (hnew : newHandshaker id true e.eph = .ok h)
    (hrole : opts.initiator = true) :
    (¬ Stranded id opts e ∧ (runInitiator h e).Clean) ∨
      (Stranded id opts e ∧ ∃ s, runInitiator h e = .failed .transport [] [s] ∧
        s.closed = false) := by
  have hinit : h.initiator = true := (newHandshaker_fresh hnew).1
  unfold runInitiator
  rw [Handshaker.initMessage, if_neg (by simp [hinit])]
  dsimp only
  -- in the order of the source: msg1 is not taken, msg2 does not come, msg2 is refused, msg3 is
  -- not taken
  by_cases hsent : e.sent 0 = false
  · rw [if_pos hsent]
    exact .inl ⟨fun hc => absurd (hsent.symm.trans hc.2.1) (by simp), clean_failed _⟩
  rw [if_neg hsent]
  rcases hrecv : e.received 0 with _ | msg2
  · refine .inl ⟨?_, clean_failed _⟩
    rintro ⟨-, -, -, -, msg2, -, -, -, hmsg2, -⟩
    exact absurd (hrecv.symm.trans hmsg2) (by simp)
  dsimp only
  rcases hreply : h.handleMessage msg2 (e.nonce 0) with ⟨h', err | ⟨msg3, res⟩⟩
  · refine .inl ⟨?_, clean_reported _⟩
    rintro ⟨-, -, -, h₁, msg, h₁', reply, hnew₁, hmsg, hok⟩
    obtain rfl := Except.ok.inj (hnew.symm.trans hnew₁)
    obtain rfl := Option.some.inj (hrecv.symm.trans hmsg)
    exact Handshaker.failed_ne_ok (hreply.symm.trans hok)
  dsimp only
  by_cases hlost : e.sent 1 = false
  · rw [if_pos hlost]
    obtain ⟨r, rfl, hopen⟩ := accepted_reply hinit hreply
    exact .inr ⟨⟨hrole, by simpa using hsent, hlost, h, msg2, h', _, hnew, hrecv, hreply⟩,
      r.session, rfl, hopen⟩
  · rw [if_neg hlost]
    exact .inl ⟨fun hc => hlost hc.2.2.1, rfl⟩

/-- **Pairing fails closed** on every exit but one: an initiator that has accepted msg2 and cannot
send msg3 closes the transport and returns, and the session stays open with its keys. -/
theorem pairing_fails_closed_iff (R : Reading) (id : Identity) (host : Host) (opts : Adoption)
    (e : Encounter) (hkey : opts.pairingKey ≠ []) :
    FailsClosed host opts.pairingKey (runHandshake R id host opts e) ↔ ¬ Stranded id opts e := by
  unfold runHandshake
  rcases hnew : newHandshaker id opts.initiator e.eph with err | h
  · -- there is no handshaker, and so no msg2 was accepted
    refine iff_of_true (abort_failsClosed (by simp) (by simp)) ?_
    rintro ⟨hrole, -, -, h, -, -, -, hok, -⟩
    rw [hrole, hok] at hnew
    exact absurd hnew (by simp)
  dsimp only
  by_cases hrole : opts.initiator = true
  · rw [if_pos hrole]
    rw [hrole] at hnew
    rcases runInitiator_cases hnew hrole with ⟨hnot, hclean⟩ | ⟨hstranded, s, hend, hopen⟩
    · exact iff_of_true (hclean.failsClosed hkey) hnot
    · rw [hend]
      refine iff_of_false (fun hfc => ?_) (not_not_intro hstranded)
      have hclosed := (hfc.clean (by simp [afterMessages, abort]) rfl rfl).sessions s
        (List.mem_singleton_self s)
      exact absurd (hopen.symm.trans hclosed) (by simp)
  · rw [if_neg hrole]
    obtain ⟨hresp, hfirst⟩ := newHandshaker_fresh hnew
    have hinit : opts.initiator = false := by simpa using hrole
    exact iff_of_true ((runResponder_clean (hresp.trans hinit) hfirst).failsClosed hkey)
      fun hc => hrole hc.1

end FailsClosed

/-! ## alice, as the initiator -/

/-- A reading for the runs below: concrete bytes are themselves, an opaque octet is a zero, and the
digest is the identity. -/
def plainReading : Reading where
  bytes := List.map fun o => o.val?.getD 0
  uint64 := fun _ => 0
  sha256 := fun k => k

def newHost : Host := { mgr := { heap := .empty (newConn [] [] 0 .unknown .direct) }, store := {} }

def invited : Adoption := { initiator := true, pairingKey := Proto.codeKey 0, path := some .relay }

/-- bob answers msg1; `sent` says which messages the transport takes, and nobody confirms. -/
def answered (sent : ℕ → Bool) : Encounter where
  eph := some (.honest 0)
  sent := sent
  received := fun _ => some (Proto.msg2Of (.honest 8) (lits Proto.bob) (.honest 0) (.honest 1)
    Proto.zeroNonce)
  nonce := fun _ => some Proto.zeroNonce
  confirmNonce := some Proto.zeroNonce
  confirmSent := true
  frames := []
  expired := true
  order := []
  now := 0
  addr := []
  saved := true

def aliceId : Identity := identityOf (.honest 7) (lits Proto.alice)

/-- With every message taken, alice waits for a confirmation and drops the connection. -/
theorem pairing_fails_closed_unconfirmed :
    invited.pairingKey ≠ [] ∧ FailsClosed newHost invited.pairingKey
      (runHandshake plainReading aliceId newHost invited (answered fun _ => true)) := by
  have hkey : invited.pairingKey ≠ [] := by decide
  refine ⟨hkey, (pairing_fails_closed_iff plainReading aliceId newHost invited _ hkey).mpr ?_⟩
  exact fun hc => absurd hc.2.2.1 (by simp [answered])

theorem alice_accepts : ∃ h' msg3,
    (Proto.started (.honest 7) (lits Proto.alice) (.honest 0) true).handleMessage
        (Proto.msg2Of (.honest 8) (lits Proto.bob) (.honest 0) (.honest 1) Proto.zeroNonce)
        (some Proto.zeroNonce)
      = (h', .ok (some msg3, some Proto.aliceBobDone.initiator)) :=
  ⟨_, _, Handshaker.handleMessage_auth_initiator
    (Proto.started_sound (.honest 7) (lits Proto.alice) (.honest 0) true) rfl rfl (by decide)
    (by decide) (by decide) Proto.zeroNonce Proto.zeroNonce rfl⟩

/-- **A session nobody closes.** The transport breaks under msg3: the call fails before the peer is
observed and closes the transport, and the session is open. -/
theorem session_left_open :
    let o := runHandshake plainReading aliceId newHost invited (answered fun k => k = 0)
    invited.pairingKey ≠ [] ∧ o.err = some .transport ∧ o.observed = false ∧ o.registered = false ∧
      o.closed = true ∧ ∃ s ∈ o.created, s.closed = false := by
  obtain ⟨h', msg3, haccept⟩ := alice_accepts
  -- the second `Send` fails, after `HandleMessage` has made the session
  have hend : runInitiator (Proto.started (.honest 7) (lits Proto.alice) (.honest 0) true)
      (answered fun k => k = 0) = .failed .transport [] [Proto.aliceBobDone.initiator.session] := by
    unfold runInitiator
    rw [Proto.initMessage_started]
    simp only [answered, haccept]
    rfl
  have hrun : runHandshake plainReading aliceId newHost invited (answered fun k => k = 0)
      = abort newHost .transport [] none [Proto.aliceBobDone.initiator.session] [] := by
    unfold runHandshake
    rw [aliceId, show (answered fun k => k = 0).eph = some (.honest 0) from rfl,
      Proto.newHandshaker_started]
    dsimp only
    rw [if_pos (show invited.initiator = true from rfl)]
    exact congrArg (afterMessages plainReading newHost invited _) hend
  refine ⟨by decide, ?_⟩
  rw [hrun]
  exact ⟨rfl, rfl, rfl, rfl, _, List.mem_singleton_self _, rfl⟩

end Heimdall.Sessions
