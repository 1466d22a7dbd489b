/-
The goroutines of a connection on one session, `internal/session/manager.go`.

`readLoop`, `keepaliveLoop` and `writeLoop` run for each connection, and `Send`, `Broadcast`,
`Disconnect` and `Shutdown` are called from anywhere. What they share is the session, behind its
mutex, the send queue and the channel `done`. A step is what is done in one piece: an `Open`, a
`Seal`, a `select` on the queue, closing `done`, closing the session. A frame that has been sealed
is held by its sender until the `select`, and others may seal and queue in between; so may they
between the two halves of `dropConn`.

Two things the protocol document asks for are not there:

* frames that do not authenticate should end the session after a threshold. `readLoop` passes over
  any number of them; a refusal ends it only if the frame is for another session (`returned_iff`);
* nothing should be sent after a close frame. It is queued and the session is closed later, and
  until then everyone may seal (`sealed_after_close`); nothing is sealed after it exactly if nobody
  tries in between (`nothing_after_close_iff`).
-/
import Heimdall.Formats
import Heimdall.Keepalive

set_option autoImplicit false

namespace Heimdall.Sessions

open Heimdall.Octets Heimdall.Crypto Heimdall.Proto Heimdall.Runs

/-! ## The callers of `Seal`

`Seal` is called from six places of the source. A frame is sealed first and offered to the queue in
a second step, with no lock around the two, so others may come in between. -/

/-- Who seals a frame, and what. -/
inductive Sender where
  | send (text : Bytes)
  | broadcast (text : Bytes)
  | keepalive
  /-- `readLoop`, in answer to a ping. -/
  | pong
  | disconnect
  | shutdown

def Sender.typ : Sender → UInt8
  | send _ | broadcast _ => typeChat
  | keepalive => typePing
  | pong => typePong
  | disconnect | shutdown => typeClose

def Sender.payload : Sender → Bytes
  | send text | broadcast text => encodeChatPayload text
  | keepalive | pong | disconnect | shutdown => []

/-- A sealed frame between `Seal` and the `select` of its sender. -/
structure Outgoing where
  who : Sender
  buf : Bytes

/-- Where a loop is. -/
inductive Phase where
  | ready
  | sealing
  | offering
  | returned
  deriving DecidableEq

/-! ## A connection -/

/-- A connection after its handshake. `rejections` are the errors of `Open` since it last
accepted a buffer, `closing` says that a close frame has been queued, and `late` who has sealed a
frame since. -/
structure Link where
  sess : Session
  queue : List Bytes := []
  done : Bool := false
  unanswered : ℕ := 0
  texts : List Bytes := []
  reader : Phase := .ready
  prober : Phase := .ready
  writing : Bool := true
  held : List Outgoing := []
  rejections : List ProtoErr := []
  closing : Bool := false
  late : List Sender := []

def sendCapacity : ℕ := 64

inductive LoopAct where
  /-- `Recv` returns a buffer to `readLoop`. -/
  | recv (buf : Bytes)
  | recvErr
  /-- The ticker of `keepaliveLoop`. -/
  | tick
  /-- A call of `Seal`. -/
  | sealing (who : Sender) (rand : Option Nonce)
  /-- The `select` of the sender of a held frame; `pick` is the choice between queue and `done`. -/
  | offer (k : ℕ) (pick : Bool)
  /-- `writeLoop` sends the first frame of the queue. -/
  | write (ok : Bool)
  /-- The first half of `dropConn` or `conn.close`: `done` is closed. -/
  | drop
  /-- The second half: the session is closed. -/
  | closeSession

/-- A call of `Seal` that only a closed session refuses. -/
def LoopAct.fits : LoopAct → Bool
  | .sealing who (some _) => decide (who.payload.length ≤ maxPlaintext)
  | _ => false

namespace Link

variable (l : Link)

/-- `readLoop` returns, and its deferred `dropConn` begins. -/
def endRead : Link := { l with reader := .returned, done := true }

/-- A turn of `readLoop` up to the answer to a ping. -/
def recv (buf : Bytes) : Link :=
  match l.sess.openFrame buf with
  | (sess, .error e) =>
    if e = .errBadSession then endRead { l with sess := sess, rejections := l.rejections ++ [e] }
    else { l with sess := sess, rejections := l.rejections ++ [e] }
  | (sess, .ok (typ, pt)) =>
    if typ = typeChat then
      match decodeChat pt with
      | .error _ => { l with sess := sess, rejections := [] }
      | .ok text => { l with sess := sess, rejections := [], texts := l.texts ++ [text] }
    else if typ = typePing then { l with sess := sess, rejections := [], reader := .sealing }
    else if typ = typePong then { l with sess := sess, rejections := [], unanswered := 0 }
    else if typ = typeClose then endRead { l with sess := sess, rejections := [] }
    else { l with sess := sess, rejections := [] }

def tick : Link :=
  if keepaliveMisses < l.unanswered + 1 then
    { l with unanswered := l.unanswered + 1, prober := .returned, done := true }
  else { l with unanswered := l.unanswered + 1, prober := .sealing }

/-- The loop that sends on its own account is at this point; callers come at any time. -/
def isAt : Sender → Phase → Bool
  | .pong, p => decide (l.reader = p)
  | .keepalive, p => decide (l.prober = p)
  | _, _ => true

/-- The sender has its frame and goes on to the `select`. -/
def offering : Sender → Link
  | .pong => { l with reader := .offering }
  | .keepalive => { l with prober := .offering }
  | _ => l

/-- `enqueue`, `Send` or `Broadcast` has returned. Only `keepaliveLoop` looks at the error. -/
def settle (ok : Bool) : Sender → Link
  | .pong => { l with reader := .ready }
  | .keepalive =>
    if ok then { l with prober := .ready } else { l with prober := .returned, done := true }
  | _ => l

def sealBy (who : Sender) (rand : Option Nonce) : Link :=
  match l.sess.sealFrame who.typ who.payload rand with
  | (sess, .error _) => settle { l with sess := sess } false who
  | (sess, .ok buf) =>
    offering { l with
      sess := sess
      held := l.held ++ [⟨who, buf⟩]
      late := if l.closing then l.late ++ [who] else l.late } who

/-- The frame is put on the queue: there is room, and `done` is not closed or not chosen.
`Broadcast` does not look at `done`. -/
def takes (f : Outgoing) (pick : Bool) : Bool :=
  decide (l.queue.length < sendCapacity) &&
    match f.who with
    | .broadcast _ => true
    | _ => !l.done || pick

/-- The `select` on the queue. -/
def offer (k : ℕ) (f : Outgoing) (pick : Bool) : Link :=
  if l.takes f pick then
    settle { l with
      held := l.held.eraseIdx k
      queue := l.queue ++ [f.buf]
      closing := l.closing || decide (f.who.typ = typeClose) } true f.who
  else settle { l with held := l.held.eraseIdx k } false f.who

def write (ok : Bool) : Link :=
  if ok then { l with queue := l.queue.tail }
  else { l with queue := l.queue.tail, writing := false, done := true }

def next : LoopAct → Option Link
  | .recv buf => if l.reader = .ready then some (l.recv buf) else none
  | .recvErr => if l.reader = .ready then some l.endRead else none
  | .tick => if l.prober = .ready then some l.tick else none
  | .sealing who rand => if l.isAt who .sealing then some (l.sealBy who rand) else none
  | .offer k pick => (l.held[k]?).bind fun f =>
      if l.isAt f.who .offering then some (l.offer k f pick) else none
  | .write ok => if l.writing = true ∧ l.queue ≠ [] then some (l.write ok) else none
  | .drop => some { l with done := true }
  | .closeSession =>
    if l.done = true ∧ l.sess.closed = false then some { l with sess := l.sess.close } else none

def Step (l : Link) (a : LoopAct) (l' : Link) : Prop := l.next a = some l'

/-! ## What the calls leave alone -/

section Frame

variable {l : Link} {who : Sender} {ok : Bool}

@[simp] theorem sess_offering : (l.offering who).sess = l.sess := by cases who <;> rfl

@[simp] theorem late_offering : (l.offering who).late = l.late := by cases who <;> rfl

@[simp] theorem rejections_offering : (l.offering who).rejections = l.rejections := by
  cases who <;> rfl

@[simp] theorem done_offering : (l.offering who).done = l.done := by cases who <;> rfl

@[simp] theorem sess_settle : (l.settle ok who).sess = l.sess := by cases who <;> cases ok <;> rfl

@[simp] theorem late_settle : (l.settle ok who).late = l.late := by cases who <;> cases ok <;> rfl

@[simp] theorem rejections_settle : (l.settle ok who).rejections = l.rejections := by
  cases who <;> cases ok <;> rfl

theorem done_settle (h : l.done = true) : (l.settle ok who).done = true := by
  cases who <;> cases ok <;> first | exact h | rfl

/-- A sender moves `readLoop` only if it is `readLoop`, which has not returned then. -/
theorem reader_settle {p : Phase} (hat : l.isAt who p = true) (hp : p ≠ .returned) :
    (l.settle ok who).reader = .returned ↔ l.reader = .returned := by
  cases who with
  | pong =>
    have hreader : l.reader = p := of_decide_eq_true hat
    have hne : l.reader ≠ .returned := hreader ▸ hp
    exact ⟨fun hc => absurd hc nofun, fun hc => absurd hc hne⟩
  | keepalive => cases ok <;> exact Iff.rfl
  | send | broadcast | disconnect | shutdown => exact Iff.rfl

theorem reader_offering {p : Phase} (hat : l.isAt who p = true) (hp : p ≠ .returned) :
    (l.offering who).reader = .returned ↔ l.reader = .returned := by
  cases who with
  | pong =>
    have hreader : l.reader = p := of_decide_eq_true hat
    have hne : l.reader ≠ .returned := hreader ▸ hp
    exact ⟨fun hc => absurd hc nofun, fun hc => absurd hc hne⟩
  | keepalive | send | broadcast | disconnect | shutdown => exact Iff.rfl

end Frame

/-- A step that neither reads nor seals. -/
structure Aside (l : Link) (a : LoopAct) (l' : Link) : Prop where
  recvErr : a ≠ .recvErr
  fits : a.fits = false
  late : l'.late = l.late
  rejections : l'.rejections = l.rejections
  reader : l'.reader = .returned ↔ l.reader = .returned
  done : l.done = true → l'.done = true
  sess : l'.sess = l.sess ∨ l'.sess.closed = true

/-- **What a step is**: a turn of `readLoop`, the end of it, a `Seal`, or something aside. -/
theorem step_cases {l l' : Link} {a : LoopAct} (h : l.Step a l') :
    (∃ buf, a = .recv buf ∧ l.reader = .ready ∧ l' = l.recv buf) ∨
      (a = .recvErr ∧ l' = l.endRead) ∨
      (∃ who rand, a = .sealing who rand ∧ l.isAt who .sealing = true ∧ l' = l.sealBy who rand) ∨
      Aside l a l' := by
  cases a with
  | recv buf =>
    obtain ⟨hready, h⟩ := Option.ite_none_right_eq_some.mp h
    exact .inl ⟨buf, rfl, hready, (Option.some.inj h).symm⟩
  | recvErr =>
    obtain ⟨-, h⟩ := Option.ite_none_right_eq_some.mp h
    exact .inr (.inl ⟨rfl, (Option.some.inj h).symm⟩)
  | sealing who rand =>
    obtain ⟨hat, h⟩ := Option.ite_none_right_eq_some.mp h
    exact .inr (.inr (.inl ⟨who, rand, rfl, hat, (Option.some.inj h).symm⟩))
  -- the four that are aside
  | tick =>
    obtain ⟨-, h⟩ := Option.ite_none_right_eq_some.mp h
    obtain rfl := Option.some.inj h
    right; right; right
    unfold tick
    split_ifs
    · exact ⟨nofun, rfl, rfl, rfl, Iff.rfl, fun _ => rfl, .inl rfl⟩
    · exact ⟨nofun, rfl, rfl, rfl, Iff.rfl, id, .inl rfl⟩
  | offer k pick =>
    obtain ⟨f, -, hf⟩ := Option.bind_eq_some_iff.mp h
    obtain ⟨hat, hf⟩ := Option.ite_none_right_eq_some.mp hf
    obtain rfl := Option.some.inj hf
    right; right; right
    unfold offer
    split_ifs
    · exact ⟨nofun, rfl, late_settle, rejections_settle, reader_settle hat nofun,
        fun hd => done_settle hd, .inl sess_settle⟩
    · exact ⟨nofun, rfl, late_settle, rejections_settle, reader_settle hat nofun,
        fun hd => done_settle hd, .inl sess_settle⟩
  | write ok =>
    obtain ⟨-, h⟩ := Option.ite_none_right_eq_some.mp h
    obtain rfl := Option.some.inj h
    right; right; right
    unfold write
    split_ifs
    · exact ⟨nofun, rfl, rfl, rfl, Iff.rfl, id, .inl rfl⟩
    · exact ⟨nofun, rfl, rfl, rfl, Iff.rfl, fun _ => rfl, .inl rfl⟩
  | drop =>
    obtain rfl := Option.some.inj h
    exact .inr (.inr (.inr ⟨nofun, rfl, rfl, rfl, Iff.rfl, fun _ => rfl, .inl rfl⟩))
  | closeSession =>
    obtain ⟨-, h⟩ := Option.ite_none_right_eq_some.mp h
    obtain rfl := Option.some.inj h
    exact .inr (.inr (.inr ⟨nofun, rfl, rfl, rfl, Iff.rfl, id, .inr rfl⟩))

theorem sess_recv (l : Link) (buf : Bytes) :
    (l.recv buf).sess = (l.sess.openFrame buf).1 ∧ (l.recv buf).late = l.late := by
  unfold recv
  rcases l.sess.openFrame buf with ⟨sess, e | ⟨typ, pt⟩⟩
  · dsimp only
    split_ifs <;> exact ⟨rfl, rfl⟩
  · dsimp only
    split_ifs
    · rcases decodeChat pt with e | text <;> exact ⟨rfl, rfl⟩
    all_goals exact ⟨rfl, rfl⟩

theorem sess_sealBy (l : Link) (who : Sender) (rand : Option Nonce) :
    (l.sealBy who rand).sess = (l.sess.sealFrame who.typ who.payload rand).1 := by
  unfold sealBy
  rcases l.sess.sealFrame who.typ who.payload rand with ⟨sess, e | buf⟩
  · exact sess_settle
  · exact sess_offering

end Link

/-! ## `readLoop` -/

/-- How `readLoop` came to return, if it has. -/
structure Ended (acts : List LoopAct) (l : Link) : Prop where
  dropped : l.reader = .returned → l.done = true
  why : l.reader = .returned →
    l.rejections = [] ∨ .errBadSession ∈ l.rejections ∨ .recvErr ∈ acts
  ended : .errBadSession ∈ l.rejections ∨ .recvErr ∈ acts → l.reader = .returned

section Ended

variable {acts : List LoopAct} {l l' : Link} {a : LoopAct}

/-- The others leave `readLoop` where it is, as far as returning goes. -/
theorem Ended.other (h : Ended acts l) (hrecv : a ≠ .recvErr)
    (hrej : l'.rejections = l.rejections) (hreader : l'.reader = .returned ↔ l.reader = .returned)
    (hdone : l.done = true → l'.done = true) : Ended (acts ++ [a]) l' := by
  have hmem : .recvErr ∈ acts ++ [a] ↔ .recvErr ∈ acts := by
    rw [List.mem_append, List.mem_singleton]
    exact or_iff_left hrecv.symm
  refine ⟨fun hr => hdone (h.dropped (hreader.mp hr)), fun hr => ?_, fun hc => ?_⟩
  · rw [hrej, hmem]
    exact h.why (hreader.mp hr)
  · rw [hrej, hmem] at hc
    exact hreader.mpr (h.ended hc)

theorem Ended.recv (h : Ended acts l) (hready : l.reader = .ready) (buf : Bytes) :
    Ended (acts ++ [.recv buf]) (l.recv buf) := by
  have hgoing : l.reader ≠ .returned := by rw [hready]; decide
  obtain ⟨hnobad, hnoerr⟩ := not_or.mp fun hc => hgoing (h.ended hc)
  have hnoerr' : .recvErr ∉ acts ++ [.recv buf] := by simpa using hnoerr
  -- whatever leaves the loop running has no such refusal in its ledger
  have hgo : ∀ l' : Link, l'.reader ≠ .returned → .errBadSession ∉ l'.rejections →
      Ended (acts ++ [.recv buf]) l' := fun l' hr hbad =>
    ⟨fun hc => absurd hc hr, fun hc => absurd hc hr, fun hc =>
      absurd hc (not_or.mpr ⟨hbad, hnoerr'⟩)⟩
  unfold Link.recv
  rcases l.sess.openFrame buf with ⟨sess, e | ⟨typ, pt⟩⟩
  · dsimp only
    split_ifs with hbad
    · exact ⟨fun _ => rfl, fun _ => .inr (.inl (by simp [Link.endRead, hbad])), fun _ => rfl⟩
    · exact hgo _ hgoing (by simpa [hnobad] using Ne.symm hbad)
  · dsimp only
    split_ifs
    · rcases decodeChat pt with e | text
      · exact hgo _ hgoing List.not_mem_nil
      · exact hgo _ hgoing List.not_mem_nil
    · exact hgo _ (by simp) List.not_mem_nil
    · exact hgo _ hgoing List.not_mem_nil
    · exact ⟨fun _ => rfl, fun _ => .inl rfl, fun _ => rfl⟩
    · exact hgo _ hgoing List.not_mem_nil

theorem Ended.step (h : Ended acts l) (hstep : l.Step a l') : Ended (acts ++ [a]) l' := by
  rcases Link.step_cases hstep with
    ⟨buf, rfl, hready, rfl⟩ | ⟨rfl, rfl⟩ | ⟨who, rand, rfl, hat, rfl⟩ | haside
  · exact h.recv hready buf
  · exact ⟨fun _ => rfl, fun _ => .inr (.inr (by simp)), fun _ => rfl⟩
  · unfold Link.sealBy
    rcases l.sess.sealFrame who.typ who.payload rand with ⟨sess, e | buf⟩
    · exact h.other nofun Link.rejections_settle (Link.reader_settle hat nofun)
        fun hd => Link.done_settle hd
    · exact h.other nofun Link.rejections_offering (Link.reader_offering hat nofun)
        fun hd => Link.done_offering.trans hd
  · exact h.other haside.recvErr haside.rejections haside.reader haside.done

end Ended

/-- **What ends `readLoop` among refused buffers.** In every run of a connection, when the last
buffers were refused, the loop has returned exactly if one of them was for another session, or
`Recv` failed; and then the connection is dropped. -/
theorem returned_iff (s : Session) {acts : List LoopAct} {l : Link}
    (hrun : Run Link.Step { sess := s } acts l) (hrejected : l.rejections ≠ []) :
    (l.reader = .returned ↔ .errBadSession ∈ l.rejections ∨ .recvErr ∈ acts) ∧
      (l.reader = .returned → l.done = true) := by
  have hended : Ended acts l := by
    refine hrun.invariant_trace Ended ⟨nofun, nofun, fun hc => ?_⟩ fun _ _ _ _ h hs => h.step hs
    rcases hc with hc | hc
    · exact absurd hc List.not_mem_nil
    · exact absurd hc List.not_mem_nil
  exact ⟨⟨fun hr => (hended.why hr).resolve_left hrejected, hended.ended⟩, hended.dropped⟩

/-- A frame for another session among refused ones ends the loop. -/
theorem returned_iff_other_session :
    ∃ l, Run Link.Step { sess := demoSession }
        [.recv [], .sealing (.send []) (some ⟨List.replicate 12 0, rfl⟩),
          .recv (marshalFrame (forgedFrame demoSession.root 0)),
          .recv (marshalFrame { forgedFrame demoSession.root 0 with
            session := lits (List.replicate 8 1) })]
        l ∧ l.rejections.length = 3 ∧ l.reader = .returned ∧ l.done = true := by
  obtain ⟨l, hrun, hlen, hbad⟩ : ∃ l, Run (ofNext Link.next) { sess := demoSession }
      [.recv [], .sealing (.send []) (some ⟨List.replicate 12 0, rfl⟩),
        .recv (marshalFrame (forgedFrame demoSession.root 0)),
        .recv (marshalFrame { forgedFrame demoSession.root 0 with
          session := lits (List.replicate 8 1) })]
      l ∧ l.rejections.length = 3 ∧ .errBadSession ∈ l.rejections :=
    exists_run_of_any _ (by decide +kernel)
  obtain ⟨hiff, hdone⟩ := returned_iff demoSession hrun (List.ne_nil_of_length_pos (by omega))
  have hreturned := hiff.mpr (.inl hbad)
  exact ⟨l, hrun, hlen, hreturned, hdone hreturned⟩

/-- A frame of zeros for this session does not authenticate, and leaves the session as it was. -/
theorem openFrame_forgedFrame :
    demoSession.openFrame (marshalFrame (forgedFrame demoSession.root 0)) =
      (demoSession, .error .errAuth) := by
  have hlive : Live (rootOf (lits [7]) []) true demoSession :=
    freshSession_live (length_rootOf _ _) true
  have hopen := openFrame_eq hlive (parseFrame_forgedFrame demoSession.root 0) rfl
  have hrange : demoSession.inRange (forgedFrame demoSession.root 0).rotation := .inl rfl
  rw [if_pos hrange] at hopen
  rcases ho : openBlob (messageKeyOf (rootOf (lits [7]) []) (recvDir true)
      (forgedFrame demoSession.root 0).rotation (forgedFrame demoSession.root 0).sequence)
      (marshalHeaderOnly (forgedFrame demoSession.root 0)) (forgedFrame demoSession.root 0).blob
    with e | pt
  · rw [ho] at hopen
    rw [hopen]
    rfl
  · exact absurd ho (openBlob_forgedFrame _ _ _ _ _)

/-- **There is no error budget**: however many frames in a row do not authenticate, the loop is
still running and the connection is up. -/
theorem no_error_budget :
    ¬ ∃ N : ℕ, ∀ (acts : List LoopAct) (l : Link), Run Link.Step { sess := demoSession } acts l →
      N ≤ l.rejections.length → (∀ e ∈ l.rejections, e = .errAuth) →
        l.reader = .returned ∧ l.done = true := by
  rintro ⟨N, hbudget⟩
  let bad : LoopAct := .recv (marshalFrame (forgedFrame demoSession.root 0))
  -- a forged frame leaves the session alone, so it can be sent again and again
  have hruns : ∀ n, Run Link.Step { sess := demoSession } (List.replicate n bad)
      { sess := demoSession, rejections := List.replicate n .errAuth } := by
    intro n
    induction n with
    | zero => exact .nil
    | succ n ih =>
      rw [List.replicate_succ', List.replicate_succ']
      refine ih.snoc ?_
      dsimp only [Link.Step, Link.next, Link.recv, bad]
      rw [if_pos rfl, openFrame_forgedFrame]
      rfl
  have hend := hbudget _ _ (hruns N) (by simp) (fun e he => List.eq_of_mem_replicate he)
  exact absurd hend.1 nofun

/-! ## The close frame -/

namespace Link

/-- Nobody seals between the queueing of a close frame and the closing of the session. -/
def Quiet (l : Link) (a : LoopAct) : Prop :=
  ¬ (l.closing = true ∧ l.sess.closed = false ∧ a.fits = true)

instance (l : Link) (a : LoopAct) : Decidable (l.Quiet a) := inferInstanceAs (Decidable (¬ _))

def StepQuiet (l : Link) (a : LoopAct) (l' : Link) : Prop := l.Step a l' ∧ l.Quiet a

section Close

variable {root : Bytes} {i : Bool} {l l' : Link} {a : LoopAct}

theorem valid_step (h : l.sess.Valid root i) (hstep : l.Step a l') : l'.sess.Valid root i := by
  rcases step_cases hstep with ⟨buf, rfl, -, rfl⟩ | ⟨rfl, rfl⟩ | ⟨who, rand, rfl, -, rfl⟩ | haside
  · rw [(sess_recv l buf).1]
    exact h.opened buf
  · exact h
  · rw [sess_sealBy]
    exact h.sealed who.typ who.payload rand
  · rcases haside.sess with hsame | hclosed
    · rw [hsame]
      exact h
    · exact .inl hclosed

/-- A close frame is sealed like any other: a `Seal` succeeds if the session is open and the frame
fits. -/
theorem sealed_iff (h : l.sess.Valid root i) (who : Sender) (rand : Option Nonce) :
    (∃ buf, (l.sess.sealFrame who.typ who.payload rand).2 = .ok buf) ↔
      l.sess.closed = false ∧ LoopAct.fits (.sealing who rand) = true := by
  rcases h with hclosed | hlive
  · rw [sealFrame_closed hclosed, hclosed]
    simp
  rw [hlive.closed]
  cases rand with
  | none =>
    obtain ⟨-, -, ⟨e, hres, -, -⟩ | ⟨n, hn, -⟩⟩ := sealFrame_spec hlive who.typ who.payload none
    · rw [hres]
      simp [LoopAct.fits]
    · exact absurd hn nofun
  | some n =>
    obtain ⟨-, -, ⟨e, hres, -, -⟩ | ⟨n', -, hpt, hres, -, -⟩⟩ :=
      sealFrame_spec hlive who.typ who.payload (some n)
    · -- it was refused for its size
      have hbig : ¬ who.payload.length ≤ maxPlaintext := fun hpt => by
        rw [sealFrame_eq hlive who.typ hpt n] at hres
        exact absurd hres nofun
      rw [hres]
      simpa [LoopAct.fits] using hbig
    · rw [hres]
      simpa [LoopAct.fits] using hpt

/-- A step adds to the late frames exactly if it is not quiet. A frame is late if it is sealed
when a close frame is on the queue, and that takes an open session. -/
theorem late_step (h : l.sess.Valid root i) (hstep : l.Step a l') :
    (l'.late = l.late ∧ l.Quiet a) ∨ (l'.late ≠ [] ∧ ¬ l.Quiet a) := by
  have hquiet : a.fits = false → l.Quiet a := fun hf hc => absurd hc.2.2 (by simp [hf])
  rcases step_cases hstep with ⟨buf, rfl, -, rfl⟩ | ⟨rfl, rfl⟩ | ⟨who, rand, rfl, -, rfl⟩ | haside
  · exact .inl ⟨(sess_recv l buf).2, hquiet rfl⟩
  · exact .inl ⟨rfl, hquiet rfl⟩
  · have hiff := sealed_iff h who rand
    unfold sealBy
    rcases hseal : l.sess.sealFrame who.typ who.payload rand with ⟨sess, e | buf⟩
    · rw [hseal] at hiff
      refine .inl ⟨late_settle, fun hc => ?_⟩
      obtain ⟨buf, hbuf⟩ := hiff.mpr hc.2
      exact absurd hbuf nofun
    · rw [hseal] at hiff
      have hok := hiff.mp ⟨buf, rfl⟩
      dsimp only
      rw [late_offering]
      -- a frame was sealed; it is late if a close frame is on the queue
      cases hclosing : l.closing with
      | false => exact .inl ⟨rfl, fun hc => absurd hc.1 (by simp [hclosing])⟩
      | true => exact .inr ⟨by simp, fun hq => hq ⟨hclosing, hok⟩⟩
  · exact .inl ⟨haside.late, hquiet haside.fits⟩

end Close

end Link

/-- **Nothing is sealed after a close frame exactly if nobody tries** before the session is
closed. In every run of a connection, no frame has been sealed after a close frame was queued if
and only if, from then on and up to the closing of the session, `Seal` was not called with a
nonce and a payload that fits. -/
theorem nothing_after_close_iff {shared transcript : Bytes} {i : Bool} {s : Session}
    (hs : newSession shared transcript i = .ok s) {acts : List LoopAct} {l : Link}
    (hrun : Run Link.Step { sess := s } acts l) :
    l.late = [] ↔ Run Link.StepQuiet { sess := s } acts l := by
  obtain ⟨-, rfl⟩ := newSession_eq_ok hs
  have hstart : (freshSession (rootOf shared transcript) i).Valid (rootOf shared transcript) i :=
    .inr (freshSession_live (length_rootOf shared transcript) i)
  constructor
  · -- along the run, the late frames stay empty as long as the steps are quiet
    induction hrun with
    | nil => exact fun _ => .nil
    | snoc hrun hstep ih =>
      intro hlate
      have hvalid := hrun.invariant (fun l => l.sess.Valid (rootOf shared transcript) i) hstart
        fun _ _ _ h hs => Link.valid_step h hs
      rcases Link.late_step hvalid hstep with ⟨hsame, hquiet⟩ | ⟨hne, -⟩
      · exact (ih (hsame.symm.trans hlate)).snoc ⟨hstep, hquiet⟩
      · exact absurd hlate hne
  · intro hquiet
    refine (hquiet.invariant
      (fun l => l.sess.Valid (rootOf shared transcript) i ∧ l.late = []) ⟨hstart, rfl⟩ ?_).2
    rintro l a l' ⟨hvalid, hlate⟩ ⟨hstep, hq⟩
    refine ⟨Link.valid_step hvalid hstep, ?_⟩
    rcases Link.late_step hvalid hstep with ⟨hsame, -⟩ | ⟨-, hnot⟩
    · exact hsame.trans hlate
    · exact absurd hq hnot

/-- A connection that is closed as intended: a text, the close frame, and an attempt to send another
text when the session is closed. -/
theorem nothing_after_close_iff_closed :
    ∃ acts l, Run Link.Step { sess := demoSession } acts l ∧ l.closing = true ∧ l.late = [] ∧
      .sealing (.send (lits [104, 105])) (some ⟨List.replicate 12 0, rfl⟩) ∈ acts := by
  let text : LoopAct := .sealing (.send (lits [104, 105])) (some ⟨List.replicate 12 0, rfl⟩)
  let acts : List LoopAct :=
    [text, .offer 0 false, .sealing .disconnect (some ⟨List.replicate 12 0, rfl⟩), .offer 0 false,
      .write true, .drop, .closeSession, text]
  obtain ⟨l, hquiet, hclosing⟩ : ∃ l, Run Link.StepQuiet { sess := demoSession } acts l ∧
      l.closing = true := exists_run_guarded _ (by decide +kernel)
  have hstep := hquiet.mono fun _ _ _ h => h.1
  exact ⟨acts, l, hstep, hclosing, (nothing_after_close_iff newSession_demo hstep).mpr hquiet,
    List.mem_cons_self⟩

/-- **A text behind the close frame**: `Disconnect` queues its frame, and before it drops the
connection `Send` seals a text and queues it. Closing the session is what stops senders, and that
comes last. -/
theorem sealed_after_close :
    ∃ l, Run (ofNext Link.next) { sess := demoSession }
        [.sealing .disconnect (some ⟨List.replicate 12 0, rfl⟩), .offer 0 false,
          .sealing (.send (lits [104, 105])) (some ⟨List.replicate 12 0, rfl⟩), .offer 0 false] l ∧
      l.late.map Sender.typ = [typeChat] ∧ l.queue.length = 2 ∧ l.done = false :=
  exists_run_of_any _ (by decide +kernel)

end Heimdall.Sessions
