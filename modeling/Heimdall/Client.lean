/-
The rendezvous client, `internal/rendezvous/client.go`.

A `Client` holds the requests that are outstanding (`waiters`) and one goroutine, `supervise`, that
keeps a control connection. A request is sent by whoever calls `resendWaiters`: the supervisor when
it has connected, and `register` for the goroutine that asks. A call reads the connection and the
unsent waiters under the mutex, sends them one by one without it, and takes the mutex again after
each to set `sent`.

Between a send and its mark the connection may be lost. The supervisor then clears every `sent`, and
the mark that comes after it says of the *next* connection what was true of the last: the waiter is
skipped (`marked_after_reset`). As long as a mark is made on the connection its send was made on,
every outstanding request is sent on every connection (`outstanding_sent`).
-/
import Heimdall.Heap
import Heimdall.Maps
import Heimdall.Peers
import Heimdall.Runs

set_option autoImplicit false

namespace Heimdall.Rendezvous

open Heimdall.Peers (GoString)
open Heimdall.Runs

/-! ## The state

Goroutines that are in the middle of `resendWaiters` are calls with a list of what they still have
to send. The supervisor is one more goroutine, and the connection is numbered, so that a send can be
attributed to it. -/

/-- The types of the requests. -/
inductive MsgType where
  | publish
  | claim
  deriving DecidableEq

/-- A request as `resendWaiters` builds it. -/
structure Request where
  typ : MsgType
  rid : GoString
  candidates : List UInt8
  deriving DecidableEq

/-- The messages that `dispatch` routes, with their `RendezvousID`. -/
inductive Reply where
  | published (rid : GoString)
  | paired (rid : GoString)
  | error (rid : GoString)
  deriving DecidableEq

def Reply.rid : Reply → GoString
  | published rid | paired rid | error rid => rid

/-- `waiter`; its two channels have room for one message. -/
structure Waiter where
  claim : Bool := false
  sealed : List UInt8 := []
  sent : Bool := false
  published : Option Reply := none
  paired : Option Reply := none

namespace Waiter

def request (w : Waiter) (rid : GoString) : Request :=
  ⟨if w.claim then .claim else .publish, rid, w.sealed⟩

/-- A message is put into the channels it is for, where there is room. -/
def receive (w : Waiter) (m : Reply) : Waiter :=
  match m with
  | .published _ => { w with published := w.published <|> some m }
  | .paired _ => { w with paired := w.paired <|> some m }
  | .error _ => { w with published := w.published <|> some m, paired := w.paired <|> some m }

end Waiter

/-- What a call of `resendWaiters` has to send: a rendezvous ID and the address of its waiter. -/
abbrev Pending := GoString × ℕ

/-- Where a call of `resendWaiters` stands. -/
inductive Call where
  | start
  /-- In the loop on connection `k`, with this list to go; an empty one ends it. -/
  | sending (k : ℕ) (list : List Pending)
  /-- `p` has been sent, and is yet to be marked. -/
  | marking (k : ℕ) (p : Pending) (list : List Pending)
  /-- There was no connection. -/
  | returned
  /-- A send has failed. -/
  | failed (k : ℕ)

/-- Where `supervise` stands. -/
inductive Supervisor where
  | top
  | dialing
  /-- Connection `k` is up, and call `i` of `resendWaiters` runs. -/
  | resending (k i : ℕ)
  /-- In `readPump`. -/
  | pumping (k : ℕ)
  /-- `readPump` has returned and the connection is closed. -/
  | lost (k : ℕ)

def Supervisor.live : Supervisor → Option ℕ
  | resending k _ | pumping k | lost k => some k
  | top | dialing => none

/-- A `SendMessage` that succeeded: the connection, the waiter and the request. -/
structure Sending where
  conn : ℕ
  waiter : ℕ
  request : Request
  deriving DecidableEq

/-- `Client`, its waiters, the calls of `resendWaiters` and what they have sent. -/
structure Client where
  conn : Option ℕ := none
  waiters : AList fun _ : GoString => ℕ := ∅
  closed : Bool := false
  waiter : Heap Waiter := Heap.empty {}
  sup : Supervisor := .top
  conns : ℕ := 0
  calls : Heap Call := Heap.empty .returned
  log : List Sending := []

/-! ## Steps -/

inductive ClientAct where
  /-- The supervisor goes round: it is not closed and dials. -/
  | dial
  | dialFail
  | connect
  /-- The supervisor's own call has returned. -/
  | pump
  /-- `readPump` returns: a read has failed. -/
  | lose
  /-- The critical section at the end of the supervisor's round. -/
  | reset
  | register (rid : GoString) (claim : Bool) (sealed : List UInt8)
  /-- The first critical section of call `i`; a map is ranged over in any order. -/
  | capture (i : ℕ) (list : List Pending)
  | send (i : ℕ) (ok : Bool)
  | mark (i : ℕ)
  | unregister (rid : GoString)
  | dispatch (m : Reply)
  /-- `await` takes a message out of a channel of waiter `a`. -/
  | await (a : ℕ) (paired : Bool)
  | close

/-- The call has come to its end, with a send error or without. -/
def Call.over : Call → Bool
  | returned | failed _ | sending _ [] => true
  | start | sending _ (_ :: _) | marking _ _ _ => false

namespace Client

variable (c : Client)

/-- The waiters that are not marked as sent. -/
def unsent : List Pending :=
  (c.waiters.entries.filter fun e => !(c.waiter.get e.2).sent).map fun e => (e.1, e.2)

/-- Clear `sent` for the waiters of these entries. -/
def clearSent (w : Heap Waiter) (entries : List (Sigma fun _ : GoString => ℕ)) : Heap Waiter :=
  entries.foldl (fun w e => w.modify e.2 fun x => { x with sent := false }) w

def resendWaiters : Client := { c with calls := c.calls.alloc .start }

def setCall (i : ℕ) (x : Call) : Client := { c with calls := c.calls.modify i fun _ => x }

def next (c : Client) : ClientAct → Option Client
  | .dial =>
    match c.sup with
    | .top => if c.closed then none else some { c with sup := .dialing }
    | _ => none
  | .dialFail =>
    match c.sup with
    | .dialing => some { c with sup := .top }
    | _ => none
  | .connect =>
    match c.sup with
    -- the connection is up before `resendWaiters` starts, so other calls may use it first
    | .dialing => some { c with
        conn := some c.conns, conns := c.conns + 1,
          sup := .resending c.conns c.calls.next }.resendWaiters
    | _ => none
  | .pump =>
    match c.sup with
    -- `readPump` starts when the supervisor's own call has returned, by an error or not
    | .resending k i => if (c.calls.get i).over then some { c with sup := .pumping k } else none
    | _ => none
  | .lose =>
    match c.sup with
    | .pumping k => some { c with sup := .lost k }
    | _ => none
  | .reset =>
    match c.sup with
    -- every waiter in the map is unsent again, whoever is about to mark it
    | .lost _ => some { c with
        conn := none, sup := .top, waiter := clearSent c.waiter c.waiters.entries }
    | _ => none
  | .register rid claim sealed =>
    -- an ID that is outstanding already is refused
    if (c.waiters.lookup rid).isSome then some c
    else some { c with
      waiters := c.waiters.insert rid c.waiter.next
      waiter := c.waiter.alloc { claim := claim, sealed := sealed } }.resendWaiters
  | .capture i list =>
    match c.calls.get i with
    | .start =>
      -- `range` over a map has no order
      if list.Perm c.unsent then
        match c.conn with
        | none => some (c.setCall i .returned)
        | some k => some (c.setCall i (.sending k list))
      else none
    | _ => none
  | .send i ok =>
    match c.calls.get i with
    | .sending k (p :: list) =>
      if ok then some ({ c with
        log := c.log ++ [Sending.mk k p.2 ((c.waiter.get p.2).request p.1)] }.setCall i
          (.marking k p list))
      -- the rest of the list is given up
      else some (c.setCall i (.failed k))
    | _ => none
  | .mark i =>
    match c.calls.get i with
    -- under the mutex again, but `c.conn` is not looked at
    | .marking k p list => some ({ c with
        waiter := c.waiter.modify p.2 fun x => { x with sent := true } }.setCall i
          (.sending k list))
    | _ => none
  | .unregister rid => some { c with waiters := c.waiters.erase rid }
  | .dispatch m =>
    match c.sup with
    | .pumping _ =>
      match c.waiters.lookup m.rid with
      | some a => some { c with waiter := c.waiter.modify a fun x => x.receive m }
      | none => some c
    | _ => none
  | .await a paired => some { c with waiter := c.waiter.modify a fun x =>
      if paired then { x with paired := none } else { x with published := none } }
  | .close => some { c with closed := true, conn := none }

/-! ## What a step does -/

/-- A change of a waiter that leaves its request and its mark alone. -/
def Channels (f : Waiter → Waiter) : Prop :=
  ∀ x, (f x).claim = x.claim ∧ (f x).sealed = x.sealed ∧ (f x).sent = x.sent

/-- What an action does, as far as requests, marks and sends go. -/
inductive Change (c : Client) : ClientAct → Client → Prop
  | same {a : ClientAct} : Change c a c
  /-- The supervisor goes on, in the same round. -/
  | goesOn {a : ClientAct} {sup : Supervisor} (hlive : sup.live = c.sup.live) :
    Change c a { c with sup := sup }
  | connect (hsup : c.sup.live = none) :
    Change c .connect { c with
      conn := some c.conns, conns := c.conns + 1,
        sup := .resending c.conns c.calls.next }.resendWaiters
  | reset : Change c .reset { c with
      conn := none, sup := .top, waiter := clearSent c.waiter c.waiters.entries }
  | register {rid : GoString} {claim : Bool} {sealed : List UInt8}
      (hnew : c.waiters.lookup rid = none) :
    Change c (.register rid claim sealed) { c with
      waiters := c.waiters.insert rid c.waiter.next
      waiter := c.waiter.alloc { claim := claim, sealed := sealed } }.resendWaiters
  | captureNone {i : ℕ} {list : List Pending} (hcall : c.calls.get i = .start)
      (hconn : c.conn = none) : Change c (.capture i list) (c.setCall i .returned)
  | capture {i k : ℕ} {list : List Pending} (hcall : c.calls.get i = .start)
      (hconn : c.conn = some k) (hlist : list.Perm c.unsent) :
    Change c (.capture i list) (c.setCall i (.sending k list))
  | send {i k : ℕ} {p : Pending} {list : List Pending}
      (hcall : c.calls.get i = .sending k (p :: list)) :
    Change c (.send i true) ({ c with
      log := c.log ++ [Sending.mk k p.2 ((c.waiter.get p.2).request p.1)] }.setCall i
        (.marking k p list))
  | sendFail {i k : ℕ} {p : Pending} {list : List Pending}
      (hcall : c.calls.get i = .sending k (p :: list)) :
    Change c (.send i false) (c.setCall i (.failed k))
  | mark {i k : ℕ} {p : Pending} {list : List Pending}
      (hcall : c.calls.get i = .marking k p list) :
    Change c (.mark i) ({ c with
      waiter := c.waiter.modify p.2 fun x => { x with sent := true } }.setCall i (.sending k list))
  | unregister {rid : GoString} :
    Change c (.unregister rid) { c with waiters := c.waiters.erase rid }
  | channels {a : ClientAct} {w : ℕ} {f : Waiter → Waiter} (hf : Channels f) :
    Change c a { c with waiter := c.waiter.modify w f }
  | close : Change c .close { c with closed := true, conn := none }

theorem channels_receive (m : Reply) : Channels fun x => x.receive m := by
  intro x
  cases m <;> exact ⟨rfl, rfl, rfl⟩

theorem channels_await (paired : Bool) :
    Channels fun x => if paired then { x with paired := none }
      else { x with published := none } := by
  intro x
  cases paired <;> exact ⟨rfl, rfl, rfl⟩

variable {c} {c' : Client} {a : ClientAct}

/-- **The change of an action.** The goroutine is where the step starts, or there is no step. -/
theorem next_change (hnext : c.next a = some c') : Change c a c' := by
  cases a with
  | dial =>
    simp only [next] at hnext
    split at hnext
    · next hsup =>
      split_ifs at hnext
      cases hnext
      exact .goesOn (by rw [hsup]; rfl)
    · cases hnext
  | dialFail =>
    simp only [next] at hnext
    split at hnext
    · next hsup =>
      cases hnext
      exact .goesOn (by rw [hsup]; rfl)
    · cases hnext
  | connect =>
    simp only [next] at hnext
    split at hnext
    · next hsup =>
      cases hnext
      exact .connect (by rw [hsup]; rfl)
    · cases hnext
  | pump =>
    simp only [next] at hnext
    split at hnext
    · next hsup =>
      split_ifs at hnext
      cases hnext
      exact .goesOn (by rw [hsup]; rfl)
    · cases hnext
  | lose =>
    simp only [next] at hnext
    split at hnext
    · next hsup =>
      cases hnext
      exact .goesOn (by rw [hsup]; rfl)
    · cases hnext
  | reset =>
    simp only [next] at hnext
    split at hnext
    · cases hnext
      exact .reset
    · cases hnext
  -- an ID that is outstanding already is refused, and nothing changes
  | register rid claim sealed =>
    simp only [next] at hnext
    split_ifs at hnext with hnew
    · cases hnext
      exact .same
    · cases hnext
      exact .register (by simpa using hnew)
  | capture i list =>
    simp only [next] at hnext
    split at hnext
    · next hcall =>
      split_ifs at hnext with hlist
      split at hnext
      · next hconn =>
        cases hnext
        exact .captureNone hcall hconn
      · next hconn =>
        cases hnext
        exact .capture hcall hconn hlist
    · cases hnext
  | send i ok =>
    simp only [next] at hnext
    split at hnext
    · next hcall =>
      cases ok with
      | true =>
        cases hnext
        exact .send hcall
      | false =>
        cases hnext
        exact .sendFail hcall
    · cases hnext
  | mark i =>
    simp only [next] at hnext
    split at hnext
    · next hcall =>
      cases hnext
      exact .mark hcall
    · cases hnext
  | unregister rid =>
    cases hnext
    exact .unregister
  | dispatch m =>
    simp only [next] at hnext
    split at hnext
    · split at hnext
      · cases hnext
        exact .channels (channels_receive m)
      · cases hnext
        exact .same
    · cases hnext
  | await w paired =>
    cases hnext
    exact .channels (channels_await paired)
  | close =>
    cases hnext
    exact .close

/-! ## Outstanding requests -/

/-- The request of waiter `p.2` under the ID `p.1` has been sent on connection `k`. -/
def SentOn (c : Client) (k : ℕ) (p : Pending) : Prop :=
  Sending.mk k p.2 ((c.waiter.get p.2).request p.1) ∈ c.log

instance (c : Client) (k : ℕ) (p : Pending) : Decidable (c.SentOn k p) :=
  inferInstanceAs (Decidable (_ ∈ _))

end Client

namespace Call

/-- What the call is still going through. -/
def list : Call → List Pending
  | sending _ l => l
  | marking _ p l => p :: l
  | start | returned | failed _ => []

/-- The call may yet send `p` on connection `k`, or has failed there. -/
def Owes (k : ℕ) (p : Pending) : Call → Prop
  | start => True
  | sending k' l | marking k' _ l => k' = k ∧ p ∈ l
  | failed k' => k' = k
  | returned => False

/-- The call has finished, and not with a send error on connection `k`. -/
def Done (k : ℕ) : Call → Prop
  | returned | sending _ [] => True
  | failed k' => k' ≠ k
  | start | sending _ (_ :: _) | marking _ _ _ => False

instance (k : ℕ) : DecidablePred (Done k)
  | returned | sending _ [] => inferInstanceAs (Decidable True)
  | failed k' => inferInstanceAs (Decidable (k' ≠ k))
  | start | sending _ (_ :: _) | marking _ _ _ => inferInstanceAs (Decidable False)

/-- A mark that is about to be made is about this connection. -/
def Current (conn : Option ℕ) : Call → Prop
  | marking k _ _ => conn = some k
  | start | sending _ _ | returned | failed _ => True

instance (conn : Option ℕ) : DecidablePred (Current conn)
  | marking k _ _ => inferInstanceAs (Decidable (conn = some k))
  | start | sending _ _ | returned | failed _ => inferInstanceAs (Decidable True)

theorem not_owes_of_done {k : ℕ} {p : Pending} {x : Call} (h : x.Done k) : ¬ x.Owes k p := by
  match x, h with
  | returned, _ => exact id
  | sending _ [], _ => exact fun ho => List.not_mem_nil ho.2
  | failed _, h => exact h

end Call

namespace Client

/-- Every outstanding request has been sent on the connection, once it is up and all calls are
through. -/
def Republished (c : Client) : Prop :=
  ∀ k, c.conn = some k → (∀ i < c.calls.next, (c.calls.get i).Done k) →
    ∀ rid a, c.waiters.lookup rid = some a → c.SentOn k (rid, a)

/-- A mark is made while the connection is the one its send was made on. -/
def Timely (c : Client) : ClientAct → Prop
  | .mark i => (c.calls.get i).Current c.conn
  | _ => True

instance (c : Client) : DecidablePred c.Timely
  | .mark i => inferInstanceAs (Decidable ((c.calls.get i).Current c.conn))
  | .dial | .dialFail | .connect | .pump | .lose | .reset | .register _ _ _ | .capture _ _
  | .send _ _ | .unregister _ | .dispatch _ | .await _ _ | .close =>
    inferInstanceAs (Decidable True)

/-- A step in which marks are timely. -/
def StepTimely (c : Client) (a : ClientAct) (c' : Client) : Prop := c.next a = some c' ∧ c.Timely a

/-- A waiter's address belongs to one ID, wherever the two stand together. -/
def Keyed (c : Client) (owner : ℕ → GoString) : Prop :=
  (∀ rid a, c.waiters.lookup rid = some a → a < c.waiter.next ∧ owner a = rid) ∧
    ∀ i, ∀ p ∈ (c.calls.get i).list, p.2 < c.waiter.next ∧ owner p.2 = p.1

/-- What holds in every state of a run with timely marks. -/
structure Tracked (c : Client) : Prop where
  live : ∀ k, c.conn = some k → c.sup.live = some k
  keyed : ∃ owner, c.Keyed owner
  /-- A mark is about the connection of this round. -/
  marked : ∀ rid a, c.waiters.lookup rid = some a → (c.waiter.get a).sent = true →
    ∃ k, c.sup.live = some k ∧ c.SentOn k (rid, a)
  marking : ∀ i k p list, c.calls.get i = .marking k p list → c.SentOn k p
  /-- What has not been sent on the connection, some call has yet to send. -/
  owed : ∀ k, c.conn = some k → ∀ rid a, c.waiters.lookup rid = some a →
    c.SentOn k (rid, a) ∨ ∃ i < c.calls.next, (c.calls.get i).Owes k (rid, a)

theorem Tracked.start : Tracked {} where
  live := nofun
  keyed := ⟨fun _ => [], nofun, fun _ _ hp => absurd hp List.not_mem_nil⟩
  marked := nofun
  marking _ _ _ _ h := absurd h nofun
  owed := nofun

variable {c c' : Client} {a : ClientAct}

/-- **What has been tracked has been sent.** When no call owes anything any more, every
outstanding request has been sent on this connection. -/
theorem Tracked.republished (h : c.Tracked) : c.Republished := by
  intro k hconn hdone rid a hlook
  rcases h.owed k hconn rid a hlook with hsent | ⟨i, hi, howes⟩
  · exact hsent
  · exact absurd howes (Call.not_owes_of_done (hdone i hi))

/-! ### What steps leave alone -/

theorem SentOn.mono {k : ℕ} {p : Pending} (h : c.SentOn k p) (hlog : c.log ⊆ c'.log)
    (hreq : (c'.waiter.get p.2).request p.1 = (c.waiter.get p.2).request p.1) : c'.SentOn k p := by
  unfold SentOn
  rw [hreq]
  exact hlog h

theorem request_congr {x y : Waiter} (rid : GoString) (hclaim : x.claim = y.claim)
    (hsealed : x.sealed = y.sealed) : x.request rid = y.request rid := by
  unfold Waiter.request
  rw [hclaim, hsealed]

theorem request_clearSent (entries : List (Sigma fun _ : GoString => ℕ)) (w : Heap Waiter) (b : ℕ)
    (rid : GoString) : ((clearSent w entries).get b).request rid = (w.get b).request rid := by
  induction entries generalizing w with
  | nil => rfl
  | cons e entries ih =>
    rw [clearSent, List.foldl_cons, ← clearSent, ih]
    by_cases hb : b = e.2
    · rw [hb, Heap.get_modify_self]
      rfl
    · rw [Heap.get_modify_of_ne _ _ hb]

theorem next_clearSent (entries : List (Sigma fun _ : GoString => ℕ)) (w : Heap Waiter) :
    (clearSent w entries).next = w.next := by
  induction entries generalizing w with
  | nil => rfl
  | cons e entries ih => exact ih _

theorem sent_clearSent_of_false (entries : List (Sigma fun _ : GoString => ℕ)) (w : Heap Waiter)
    {b : ℕ} (h : (w.get b).sent = false) : ((clearSent w entries).get b).sent = false := by
  induction entries generalizing w with
  | nil => exact h
  | cons e entries ih =>
    apply ih
    by_cases hb : b = e.2
    · rw [hb, Heap.get_modify_self]
    · rw [Heap.get_modify_of_ne _ _ hb, h]

theorem sent_clearSent (entries : List (Sigma fun _ : GoString => ℕ)) (w : Heap Waiter)
    {e : Sigma fun _ : GoString => ℕ} (he : e ∈ entries) :
    ((clearSent w entries).get e.2).sent = false := by
  induction entries generalizing w with
  | nil => exact absurd he List.not_mem_nil
  | cons e' entries ih =>
    rcases List.mem_cons.mp he with rfl | he
    · apply sent_clearSent_of_false entries
      rw [Heap.get_modify_self]
    · exact ih _ he

theorem mem_unsent {rid : GoString} {a : ℕ} (hlook : c.waiters.lookup rid = some a)
    (hsent : (c.waiter.get a).sent = false) : (rid, a) ∈ c.unsent := by
  refine List.mem_map.mpr ⟨⟨rid, a⟩, List.mem_filter.mpr ⟨?_, by simp [hsent]⟩, rfl⟩
  exact (Maps.lookup_eq_some_iff _).mp hlook

theorem lookup_of_mem_unsent {p : Pending} (hp : p ∈ c.unsent) :
    c.waiters.lookup p.1 = some p.2 := by
  obtain ⟨e, he, rfl⟩ := List.mem_map.mp hp
  exact (Maps.lookup_eq_some_iff _).mpr (List.mem_filter.mp he).1

theorem get_setCall_self (i : ℕ) (x : Call) : (c.setCall i x).calls.get i = x :=
  c.calls.get_modify_self fun _ => x

theorem get_setCall_of_ne {i j : ℕ} (x : Call) (hj : j ≠ i) :
    (c.setCall i x).calls.get j = c.calls.get j :=
  c.calls.get_modify_of_ne (fun _ => x) hj

/-! ### The invariant, part by part -/

namespace Tracked

/-- A call goes on: it keeps to its list or takes what is in the map, it marks what it has sent,
and what it no longer owes has been sent. All steps of `resendWaiters` are of this form. -/
theorem setCall (h : c.Tracked) {i : ℕ} {x : Call}
    (hlist : ∀ p ∈ x.list, p ∈ (c.calls.get i).list ∨ c.waiters.lookup p.1 = some p.2)
    (hmark : ∀ k p list, x = .marking k p list → c.SentOn k p)
    (howes : ∀ k, c.conn = some k → ∀ rid a, c.waiters.lookup rid = some a →
      (c.calls.get i).Owes k (rid, a) → c.SentOn k (rid, a) ∨ x.Owes k (rid, a)) :
    (c.setCall i x).Tracked where
  live := h.live
  keyed := by
    obtain ⟨owner, hmap, hcalls⟩ := h.keyed
    refine ⟨owner, hmap, fun j p hp => ?_⟩
    by_cases hj : j = i
    · rw [hj, get_setCall_self] at hp
      rcases hlist p hp with hold | hlook
      · exact hcalls i p hold
      · exact hmap p.1 p.2 hlook
    · rw [get_setCall_of_ne x hj] at hp
      exact hcalls j p hp
  marked := h.marked
  marking j k p list hj := by
    by_cases hji : j = i
    · rw [hji, get_setCall_self] at hj
      exact hmark k p list hj
    · rw [get_setCall_of_ne x hji] at hj
      exact h.marking j k p list hj
  owed k hconn rid a hlook := by
    rcases h.owed k hconn rid a hlook with hsent | ⟨j, hlt, hj⟩
    · exact .inl hsent
    · by_cases hji : j = i
      · refine (howes k hconn rid a hlook (hji ▸ hj)).imp_right fun hx => ⟨i, hji ▸ hlt, ?_⟩
        rw [get_setCall_self]
        exact hx
      · refine .inr ⟨j, hlt, ?_⟩
        rw [get_setCall_of_ne x hji]
        exact hj

theorem logged (h : c.Tracked) (more : List Sending) :
    Tracked { c with log := c.log ++ more } := by
  have hmono : ∀ {k p}, c.SentOn k p → SentOn { c with log := c.log ++ more } k p :=
    fun hs => hs.mono (List.subset_append_left _ _) rfl
  refine ⟨h.live, h.keyed, fun rid a hlook hsent => ?_, fun i k p list hi => ?_,
    fun k hconn rid a hlook => ?_⟩
  · obtain ⟨k, hlive, hs⟩ := h.marked rid a hlook hsent
    exact ⟨k, hlive, hmono hs⟩
  · exact hmono (h.marking i k p list hi)
  · exact (h.owed k hconn rid a hlook).imp_left hmono

/-- The waiters change, but not their requests, and a mark that is new is about this round. -/
theorem waiters (h : c.Tracked) {w : Heap Waiter} (hnext : w.next = c.waiter.next)
    (hreq : ∀ b rid, (w.get b).request rid = (c.waiter.get b).request rid)
    (hnew : ∀ rid a, c.waiters.lookup rid = some a → (w.get a).sent = true →
      (c.waiter.get a).sent = true ∨ ∃ k, c.sup.live = some k ∧ c.SentOn k (rid, a)) :
    Tracked { c with waiter := w } := by
  have hmono : ∀ {k p}, c.SentOn k p → SentOn { c with waiter := w } k p :=
    fun hs => hs.mono (List.Subset.refl _) (hreq _ _)
  refine ⟨h.live, ?_, fun rid a hlook hsent => ?_, fun i k p list hi => ?_,
    fun k hconn rid a hlook => ?_⟩
  · obtain ⟨owner, hmap, hcalls⟩ := h.keyed
    exact ⟨owner, fun rid a hlook => hnext ▸ hmap rid a hlook, fun i p hp => hnext ▸ hcalls i p hp⟩
  · rcases hnew rid a hlook hsent with hold | ⟨k, hlive, hs⟩
    · obtain ⟨k, hlive, hs⟩ := h.marked rid a hlook hold
      exact ⟨k, hlive, hmono hs⟩
    · exact ⟨k, hlive, hmono hs⟩
  · exact hmono (h.marking i k p list hi)
  · exact (h.owed k hconn rid a hlook).imp_left hmono

theorem owes_alloc_start (calls : Heap Call) (k : ℕ) (p : Pending) :
    ∃ i < (calls.alloc .start).next, ((calls.alloc .start).get i).Owes k p := by
  refine ⟨calls.next, Nat.lt_succ_self _, ?_⟩
  rw [Heap.get_alloc_next]
  trivial

theorem get_alloc_start (calls : Heap Call) (i : ℕ) :
    (calls.alloc .start).get i = .start ∨ (calls.alloc .start).get i = calls.get i := by
  by_cases hi : i = calls.next
  · left
    rw [hi]
    exact Heap.get_alloc_next _ _
  · right
    exact Heap.get_alloc_of_ne _ _ hi

theorem mem_list_of_alloc {calls : Heap Call} {i : ℕ} {p : Pending}
    (hp : p ∈ ((calls.alloc .start).get i).list) : p ∈ (calls.get i).list := by
  rcases get_alloc_start calls i with hi | hi <;> rw [hi] at hp
  · exact absurd hp List.not_mem_nil
  · exact hp

theorem marking_of_alloc {calls : Heap Call} {i k : ℕ} {p : Pending} {list : List Pending}
    (h : (calls.alloc .start).get i = .marking k p list) : calls.get i = .marking k p list := by
  rcases get_alloc_start calls i with hi | hi <;> rw [hi] at h
  · exact absurd h nofun
  · exact h

/-- **The supervisor connects**: nothing is marked, and its call owes everything. -/
theorem connect (h : c.Tracked) (hsup : c.sup.live = none) :
    Tracked { c with
      conn := some c.conns, conns := c.conns + 1,
        sup := .resending c.conns c.calls.next }.resendWaiters where
  live k hk := hk
  keyed := by
    obtain ⟨owner, hmap, hcalls⟩ := h.keyed
    exact ⟨owner, hmap, fun i p hp => hcalls i p (mem_list_of_alloc hp)⟩
  marked rid a hlook hsent := by
    obtain ⟨k, hlive, -⟩ := h.marked rid a hlook hsent
    rw [hsup] at hlive
    exact absurd hlive nofun
  marking i k p list hi := h.marking i k p list (marking_of_alloc hi)
  owed k _ rid a _ := .inr (owes_alloc_start c.calls k (rid, a))

/-- **A request is registered**: its waiter is new, and the call that follows owes everything. -/
theorem register (h : c.Tracked) (rid : GoString) (claim : Bool) (sealed : List UInt8) :
    Tracked { c with
      waiters := c.waiters.insert rid c.waiter.next
      waiter := c.waiter.alloc { claim := claim, sealed := sealed } }.resendWaiters := by
  obtain ⟨owner, hmap, hcalls⟩ := h.keyed
  -- the waiters that were there are the same
  have hold : ∀ {k p}, p.2 < c.waiter.next → c.SentOn k p →
      SentOn { c with
        waiters := c.waiters.insert rid c.waiter.next
        waiter := c.waiter.alloc { claim := claim, sealed := sealed } }.resendWaiters k p := by
    intro k p hlt hs
    refine hs.mono (List.Subset.refl _) ?_
    exact congrArg (fun x => x.request p.1) (c.waiter.get_alloc_of_lt _ hlt)
  constructor
  case live => exact h.live
  case keyed =>
    refine ⟨Function.update owner c.waiter.next rid, fun rid' a hlook => ?_, fun i p hp => ?_⟩
    · rcases (Maps.lookup_insert_iff _).mp hlook with ⟨rfl, rfl⟩ | ⟨-, hlook⟩
      · exact ⟨Nat.lt_succ_self _, Function.update_self _ _ _⟩
      · obtain ⟨hlt, howner⟩ := hmap rid' a hlook
        exact ⟨Nat.lt_succ_of_lt hlt, by rw [Function.update_of_ne hlt.ne, howner]⟩
    · obtain ⟨hlt, howner⟩ := hcalls i p (mem_list_of_alloc hp)
      exact ⟨Nat.lt_succ_of_lt hlt, by rw [Function.update_of_ne hlt.ne, howner]⟩
  case marked =>
    intro rid' a hlook hsent
    rcases (Maps.lookup_insert_iff _).mp hlook with ⟨rfl, rfl⟩ | ⟨-, hlook⟩
    · rw [show (resendWaiters _).waiter = c.waiter.alloc _ from rfl, Heap.get_alloc_next] at hsent
      exact absurd hsent (by simp)
    · have hlt := (hmap rid' a hlook).1
      rw [show (resendWaiters _).waiter = c.waiter.alloc _ from rfl,
        Heap.get_alloc_of_lt _ _ hlt] at hsent
      obtain ⟨k, hlive, hs⟩ := h.marked rid' a hlook hsent
      exact ⟨k, hlive, hold hlt hs⟩
  case marking =>
    intro i k p list hi
    have hcall := marking_of_alloc hi
    have hmem : p ∈ (c.calls.get i).list := by
      rw [hcall]
      exact List.mem_cons_self
    exact hold (hcalls i p hmem).1 (h.marking i k p list hcall)
  case owed => exact fun k _ rid a _ => .inr (owes_alloc_start c.calls k (rid, a))

/-- **The round ends**: nothing is marked any more. -/
theorem reset (h : c.Tracked) :
    Tracked { c with
      conn := none, sup := .top, waiter := clearSent c.waiter c.waiters.entries } where
  live := nofun
  keyed := by
    obtain ⟨owner, hmap, hcalls⟩ := h.keyed
    have hnext := next_clearSent c.waiters.entries c.waiter
    exact ⟨owner, fun rid a hlook => hnext ▸ hmap rid a hlook, fun i p hp => hnext ▸ hcalls i p hp⟩
  marked rid a hlook hsent := by
    have hclear := sent_clearSent c.waiters.entries c.waiter ((Maps.lookup_eq_some_iff _).mp hlook)
    exact absurd (hsent.symm.trans hclear) nofun
  marking i k p list hi := (h.marking i k p list hi).mono (List.Subset.refl _)
    (request_clearSent c.waiters.entries c.waiter p.2 p.1)
  owed := nofun

/-- Requests are withdrawn, or the connection is given up. -/
theorem fewer (h : c.Tracked) {waiters : AList fun _ : GoString => ℕ} {conn : Option ℕ}
    {closed : Bool} (hconn : conn = c.conn ∨ conn = none)
    (hfewer : ∀ rid a, waiters.lookup rid = some a → c.waiters.lookup rid = some a) :
    Tracked { c with waiters := waiters, conn := conn, closed := closed } where
  live k hk := by
    rcases hconn with rfl | rfl
    · exact h.live k hk
    · exact absurd hk nofun
  keyed := by
    obtain ⟨owner, hmap, hcalls⟩ := h.keyed
    exact ⟨owner, fun rid a hlook => hmap rid a (hfewer rid a hlook), hcalls⟩
  marked rid a hlook hsent := h.marked rid a (hfewer rid a hlook) hsent
  marking := h.marking
  owed k hk rid a hlook := by
    rcases hconn with rfl | rfl
    · exact h.owed k hk rid a (hfewer rid a hlook)
    · exact absurd hk nofun

/-- **A call takes its list**: what is not on it is marked, and has been sent in this round. -/
theorem capture (h : c.Tracked) {i k : ℕ} {list : List Pending}
    (hconn : c.conn = some k) (hlist : list.Perm c.unsent) :
    (c.setCall i (.sending k list)).Tracked := by
  refine h.setCall (fun p hp => .inr (lookup_of_mem_unsent (hlist.mem_iff.mp hp))) nofun ?_
  intro k' hk' rid a hlook _
  obtain rfl : k = k' := Option.some.inj (hconn.symm.trans hk')
  by_cases hsent : (c.waiter.get a).sent = true
  · obtain ⟨k', hlive, hs⟩ := h.marked rid a hlook hsent
    obtain rfl : k = k' := Option.some.inj ((h.live k hconn).symm.trans hlive)
    exact .inl hs
  · exact .inr ⟨rfl, hlist.mem_iff.mpr (mem_unsent hlook (by simpa using hsent))⟩

/-- **A request is sent.** From here to the mark there is no lock, which is where the connection
may change. -/
theorem send (h : c.Tracked) {i k : ℕ} {p : Pending} {list : List Pending}
    (hcall : c.calls.get i = .sending k (p :: list)) :
    Tracked ({ c with
      log := c.log ++ [Sending.mk k p.2 ((c.waiter.get p.2).request p.1)] }.setCall i
        (.marking k p list)) := by
  have hsent : SentOn { c with
      log := c.log ++ [Sending.mk k p.2 ((c.waiter.get p.2).request p.1)] } k p :=
    List.mem_append_right _ (List.mem_singleton_self _)
  -- it is the head of the list; the rest is owed as before
  refine (h.logged _).setCall ?_ ?_ ?_
  · intro p' hp'
    left
    dsimp only
    rw [hcall]
    exact hp'
  · intro k' p' list' heq
    cases heq
    exact hsent
  · intro k' _ rid a _ howes
    dsimp only at howes
    rw [hcall] at howes
    obtain ⟨rfl, hmem⟩ := howes
    rcases List.mem_cons.mp hmem with rfl | hmem
    · exact .inl hsent
    · exact .inr ⟨rfl, hmem⟩

/-- **A timely mark** is about this round: the connection is the one the request was sent on. -/
theorem mark (h : c.Tracked) {i k : ℕ} {p : Pending} {list : List Pending}
    (hcall : c.calls.get i = .marking k p list) (hconn : c.conn = some k) :
    Tracked ({ c with
      waiter := c.waiter.modify p.2 fun x => { x with sent := true } }.setCall i
        (.sending k list)) := by
  obtain ⟨owner, hmap, hcalls⟩ := h.keyed
  have howner : owner p.2 = p.1 := by
    refine (hcalls i p ?_).2
    rw [hcall]
    exact List.mem_cons_self
  have hmarked : Tracked { c with
      waiter := c.waiter.modify p.2 fun x => { x with sent := true } } := by
    refine h.waiters rfl (fun b rid => ?_) fun rid a hlook hsent => ?_
    · by_cases hb : b = p.2
      · rw [hb, Heap.get_modify_self]
        rfl
      · rw [Heap.get_modify_of_ne _ _ hb]
    · by_cases ha : a = p.2
      · -- the marked waiter stands in the map under the ID it was sent for
        obtain rfl : p.1 = rid := by rw [← howner, ← ha, (hmap rid a hlook).2]
        subst ha
        exact .inr ⟨k, h.live k hconn, h.marking i k p list hcall⟩
      · rw [Heap.get_modify_of_ne _ _ ha] at hsent
        exact .inl hsent
  refine hmarked.setCall ?_ (fun _ _ _ heq => absurd heq nofun) ?_
  · intro p' hp'
    left
    dsimp only
    rw [hcall]
    exact List.mem_cons_of_mem _ hp'
  · intro k' _ rid a _ howes
    dsimp only at howes
    rw [hcall] at howes
    exact .inr howes

/-- **One step with timely marks keeps the invariant.** -/
theorem step (h : c.Tracked) (hstep : StepTimely c a c') : c'.Tracked := by
  obtain ⟨hnext, htimely⟩ := hstep
  cases next_change hnext with
  | same => exact h
  | goesOn hlive =>
    refine ⟨fun k hk => hlive ▸ h.live k hk, h.keyed, fun rid a hlook hsent =>
      ?_, h.marking, h.owed⟩
    exact hlive ▸ h.marked rid a hlook hsent
  | connect hsup => exact h.connect hsup
  | reset => exact h.reset
  | register _ => exact h.register _ _ _
  | captureNone _ hconn =>
    refine h.setCall (fun _ hp => absurd hp List.not_mem_nil) nofun fun k hk => ?_
    rw [hconn] at hk
    exact absurd hk nofun
  | capture _ hconn hlist => exact h.capture hconn hlist
  | send hcall => exact h.send hcall
  | sendFail hcall =>
    refine h.setCall (fun _ hp => absurd hp List.not_mem_nil) nofun fun k _ rid a _ howes => ?_
    rw [hcall] at howes
    exact .inr howes.1
  -- the only change for which the condition on the step is needed
  | mark hcall =>
    have hcurrent : Call.Current c.conn (c.calls.get _) := htimely
    rw [hcall] at hcurrent
    exact h.mark hcall hcurrent
  | unregister => exact h.fewer (.inl rfl) fun _ _ hlook => (Maps.lookup_of_erase _ hlook).1
  | channels hf =>
    refine h.waiters rfl (fun b rid => ?_) fun rid a _ hsent => .inl ?_
    · exact request_congr rid (Heap.get_modify_congr _ _ (fun x => (hf x).1) b)
        (Heap.get_modify_congr _ _ (fun x => (hf x).2.1) b)
    · rw [← hsent]
      exact (Heap.get_modify_congr _ _ (fun x => (hf x).2.2) a).symm
  | close => exact h.fewer (.inr rfl) fun _ _ hlook => hlook

end Tracked

/-- **Outstanding requests survive reconnection**, as long as every mark is made on the connection
its send was made on. -/
theorem outstanding_sent {acts : List ClientAct} (hrun : Run StepTimely {} acts c) :
    c.Republished :=
  (hrun.invariant Tracked .start fun _ _ _ h hstep => h.step hstep).republished

def reconnectActs : List ClientAct :=
  [.dial, .connect, .capture 0 [], .pump, .register [1] false [7], .capture 1 [([1], 0)],
    .send 1 true, .mark 1, .lose, .reset, .dial, .connect, .capture 2 [([1], 0)], .send 2 true,
    .mark 2]

/-- The invite is published again on the second connection. -/
theorem outstanding_sent_reconnected :
    ∃ c, Run StepTimely {} reconnectActs c ∧
      (c.conn = some 1 ∧ (∀ i < c.calls.next, (c.calls.get i).Done 1) ∧
        c.waiters.lookup [1] = some 0) ∧ c.SentOn 1 ([1], 0) := by
  obtain ⟨c, hrun, hend⟩ : ∃ c, Run StepTimely {} reconnectActs c ∧
      (c.conn = some 1 ∧ (∀ i < c.calls.next, (c.calls.get i).Done 1) ∧
        c.waiters.lookup [1] = some 0) := exists_run_guarded _ (by decide)
  exact ⟨c, hrun, hend, outstanding_sent hrun 1 hend.1 hend.2.1 [1] 0 hend.2.2⟩

def lateActs : List ClientAct :=
  [.dial, .connect, .capture 0 [], .pump, .register [1] false [7], .capture 1 [([1], 0)],
    .send 1 true, .lose, .reset, .mark 1, .dial, .connect, .capture 2 []]

/-- The second connection is up and every call has returned without an error, but the invite has
not been published on it: the late mark has made its call skip it. The mark was set after the
reset had cleared all marks. -/
theorem marked_after_reset :
    ∃ c, Run (ofNext next) {} lateActs c ∧
      (c.conn = some 1 ∧ (∀ i < c.calls.next, (c.calls.get i).Done 0 ∧ (c.calls.get i).Done 1) ∧
        c.waiters.lookup [1] = some 0 ∧ ¬ c.SentOn 1 ([1], 0)) ∧ ¬ c.Republished := by
  obtain ⟨c, hrun, hend⟩ : ∃ c, Run (ofNext next) {} lateActs c ∧
      (c.conn = some 1 ∧
        (∀ i < c.calls.next, (c.calls.get i).Done 0 ∧ (c.calls.get i).Done 1) ∧
        c.waiters.lookup [1] = some 0 ∧ ¬ c.SentOn 1 ([1], 0)) := exists_run_of_any _ (by decide)
  refine ⟨c, hrun, hend, fun h => ?_⟩
  exact hend.2.2.2 (h 1 hend.1 (fun i hi => (hend.2.1 i hi).2) [1] 0 hend.2.2.1)

end Client

end Heimdall.Rendezvous
