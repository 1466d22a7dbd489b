/-
The relay, message by message: `serveConn`, `pair` and `attachCircuit` of
`internal/relay/server.go`.

The `Server` of the other modules has the tables, and leaves the messages to the environment. Here
they are what the handlers read and write. A handler that has read a message has something to do
(`Task`), and does it in several steps, between which the other handlers do theirs: it looks into
the tables once, and sends one message at a time. So a publisher may be told that its code was
claimed before it is told that it was published.

Each step is at most one step of the `Server` (`serving_refines`), so all that was proved of that
one is true here. Who learns what is the subject of `Told`.
-/
import Heimdall.Control
import Heimdall.Expect
import Heimdall.RateLimit
import Heimdall.Relay

set_option autoImplicit false

namespace Heimdall.Serving

open Heimdall.Peers (GoString encodeToString)
open Heimdall.Relay
open Heimdall.Rendezvous (Message MsgType msgCircuitOK msgError ticketSize)
open Heimdall.Runs

/-! ## Messages -/

def msgPublished : GoString := [112, 117, 98, 108, 105, 115, 104, 101, 100]

def msgCircuit : GoString := [99, 105, 114, 99, 117, 105, 116]

def msgBye : GoString := [98, 121, 101]

/-- The reasons for which a request is refused. -/
inductive Reason where
  | rid (e : Refusal)
  | rateLimit
  | atCapacity
  | unexpectedMessage
  | noSuchCode
  | ownCode
  | internalError
  | peerWentAway
  | malformedTicket
  | unknownTicket

def Reason.message : Reason → String
  | .rid .malformedRID => "malformed rendezvous id"
  | .rid .candidatesTooLarge => "candidate list too large"
  | .rateLimit => "rate limit exceeded"
  | .atCapacity => "relay is at capacity"
  | .unexpectedMessage => "unexpected message"
  | .noSuchCode => "no such invite code"
  | .ownCode => "cannot claim your own invite code"
  | .internalError => "internal error"
  | .peerWentAway => "peer went away"
  | .malformedTicket => "malformed ticket"
  | .unknownTicket => "unknown or spent ticket"

def errorMessage (rid : GoString) (reason : Reason) : Message where
  type := msgError
  rendezvousID := rid
  reason := reason.message.toUTF8.data.toList

def publishedMessage (rid observed : GoString) : Message where
  type := msgPublished
  rendezvousID := rid
  observed := observed

def circuitOK : Message where
  type := msgCircuitOK

def sourceIP (remoteAddr : GoString) : GoString :=
  match GoNet.splitHostPort remoteAddr with
  | some (host, _) => host
  | none => remoteAddr

/-- The number by which the `Server` knows the text of a ticket. -/
def ticketKey (t : GoString) : ℕ := Nat.ofDigits 257 (t.map fun b => b.toNat + 1)

/-- The `Server` of `Relay` has numbers for tickets, and the text of a ticket is one: its bytes
are digits to the base 257, each one more than its value, so that no text is the beginning of
another one with zeros behind it. -/
theorem ticketKey_inj {t t' : GoString} (h : ticketKey t = ticketKey t') : t = t' := by
  have hdigits : ∀ u : GoString, Nat.digits 257 (ticketKey u) = u.map fun b => b.toNat + 1 := by
    intro u
    apply Nat.digits_ofDigits 257 (by decide)
    · intro d hd
      obtain ⟨b, -, rfl⟩ := List.mem_map.mp hd
      have := b.toNat_lt
      omega
    · -- no digit is zero
      intro hne hzero
      obtain ⟨b, -, hb⟩ := List.mem_map.mp (List.getLast_mem hne)
      omega
  have hmap := (hdigits t).symm.trans ((congrArg _ h).trans (hdigits t'))
  apply List.map_injective_iff.mpr _ hmap
  intro b b' hb
  exact UInt8.toNat_inj.mp (by simpa using hb)

/-! ## The variables of the handlers -/

/-- The variables of `pair` once it has taken the code: the claim, and the entry it was for. -/
structure Claim where
  claimer : ℕ
  rid : GoString
  cand : GoString
  publisher : ℕ
  candidates : GoString
  observed : GoString
  deriving DecidableEq

/-- A pairing: the same with its tickets and its circuit. -/
structure Pairing extends Claim where
  ticketA : List UInt8
  ticketB : List UInt8
  circuit : ℕ
  deriving DecidableEq

def Pairing.ticket (i : Pairing) : Bool → List UInt8
  | false => i.ticketA
  | true => i.ticketB

def Pairing.party (i : Pairing) : Bool → ℕ
  | false => i.publisher
  | true => i.claimer

/-- What a handler has to do before it reads on. -/
inductive Task where
  /-- In `RecvMessage`, or the connection is no control connection any more. -/
  | receiving
  /-- Before `addPending`. -/
  | publishing (rid cand : GoString)
  /-- After it. -/
  | answering (rid : GoString)
  | claiming (rid cand : GoString)
  /-- Before the first critical section of `pair`. -/
  | pairing (rid cand : GoString)
  /-- Before the tickets are drawn. -/
  | taken (v : Claim)
  /-- Before the two messages, between them and after them; with whether they could be sent. -/
  | telling (i : Pairing)
  | told (i : Pairing) (pubOk : Bool)
  | delivered (i : Pairing) (ok : Bool)
  /-- Before the critical section of `attachCircuit`. -/
  | redeeming (ticket : GoString)
  | attaching
  | refusing (rid : GoString) (reason : Reason) (returns : Bool)
  | leaving

/-- What was read and issued, for the record. -/
structure Log where
  heard : ℕ → List Message := fun _ => []
  pairings : List Pairing := []

/-- What the handlers know beside the tables of the `Server`. -/
structure Desk where
  publishes : RateCounter := {}
  /-- `sealed` and `observed` of the entries of `pending`. -/
  code : GoString → GoString × GoString := fun _ => ([], [])
  task : ℕ → Task := fun _ => .receiving
  said : ℕ → List Message := fun _ => []
  log : Log := {}

namespace Desk

variable (d : Desk)

def setTask (h : ℕ) (t : Task) : Desk := { d with task := Function.update d.task h t }

def hear (h : ℕ) (m : Message) : Desk :=
  { d with log := { d.log with heard := Function.update d.log.heard h (d.log.heard h ++ [m]) } }

def say (h : ℕ) (m : Message) (sent : Bool) : Desk :=
  if sent then { d with said := Function.update d.said h (d.said h ++ [m]) } else d

def issue (i : Pairing) : Desk := { d with log := { d.log with pairings := i :: d.log.pairings } }

theorem say_log (h : ℕ) (m : Message) (sent : Bool) : (d.say h m sent).log = d.log := by
  cases sent <;> rfl

end Desk

/-- The relay: its tables, and what is on the desks of its handlers. -/
structure Relaying where
  srv : Server := {}
  desk : Desk := {}

inductive ServingAct where
  /-- A connection is accepted. -/
  | accept
  | receive (h : ℕ) (msg : Message)
  /-- `RecvMessage` fails. -/
  | hangUp (h : ℕ)
  /-- The handler goes on with its task; a message it has to send can be sent or not. -/
  | go (h : ℕ) (sent : Bool)
  /-- The two calls of `NewTicket`. -/
  | draw (h : ℕ) (tickets : Option (List UInt8 × List UInt8))
  /-- A step that has nothing to do with messages. -/
  | relay (a : Act)

/-- The steps of the `Server` that have nothing to do with messages. -/
def silent : Act → Bool
  | .pumpEnd _ | .spliceEnd _ | .wake _ | .idle _ | .shutdown _ | .sweep | .close | .tick _ => true
  | .connect _ | .quit _ | .publish _ _ _ _ | .claim _ _ _ | .issue _ _ | .deliver _ _ | .redeem _ _
  | .answer _ _ => false

/-! ## Steps -/

section Steps

variable (L : Limits) (perMin : ℕ) (punchDelay : Int64) (remoteAddr : ℕ → GoString)

def Pairing.toPublisher (i : Pairing) : Message :=
  pairedMessage rolePublisher i.rid i.cand (remoteAddr i.claimer) punchDelay i.ticketA

def Pairing.toClaimer (i : Pairing) : Message :=
  pairedMessage roleClaimer i.rid i.candidates i.observed punchDelay i.ticketB

def minute : ℤ := 60 * 1000000000

def nanos (s : Server) : ℤ := s.now * 1000000

namespace Desk

variable (d : Desk)

/-- The control loop, from `RecvMessage` to where it first touches the tables. -/
def receive (now : ℤ) (h : ℕ) (msg : Message) : Desk :=
  let d := d.hear h msg
  if msg.type = MsgType.publish.text then
    match checkRID msg with
    | .error e => d.setTask h (.refusing msg.rendezvousID (.rid e) true)
    | .ok rid =>
      let (allowed, publishes) := d.publishes.allow perMin minute now (sourceIP (remoteAddr h))
      { d with publishes := publishes }.setTask h
        (if allowed then .publishing rid msg.candidates
        else .refusing msg.rendezvousID .rateLimit true)
  else if msg.type = MsgType.claim.text then
    match checkRID msg with
    | .error e => d.setTask h (.refusing msg.rendezvousID (.rid e) true)
    | .ok rid => d.setTask h (.claiming rid msg.candidates)
  else if msg.type = msgCircuit then
    match decodeExact msg.ticket ticketSize with
    | none => d.setTask h (.refusing [] .malformedTicket true)
    | some _ => d.setTask h (.redeeming msg.ticket)
  else if msg.type = msgBye then d.setTask h .leaving
  else d.setTask h (.refusing msg.rendezvousID .unexpectedMessage true)

end Desk

namespace Relaying

variable (x : Relaying)

def go (h : ℕ) (sent : Bool) : Option (Option Act × Desk) :=
  let d := x.desk
  match d.task h with
  | .receiving | .taken _ => none
  | .leaving => some (some (.quit h), d.setTask h .receiving)
  | .publishing rid cand =>
    match x.srv.addPending L rid h with
    | (false, _) => some (none, d.setTask h (.refusing rid .atCapacity true))
    | (true, _) =>
      some (some (.publish h rid true true),
        { d with code := Function.update d.code rid (cand, remoteAddr h) }.setTask h
          (.answering rid))
  | .answering rid =>
    if sent then
      some (none, (d.say h (publishedMessage rid (remoteAddr h)) true).setTask h .receiving)
    else some (some (.quit h), d.setTask h .receiving)
  | .claiming rid cand =>
    if sent then
      some (none, (d.say h (publishedMessage rid (remoteAddr h)) true).setTask h
        (.pairing rid cand))
    else some (some (.quit h), d.setTask h .receiving)
  | .pairing rid cand =>
    match x.srv.pending.lookup rid with
    | none => some (none, d.setTask h (.refusing rid .noSuchCode false))
    | some p =>
      if p.conn = h then some (none, d.setTask h (.refusing rid .ownCode false))
      else if x.srv.circuits ≥ L.maxCircuits then
        some (none, d.setTask h (.refusing rid .atCapacity false))
      else
        some (some (.claim h rid true),
          d.setTask h (.taken ⟨h, rid, cand, p.conn, (d.code rid).1, (d.code rid).2⟩))
  -- both are told, also if the first could not be reached
  | .telling i =>
    some (none, (d.say i.publisher (i.toPublisher punchDelay remoteAddr) sent).setTask h
      (.told i sent))
  | .told i pubOk =>
    some (none, (d.say h (i.toClaimer punchDelay) sent).setTask h (.delivered i (pubOk && sent)))
  | .delivered i ok =>
    some (some (.deliver h ok),
      d.setTask h (if ok then .receiving else .refusing i.rid .peerWentAway false))
  | .redeeming ticket =>
    match x.srv.tickets.lookup (ticketKey ticket) with
    | none => some (none, d.setTask h (.refusing [] .unknownTicket true))
    | some _ => some (some (.redeem h (ticketKey ticket)), d.setTask h .attaching)
  | .attaching => some (some (.answer h sent), (d.say h circuitOK sent).setTask h .receiving)
  | .refusing rid reason returns =>
    -- `refuse` does not care whether its message could be sent
    some (if returns then some (.quit h) else none,
      (d.say h (errorMessage rid reason) sent).setTask h .receiving)

/-- A step: what it does to the tables, and the desks after it. -/
def plan : ServingAct → Option (Option Act × Desk)
  | .accept => some (some (.connect (sourceIP (remoteAddr x.srv.handler.next))), x.desk)
  | .receive h msg =>
    match x.desk.task h with
    | .receiving =>
      if (x.srv.handler.get h).pc = .control then
        some (none, x.desk.receive perMin remoteAddr (nanos x.srv) h msg)
      else none
    | _ => none
  | .hangUp h =>
    match x.desk.task h with
    | .receiving => some (some (.quit h), x.desk)
    | _ => none
  | .go h sent => x.go L punchDelay remoteAddr h sent
  | .draw h tickets =>
    match x.desk.task h, tickets with
    | .taken v, none =>
      some (some (.issue h none), x.desk.setTask h (.refusing v.rid .internalError false))
    | .taken v, some (ta, tb) =>
      if ta.length = ticketSize ∧ tb.length = ticketSize then
        let i : Pairing := ⟨v, ta, tb, x.srv.circuit.next⟩
        some (some (.issue h (some (ticketKey (encodeToString ta), ticketKey (encodeToString tb)))),
          (x.desk.issue i).setTask h (.telling i))
      else none
    | _, _ => none
  | .relay a =>
    match a with
    | .sweep => some (some .sweep,
        { x.desk with publishes := x.desk.publishes.sweep minute (nanos x.srv) })
    | a => if silent a then some (some a, x.desk) else none

def act (s : Server) : Option Act → Option Server
  | none => some s
  | some a => s.next L a

theorem act_some (s : Server) (a : Act) : act L s (some a) = s.next L a := rfl

def next (a : ServingAct) : Option Relaying := do
  let (b, desk) ← x.plan L perMin punchDelay remoteAddr a
  let srv ← act L x.srv b
  return ⟨srv, desk⟩

end Relaying

end Steps

section Refinement

variable {L : Limits} {perMin : ℕ} {punchDelay : Int64} {remoteAddr : ℕ → GoString} {x y : Relaying}
  {a : ServingAct} {acts : List ServingAct}

theorem next_eq_some (h : x.next L perMin punchDelay remoteAddr a = some y) :
    ∃ b, x.plan L perMin punchDelay remoteAddr a = some (b, y.desk) ∧
      Relaying.act L x.srv b = some y.srv := by
  obtain ⟨⟨b, d⟩, hplan, h⟩ := Option.bind_eq_some_iff.mp h
  obtain ⟨s, hact, h⟩ := Option.bind_eq_some_iff.mp h
  obtain rfl := Option.some.inj h
  exact ⟨b, hplan, hact⟩

/-- **The messages refine the tables.** What the relay does while it reads and writes messages is
a run of the `Server`. So what holds in all of its runs holds for the relay with its messages. -/
theorem serving_refines
    (hrun : Run (ofNext (Relaying.next L perMin punchDelay remoteAddr)) {} acts x) :
    ∃ bs, Run (ofNext (Server.next L)) {} bs x.srv := by
  induction hrun with
  | nil => exact ⟨[], .nil⟩
  | snoc _ hstep ih =>
    obtain ⟨bs, hbs⟩ := ih
    obtain ⟨b, -, hact⟩ := next_eq_some hstep
    cases b with
    | none =>
      rw [← Option.some.inj hact]
      exact ⟨bs, hbs⟩
    | some b => exact ⟨bs ++ [b], hbs.snoc hact⟩

end Refinement

end Heimdall.Serving
