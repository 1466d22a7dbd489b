/-
The relay server, `internal/relay/server.go`.

Every connection has a handler goroutine, and the handlers meet in the tables of the server. A
handler is where it stands between two of its steps (`Pc`); a step is a critical section with
what the handler does around it, such as sending a message. Whether a message can be sent, the
CSPRNG answers and the rate limit allows is up to the environment and part of the step. The clock
is a number that grows.

`pair` takes a slot, issues two tickets and delivers them; `attachCircuit` redeems a ticket,
answers and attaches; whoever attaches second splices, and the first waits.
-/
import Heimdall.Heap
import Heimdall.Maps
import Heimdall.Peers

set_option autoImplicit false

namespace Heimdall.Relay

open Heimdall.Peers (GoString)

/-! ## The state -/

/-- The `Limits` that the handlers below read; times in milliseconds. -/
structure Limits where
  codeTTL : ℕ
  maxPendingCodes : ℕ
  maxCircuits : ℕ
  circuitIdle : ℕ
  circuitLifetime : ℕ
  maxConnsPerIP : ℕ

def defaultLimits : Limits where
  codeTTL := 5 * 60 * 1000
  maxPendingCodes := 4096
  maxCircuits := 512
  circuitIdle := 90 * 1000
  circuitLifetime := 12 * 60 * 60 * 1000
  maxConnsPerIP := 32

structure PendingCode where
  conn : ℕ
  created : ℕ

/-- `ticketRef`; side 0 is `false`. -/
structure TicketRef where
  circuit : ℕ
  side : Bool
  deriving DecidableEq

/-- `circuit`. `done` and `released` say whether the channel is closed and the `Once` used. The
splice itself is here too: when it started, and whether one of its pumps has ended. -/
structure Circuit where
  conns : Bool → Option ℕ := fun _ => none
  started : Bool := false
  created : ℕ := 0
  done : Bool := false
  released : Bool := false
  startedAt : ℕ := 0
  pumpDone : Bool := false

def Circuit.attach (x : Circuit) (h : ℕ) (side second : Bool) (now : ℕ) : Circuit :=
  { x with
    conns := Function.update x.conns side (some h)
    started := x.started || second
    startedAt := if second then now else x.startedAt }

/-- Where a handler stands. -/
inductive Pc where
  /-- No such connection, or it has been served. -/
  | gone
  /-- In the loop of `serveConn`. -/
  | control
  /-- In `pair`, with a slot but no tickets yet. -/
  | pairTaken
  /-- In `pair`, about to send the tickets `ta` and `tb`. -/
  | pairIssued (c ta tb : ℕ)
  /-- In `attachCircuit`, with the ticket redeemed and `circuit_ok` to send. -/
  | redeemed (c : ℕ) (side : Bool)
  /-- The first half, in its `select`, since when. -/
  | waiting (c : ℕ) (side : Bool) (since : ℕ)
  /-- The second half, in `splice`. -/
  | splicing (c : ℕ) (side : Bool)
  deriving DecidableEq

/-- A connection and its handler; `shut` says that the relay has closed it. -/
structure Handler where
  ip : GoString := []
  published : List GoString := []
  pc : Pc := .gone
  shut : Bool := false

/-- `Server`, its circuits and handlers, and the tickets drawn so far. -/
structure Server where
  pending : AList fun _ : GoString => PendingCode := ∅
  tickets : AList fun _ : ℕ => TicketRef := ∅
  issued : List ℕ := []
  circuits : ℕ := 0
  ipConns : AList fun _ : GoString => ℕ := ∅
  closed : Bool := false
  circuit : Heap Circuit := Heap.empty {}
  handler : Heap Handler := Heap.empty {}
  now : ℕ := 0

namespace Server

/-! ## The functions on the tables -/

variable (L : Limits) (s : Server)

/-- `acquireIP`; `none` when the ceiling is reached. -/
def acquireIP (ip : GoString) : Option Server :=
  let n := (s.ipConns.lookup ip).getD 0
  if n ≥ L.maxConnsPerIP then none else some { s with ipConns := s.ipConns.insert ip (n + 1) }

def releaseIP (ip : GoString) : Server :=
  let n := (s.ipConns.lookup ip).getD 0
  { s with ipConns := if n ≤ 1 then s.ipConns.erase ip else s.ipConns.insert ip (n - 1) }

/-- `addPending`, with what it returns; `sealed` and `observed` are those of `Serving`. -/
def addPending (rid : GoString) (h : ℕ) : Bool × Server :=
  if s.pending.keys.length ≥ L.maxPendingCodes then (false, s)
  else (true, { s with pending := s.pending.insert rid ⟨h, s.now⟩ })

def dropPending (rid : GoString) (h : ℕ) : Server :=
  match s.pending.lookup rid with
  | some p => if p.conn = h then { s with pending := s.pending.erase rid } else s
  | none => s

def releaseCircuit : Server := if s.circuits > 0 then { s with circuits := s.circuits - 1 } else s

def releaseOnce (c : ℕ) : Server :=
  if (s.circuit.get c).released then s
  else { s with circuit := s.circuit.modify c fun x => { x with released := true } }.releaseCircuit

def dropCircuit (c ta tb : ℕ) : Server :=
  { s with tickets := (s.tickets.erase ta).erase tb }.releaseOnce c

def setPc (h : ℕ) (pc : Pc) : Server :=
  { s with handler := s.handler.modify h fun x => { x with pc := pc } }

def closeConn (h : ℕ) : Server :=
  { s with handler := s.handler.modify h fun x => { x with shut := true } }

/-- `serveConn` and `serveHTTP` return: their deferred calls run. -/
def finish (h : ℕ) : Server :=
  let x := s.handler.get h
  let s' := x.published.foldl (fun t rid => t.dropPending rid h) s
  { s' with handler := s'.handler.modify h fun x => { x with pc := .gone, shut := true } }.releaseIP
    x.ip

def reap : Server :=
  { s with
    pending := Maps.sweep s.pending fun _ p => decide (s.now - p.created > L.codeTTL)
    tickets := Maps.sweep s.tickets fun _ ref =>
      decide (s.now - (s.circuit.get ref.circuit).created > L.codeTTL) }

/-- `second`: the other half is there and has not started to splice. -/
def second (c : ℕ) (side : Bool) : Bool :=
  ((s.circuit.get c).conns !side).isSome && !(s.circuit.get c).started

/-- The part of `attachCircuit` under the circuit's mutex, and what it decides. -/
def attach (h c : ℕ) (side : Bool) : Server :=
  { s with circuit := s.circuit.modify c fun x => x.attach h side (s.second c side) s.now }.setPc h
    (if s.second c side then .splicing c side else .waiting c side s.now)

/-- `Close` on one of the `conns` of a circuit. -/
def closeEnd : Option ℕ → Server
  | some x => s.closeConn x
  | none => s

/-- `splice` ends: its deferred calls run, and `done` is closed. -/
def endSplice (c : ℕ) : Server :=
  let s' := (s.closeEnd ((s.circuit.get c).conns true)).closeEnd ((s.circuit.get c).conns false)
  let s'' := s'.releaseOnce c
  { s'' with circuit := s''.circuit.modify c fun x => { x with done := true } }

/-- A reason for which the splice of `c` may end. -/
def Excused (c : ℕ) : Prop :=
  (s.circuit.get c).pumpDone = true ∨
    (s.circuit.get c).startedAt + L.circuitLifetime ≤ s.now ∨ s.closed = true

instance (c : ℕ) : Decidable (s.Excused L c) := inferInstanceAs (Decidable (_ ∨ _ ∨ _))

end Server

/-! ## Steps -/

inductive Act where
  /-- `serveHTTP` accepts a connection. -/
  | connect (ip : GoString)
  /-- The control loop ends: a read error, `bye`, or a message that is refused. -/
  | quit (h : ℕ)
  | publish (h : ℕ) (rid : GoString) (allowed sent : Bool)
  /-- A claim up to the slot; `sent` is about the `published` answer. -/
  | claim (h : ℕ) (rid : GoString) (sent : Bool)
  /-- The two calls to `NewTicket`, with the tickets if they succeed. -/
  | issue (h : ℕ) (tickets : Option (ℕ × ℕ))
  /-- The two `paired` messages. -/
  | deliver (h : ℕ) (sent : Bool)
  | redeem (h t : ℕ)
  /-- `circuit_ok`, and attaching when it could be sent. -/
  | answer (h : ℕ) (sent : Bool)
  /-- A pump ends: an error, an idle source or the byte ceiling. -/
  | pumpEnd (c : ℕ)
  | spliceEnd (h : ℕ)
  /-- The three cases of the `select` of the first half. -/
  | wake (h : ℕ)
  | idle (h : ℕ)
  | shutdown (h : ℕ)
  | sweep
  | close
  | tick (dt : ℕ)

namespace Server

def next (L : Limits) (s : Server) : Act → Option Server
  | .connect ip =>
    (s.acquireIP L ip).map fun t =>
      { t with handler := t.handler.alloc { ip := ip, pc := .control } }
  | .quit h => if (s.handler.get h).pc = .control then some (s.finish h) else none
  | .publish h rid allowed sent =>
    if (s.handler.get h).pc = .control then
      if allowed = false then some (s.finish h)
      else
        -- an entry that is there for the code is overwritten
        match s.addPending L rid h with
        | (false, t) => some (t.finish h)
        | (true, t) =>
          let t' := { t with handler := t.handler.modify h fun x =>
            { x with published := x.published ++ [rid] } }
          some (if sent then t' else t'.finish h)
    else none
  | .claim h rid sent =>
    if (s.handler.get h).pc = .control then
      if sent = false then some (s.finish h)
      else
        match s.pending.lookup rid with
        | none => some s
        | some p =>
          -- a refused claim leaves the code for others, and the connection open
          if p.conn = h ∨ s.circuits ≥ L.maxCircuits then some s
          else some ({ s with pending := s.pending.erase rid, circuits := s.circuits + 1 }.setPc h
            .pairTaken)
    else none
  | .issue h tickets =>
    if (s.handler.get h).pc = .pairTaken then
      match tickets with
      | none => some (s.releaseCircuit.setPc h .control)
      | some (ta, tb) =>
        -- tickets are random and never drawn twice
        if ta ≠ tb ∧ ta ∉ s.issued ∧ tb ∉ s.issued then
          let c := s.circuit.next
          some ({ s with
            circuit := s.circuit.alloc { created := s.now }
            tickets := (s.tickets.insert ta (TicketRef.mk c false)).insert tb (TicketRef.mk c true)
            issued := ta :: tb :: s.issued }.setPc h (.pairIssued c ta tb))
        else none
    else none
  | .deliver h sent =>
    match (s.handler.get h).pc with
    | .pairIssued c ta tb =>
      some (if sent then s.setPc h .control else (s.dropCircuit c ta tb).setPc h .control)
    | _ => none
  | .redeem h t =>
    if (s.handler.get h).pc = .control then
      match s.tickets.lookup t with
      | none => some (s.finish h)
      | some ref => some ({ s with tickets := s.tickets.erase t }.setPc h
          (.redeemed ref.circuit ref.side))
    else none
  | .answer h sent =>
    match (s.handler.get h).pc with
    -- without `circuit_ok` the ticket is spent, and nobody attaches
    | .redeemed c side => some (if sent then s.attach h c side else s.finish h)
    | _ => none
  | .pumpEnd c =>
    if (s.circuit.get c).started = true then
      some { s with circuit := s.circuit.modify c fun x => { x with pumpDone := true } }
    else none
  | .spliceEnd h =>
    match (s.handler.get h).pc with
    | .splicing c _ => if s.Excused L c then some ((s.endSplice c).finish h) else none
    | _ => none
  | .wake h =>
    match (s.handler.get h).pc with
    | .waiting c _ _ => if (s.circuit.get c).done = true then some (s.finish h) else none
    | _ => none
  | .idle h =>
    match (s.handler.get h).pc with
    | .waiting c _ since =>
      -- also when the splice has started in the meantime
      if since + L.circuitIdle ≤ s.now then some (((s.closeConn h).releaseOnce c).finish h)
        else none
    | _ => none
  | .shutdown h =>
    match (s.handler.get h).pc with
    -- the slot is not returned here
    | .waiting _ _ _ => if s.closed = true then some ((s.closeConn h).finish h) else none
    | _ => none
  -- also after `Close`: the ticker may win the `select` against the closed channel
  | .sweep => some (s.reap L)
  | .close => some { s with closed := true }
  | .tick dt => some { s with now := s.now + dt }

end Server

end Heimdall.Relay
