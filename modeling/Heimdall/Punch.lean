/-
`internal/transport/punch.go`: hole punching, and where each connection ends up.

Several goroutines share a `PunchListener`. The accept loop takes a connection, looks up the
channel that waits for its address, gives up the lock and only then sends. Every `Punch` call has
a channel for inbound connections and one for its dial loop, each with room for one connection,
and returns what comes first; its entry in the map is deleted after that, by a deferred call. The
dial loop goes on until its context ends, and sends what it has dialled into a channel that may
have no reader any more. Each of these points is a step of its own here.

Nothing is ever duplicated and nothing disappears (`Conserved`): a connection is with a goroutine,
in a channel, or settled. So when everything has ended, what has not been returned, passed on or
closed is in a channel nobody reads (`settled_iff_channels_empty`), and that does happen
(`connection_left_behind`). It does not if a call decides only while the channel it does not read
is empty, and nothing is sent to a call that has decided (`punch_loses_nothing`).
-/
import Mathlib.Data.List.AList
import Heimdall.Custody
import Heimdall.GoNet
import Heimdall.Peers
import Heimdall.Runs

set_option autoImplicit false

namespace Heimdall.Transport

open Heimdall.Custody Heimdall.Runs
open Heimdall.Peers (GoString)

/-! ## `Punch` calls -/

inductive PunchErr where
  | noAddress
  /-- `ctx.Err()` -/
  | ctxErr
  | errPunchFailed
  deriving DecidableEq

/-- The texts; that of `ctx.Err()` comes from the context. -/
def PunchErr.message (ctxErr : String) : PunchErr → String
  | .noAddress => "transport: punch target has no address"
  | .ctxErr => ctxErr
  | .errPunchFailed => "transport: hole punch did not succeed"

/-- Where a `Punch` call is; connections are numbered. -/
inductive PunchPhase where
  /-- In the `select` of the delay. -/
  | delaying
  /-- Past the delay, the dial loop not yet started. -/
  | ready
  /-- In the `select` over both channels and the context. -/
  | selecting
  /-- The context has ended, and the last look at the channels is to come. -/
  | draining
  /-- The result is fixed, and the deferred calls are to come. -/
  | leaving (result : Except PunchErr ℕ)
  | returned
  deriving DecidableEq

/-- Where the dial loop of a call is. -/
inductive DialPhase where
  /-- Not started. -/
  | idle
  /-- In `DialFrom`; `live` if the context had not ended when it was called. -/
  | dialing (live : Bool)
  /-- `DialFrom` has returned a connection, which is still to be sent. -/
  | holding (conn : ℕ)
  /-- In the `select` over the context and the ticker. -/
  | waiting
  | ended
  deriving DecidableEq

def PunchPhase.held : PunchPhase → List ℕ
  | .leaving (.ok c) => [c]
  | _ => []

def DialPhase.held : DialPhase → List ℕ
  | .holding c => [c]
  | _ => []

/-- A `Punch` call with its two channels and its dial loop. -/
structure Call where
  ip : GoString
  phase : PunchPhase
  ctxDone : Bool := false
  inbound : Option ℕ := none
  dialed : Option ℕ := none
  dial : DialPhase := .idle

/-- The steps in which only one call takes part. -/
inductive CallAct where
  /-- The delay is over. -/
  | timer
  /-- The dial loop is started. -/
  | launch
  /-- The deadline passes, or the caller cancels. -/
  | expire
  /-- The context ends the delay. -/
  | quit
  | takeInbound
  | takeDialed
  /-- The context ends the `select`. -/
  | giveUp
  /-- Both channels are empty: the `default` of the inner `select`. -/
  | drained
  | dialFail
  | tick
  | dialStop
  deriving DecidableEq

namespace Call

def next (p : Call) : CallAct → Option Call
  | .timer => if p.phase = .delaying then some { p with phase := .ready } else none
  | .launch =>
    -- under a context that has ended, `DialFrom` only fails
    if p.phase = .ready then some { p with phase := .selecting, dial := .dialing (!p.ctxDone) }
    else none
  | .expire => some { p with ctxDone := true }
  | .quit =>
    if p.phase = .delaying ∧ p.ctxDone then some { p with phase := .leaving (.error .ctxErr) }
    else none
  | .takeInbound =>
    if p.phase = .delaying ∨ p.phase = .selecting ∨ p.phase = .draining then
      p.inbound.map fun c => { p with inbound := none, phase := .leaving (.ok c) }
    else none
  | .takeDialed =>
    if p.phase = .selecting ∨ p.phase = .draining then
      p.dialed.map fun c => { p with dialed := none, phase := .leaving (.ok c) }
    else none
  | .giveUp =>
    if p.phase = .selecting ∧ p.ctxDone then some { p with phase := .draining } else none
  | .drained =>
    if p.phase = .draining ∧ p.inbound = none ∧ p.dialed = none then
      some { p with phase := .leaving (.error .errPunchFailed) }
    else none
  | .dialFail =>
    if p.dial = .dialing true ∨ p.dial = .dialing false then
      some { p with dial := .waiting }
    else none
  | .tick => if p.dial = .waiting then some { p with dial := .dialing (!p.ctxDone) } else none
  | .dialStop => if p.dial = .waiting ∧ p.ctxDone then some { p with dial := .ended } else none

/-- The result is fixed. -/
def decided (p : Call) : Bool :=
  match p.phase with
  | .leaving _ | .returned => true
  | _ => false

/-- The connections with the call, its dial loop and its channels. -/
def held (p : Call) : List ℕ :=
  p.inbound.toList ++ p.dialed.toList ++ p.dial.held ++ p.phase.held

end Call

/-! ## The listener -/

/-- Where the accept loop is. -/
inductive Routing where
  | idle
  | accepted (conn : ℕ) (ip : GoString)
  /-- The lock has been released; `ch` is the call whose channel was found. -/
  | found (conn : ℕ) (ch : Option ℕ)
  deriving DecidableEq

def Routing.held : Routing → List ℕ
  | .idle => []
  | .accepted c _ | .found c _ => [c]

/-- What became of a connection. -/
inductive Fate where
  | returned (call : ℕ)
  | fallback
  | closed
  deriving DecidableEq

/-- `PunchListener`; `fallback` says whether there is one, `waiters` gives the call whose channel
is registered for an address. `conns` counts the connections there have been, and `fates` is the
record of those that are settled. -/
structure PunchListener where
  fallback : Bool
  waiters : AList (fun _ : GoString => ℕ) := ∅
  calls : List Call := []
  routing : Routing := .idle
  conns : ℕ := 0
  fates : List (ℕ × Fate) := []

inductive PunchAct where
  /-- `Punch` is called and registers. -/
  | punch (remote : GoString) (delay : Bool)
  | inner (i : ℕ) (a : CallAct)
  /-- The deferred `cancel` and `unregister`, and the return. -/
  | leave (i : ℕ)
  | accept (remote : GoString)
  | lookup
  /-- The rest of `route`. -/
  | send
  | dialOk (i : ℕ)
  /-- The `select` of the dial loop on what it has dialled. -/
  | dialSend (i : ℕ)

/-- `addrIP`; `split` is the host of `net.SplitHostPort`. -/
def addrIP (split : GoString → Option GoString) (addr : GoString) : GoString :=
  (split addr).getD addr

namespace PunchListener

/-- The last lines of `route`. -/
def pass (s : PunchListener) (c : ℕ) : PunchListener :=
  { s with routing := .idle, fates := s.fates ++ [(c, if s.fallback then .fallback else .closed)] }

def next (split : GoString → Option GoString) (s : PunchListener) : PunchAct → Option PunchListener
  | .punch remote delay =>
    -- without an address the call fails before it registers
    if addrIP split remote = [] then some s
    else some { s with
      waiters := s.waiters.insert (addrIP split remote) s.calls.length
      calls := s.calls ++
        [{ ip := addrIP split remote, phase := if delay then .delaying else .ready }] }
  | .inner i a => s.calls[i]?.bind fun p =>
    (p.next a).map fun p' => { s with calls := s.calls.set i p' }
  | .leave i => s.calls[i]?.bind fun p =>
    match p.phase with
    | .leaving res => some { s with
        -- `unregister` goes by the address, so it may remove the channel of a later call
        waiters := s.waiters.erase p.ip
        calls := s.calls.set i { p with phase := .returned, ctxDone := true }
        fates := s.fates ++ res.toOption.toList.map fun c => (c, .returned i) }
    | _ => none
  | .accept remote =>
    if s.routing = .idle then
      some { s with routing := .accepted s.conns (addrIP split remote), conns := s.conns + 1 }
    else none
  | .lookup =>
    match s.routing with
    | .accepted c ip => some { s with routing := .found c (s.waiters.lookup ip) }
    | _ => none
  | .send =>
    match s.routing with
    | .found c none => some (s.pass c)
    | .found c (some i) => s.calls[i]?.bind fun p =>
      -- the call may have returned since the lookup, and its channel still has room; a full
      -- channel means ordinary inbound traffic
      if p.inbound = none then
        some { s with routing := .idle, calls := s.calls.set i { p with inbound := some c } }
      else some (s.pass c)
    | _ => none
  | .dialOk i => s.calls[i]?.bind fun p =>
    if p.dial = .dialing true then
      some { s with
        calls := s.calls.set i { p with dial := .holding s.conns }, conns := s.conns + 1 }
    else none
  | .dialSend i => s.calls[i]?.bind fun p =>
    match p.dial with
    | .holding c =>
      if p.dialed = none then
        some { s with calls := s.calls.set i { p with dialed := some c, dial := .ended } }
      else some { s with
        calls := s.calls.set i { p with dial := .ended }
        fates := s.fates ++ [(c, .closed)] }
    | _ => none

def Quiet (s : PunchListener) : Prop :=
  s.routing = .idle ∧ ∀ p ∈ s.calls, p.phase = .returned ∧ (p.dial = .idle ∨ p.dial = .ended)

/-- Every connection has been returned by one call, passed to the fallback or closed, and only
once. -/
def Settled (s : PunchListener) : Prop := ∀ c < s.conns, (s.fates.map Prod.fst).count c = 1

end PunchListener

namespace PunchListener

variable {split : GoString → Option GoString} {s s' : PunchListener} {i : ℕ} {p : Call}

/-! ## What each step does -/

theorem next_punch {remote : GoString} {delay : Bool}
    (h : s.next split (.punch remote delay) = some s') :
    s' = s ∨ ∃ ip phase, (phase = .delaying ∨ phase = .ready) ∧ s' = { s with
      waiters := s.waiters.insert ip s.calls.length
      calls := s.calls ++ [{ ip := ip, phase := phase }] } := by
  unfold next at h
  dsimp only at h
  by_cases hip : addrIP split remote = []
  · rw [if_pos hip] at h
    exact .inl (Option.some.inj h).symm
  · rw [if_neg hip] at h
    refine .inr ⟨_, _, ?_, (Option.some.inj h).symm⟩
    rcases delay
    · exact .inr rfl
    · exact .inl rfl

theorem next_inner {a : CallAct} (h : s.next split (.inner i a) = some s') :
    ∃ p p', s.calls[i]? = some p ∧ p.next a = some p' ∧
      s' = { s with calls := s.calls.set i p' } := by
  obtain ⟨p, hi, hp⟩ := Option.bind_eq_some_iff.mp h
  obtain ⟨p', hp', rfl⟩ := Option.map_eq_some_iff.mp hp
  exact ⟨p, p', hi, hp', rfl⟩

theorem next_leave (h : s.next split (.leave i) = some s') :
    ∃ p res, s.calls[i]? = some p ∧ p.phase = .leaving res ∧ s' = { s with
      waiters := s.waiters.erase p.ip
      calls := s.calls.set i { p with phase := .returned, ctxDone := true }
      fates := s.fates ++ res.toOption.toList.map fun c => (c, .returned i) } := by
  obtain ⟨p, hi, hp⟩ := Option.bind_eq_some_iff.mp h
  rcases hphase : p.phase <;> rw [hphase] at hp
  case leaving res => exact ⟨p, res, hi, hphase, (Option.some.inj hp).symm⟩
  all_goals exact absurd hp (by simp)

theorem next_accept {remote : GoString} (h : s.next split (.accept remote) = some s') :
    s.routing = .idle ∧ ∃ ip, s' = { s with
      routing := .accepted s.conns ip, conns := s.conns + 1 } := by
  unfold next at h
  dsimp only at h
  split_ifs at h with hidle
  exact ⟨hidle, _, (Option.some.inj h).symm⟩

theorem next_lookup (h : s.next split .lookup = some s') :
    ∃ c ip, s.routing = .accepted c ip ∧
      s' = { s with routing := .found c (s.waiters.lookup ip) } := by
  unfold next at h
  dsimp only at h
  rcases hr : s.routing <;> rw [hr] at h
  case accepted c ip => exact ⟨c, ip, rfl, (Option.some.inj h).symm⟩
  all_goals exact absurd h (by simp)

/-- One lemma for each action says what the state must have been and what it becomes. This is the
end of `route`: the connection goes into a channel with room, or on. -/
theorem next_send (h : s.next split .send = some s') :
    ∃ c ch, s.routing = .found c ch ∧ (s' = s.pass c ∨ ∃ i p, ch = some i ∧ s.calls[i]? = some p ∧
      p.inbound = none ∧
      s' = { s with routing := .idle, calls := s.calls.set i { p with inbound := some c } }) := by
  unfold next at h
  dsimp only at h
  rcases hr : s.routing with _ | ⟨c, ip⟩ | ⟨c, _ | i⟩ <;> rw [hr] at h <;> dsimp only at h
  · exact absurd h (by simp)
  · exact absurd h (by simp)
  · exact ⟨c, none, rfl, .inl (Option.some.inj h).symm⟩
  · obtain ⟨p, hi, hp⟩ := Option.bind_eq_some_iff.mp h
    refine ⟨c, some i, rfl, ?_⟩
    split_ifs at hp with hempty
    · exact .inr ⟨i, p, rfl, hi, hempty, (Option.some.inj hp).symm⟩
    · exact .inl (Option.some.inj hp).symm

theorem next_dialOk (h : s.next split (.dialOk i) = some s') :
    ∃ p, s.calls[i]? = some p ∧ p.dial = .dialing true ∧ s' = { s with
      calls := s.calls.set i { p with dial := .holding s.conns }, conns := s.conns + 1 } := by
  obtain ⟨p, hi, hp⟩ := Option.bind_eq_some_iff.mp h
  split_ifs at hp with hdial
  exact ⟨p, hi, hdial, (Option.some.inj hp).symm⟩

theorem next_dialSend (h : s.next split (.dialSend i) = some s') :
    ∃ p c, s.calls[i]? = some p ∧ p.dial = .holding c ∧
      ((p.dialed = none ∧ s' = { s with
          calls := s.calls.set i { p with dialed := some c, dial := .ended } }) ∨
        s' = { s with
          calls := s.calls.set i { p with dial := .ended }
          fates := s.fates ++ [(c, .closed)] }) := by
  obtain ⟨p, hi, hp⟩ := Option.bind_eq_some_iff.mp h
  rcases hdial : p.dial <;> rw [hdial] at hp <;> dsimp only at hp
  case holding c =>
    refine ⟨p, c, hi, hdial, ?_⟩
    split_ifs at hp with hempty
    · exact .inl ⟨hempty, (Option.some.inj hp).symm⟩
    · exact .inr (Option.some.inj hp).symm
  all_goals exact absurd hp (by simp)

end PunchListener

/-! ## Conservation -/

theorem Call.count_held (p : Call) (c : ℕ) :
    p.held.count c = p.inbound.toList.count c + p.dialed.toList.count c + p.dial.held.count c +
      p.phase.held.count c := by
  simp only [Call.held, List.count_append]

/-- Before the dial loop is started, it has done nothing. -/
def Call.Early (p : Call) : Prop :=
  p.phase = .delaying ∨ p.phase = .ready → p.dial = .idle ∧ p.dialed = none

/-- The dial loop is started by overwriting its place in the call, so what a call has is kept only
because there was nothing there before (`Early`). -/
theorem Call.count_next {p p' : Call} {a : CallAct} (hearly : p.Early) (h : p.next a = some p')
    (c : ℕ) : p'.held.count c = p.held.count c := by
  unfold Call.next at h
  rw [count_held, count_held]
  rcases a <;> dsimp only at h
  case expire =>
    obtain rfl := Option.some.inj h
    rfl
  case launch =>
    split_ifs at h with hphase
    obtain rfl := Option.some.inj h
    dsimp only
    rw [hphase, (hearly (.inr hphase)).1]
    rfl
  case takeInbound =>
    split_ifs at h with hphase
    obtain ⟨d, hd, rfl⟩ := Option.map_eq_some_iff.mp h
    -- from the channel into the hands of the call, which had nothing yet
    have hnone : p.phase.held = [] := by
      rcases hphase with hp | hp | hp <;> rw [hp] <;> rfl
    dsimp only
    rw [hd, hnone]
    simp only [PunchPhase.held, Option.toList_some, Option.toList_none, List.count_nil]
    omega
  case takeDialed =>
    split_ifs at h with hphase
    obtain ⟨d, hd, rfl⟩ := Option.map_eq_some_iff.mp h
    have hnone : p.phase.held = [] := by
      rcases hphase with hp | hp <;> rw [hp] <;> rfl
    dsimp only
    rw [hd, hnone]
    simp only [PunchPhase.held, Option.toList_some, Option.toList_none, List.count_nil]
    omega
  case dialFail =>
    split_ifs at h with hdial
    obtain rfl := Option.some.inj h
    have hnone : p.dial.held = [] := by
      rcases hdial with hp | hp <;> rw [hp] <;> rfl
    rw [hnone]
    rfl
  all_goals
    split_ifs at h with hc
    obtain rfl := Option.some.inj h
    simp [PunchPhase.held, DialPhase.held, hc]

theorem Call.Early.next {p p' : Call} {a : CallAct} (h : p.Early) (hnext : p.next a = some p') :
    p'.Early := by
  -- a step that ends in another phase has nothing to show; those of the dial loop need it to be
  -- running
  unfold Call.next at hnext
  rcases a <;> dsimp only at hnext
  case expire =>
    obtain rfl := Option.some.inj hnext
    exact h
  case timer =>
    split_ifs at hnext with hphase
    obtain rfl := Option.some.inj hnext
    exact fun _ => h (.inl hphase)
  case takeInbound =>
    split_ifs at hnext
    obtain ⟨c, -, rfl⟩ := Option.map_eq_some_iff.mp hnext
    rintro (hc | hc) <;> exact absurd hc (by simp)
  case takeDialed =>
    split_ifs at hnext
    obtain ⟨c, -, rfl⟩ := Option.map_eq_some_iff.mp hnext
    rintro (hc | hc) <;> exact absurd hc (by simp)
  case dialFail =>
    split_ifs at hnext with hdial
    intro hp
    obtain rfl := Option.some.inj hnext
    rcases hdial with hd | hd <;> exact absurd (hd.symm.trans (h hp).1) (by simp)
  case tick =>
    split_ifs at hnext with hdial
    intro hp
    obtain rfl := Option.some.inj hnext
    exact absurd (hdial.symm.trans (h hp).1) (by simp)
  case dialStop =>
    split_ifs at hnext with hdial
    intro hp
    obtain rfl := Option.some.inj hnext
    exact absurd (hdial.1.symm.trans (h hp).1) (by simp)
  all_goals
    split_ifs at hnext
    obtain rfl := Option.some.inj hnext
    rintro (hc | hc) <;> exact absurd hc (by simp)

namespace PunchListener

variable {split : GoString → Option GoString} {s s' : PunchListener} {i : ℕ} {p : Call}

theorem forall_mem_set {P : Call → Prop} {calls : List Call} (h : ∀ p ∈ calls, P p) (i : ℕ)
    {p' : Call} (hp' : P p') : ∀ p ∈ calls.set i p', P p := by
  intro p hp
  rcases List.mem_or_eq_of_mem_set hp with hold | rfl
  · exact h p hold
  · exact hp'

theorem forall_mem_snoc {P : Call → Prop} {calls : List Call} (h : ∀ p ∈ calls, P p) {p' : Call}
    (hp' : P p') : ∀ p ∈ calls ++ [p'], P p := by
  intro p hp
  rcases List.mem_append.mp hp with hold | hnew
  · exact h p hold
  · rw [List.mem_singleton.mp hnew]
    exact hp'

/-- How often a connection is with somebody, in a channel or settled. -/
def total (s : PunchListener) (c : ℕ) : ℕ :=
  s.routing.held.count c + times Call.held s.calls c + (s.fates.map Prod.fst).count c

/-- Every connection there has been is in exactly one place. -/
structure Conserved (s : PunchListener) : Prop where
  once : ∀ c, s.total c = if c < s.conns then 1 else 0
  early : ∀ p ∈ s.calls, p.Early

theorem lt_succ_ite (c n : ℕ) :
    (if c < n + 1 then 1 else 0) = (if c < n then 1 else 0) + [n].count c := by
  rw [List.count_singleton]
  by_cases hlt : c < n
  · rw [if_pos hlt, if_pos (by omega), if_neg (by simp; omega)]
  · by_cases heq : n = c
    · rw [if_neg hlt, if_pos (by omega), if_pos (by simpa using heq)]
    · rw [if_neg hlt, if_neg (by omega), if_neg (by simpa using heq)]

theorem Conserved.punch (h : s.Conserved) {remote : GoString} {delay : Bool}
    (hnext : s.next split (.punch remote delay) = some s') : s'.Conserved := by
  rcases next_punch hnext with rfl | ⟨ip, phase, hphase, rfl⟩
  · exact h
  · -- a new call has nothing
    have hnil : Call.held { ip := ip, phase := phase } = [] := by
      rcases hphase with rfl | rfl <;> rfl
    refine ⟨fun c => ?_, forall_mem_snoc h.early fun _ => ⟨rfl, rfl⟩⟩
    have hc := h.once c
    dsimp only [total] at hc ⊢
    rw [times_snoc, hnil, List.count_nil]
    exact hc

theorem Conserved.inner (h : s.Conserved) {a : CallAct}
    (hnext : s.next split (.inner i a) = some s') : s'.Conserved := by
  obtain ⟨p, p', hi, hp', rfl⟩ := next_inner hnext
  have hearly := h.early p (List.mem_of_getElem? hi)
  refine ⟨fun c => ?_, forall_mem_set h.early i (hearly.next hp')⟩
  have hc := h.once c
  have hset := times_set Call.held hi p' c
  have hsame := Call.count_next hearly hp' c
  dsimp only [total] at hc ⊢
  omega

/-- A connection that is returned goes from the call to the settled ones. -/
theorem Conserved.leave (h : s.Conserved) (hnext : s.next split (.leave i) = some s') :
    s'.Conserved := by
  obtain ⟨p, res, hi, hphase, rfl⟩ := next_leave hnext
  refine ⟨fun c => ?_, forall_mem_set h.early i ?_⟩
  · have hc := h.once c
    have hset := times_set Call.held hi { p with phase := .returned, ctxDone := true } c
    -- what the call was about to return is now on record
    have hmoved : (res.toOption.toList.map fun d => (d, Fate.returned i)).map Prod.fst
        = p.phase.held := by
      rw [hphase]
      rcases res <;> rfl
    have hnone : PunchPhase.returned.held = [] := rfl
    rw [Call.count_held, Call.count_held] at hset
    dsimp only [total] at hc hset ⊢
    rw [hnone, List.count_nil] at hset
    rw [List.map_append, List.count_append, hmoved]
    omega
  · rintro (hc | hc) <;> exact absurd hc (by simp)

theorem Conserved.accept (h : s.Conserved) {remote : GoString}
    (hnext : s.next split (.accept remote) = some s') : s'.Conserved := by
  obtain ⟨hidle, ip, rfl⟩ := next_accept hnext
  refine ⟨fun c => ?_, h.early⟩
  have hc := h.once c
  dsimp only [total] at hc ⊢
  rw [hidle] at hc
  rw [lt_succ_ite, ← hc]
  simp only [Routing.held, List.count_nil]
  omega

theorem Conserved.lookup (h : s.Conserved) (hnext : s.next split .lookup = some s') :
    s'.Conserved := by
  obtain ⟨d, ip, hr, rfl⟩ := next_lookup hnext
  refine ⟨fun c => ?_, h.early⟩
  have hc := h.once c
  dsimp only [total] at hc ⊢
  rw [hr] at hc
  exact hc

/-- The accept loop gives the connection away, to the channel or to the fallback. The channel is
empty, so nothing in it is overwritten. -/
theorem Conserved.send (h : s.Conserved) (hnext : s.next split .send = some s') : s'.Conserved := by
  -- passed on and settled, or put into the channel of a call
  obtain ⟨d, ch, hr, rfl | ⟨i, p, rfl, hi, hempty, rfl⟩⟩ := next_send hnext
  · refine ⟨fun c => ?_, h.early⟩
    show (s.pass d).total c = if c < s.conns then 1 else 0
    rw [← h.once c]
    dsimp only [total, PunchListener.pass]
    rw [hr, List.map_append, List.count_append, List.map_singleton]
    simp only [Routing.held, List.count_nil]
    omega
  · refine ⟨fun c => ?_, forall_mem_set h.early i (h.early p (List.mem_of_getElem? hi))⟩
    have hc := h.once c
    have hset := times_set Call.held hi { p with inbound := some d } c
    rw [Call.count_held, Call.count_held, hempty] at hset
    dsimp only [total] at hc hset ⊢
    rw [hr] at hc
    simp only [Routing.held, Option.toList_some, Option.toList_none, List.count_nil] at hc hset ⊢
    omega

theorem Conserved.dialOk (h : s.Conserved) (hnext : s.next split (.dialOk i) = some s') :
    s'.Conserved := by
  obtain ⟨p, hi, hdial, rfl⟩ := next_dialOk hnext
  refine ⟨fun c => ?_, forall_mem_set h.early i fun hp => ?_⟩
  · have hc := h.once c
    have hset := times_set Call.held hi { p with dial := .holding s.conns } c
    rw [Call.count_held, Call.count_held, hdial] at hset
    dsimp only [total, DialPhase.held] at hc hset ⊢
    rw [lt_succ_ite, ← hc]
    simp only [List.count_nil] at hset
    omega
  · have hidle := (h.early p (List.mem_of_getElem? hi) hp).1
    exact absurd (hdial.symm.trans hidle) (by simp)

theorem Conserved.dialSend (h : s.Conserved) (hnext : s.next split (.dialSend i) = some s') :
    s'.Conserved := by
  obtain ⟨p, d, hi, hdial, hcases⟩ := next_dialSend hnext
  have hlate : ¬ (p.phase = .delaying ∨ p.phase = .ready) := fun hp =>
    absurd (hdial.symm.trans (h.early p (List.mem_of_getElem? hi) hp).1) (by simp)
  -- into the channel, or closed
  rcases hcases with ⟨hempty, rfl⟩ | rfl
  · refine ⟨fun c => ?_, forall_mem_set h.early i fun hp => absurd hp hlate⟩
    have hc := h.once c
    have hset := times_set Call.held hi { p with dialed := some d, dial := .ended } c
    rw [Call.count_held, Call.count_held, hempty, hdial] at hset
    dsimp only [total, DialPhase.held] at hc hset ⊢
    simp only [Option.toList_some, Option.toList_none, List.count_nil] at hset
    omega
  · refine ⟨fun c => ?_, forall_mem_set h.early i fun hp => absurd hp hlate⟩
    have hc := h.once c
    have hset := times_set Call.held hi { p with dial := .ended } c
    rw [Call.count_held, Call.count_held, hdial] at hset
    dsimp only [total, DialPhase.held] at hc hset ⊢
    rw [List.map_append, List.count_append, List.map_singleton]
    simp only [List.count_nil] at hset ⊢
    omega

/-- **No step duplicates a connection or makes one disappear.** It is always in exactly one place,
which may be a channel that nobody reads any more. -/
theorem Conserved.step (h : s.Conserved) {a : PunchAct} (hnext : s.next split a = some s') :
    s'.Conserved := by
  rcases a with ⟨remote, delay⟩ | ⟨i, a⟩ | i | remote | _ | _ | i | i
  · exact h.punch hnext
  · exact h.inner hnext
  · exact h.leave hnext
  · exact h.accept hnext
  · exact h.lookup hnext
  · exact h.send hnext
  · exact h.dialOk hnext
  · exact h.dialSend hnext

theorem Conserved.start (fallback : Bool) : Conserved { fallback := fallback } :=
  ⟨fun _ => rfl, fun _ hp => absurd hp List.not_mem_nil⟩

theorem conserved_of_run {fallback : Bool} {acts : List PunchAct}
    (hrun : Run (ofNext (next split)) { fallback := fallback } acts s) : s.Conserved :=
  hrun.invariant _ (Conserved.start fallback) fun _ _ _ h hs => h.step hs

/-! ## What is left when everything has ended -/

/-- When all goroutines have returned, the only places left for a connection are the channels. -/
theorem Quiet.held (h : s.Quiet) (hp : p ∈ s.calls) :
    p.held = p.inbound.toList ++ p.dialed.toList := by
  obtain ⟨hphase, hdial⟩ := h.2 p hp
  rcases hdial with hdial | hdial <;>
    simp [Call.held, hphase, hdial, DialPhase.held, PunchPhase.held]

theorem Quiet.times_eq_zero_iff (h : s.Quiet) :
    (∀ c, times Call.held s.calls c = 0) ↔
      ∀ p ∈ s.calls, p.inbound = none ∧ p.dialed = none := by
  constructor
  · intro hzero p hp
    have hnone : ∀ c, c ∉ p.inbound.toList ++ p.dialed.toList := by
      intro c
      rw [← h.held hp]
      exact Custody.times_eq_zero_iff.mp (hzero c) p hp
    have hnil := List.append_eq_nil_iff.mp (List.eq_nil_iff_forall_not_mem.mpr hnone)
    exact ⟨by simpa using hnil.1, by simpa using hnil.2⟩
  · intro hall c
    refine Custody.times_eq_zero_iff.mpr fun p hp => ?_
    rw [h.held hp, (hall p hp).1, (hall p hp).2]
    exact List.not_mem_nil

/-- **What has not been settled is in a channel.** Once everything has ended, every connection is
settled exactly if all channels are empty. -/
theorem settled_iff_channels_empty {fallback : Bool} {acts : List PunchAct}
    (hrun : Run (ofNext (next split)) { fallback := fallback } acts s) (hquiet : s.Quiet) :
    s.Settled ↔ ∀ p ∈ s.calls, p.inbound = none ∧ p.dialed = none := by
  -- nothing is with the accept loop, so a connection is with a call or settled
  have htotal : ∀ c, times Call.held s.calls c + (s.fates.map Prod.fst).count c
      = if c < s.conns then 1 else 0 := by
    intro c
    have hc := (conserved_of_run hrun).once c
    dsimp only [total] at hc
    rw [hquiet.1] at hc
    simpa only [Routing.held, List.count_nil, Nat.zero_add] using hc
  rw [← hquiet.times_eq_zero_iff]
  constructor
  · intro hsettled c
    have hc := htotal c
    by_cases hlt : c < s.conns
    · rw [if_pos hlt, hsettled c hlt] at hc
      omega
    · rw [if_neg hlt] at hc
      omega
  · intro hzero c hlt
    have hc := htotal c
    rw [if_pos hlt, hzero c] at hc
    omega

end PunchListener

/-! ## Runs in which nothing is left behind -/

/-- A call decides only while the channel it does not read is empty. The last look of `drained`
needs no such condition, as it looks at both. -/
def Call.Clean (p : Call) : CallAct → Prop
  | .takeInbound => p.dialed = none
  | .takeDialed => p.inbound = none
  | .quit => p.inbound = none
  | _ => True

instance (p : Call) (a : CallAct) : Decidable (p.Clean a) :=
  match a with
  | .takeInbound | .takeDialed | .quit => inferInstanceAs (Decidable (_ = none))
  | .timer | .launch | .expire | .giveUp | .drained | .dialFail | .tick | .dialStop =>
    inferInstanceAs (Decidable True)

/-- The channels of a call that has decided are empty. -/
def Call.Emptied (p : Call) : Prop := p.decided = true → p.inbound = none ∧ p.dialed = none

/-- A call that decides cleanly leaves both channels empty. It takes what is in one of them while
the other has nothing, or finds nothing in either. -/
theorem Call.Emptied.next {p p' : Call} {a : CallAct} (h : p.Emptied) (hearly : p.Early)
    (hclean : p.Clean a) (hnext : p.next a = some p') : p'.Emptied := by
  unfold Call.next at hnext
  rcases a <;> dsimp only at hnext
  case expire =>
    obtain rfl := Option.some.inj hnext
    exact h
  case quit =>
    split_ifs at hnext with hphase
    obtain rfl := Option.some.inj hnext
    exact fun _ => ⟨hclean, (hearly (.inl hphase.1)).2⟩
  case takeInbound =>
    split_ifs at hnext
    obtain ⟨c, -, rfl⟩ := Option.map_eq_some_iff.mp hnext
    exact fun _ => ⟨rfl, hclean⟩
  case takeDialed =>
    split_ifs at hnext
    obtain ⟨c, -, rfl⟩ := Option.map_eq_some_iff.mp hnext
    exact fun _ => ⟨hclean, rfl⟩
  case drained =>
    split_ifs at hnext with hphase
    obtain rfl := Option.some.inj hnext
    exact fun _ => hphase.2
  case dialFail =>
    split_ifs at hnext
    obtain rfl := Option.some.inj hnext
    exact h
  case tick =>
    split_ifs at hnext
    obtain rfl := Option.some.inj hnext
    exact h
  case dialStop =>
    split_ifs at hnext
    obtain rfl := Option.some.inj hnext
    exact h
  all_goals
    -- the call is still open afterwards
    split_ifs at hnext
    obtain rfl := Option.some.inj hnext
    exact fun hc => absurd hc (by simp [Call.decided])

namespace PunchListener

variable {split : GoString → Option GoString} {s s' : PunchListener}

def target (s : PunchListener) : Option ℕ :=
  match s.routing with
  | .found _ ch => ch
  | _ => none

/-- The condition on a step, in the state before it: no call decides while a connection is in its
other channel, and neither the accept loop nor a dial loop sends to a call that has decided. -/
def Clean (s : PunchListener) : PunchAct → Prop
  | .inner i a => ∀ p ∈ s.calls[i]?, p.Clean a
  | .send => ∀ i ∈ s.target, ∀ p ∈ s.calls[i]?, p.decided = false
  | .dialSend i => ∀ p ∈ s.calls[i]?, p.decided = false
  | _ => True

/-- A step that meets the condition. -/
def Step (split : GoString → Option GoString) (s : PunchListener) (a : PunchAct)
    (s' : PunchListener) : Prop :=
  s.next split a = some s' ∧ s.Clean a

/-- One step of the listener. Only `send` and `dialSend` put something into a channel, and under
the condition not into that of a call that has decided. -/
theorem emptied_step (h : s.Conserved) (hs : ∀ p ∈ s.calls, p.Emptied) {a : PunchAct}
    (hstep : s.Step split a s') : ∀ p ∈ s'.calls, p.Emptied := by
  obtain ⟨hnext, hclean⟩ := hstep
  -- an open call may get anything
  have hopen : ∀ {p : Call}, p.decided = false → p.Emptied := fun hd hc =>
    absurd (hd.symm.trans hc) (by simp)
  rcases a with ⟨remote, delay⟩ | ⟨i, a⟩ | i | remote | _ | _ | i | i
  · rcases next_punch hnext with rfl | ⟨ip, phase, -, rfl⟩
    · exact hs
    · exact forall_mem_snoc hs fun _ => ⟨rfl, rfl⟩
  · obtain ⟨p, p', hi, hp', rfl⟩ := next_inner hnext
    have hp := List.mem_of_getElem? hi
    exact forall_mem_set hs i ((hs p hp).next (h.early p hp) (hclean p hi) hp')
  · obtain ⟨p, res, hi, hphase, rfl⟩ := next_leave hnext
    have hdecided : p.decided = true := by
      rw [Call.decided, hphase]
    exact forall_mem_set hs i fun _ => hs p (List.mem_of_getElem? hi) hdecided
  · obtain ⟨-, ip, rfl⟩ := next_accept hnext
    exact hs
  · obtain ⟨c, ip, -, rfl⟩ := next_lookup hnext
    exact hs
  · obtain ⟨c, ch, hr, rfl | ⟨i, p, rfl, hi, -, rfl⟩⟩ := next_send hnext
    · exact hs
    · have htarget : i ∈ s.target := by
        rw [target, hr]
        rfl
      have hd : p.decided = false := hclean i htarget p hi
      exact forall_mem_set hs i (hopen (p := { p with inbound := some c }) hd)
  · obtain ⟨p, hi, -, rfl⟩ := next_dialOk hnext
    exact forall_mem_set hs i (hs p (List.mem_of_getElem? hi))
  · obtain ⟨p, c, hi, -, ⟨-, rfl⟩ | rfl⟩ := next_dialSend hnext
    · have hd : p.decided = false := hclean p hi
      exact forall_mem_set hs i (hopen (p := { p with dialed := some c, dial := .ended }) hd)
    · exact forall_mem_set hs i (hs p (List.mem_of_getElem? hi))

end PunchListener

open PunchListener

/-- **Hole punching loses no connection if calls decide cleanly.** In every run of the accept
loop, any number of `Punch` calls and their dial loops, in any order, in which no call decides
while a connection is in its other channel and nothing is sent to a call that has decided: once
all have ended, every connection that was accepted or dialled has been returned by exactly one
call, passed to the fallback or closed. -/
theorem punch_loses_nothing {split : GoString → Option GoString} {fallback : Bool}
    {acts : List PunchAct} {s : PunchListener}
    (hrun : Run (PunchListener.Step split) { fallback := fallback } acts s) (hquiet : s.Quiet) :
    s.Settled := by
  have hrun' : Run (ofNext (next split)) { fallback := fallback } acts s :=
    hrun.mono fun _ _ _ hs => hs.1
  have hinv : s.Conserved ∧ ∀ p ∈ s.calls, p.Emptied :=
    hrun.invariant (fun s => s.Conserved ∧ ∀ p ∈ s.calls, p.Emptied)
      ⟨Conserved.start fallback, fun _ hp => absurd hp List.not_mem_nil⟩
      fun _ _ _ h hs => ⟨h.1.step hs.1, emptied_step h.1 h.2 hs⟩
  refine (settled_iff_channels_empty hrun' hquiet).mpr fun p hp => hinv.2 p hp ?_
  rw [Call.decided, (hquiet.2 p hp).1]

/-! ## Two runs -/

/-- `10.0.0.9:80` -/
def peerAddr : GoString := [49, 48, 46, 48, 46, 48, 46, 57, 58, 56, 48]

instance (s : PunchListener) : Decidable s.Quiet := inferInstanceAs (Decidable (_ ∧ _))

instance (s : PunchListener) : Decidable s.Settled :=
  inferInstanceAs (Decidable (∀ c < s.conns, _))

instance (s : PunchListener) (a : PunchAct) : Decidable (s.Clean a) :=
  match a with
  | .inner i a => inferInstanceAs (Decidable (∀ p ∈ s.calls[i]?, p.Clean a))
  | .send => inferInstanceAs (Decidable (∀ i ∈ s.target, ∀ p ∈ s.calls[i]?, p.decided = false))
  | .dialSend i => inferInstanceAs (Decidable (∀ p ∈ s.calls[i]?, p.decided = false))
  | .punch _ _ | .leave _ | .accept _ | .lookup | .dialOk _ => inferInstanceAs (Decidable True)

/-- The dial succeeds and the call returns it; the peer's own connection arrives after that and
goes to the fallback. -/
def cleanRun : List PunchAct :=
  [.punch peerAddr false, .inner 0 .launch, .dialOk 0, .dialSend 0, .inner 0 .takeDialed, .leave 0,
    .accept peerAddr, .lookup, .send]

theorem punch_loses_nothing_late_peer :
    ∃ s, Run (PunchListener.Step GoNet.splitHost) { fallback := true } cleanRun s ∧ s.Quiet ∧
      s.fates = [(0, .returned 0), (1, .fallback)] ∧ s.Settled := by
  obtain ⟨s, hrun, hquiet, hfates⟩ :
      ∃ s, Run (PunchListener.Step GoNet.splitHost) { fallback := true } cleanRun s ∧ s.Quiet ∧
        s.fates = [(0, .returned 0), (1, .fallback)] := exists_run_guarded _ (by decide +kernel)
  exact ⟨s, hrun, hquiet, hfates, punch_loses_nothing hrun hquiet⟩

/-- Both peers punch at once: the dial succeeds, and the peer's own connection arrives before the
call has looked. -/
def crossingRun : List PunchAct :=
  [.punch peerAddr false, .inner 0 .launch, .dialOk 0, .dialSend 0, .accept peerAddr, .lookup,
    .send, .inner 0 .takeDialed, .leave 0]

/-- **A connection is left behind.** The call returns the one it dialled. Everything has ended,
and the one it accepted is neither returned, nor passed on, nor closed: it is in a channel that
nobody will read. -/
theorem connection_left_behind :
    ∃ s, Run (ofNext (PunchListener.next GoNet.splitHost)) { fallback := true } crossingRun s ∧
      s.Quiet ∧ s.conns = 2 ∧ s.fates = [(0, .returned 0)] ∧ ¬ s.Settled :=
  exists_run_of_any _ (by decide +kernel)

end Heimdall.Transport
