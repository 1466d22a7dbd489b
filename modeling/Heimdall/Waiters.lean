/-
`internal/transport/punch.go`: the map of the punches that wait.

`register` puts the channel of a `Punch` call under the IP it punches to, and when the call ends
`unregister` deletes what is under that IP. Neither looks at what is there. Calls for one IP overlap
when two peers are behind one NAT and both are raced for: the later call takes over the entry, and
whichever ends first deletes it. The other one is then in progress without an entry, and what its
peer opens goes to the fallback (`waiter_removed`).

For the registrations a listener is a `Table`, and only the first and the last step of a call count
(`next_registrations`). So in a run every call in progress is waited for exactly if no call ends
while another one for its IP is in progress (`punches_undisturbed_iff`).
-/
import Heimdall.Punch
import Heimdall.Registrations

set_option autoImplicit false

namespace Heimdall.Transport

open Heimdall.Runs Heimdall.Registrations
open Heimdall.Peers (GoString)

/-- A step of a call keeps its IP, and the call returns in none of them: it returns by leaving,
which is a step of the listener because it goes through the map. -/
theorem Call.next_phase {p p' : Call} {a : CallAct} (h : p.next a = some p') :
    p'.ip = p.ip ∧ (p'.phase = .returned ↔ p.phase = .returned) := by
  unfold Call.next at h
  rcases a <;> dsimp only at h
  case expire =>
    obtain rfl := Option.some.inj h
    exact ⟨rfl, Iff.rfl⟩
  case takeInbound =>
    split_ifs at h with hphase
    obtain ⟨c, -, rfl⟩ := Option.map_eq_some_iff.mp h
    rcases hphase with hp | hp | hp <;> simp [hp]
  case takeDialed =>
    split_ifs at h with hphase
    obtain ⟨c, -, rfl⟩ := Option.map_eq_some_iff.mp h
    rcases hphase with hp | hp <;> simp [hp]
  -- the other steps go from one phase to another, neither of which is the last
  all_goals
    split_ifs at h with hphase
    obtain rfl := Option.some.inj h
    simp [hphase]

namespace PunchListener

/-! ## The property, and when it is kept -/

/-- While a call for an IP is in progress, the map has a channel for the IP, and the call it belongs
to is in progress. -/
def Waited (s : PunchListener) : Prop :=
  ∀ p ∈ s.calls, p.phase ≠ .returned →
    ∃ i q, s.waiters.lookup p.ip = some i ∧ s.calls[i]? = some q ∧ q.phase ≠ .returned

/-- The entries of calls in progress are still there, but for one call. -/
def KeepsOthers (s : PunchListener) (i : ℕ) (s' : PunchListener) : Prop :=
  ∀ ip j q, j ≠ i → s.waiters.lookup ip = some j → s.calls[j]? = some q → q.phase ≠ .returned →
    s'.waiters.lookup ip = some j

/-- The condition on a step, in the state before it: a call ends only when no other one for its
IP is in progress. -/
def Lone (s : PunchListener) : PunchAct → Prop
  | .leave i => ∀ p ∈ s.calls[i]?, ∀ j < s.calls.length, ∀ q ∈ s.calls[j]?,
      q.phase ≠ .returned → q.ip = p.ip → j = i
  | _ => True

/-- A step that meets the condition. -/
def StepLone (split : GoString → Option GoString) (s : PunchListener) (a : PunchAct)
    (s' : PunchListener) : Prop :=
  s.next split a = some s' ∧ s.Lone a

/-! ## The registrations -/

/-- The map, and of each call its IP and whether it is in progress. -/
def registrations (s : PunchListener) : Table GoString where
  owners := s.waiters
  calls := s.calls.map fun p => (p.ip, decide (p.phase ≠ .returned))

variable {split : GoString → Option GoString} {s s' : PunchListener} {i : ℕ} {p : Call}
  {ip : GoString}

theorem active_iff : s.registrations.Active i ip ↔
    ∃ p, s.calls[i]? = some p ∧ p.phase ≠ .returned ∧ p.ip = ip := by
  unfold Table.Active registrations
  dsimp only
  rw [List.getElem?_map, Option.map_eq_some_iff]
  simp only [Prod.mk.injEq, decide_eq_true_eq, and_comm]

/-- The map and the calls in progress are a table of registrations, in which later ones take over
the entry of earlier ones. What can go wrong with such a table is shown there. -/
theorem waited_iff : s.Waited ↔ s.registrations.Attended := by
  constructor
  · intro h i ip hi
    obtain ⟨p, hp, hphase, rfl⟩ := active_iff.mp hi
    obtain ⟨j, q, hlookup, hq, hqphase⟩ := h p (List.mem_of_getElem? hp) hphase
    exact ⟨j, q.ip, hlookup, active_iff.mpr ⟨q, hq, hqphase, rfl⟩⟩
  · intro h p hp hphase
    obtain ⟨i, hi⟩ := List.mem_iff_getElem?.mp hp
    obtain ⟨j, ip, hlookup, hj⟩ := h i p.ip (active_iff.mpr ⟨p, hi, hphase, rfl⟩)
    obtain ⟨q, hq, hqphase, -⟩ := active_iff.mp hj
    exact ⟨j, q, hlookup, hq, hqphase⟩

theorem lone_leave_iff (hi : s.calls[i]? = some p) :
    s.Lone (.leave i) ↔ s.registrations.Alone i p.ip := by
  constructor
  · intro h j hj
    obtain ⟨q, hq, hphase, hip⟩ := active_iff.mp hj
    exact h p hi j (List.getElem?_eq_some_iff.mp hq).1 q hq hphase hip
  · intro h p' hp' j _ q hq hphase hip
    obtain rfl := Option.some.inj (hi.symm.trans hp')
    exact h j (active_iff.mpr ⟨q, hq, hphase, hip⟩)

/-- A step that changes neither the IP of a call nor whether it is in progress leaves the table
alone. -/
theorem registrations_set {q : Call} (hi : s.calls[i]? = some p) (hip : q.ip = p.ip)
    (hphase : q.phase = .returned ↔ p.phase = .returned) :
    registrations { s with calls := s.calls.set i q } = s.registrations := by
  have hsame : (q.ip, decide (q.phase ≠ .returned)) = (p.ip, decide (p.phase ≠ .returned)) := by
    rw [hip]
    simp only [ne_eq, hphase]
  unfold registrations
  dsimp only
  rw [List.map_set, hsame]
  congr 1
  refine List.ext_getElem? fun j => ?_
  by_cases hij : i = j
  · subst hij
    rw [List.getElem?_set_self', List.getElem?_map, hi]
    rfl
  · rw [List.getElem?_set_ne hij]

/-- **What a step does to the registrations**: a call registers, a call ends, or nothing. The
condition `Lone` asks something only of the steps that end a call. -/
theorem next_registrations {a : PunchAct} (h : s.next split a = some s') :
    (s.Lone a ∧ (s'.registrations = s.registrations ∨
        ∃ ip, s'.registrations = s.registrations.register ip)) ∨
      ∃ i p, a = .leave i ∧ s.calls[i]? = some p ∧ p.phase ≠ .returned ∧
        s'.registrations = s.registrations.unregister i p.ip := by
  -- in the order of `PunchAct`: the first step of a call, one within it, its last one, the accept
  -- loop, and the dialer
  rcases a with ⟨remote, delay⟩ | ⟨i, a⟩ | i | remote | _ | _ | i | i
  · refine .inl ⟨trivial, ?_⟩
    rcases next_punch h with rfl | ⟨ip, phase, hphase, rfl⟩
    · exact .inl rfl
    · have hopen : phase ≠ .returned := by
        rcases hphase with rfl | rfl <;> simp
      refine .inr ⟨ip, ?_⟩
      simp only [registrations, Table.register, List.map_append, List.map_singleton,
        List.length_map, hopen, ne_eq, not_false_eq_true, decide_true]
  · obtain ⟨p, p', hi, hp', rfl⟩ := next_inner h
    obtain ⟨hip, hphase⟩ := Call.next_phase hp'
    exact .inl ⟨trivial, .inl (registrations_set hi hip hphase)⟩
  · obtain ⟨p, res, hi, hphase, rfl⟩ := next_leave h
    refine .inr ⟨i, p, rfl, hi, by simp [hphase], ?_⟩
    simp only [registrations, Table.unregister, List.map_set, ne_eq, not_true_eq_false,
      decide_false]
  · obtain ⟨-, ip, rfl⟩ := next_accept h
    exact .inl ⟨trivial, .inl rfl⟩
  · obtain ⟨c, ip, -, rfl⟩ := next_lookup h
    exact .inl ⟨trivial, .inl rfl⟩
  · refine .inl ⟨trivial, .inl ?_⟩
    obtain ⟨c, ch, hr, rfl | ⟨i, p, rfl, hi, -, rfl⟩⟩ := next_send h
    · rfl
    · exact registrations_set hi rfl Iff.rfl
  · obtain ⟨p, hi, -, rfl⟩ := next_dialOk h
    exact .inl ⟨trivial, .inl (registrations_set hi rfl Iff.rfl)⟩
  · refine .inl ⟨trivial, .inl ?_⟩
    obtain ⟨p, c, hi, -, ⟨-, rfl⟩ | rfl⟩ := next_dialSend h
    · exact registrations_set hi rfl Iff.rfl
    · exact registrations_set hi rfl Iff.rfl

/-! ## Steps and runs -/

theorem owned_step {a : PunchAct} (h : s.registrations.Owned) (hnext : s.next split a = some s') :
    s'.registrations.Owned := by
  rcases next_registrations hnext with ⟨-, heq | ⟨ip, heq⟩⟩ | ⟨i, p, -, hi, hphase, heq⟩ <;>
    rw [heq]
  · exact h
  · exact h.register ip
  · exact h.unregister (active_iff.mpr ⟨p, hi, hphase, rfl⟩)

/-- **A step keeps the calls waited for exactly if it meets the condition.** It need not be said
which calls are in progress, nor how they got there. -/
theorem waited_step_iff {a : PunchAct} (howned : s.registrations.Owned) (hs : s.Waited)
    (hnext : s.next split a = some s') : s'.Waited ↔ s.Lone a := by
  have hatt := waited_iff.mp hs
  rw [waited_iff]
  rcases next_registrations hnext with ⟨hlone, heq | ⟨ip, heq⟩⟩ | ⟨i, p, rfl, hi, hphase, heq⟩ <;>
    rw [heq]
  · exact ⟨fun _ => hlone, fun _ => hatt⟩
  · exact ⟨fun _ => hlone, fun _ => hatt.register ip⟩
  · rw [Table.unregister_attended_iff howned hatt (active_iff.mpr ⟨p, hi, hphase, rfl⟩),
      lone_leave_iff hi]

theorem keepsOthers_of_lone (howned : s.registrations.Owned) (hlone : s.Lone (.leave i))
    (hnext : s.next split (.leave i) = some s') : s.KeepsOthers i s' := by
  intro ip j q hne hlookup hq hphase
  obtain ⟨p, res, hi, -, rfl⟩ := next_leave hnext
  exact ((lone_leave_iff hi).mp hlone).keeps howned hne (active_iff.mpr ⟨q, hq, hphase, rfl⟩)
    hlookup

theorem owned_start (fallback : Bool) : (registrations { fallback := fallback }).Owned := by
  intro ip i h
  exact absurd h (by simp [registrations])

theorem waited_start (fallback : Bool) : Waited { fallback := fallback } :=
  fun _ hp => absurd hp List.not_mem_nil

theorem owned_of_run {fallback : Bool} {acts : List PunchAct}
    (hrun : Run (ofNext (next split)) { fallback := fallback } acts s) : s.registrations.Owned :=
  hrun.invariant _ (owned_start fallback) fun _ _ _ h hs => owned_step h hs

theorem waited_of_run {fallback : Bool} {acts : List PunchAct}
    (hrun : Run (StepLone split) { fallback := fallback } acts s) : s.Waited := by
  refine (hrun.invariant (fun s => s.registrations.Owned ∧ s.Waited)
    ⟨owned_start fallback, waited_start fallback⟩ ?_).2
  rintro s a s' ⟨howned, hwaited⟩ ⟨hnext, hlone⟩
  exact ⟨owned_step howned hnext, (waited_step_iff howned hwaited hnext).mpr hlone⟩

end PunchListener

open PunchListener

/-- **Punches do not disturb each other exactly if none ends while another one for its IP is in
progress.** Take any run of a listener, with any number of `Punch` calls and their registrations
and deregistrations in any order. In every state it passes through, the IP of each call in
progress has a channel whose owner is in progress, and no call that ends removes the entry of
another one that is in progress, if and only if every call that ends was the only one in progress
for its IP. -/
theorem punches_undisturbed_iff {split : GoString → Option GoString} {fallback : Bool}
    {acts : List PunchAct} {s : PunchListener}
    (hrun : Run (ofNext (next split)) { fallback := fallback } acts s) :
    (∀ as u, as <+: acts → Run (ofNext (next split)) { fallback := fallback } as u →
        u.Waited ∧ ∀ i u', as ++ [.leave i] <+: acts → u.next split (.leave i) = some u' →
          u.KeepsOthers i u') ↔
      Run (StepLone split) { fallback := fallback } acts s := by
  constructor
  · -- along the run: the states before and after a step are waited for, so it met the condition
    induction hrun with
    | nil => exact fun _ => .nil
    | @snoc as a t u hrun hstep ih =>
      intro h
      have hbefore := (h as t (List.prefix_append as [a]) hrun).1
      have hafter := (h (as ++ [a]) u List.prefix_rfl (hrun.snoc hstep)).1
      have hlone := (waited_step_iff (owned_of_run hrun) hbefore hstep).mp hafter
      refine (ih fun as' u' has' hrun' => ?_).snoc ⟨hstep, hlone⟩
      obtain ⟨hwaited, hkeeps⟩ := h as' u' (has'.trans (List.prefix_append as [a])) hrun'
      exact ⟨hwaited, fun i v hi => hkeeps i v (hi.trans (List.prefix_append as [a]))⟩
  · intro hlone as u has hu
    obtain ⟨bs, rfl⟩ := has
    obtain ⟨u₀, hu₀⟩ := hlone.of_append
    obtain rfl := run_unique (hu₀.mono fun _ _ _ h => h.1) hu
    refine ⟨waited_of_run hu₀, fun i u' hi hnext => ?_⟩
    -- the step that ends the call is one of the run
    obtain ⟨cs, hcs⟩ := hi
    rw [← hcs] at hlone
    obtain ⟨v, hv⟩ := hlone.of_append
    obtain ⟨u₁, hu₁, -, hcond⟩ := hv.of_snoc
    obtain rfl := run_unique (hu₁.mono fun _ _ _ h => h.1) hu
    exact keepsOthers_of_lone (owned_of_run hu) hcond hnext

/-! ## Two runs -/

instance (s : PunchListener) (a : PunchAct) : Decidable (s.Lone a) :=
  match a with
  | .leave i => inferInstanceAs (Decidable (∀ p ∈ s.calls[i]?, ∀ j < s.calls.length,
      ∀ q ∈ s.calls[j]?, q.phase ≠ .returned → q.ip = p.ip → j = i))
  | .punch _ _ | .inner _ _ | .accept _ | .lookup | .send | .dialOk _ | .dialSend _ =>
    inferInstanceAs (Decidable True)

def neighbourAddr : GoString := [49, 48, 46, 48, 46, 48, 46, 57, 58, 56, 49]

/-- `10.0.0.8:80` -/
def otherAddr : GoString := [49, 48, 46, 48, 46, 48, 46, 56, 58, 56, 48]

/-- Two calls for different IPs at the same time, and when the first one has ended a call for its
IP. -/
def disjointRun : List PunchAct :=
  [.punch peerAddr true, .punch otherAddr true, .inner 0 .expire, .inner 0 .quit, .leave 0,
    .punch neighbourAddr true, .inner 1 .expire, .inner 1 .quit, .leave 1]

/-- The theorem at a run with two calls at a time, for different IPs. -/
theorem punches_undisturbed_iff_disjoint :
    ∃ s, Run (ofNext (PunchListener.next GoNet.splitHost)) { fallback := true } disjointRun s ∧
      s.calls.map Call.phase = [.returned, .returned, .delaying] ∧ s.Waited := by
  obtain ⟨s, hlone, hphases⟩ : ∃ s, Run (StepLone GoNet.splitHost) { fallback := true }
      disjointRun s ∧ s.calls.map Call.phase = [.returned, .returned, .delaying] :=
    exists_run_guarded _ (by decide +kernel)
  have hnext := hlone.mono fun _ _ _ h => h.1
  have hall := (punches_undisturbed_iff hnext).mpr hlone
  exact ⟨s, hnext, hphases, (hall disjointRun s List.prefix_rfl hnext).1⟩

/-- Two calls for one IP; the first one is given up, and a connection from the IP comes in. -/
def overlappingRun : List PunchAct :=
  [.punch peerAddr true, .punch neighbourAddr true, .inner 0 .expire, .inner 0 .quit, .leave 0,
    .accept neighbourAddr, .lookup, .send]

/-- **The entry of a call in progress is removed.** The second call is still in its delay and has no
entry any more, and the connection it waits for goes to the fallback. -/
theorem waiter_removed :
    ∃ s, Run (ofNext (PunchListener.next GoNet.splitHost)) { fallback := true } overlappingRun s ∧
      s.calls.map Call.phase = [.returned, .delaying] ∧ s.fates = [(0, .fallback)] ∧
        ¬ s.Waited := by
  obtain ⟨s, hrun, hphases, hfates, hwaiters⟩ :
    ∃ s, Run (ofNext (PunchListener.next GoNet.splitHost))
      { fallback := true } overlappingRun s ∧ s.calls.map Call.phase = [.returned, .delaying] ∧
        s.fates = [(0, .fallback)] ∧
          s.waiters.entries = [] := exists_run_of_any _ (by decide +kernel)
  refine ⟨s, hrun, hphases, hfates, fun hwaited => ?_⟩
  have hmem : PunchPhase.delaying ∈ s.calls.map Call.phase := by
    rw [hphases]
    decide
  obtain ⟨p, hp, hphase⟩ := List.mem_map.mp hmem
  obtain ⟨i, q, hlookup, -⟩ := hwaited p hp (by simp [hphase])
  rw [Maps.lookup_eq_some_iff, hwaiters] at hlookup
  exact absurd hlookup List.not_mem_nil

end Heimdall.Transport
