/-
How long an invite code lives, `reap` of `internal/relay/server.go`.

The relay never looks at the age of a code when it is claimed, nor at that of a ticket when it is
redeemed. What ends their lives is the reaper alone, which sweeps the tables at an interval of its
own. So the age up to which a code is good is not `CodeTTL`: it is at least that, as long as its
publisher stays (`code_stays`), and at most that and one interval more, if the reaper is on time
(`codes_expire`).
-/
import Heimdall.Publishing
import Heimdall.RelayInv

set_option autoImplicit false

namespace Heimdall.Relay

open Heimdall.Peers (GoString)
open Heimdall.Runs

deriving instance DecidableEq for PendingCode

/-! ## What a step does to the codes -/

namespace Server

/-- What an action does to the table of codes. A code that is not in it any more was published anew,
or its handler has returned, unless the action is a claim or a sweep. -/
inductive Codes (L : Limits) (s : Server) (a : Act) (s' : Server) : Prop
  | kept (hold : ∀ k p, s'.pending.lookup k = some p → s.pending.lookup k = some p)
      (hkeep : ∀ k p, s.pending.lookup k = some p → s'.pending.lookup k = some p ∨
        (s'.handler.get p.conn).pc = .gone ∨ ∃ h allowed sent, a = .publish h k allowed sent)
  | published {h : ℕ} {rid : GoString} {allowed sent : Bool} (ha : a = .publish h rid allowed sent)
      (hnew : s'.pending = s.pending.insert rid ⟨h, s.now⟩)
  | claimed {h : ℕ} {rid : GoString} {sent : Bool} (ha : a = .claim h rid sent)
      (hgone : s'.pending = s.pending.erase rid)
  | swept (ha : a = .sweep) (hs : s' = s.reap L)

variable {L : Limits} {s s' t : Server} {a : Act} {h : ℕ}

theorem Codes.same (hpending : s'.pending = s.pending) : Codes L s a s' := by
  refine .kept ?_ ?_
  · intro k p hk
    rwa [hpending] at hk
  · intro k p hk
    rw [hpending]
    exact .inl hk

theorem releaseOnce_pending (c : ℕ) : (s.releaseOnce c).pending = s.pending := by
  unfold releaseOnce releaseCircuit
  split_ifs <;> rfl

theorem finish_gone (h : ℕ) : ((s.finish h).handler.get h).pc = .gone := by
  rw [finish_eq]
  exact (moves_leave s.handler h).pc_self

/-- A handler that returns takes its codes along, and no other code: the deletion checks that the
code in the table is still the handler's own. -/
theorem Codes.finish (hpending : t.pending = s.pending) : Codes L s a (t.finish h) := by
  refine .kept ?_ ?_
  · intro k p hk
    rw [← hpending]
    exact (lookup_finish.mp hk).1
  · intro k p hk
    by_cases hconn : p.conn = h
    · rw [hconn]
      exact .inr (.inl (finish_gone h))
    · rw [← hpending] at hk
      exact .inl (lookup_finish.mpr ⟨hk, fun hown => hconn hown.2⟩)

/-- A code that is published, and whose handler returns at once because the answer could not be
sent. The code is deleted again, and one that it replaced is lost with it. -/
theorem Codes.publish_finish {rid : GoString} {allowed sent : Bool}
    (ha : a = .publish h rid allowed sent) (hpending : t.pending = s.pending.insert rid ⟨h, s.now⟩)
    (hmem : rid ∈ (t.handler.get h).published) : Codes L s a (t.finish h) := by
  refine .kept ?_ ?_
  · intro k p hk
    obtain ⟨hkt, hown⟩ := lookup_finish.mp hk
    rw [hpending] at hkt
    rcases (Maps.lookup_insert_iff _).mp hkt with ⟨rfl, rfl⟩ | ⟨-, hold⟩
    · exact absurd ⟨hmem, rfl⟩ hown
    · exact hold
  · intro k p hk
    -- a code of the same name has been replaced, and one of the same handler is deleted with it
    by_cases hrid : k = rid
    · rw [hrid]
      exact .inr (.inr ⟨h, allowed, sent, ha⟩)
    · by_cases hconn : p.conn = h
      · rw [hconn]
        exact .inr (.inl (finish_gone h))
      · refine .inl (lookup_finish.mpr ⟨?_, fun hown => hconn hown.2⟩)
        rw [hpending]
        exact (AList.lookup_insert_ne hrid).trans hk

/-- Only `publish`, `claim` and the reaper look at the table of codes. Any other action leaves it
alone, unless it is the last one of a handler. -/
theorem publish_codes {rid : GoString} {allowed sent : Bool}
    (hnext : s.next L (.publish h rid allowed sent) = some s') :
    Codes L s (.publish h rid allowed sent) s' := by
  by_cases hfrom : (s.handler.get h).pc = .control
  swap
  · simp [next, hfrom] at hnext
  by_cases hallowed : allowed = false
  · simp only [next, if_pos hfrom, if_pos hallowed] at hnext
    obtain rfl := Option.some.inj hnext
    exact .finish rfl
  · simp only [next, if_pos hfrom, if_neg hallowed] at hnext
    -- `addPending` refuses when the table is full; it does not ask whose code it replaces
    rcases hadd : s.addPending L rid h with ⟨_ | _, t⟩
    · rw [hadd, addPending_eq_false hadd] at hnext
      obtain rfl := Option.some.inj hnext
      exact .finish rfl
    · rw [hadd] at hnext
      obtain rfl := Option.some.inj hnext
      obtain ⟨-, rfl⟩ := addPending_eq_true.mp hadd
      by_cases hsent : sent = true
      · rw [if_pos hsent]
        exact .published rfl rfl
      · rw [if_neg hsent]
        exact .publish_finish rfl rfl (by simp)

/-- **What every action does to the codes.** The case that needs work is `publish`; the others
leave the table alone, end a handler, or are named by a constructor. -/
theorem next_codes (hnext : s.next L a = some s') : Codes L s a s' := by
  cases a with
  | connect ip =>
    obtain ⟨t, ht, rfl⟩ := Option.map_eq_some_iff.mp hnext
    unfold acquireIP at ht
    dsimp only at ht
    split_ifs at ht
    obtain rfl := Option.some.inj ht
    exact .same rfl
  | quit h =>
    simp only [next] at hnext
    split_ifs at hnext
    obtain rfl := Option.some.inj hnext
    exact .finish rfl
  -- the two actions on the table itself
  | publish h rid allowed sent => exact publish_codes hnext
  | claim h rid sent =>
    obtain ⟨-, rfl | rfl | ⟨-, -, p, -, -, rfl⟩⟩ := next_claim hnext
    · exact .same rfl
    · exact .finish rfl
    · exact .claimed rfl rfl
  | issue h tickets =>
    obtain ⟨-, ⟨-, rfl⟩ | ⟨ta, tb, -, -, -, -, rfl⟩⟩ := next_issue hnext
    · rw [releaseCircuit_eq]
      exact .same rfl
    · exact .same rfl
  | deliver h sent =>
    obtain ⟨c, ta, tb, -, rfl⟩ := next_deliver hnext
    cases sent with
    | true => exact .same rfl
    | false => exact .same (releaseOnce_pending c)
  | redeem h t =>
    obtain ⟨-, ⟨-, rfl⟩ | ⟨ref, -, rfl⟩⟩ := next_redeem hnext
    · exact .finish rfl
    · exact .same rfl
  | answer h sent =>
    obtain ⟨c, side, -, rfl⟩ := next_answer hnext
    split_ifs
    · exact .same rfl
    · exact .finish rfl
  | pumpEnd c =>
    simp only [next] at hnext
    split_ifs at hnext
    obtain rfl := Option.some.inj hnext
    exact .same rfl
  | spliceEnd h =>
    obtain ⟨c, side, -, -, rfl⟩ := next_spliceEnd hnext
    obtain ⟨hs, heq, -⟩ := s.endSplice_eq c
    refine .finish ?_
    rw [heq]
    exact releaseOnce_pending c
  | wake h =>
    obtain ⟨c, side, since, -, -, rfl⟩ := next_wake hnext
    exact .finish rfl
  | idle h =>
    obtain ⟨c, side, since, -, rfl⟩ := next_idle hnext
    exact .finish (releaseOnce_pending c)
  | shutdown h =>
    obtain ⟨c, side, since, -, -, rfl⟩ := next_shutdown hnext
    exact .finish rfl
  | sweep => exact .swept rfl (Option.some.inj hnext).symm
  | close =>
    obtain rfl := Option.some.inj hnext
    exact .same rfl
  | tick dt =>
    obtain rfl := Option.some.inj hnext
    exact .same rfl

/-! ## Not before its time -/

theorem next_now (hnext : s.next L a = some s') :
    s'.now = s.now ∨ ∃ dt, a = .tick dt ∧ s' = { s with now := s.now + dt } := by
  cases next_effect hnext with
  | tick => exact .inr ⟨_, rfl, rfl⟩
  | _ => exact .inl (by simp [dropCircuit, attach, setPc, reap])

theorem now_le (hnext : s.next L a = some s') : s.now ≤ s'.now := by
  rcases next_now hnext with hsame | ⟨dt, -, rfl⟩
  · exact hsame.ge
  · exact Nat.le_add_right _ _

/-- A step that does not touch the code `rid` of the handler `h`: it is not claimed or published
again, and the handler does not return. -/
structure StepUndisturbed (L : Limits) (rid : GoString) (h : ℕ) (s : Server) (a : Act)
    (s' : Server) :
    Prop where
  step : s.next L a = some s'
  unclaimed : ∀ x sent, a ≠ .claim x rid sent
  unpublished : ∀ x allowed sent, a ≠ .publish x rid allowed sent
  served : (s'.handler.get h).pc ≠ .gone

/-- Step lemma: such a step keeps a code that is not too old after it. The case of the reaper is
where the age is used; the others are excluded by the condition on the step. -/
theorem StepUndisturbed.keeps {rid : GoString} {p : PendingCode}
    (hstep : StepUndisturbed L rid p.conn s a s') (hrid : s.pending.lookup rid = some p)
    (hyoung : s'.now ≤ p.created + L.codeTTL) : s'.pending.lookup rid = some p := by
  cases next_codes hstep.step with
  | kept hold hkeep =>
    rcases hkeep rid p hrid with hstays | hgone | ⟨x, allowed, sent, ha⟩
    · exact hstays
    · exact absurd hgone hstep.served
    · exact absurd ha (hstep.unpublished x allowed sent)
  | @published x k allowed sent ha hnew =>
    rw [hnew, AList.lookup_insert_ne, hrid]
    rintro rfl
    exact hstep.unpublished x allowed sent ha
  | @claimed x k sent ha hgone =>
    rw [hgone, AList.lookup_erase_ne, hrid]
    rintro rfl
    exact hstep.unclaimed x sent ha
  | swept ha hs =>
    subst hs
    refine (Maps.lookup_sweep _ _).mpr ⟨hrid, ?_⟩
    have hnow : (s.reap L).now = s.now := rfl
    rw [hnow] at hyoung
    simp only [decide_eq_false_iff_not]
    omega

end Server

/-- **A code is good for `CodeTTL`.** As long as nobody claims or publishes it again and the
handler of its publisher does not return, a code stays for `CodeTTL`, whatever else the relay
does; and a claim by another connection gets it, if there is a slot. -/
theorem code_stays {L : Limits} {rid : GoString} {p : PendingCode} {s s' : Server} {acts : List Act}
    (hrid : s.pending.lookup rid = some p)
    (hrun : Run (Server.StepUndisturbed L rid p.conn) s acts s')
    (hyoung : s'.now ≤ p.created + L.codeTTL) :
    s'.pending.lookup rid = some p ∧
      ∀ x, (s'.handler.get x).pc = .control → x ≠ p.conn → s'.circuits < L.maxCircuits →
        ∃ t, s'.next L (.claim x rid true) = some t ∧ (t.handler.get x).pc = .pairTaken ∧
          t.pending.lookup rid = none := by
  -- by induction on the run; the code was young enough earlier because the clock does not go back
  have hstays : s'.now ≤ p.created + L.codeTTL → s'.pending.lookup rid = some p :=
    hrun.invariant (fun t => t.now ≤ p.created + L.codeTTL → t.pending.lookup rid = some p)
      (fun _ => hrid) fun t a u ht hstep hu =>
        hstep.keeps (ht ((Server.now_le hstep.step).trans hu)) hu
  refine ⟨hstays hyoung, ?_⟩
  intro x hx hne hroom
  have hfree : ¬(p.conn = x ∨ s'.circuits ≥ L.maxCircuits) := by
    rintro (hown | hfull)
    · exact hne hown.symm
    · omega
  refine ⟨Server.setPc { s' with pending := s'.pending.erase rid, circuits := s'.circuits + 1 } x
    .pairTaken, ?_, ?_, ?_⟩
  · simp only [Server.next, if_pos hx, if_neg (show ¬true = false by decide), hstays hyoung,
      if_neg hfree]
  · rw [Server.setPc, Heap.get_modify_self]
  · exact AList.lookup_erase rid s'.pending

/-- A code that is five minutes old and has just been passed over by the reaper. -/
theorem code_stays_swept :
    ∃ s, Run (ofNext (Server.next defaultLimits)) {}
        [.connect [49], .connect [50], .publish 0 [65] true true] s ∧
      ∃ t, (Server.reap defaultLimits { s with now := s.now + 300000 }).next defaultLimits
          (.claim 1 [65] true) = some t ∧ (t.handler.get 1).pc = .pairTaken := by
  obtain ⟨s, hrun, hcode, hpub, hclaim, hfree, hnow⟩ :
    ∃ s, Run (ofNext (Server.next defaultLimits)) {}
      [.connect [49], .connect [50], .publish 0 [65] true true] s ∧
      s.pending.lookup [65] = some ⟨0, 0⟩ ∧ (s.handler.get 0).pc = .control ∧
      (s.handler.get 1).pc = .control ∧ s.circuits = 0 ∧ s.now = 0 :=
    exists_run_of_any _ (by decide +kernel)
  have hserved : (s.handler.get 0).pc ≠ .gone := by simp [hpub]
  have htick : Server.StepUndisturbed defaultLimits [65] 0 s (.tick 300000)
      { s with now := s.now + 300000 } := ⟨rfl, nofun, nofun, hserved⟩
  have hsweep : Server.StepUndisturbed defaultLimits [65] 0 { s with now := s.now + 300000 } .sweep
      (Server.reap defaultLimits { s with now := s.now + 300000 }) := ⟨rfl, nofun, nofun, hserved⟩
  have hage : (Server.reap defaultLimits { s with now := s.now + 300000 }).now ≤
      0 + defaultLimits.codeTTL := by
    show s.now + 300000 ≤ 0 + defaultLimits.codeTTL
    rw [hnow]
    decide
  have hroom : (Server.reap defaultLimits { s with now := s.now + 300000 }).circuits <
      defaultLimits.maxCircuits := by
    show s.circuits < defaultLimits.maxCircuits
    rw [hfree]
    decide
  obtain ⟨-, hclaims⟩ := code_stays hcode ((Run.single htick).snoc hsweep) hage
  obtain ⟨t, ht, hpc, -⟩ := hclaims 1 hclaim (by decide) hroom
  exact ⟨s, hrun, t, ht, hpc⟩

/-! ## Not long after it -/

/-- `reapInterval`, where `milli` is a millisecond in units of the clock. -/
def reapInterval (milli ttl : ℕ) : ℕ :=
  if ttl / 2 > 30000 * milli then 30000 * milli else if ttl / 2 < milli then milli else ttl / 2

/-- The relay, and when the reaper has last swept. -/
structure Timed where
  server : Server := {}
  swept : ℕ := 0

namespace Timed

variable (L : Limits) (milli : ℕ)

/-- The clock does not run past the next sweep, as long as there is a reaper. -/
def onTime (x : Timed) : Act → Bool
  | .tick dt =>
    x.server.closed || decide (x.server.now + dt ≤ x.swept + reapInterval milli L.codeTTL)
  | _ => true

/-- When the last sweep was, after an action. -/
def sweptAt (x : Timed) : Act → ℕ
  | .sweep => x.server.now
  | _ => x.swept

/-- One step of a relay whose reaper is on time. -/
def next (x : Timed) (a : Act) : Option Timed :=
  if x.onTime L milli a then (x.server.next L a).map fun s => ⟨s, x.sweptAt a⟩ else none

/-- What is in the tables is not older than it may be at the last sweep. -/
structure Timely (x : Timed) : Prop where
  wired : x.server.Wired
  swept : x.swept ≤ x.server.now
  due : x.server.closed = false → x.server.now ≤ x.swept + reapInterval milli L.codeTTL
  pending : ∀ k p, x.server.pending.lookup k = some p → x.swept ≤ p.created + L.codeTTL
  tickets : ∀ t ref, x.server.tickets.lookup t = some ref →
    x.swept ≤ (x.server.circuit.get ref.circuit).created + L.codeTTL

end Timed

namespace Server

variable {L : Limits} {s s' : Server} {a : Act}

theorem next_closed (hnext : s.next L a = some s') (hopen : s'.closed = false) :
    s.closed = false := by
  cases next_effect hnext with
  | close => exact absurd hopen (by simp)
  | _ => simpa [dropCircuit, attach, setPc, reap] using hopen

theorem releaseOnce_created (c d : ℕ) :
    ((s.releaseOnce c).circuit.get d).created = (s.circuit.get d).created := by
  rw [releaseOnce_circuit]
  exact s.circuit.get_modify_congr (fun x => { x with released := true }) (fun _ => rfl) d

theorem next_created (hnext : s.next L a = some s') {d : ℕ} (hd : d < s.circuit.next) :
    (s'.circuit.get d).created = (s.circuit.get d).created := by
  cases next_effect hnext with
  | issue => exact congrArg Circuit.created (Heap.get_alloc_of_lt _ _ hd)
  | @drop _ c ta tb =>
    exact releaseOnce_created (s := { s with tickets := (s.tickets.erase ta).erase tb }) c d
  | @attach h c side =>
    exact s.circuit.get_modify_congr (fun x => x.attach h side (s.second c side) s.now)
      (fun _ => rfl) d
  | pump => exact s.circuit.get_modify_congr (fun x => { x with pumpDone := true }) (fun _ => rfl) d
  | @splice _ c =>
    -- the end of the splice marks the circuit twice, as released and as done
    refine Eq.trans ?_ (releaseOnce_created c d)
    exact (s.releaseOnce c).circuit.get_modify_congr (fun x => { x with done := true })
      (fun _ => rfl) d
  | @idle _ c => exact releaseOnce_created c d
  | _ => rfl

theorem next_tickets (hnext : s.next L a = some s') {t : ℕ} {ref : TicketRef}
    (ht : s'.tickets.lookup t = some ref) :
    s.tickets.lookup t = some ref ∨ (s'.circuit.get ref.circuit).created = s.now := by
  cases next_effect hnext with
  | issue =>
    rcases (Maps.lookup_insert_iff _).mp ht with ⟨-, rfl⟩ | ⟨-, ht⟩
    · exact .inr (congrArg Circuit.created (Heap.get_alloc_next _ _))
    · rcases (Maps.lookup_insert_iff _).mp ht with ⟨-, rfl⟩ | ⟨-, ht⟩
      · exact .inr (congrArg Circuit.created (Heap.get_alloc_next _ _))
      · exact .inl ht
  | drop =>
    rw [dropCircuit, releaseOnce_tickets] at ht
    exact .inl (Maps.lookup_of_erase _ (Maps.lookup_of_erase _ ht).1).1
  | redeem => exact .inl (Maps.lookup_of_erase _ ht).1
  | splice | idle =>
    rw [releaseOnce_tickets] at ht
    exact .inl ht
  | sweep => exact .inl ((Maps.lookup_sweep _ _).mp ht).1
  | _ => exact .inl ht

theorem next_pending (hnext : s.next L a = some s') {k : GoString} {p : PendingCode}
    (hk : s'.pending.lookup k = some p) : s.pending.lookup k = some p ∨ p.created = s.now := by
  cases next_codes hnext with
  | kept hold _ => exact .inl (hold k p hk)
  | published _ hnew =>
    rw [hnew] at hk
    rcases (Maps.lookup_insert_iff _).mp hk with ⟨-, rfl⟩ | ⟨-, hold⟩
    · exact .inr rfl
    · exact .inl hold
  | claimed _ hgone =>
    rw [hgone] at hk
    exact .inl (Maps.lookup_of_erase _ hk).1
  | swept _ hs =>
    subst hs
    exact .inl ((Maps.lookup_sweep _ _).mp hk).1

end Server

namespace Timed

variable {L : Limits} {milli : ℕ} {x x' : Timed} {a : Act}

theorem next_eq_some (h : x.next L milli a = some x') :
    x.server.next L a = some x'.server ∧ x'.swept = x.sweptAt a ∧ x.onTime L milli a = true := by
  unfold next at h
  split_ifs at h with htime
  obtain ⟨s, hs, rfl⟩ := Option.map_eq_some_iff.mp h
  exact ⟨hs, rfl, htime⟩

/-- Step lemma. A sweep removes what would be too old at that time; every other action adds only
what was made at a time not before the last sweep. -/
theorem Timely.step (h : Timely L milli x) (hstep : x.next L milli a = some x') :
    Timely L milli x' := by
  obtain ⟨hnext, hswept, htime⟩ := next_eq_some hstep
  have hnow := Server.now_le hnext
  by_cases ha : a = .sweep
  · -- after a sweep nothing in the tables is older than `CodeTTL`
    subst ha
    have hs : x'.server = x.server.reap L := (Option.some.inj hnext).symm
    have hsame : x'.server.now = x.server.now := by rw [hs]; rfl
    refine ⟨h.wired.step (Server.next_effect hnext), ?_, ?_, ?_, ?_⟩
    · rw [hswept, hsame]
      rfl
    · intro _
      rw [hswept, hsame]
      exact Nat.le_add_right _ _
    · intro k p hk
      rw [hs] at hk
      have hyoung := of_decide_eq_false ((Maps.lookup_sweep _ _).mp hk).2
      rw [hswept]
      show x.server.now ≤ _
      omega
    · intro t ref ht
      rw [hs] at ht ⊢
      have hyoung := of_decide_eq_false ((Maps.lookup_sweep _ _).mp ht).2
      rw [hswept]
      show x.server.now ≤ (x.server.circuit.get ref.circuit).created + L.codeTTL
      omega
  · have hkept : x'.swept = x.swept := by
      rw [hswept]
      cases a with
      | sweep => exact absurd rfl ha
      | _ => rfl
    refine ⟨h.wired.step (Server.next_effect hnext), ?_, ?_, ?_, ?_⟩
    · rw [hkept]
      exact h.swept.trans hnow
    · intro hopen
      have hwas := Server.next_closed hnext hopen
      rw [hkept]
      rcases Server.next_now hnext with hsame | ⟨dt, rfl, hs⟩
      · rw [hsame]
        exact h.due hwas
      · rw [hs]
        simpa [onTime, hwas] using htime
    · intro k p hk
      rw [hkept]
      rcases Server.next_pending hnext hk with hold | hnew
      · exact h.pending k p hold
      · rw [hnew]
        exact h.swept.trans (Nat.le_add_right _ _)
    · intro t ref ht
      rw [hkept]
      rcases Server.next_tickets hnext ht with hold | hnew
      · rw [Server.next_created hnext (h.wired.ticket t ref hold).2.1]
        exact h.tickets t ref hold
      · rw [hnew]
        exact h.swept.trans (Nat.le_add_right _ _)

theorem timely_start : Timely L milli {} :=
  ⟨Server.Wired.start, le_rfl, fun _ => Nat.zero_le _, fun _ _ _ => Nat.zero_le _, fun _ _ _ =>
    Nat.zero_le _⟩

end Timed

/-- **No code is good for much longer than `CodeTTL`.** In every run of a relay whose reaper
sweeps on time, until it is closed, whatever the handlers do: no code that can be claimed, and no
ticket that can be redeemed, is older than `CodeTTL` and the interval of the reaper together. -/
theorem codes_expire {L : Limits} {milli : ℕ} {acts : List Act} {x : Timed}
    (hrun : Run (ofNext (Timed.next L milli)) {} acts x) (hopen : x.server.closed = false) :
    (∀ rid p, x.server.pending.lookup rid = some p →
      x.server.now ≤ p.created + L.codeTTL + reapInterval milli L.codeTTL) ∧
    ∀ t ref, x.server.tickets.lookup t = some ref →
      x.server.now ≤ (x.server.circuit.get ref.circuit).created + L.codeTTL +
        reapInterval milli L.codeTTL := by
  have htimely : Timed.Timely L milli x :=
    hrun.invariant (Timed.Timely L milli) Timed.timely_start fun _ _ _ h hs => h.step hs
  have hdue := htimely.due hopen
  constructor
  · intro rid p hp
    have hp := htimely.pending rid p hp
    omega
  · intro t ref ht
    have ht := htimely.tickets t ref ht
    omega

/-- The reaper has swept just before the code was too old: it lives through the next interval. -/
theorem codes_expire_late :
    ∃ x : Timed, Run (ofNext (Timed.next defaultLimits 1)) {}
        ([.connect [49], .tick 1, .publish 0 [65] true true, .tick 29999, .sweep] ++
          (List.replicate 9 [.tick 30000, .sweep]).flatten ++ [.tick 30000]) x ∧
      x.server.pending.lookup [65] = some ⟨0, 1⟩ ∧ x.server.now ≤ 1 + 300000 + 30000 := by
  obtain ⟨x, hrun, hcode, hopen⟩ : ∃ x : Timed, Run (ofNext (Timed.next defaultLimits 1)) {}
      ([.connect [49], .tick 1, .publish 0 [65] true true, .tick 29999, .sweep] ++
        (List.replicate 9 [.tick 30000, .sweep]).flatten ++ [.tick 30000]) x ∧
      x.server.pending.lookup [65] = some ⟨0, 1⟩ ∧ x.server.closed = false :=
    exists_run_of_any _ (by decide +kernel)
  exact ⟨x, hrun, hcode, (codes_expire hrun hopen).1 [65] ⟨0, 1⟩ hcode⟩

end Heimdall.Relay
