/-
Pairing is exclusive.

The relay forgets: a code that was claimed, a ticket that was redeemed and a circuit that was
spliced leave no entry behind. So that one can say "at most once", a run is recorded: `Recorded`
is the server together with the list of what it has done, in which every entry that `addPending`
makes has a number of its own. Recording takes nothing away from the runs of the server
(`recorded_of_run`).

What the tables hold is explained by the record. An entry of `pending` was added and not consumed,
and whoever is inside `pair` has consumed one (`Codes`). A ticket was issued and not redeemed, and
whoever is attached to a side of a circuit has redeemed the ticket of that side (`Tickets`).
`pairing_exclusive` is read off that.
-/
import Heimdall.RelayTraffic

set_option autoImplicit false

namespace Heimdall.Relay

open Heimdall.Peers (GoString)
open Heimdall.Runs

/-! ## The record -/

/-- What the record notes. -/
inductive Event where
  /-- `addPending` has made entry `e`, for connection `h`. -/
  | added (e : ℕ) (rid : GoString) (h : ℕ)
  /-- A claim by `h` has consumed entry `e`. -/
  | consumed (e h : ℕ)
  /-- The handler of `h`, which has consumed `e`, issues the tickets `ta` for the publisher's side
  and `tb` for the claimer's side of circuit `c`. -/
  | issued (e h c ta tb : ℕ)
  | redeemed (t h : ℕ)
  /-- A splice of `c` starts, with `x` on the publisher's side and `y` on the claimer's. -/
  | spliced (c : ℕ) (x y : Option ℕ)
  deriving DecidableEq

namespace Event

def consumes (e : ℕ) : Event → Bool
  | consumed e' _ => e' == e
  | _ => false

def redeems (t : ℕ) : Event → Bool
  | redeemed t' _ => t' == t
  | _ => false

def splices (c : ℕ) : Event → Bool
  | spliced c' _ _ => c' == c
  | _ => false

/-- An event about codes, not about tickets. -/
def ofCodes : Event → Bool
  | added _ _ _ | consumed _ _ => true
  | _ => false

end Event

/-- The server, what it has done, and for the record the number of the entry that each code has
and that each handler has consumed. -/
structure Recorded where
  srv : Server := {}
  entries : ℕ := 0
  entry : GoString → ℕ := fun _ => 0
  taken : ℕ → ℕ := fun _ => 0
  log : List Event := []

namespace Recorded

variable (L : Limits) (r : Recorded)

/-- What there is to note when `a` leads to `t`. -/
def event (t : Server) : Act → Option Event
  | .publish h rid allowed _ =>
    if allowed = true ∧ (r.srv.addPending L rid h).1 = true then some (.added r.entries rid h)
    else none
  | .claim h rid _ =>
    if (t.handler.get h).pc = .pairTaken then some (.consumed (r.entry rid) h) else none
  | .issue h (some (ta, tb)) => some (.issued (r.taken h) h r.srv.circuit.next ta tb)
  | .redeem h k => if (r.srv.tickets.lookup k).isSome then some (.redeemed k h) else none
  | .answer h _ =>
    match (t.handler.get h).pc with
    | .splicing c _ =>
      some (.spliced c ((t.circuit.get c).conns false) ((t.circuit.get c).conns true))
    | _ => none
  | _ => none

def note (t : Server) : Option Event → Recorded
  | some (.added e rid h) =>
    { r with
      srv := t
      entries := r.entries + 1
      entry := Function.update r.entry rid e
      log := .added e rid h :: r.log }
  | some (.consumed e h) =>
    { r with srv := t, taken := Function.update r.taken h e, log := .consumed e h :: r.log }
  | some x => { r with srv := t, log := x :: r.log }
  | none => { r with srv := t }

def next (a : Act) : Option Recorded := (r.srv.next L a).map fun t => r.note t (r.event L t a)

variable {L r}

/-- The server does not remember who has claimed what. The record is kept beside it and read by no
step, so recording changes nothing about a run. -/
@[simp] theorem note_srv (t : Server) (x : Option Event) : (r.note t x).srv = t := by
  rcases x with _ | _ | _ | _ | _ | _ <;> rfl

theorem note_of_tickets (t : Server) {x : Option Event} (hx : ∀ y ∈ x, y.ofCodes = false) :
    r.note t x = { r with srv := t, log := x.toList ++ r.log } := by
  rcases x with _ | x
  · rfl
  · cases x with
    | added | consumed => exact absurd (hx _ rfl) (by simp [Event.ofCodes])
    | issued | redeemed | spliced => rfl

end Recorded

/-- Every run of the server can be recorded, so what is shown of recorded runs holds for all. -/
theorem recorded_of_run {L : Limits} {s : Server} {as : List Act}
    (hrun : Run (ofNext (Server.next L)) {} as s) :
    ∃ r : Recorded, Run (ofNext (Recorded.next L)) {} as r ∧ r.srv = s := by
  induction hrun with
  | nil => exact ⟨{}, .nil, rfl⟩
  | @snoc as a t u _ hnext ih =>
    obtain ⟨r, hr, rfl⟩ := ih
    refine ⟨r.note u (r.event L u a), .snoc hr ?_, r.note_srv u _⟩
    rw [ofNext, Recorded.next, show r.srv.next L a = some u from hnext]
    rfl

/-! ## At most once -/

theorem countP_cons_le_one {p : Event → Bool} {x : Event} {log : List Event}
    (hlog : log.countP p ≤ 1) (hnew : p x = true → ∀ y ∈ log, p y = false) :
    (x :: log).countP p ≤ 1 := by
  rcases hx : p x with _ | _
  · rw [List.countP_cons_of_neg (by simp [hx])]
    exact hlog
  · have hzero : log.countP p = 0 := List.countP_eq_zero.mpr fun y hy => by simp [hnew hx y hy]
    rw [List.countP_cons_of_pos hx, hzero]

theorem countP_append_of_not {p : Event → Bool} {new log : List Event}
    (hnew : ∀ y ∈ new, p y = false) : (new ++ log).countP p = log.countP p := by
  rw [List.countP_append, List.countP_eq_zero.mpr fun y hy => by simp [hnew y hy], Nat.zero_add]

/-! ## Codes -/

/-- What the record says about the codes and who claims them. -/
structure Codes (r : Recorded) : Prop where
  added : ∀ e rid h, .added e rid h ∈ r.log → e < r.entries ∧
    ∀ rid' h', .added e rid' h' ∈ r.log → rid' = rid ∧ h' = h
  pending : ∀ rid p, r.srv.pending.lookup rid = some p →
    .added (r.entry rid) rid p.conn ∈ r.log ∧ ∀ h, .consumed (r.entry rid) h ∉ r.log
  consumed : ∀ e h, .consumed e h ∈ r.log → ∃ rid h', .added e rid h' ∈ r.log ∧ h' ≠ h
  once : ∀ e, r.log.countP (Event.consumes e) ≤ 1
  taken : ∀ h, (r.srv.handler.get h).pc = .pairTaken → .consumed (r.taken h) h ∈ r.log
  issued : ∀ e h c ta tb, .issued e h c ta tb ∈ r.log → .consumed e h ∈ r.log

namespace Codes

variable {L : Limits} {r : Recorded} {t : Server} {rid : GoString} {h : ℕ} {p : PendingCode}

/-- An entry is added, under a number that no entry had. An older entry of the same code is out of
the table then, and nobody can consume it any more. -/
theorem adds (hr : Codes r)
    (hpending : ∀ rid' p, t.pending.lookup rid' = some p →
      (rid' = rid ∧ p.conn = h) ∨ (rid' ≠ rid ∧ r.srv.pending.lookup rid' = some p))
    (htaken : ∀ x, (t.handler.get x).pc = .pairTaken → (r.srv.handler.get x).pc = .pairTaken) :
    Codes (r.note t (some (.added r.entries rid h))) where
  added e rid' h' hmem := by
    have hnew : ∀ rid h, Event.added r.entries rid h ∉ r.log :=
      fun rid h hold => lt_irrefl _ (hr.added _ rid h hold).1
    rcases List.mem_cons.mp hmem with heq | hold
    · cases heq
      refine ⟨Nat.lt_succ_self _, fun rid'' h'' hmem => ?_⟩
      rcases List.mem_cons.mp hmem with heq | hold
      · cases heq
        exact ⟨rfl, rfl⟩
      · exact absurd hold (hnew rid'' h'')
    · obtain ⟨hlt, huniq⟩ := hr.added e rid' h' hold
      refine ⟨hlt.trans (Nat.lt_succ_self _), fun rid'' h'' hmem => ?_⟩
      rcases List.mem_cons.mp hmem with heq | hold'
      · cases heq
        exact absurd hlt (lt_irrefl _)
      · exact huniq rid'' h'' hold'
  pending rid' p hp := by
    dsimp only [Recorded.note]
    rcases hpending rid' p hp with ⟨rfl, rfl⟩ | ⟨hne, hold⟩
    · rw [Function.update_self]
      refine ⟨List.mem_cons_self, fun h hmem => ?_⟩
      -- nothing can have consumed an entry that is only now made
      obtain ⟨rid, h', hadd, -⟩ := hr.consumed _ h ((List.mem_cons.mp hmem).resolve_left nofun)
      exact lt_irrefl _ (hr.added _ rid h' hadd).1
    · rw [Function.update_of_ne hne]
      obtain ⟨hadd, hfree⟩ := hr.pending rid' p hold
      refine ⟨List.mem_cons_of_mem _ hadd, fun h hmem => ?_⟩
      exact hfree h ((List.mem_cons.mp hmem).resolve_left nofun)
  consumed e h' hmem := by
    obtain ⟨rid', h'', hadd, hne⟩ := hr.consumed e h' ((List.mem_cons.mp hmem).resolve_left nofun)
    exact ⟨rid', h'', List.mem_cons_of_mem _ hadd, hne⟩
  once e := countP_cons_le_one (hr.once e) nofun
  taken x hx := List.mem_cons_of_mem _ (hr.taken x (htaken x hx))
  issued e h' c ta tb hmem :=
    List.mem_cons_of_mem _ (hr.issued e h' c ta tb ((List.mem_cons.mp hmem).resolve_left nofun))

/-- An entry is consumed: it was in the table, so it had not been consumed, and it is not in the
table any more. The server has made sure that the claimer is not the publisher. -/
theorem consumes (hr : Codes r) (hp : r.srv.pending.lookup rid = some p) (hother : p.conn ≠ h)
    (hpending : ∀ rid' p, t.pending.lookup rid' = some p →
      rid' ≠ rid ∧ r.srv.pending.lookup rid' = some p)
    (htaken : ∀ x, x ≠ h → (t.handler.get x).pc = .pairTaken →
      (r.srv.handler.get x).pc = .pairTaken) :
    Codes (r.note t (some (.consumed (r.entry rid) h))) where
  added e rid' h' hmem := by
    obtain ⟨hlt, huniq⟩ := hr.added e rid' h' ((List.mem_cons.mp hmem).resolve_left nofun)
    exact ⟨hlt, fun rid'' h'' hmem => huniq rid'' h'' ((List.mem_cons.mp hmem).resolve_left nofun)⟩
  pending rid' q hq := by
    obtain ⟨hne, hold⟩ := hpending rid' q hq
    obtain ⟨hadd, hfree⟩ := hr.pending rid' q hold
    refine ⟨List.mem_cons_of_mem _ hadd, fun x hmem => ?_⟩
    rcases List.mem_cons.mp hmem with heq | hmem
    · -- two codes do not share an entry
      have hsame : r.entry rid' = r.entry rid := (Event.consumed.inj heq).1
      rw [hsame] at hadd
      exact hne ((hr.added _ rid p.conn (hr.pending rid p hp).1).2 rid' q.conn hadd).1
    · exact hfree x hmem
  consumed e x hmem := by
    rcases List.mem_cons.mp hmem with heq | hmem
    · cases heq
      exact ⟨rid, p.conn, List.mem_cons_of_mem _ (hr.pending rid p hp).1, hother⟩
    · obtain ⟨rid', h', hadd, hne⟩ := hr.consumed e x hmem
      exact ⟨rid', h', List.mem_cons_of_mem _ hadd, hne⟩
  once e := by
    refine countP_cons_le_one (hr.once e) fun hcons y hy => ?_
    have he : r.entry rid = e := by simpa [Event.consumes] using hcons
    cases y with
    | consumed e' x =>
      have hne : e' ≠ e := by
        rintro rfl
        exact (hr.pending rid p hp).2 x (he ▸ hy)
      simpa [Event.consumes] using hne
    | added | issued | redeemed | spliced => rfl
  taken x hx := by
    dsimp only [Recorded.note]
    by_cases hxh : x = h
    · subst hxh
      rw [Function.update_self]
      exact List.mem_cons_self
    · rw [Function.update_of_ne hxh]
      exact List.mem_cons_of_mem _ (hr.taken x (htaken x hxh hx))
  issued e x c ta tb hmem :=
    List.mem_cons_of_mem _ (hr.issued e x c ta tb ((List.mem_cons.mp hmem).resolve_left nofun))

/-- Nothing happens to the codes but that some are dropped. The event, if there is one, is about
tickets, so what the record says about codes is the same before and after it. -/
theorem other (hr : Codes r) {x : Option Event} (hx : ∀ y ∈ x, y.ofCodes = false)
    (hpending : ∀ rid p, t.pending.lookup rid = some p → r.srv.pending.lookup rid = some p)
    (htaken : ∀ x, (t.handler.get x).pc = .pairTaken → (r.srv.handler.get x).pc = .pairTaken)
    (hissued : ∀ e h c ta tb, some (.issued e h c ta tb) = x → .consumed e h ∈ r.log) :
    Codes (r.note t x) := by
  -- the event that is noted is none of those the fields of `Codes` are about
  have hold : ∀ y, y.ofCodes = true → (y ∈ x.toList ++ r.log ↔ y ∈ r.log) := by
    intro y hy
    rw [List.mem_append, Option.mem_toList, or_iff_right]
    intro hmem
    rw [hx y hmem] at hy
    exact absurd hy (by simp)
  have hadded : ∀ e rid h, .added e rid h ∈ x.toList ++ r.log ↔ .added e rid h ∈ r.log :=
    fun _ _ _ => hold _ rfl
  have hconsumed : ∀ e h, .consumed e h ∈ x.toList ++ r.log ↔ .consumed e h ∈ r.log :=
    fun _ _ => hold _ rfl
  rw [Recorded.note_of_tickets t hx]
  constructor
  case added => simpa only [hadded] using hr.added
  case pending =>
    intro rid p hp
    simpa only [hadded, hconsumed] using hr.pending rid p (hpending rid p hp)
  case consumed => simpa only [hadded, hconsumed] using hr.consumed
  case once =>
    intro e
    rw [countP_append_of_not]
    · exact hr.once e
    · intro y hy
      have hy' := hx y (Option.mem_toList.mp hy)
      cases y with
      | added | consumed => exact absurd hy' (by simp [Event.ofCodes])
      | issued | redeemed | spliced => rfl
  case taken =>
    intro h hh
    exact (hconsumed _ _).mpr (hr.taken h (htaken h hh))
  case issued =>
    -- only here may the new event be the one that is meant
    intro e h c ta tb hmem
    rw [hconsumed]
    rcases List.mem_append.mp hmem with hmem | hmem
    · exact hissued e h c ta tb (Option.mem_toList.mp hmem).symm
    · exact hr.issued e h c ta tb hmem

end Codes

/-! ## Tickets -/

/-- `t` was issued for a side of `c`. -/
def Issued (log : List Event) (c : ℕ) (side : Bool) (t : ℕ) : Prop :=
  ∃ e h ta tb, .issued e h c ta tb ∈ log ∧ t = bif side then tb else ta

/-- `x` has redeemed the ticket of a side of `c`. -/
def Redeemed (log : List Event) (c : ℕ) (side : Bool) (x : ℕ) : Prop :=
  ∃ t, Issued log c side t ∧ .redeemed t x ∈ log

theorem Issued.mono {log log' : List Event} {c t : ℕ} {side : Bool} (hi : Issued log c side t)
    (hsub : ∀ y ∈ log, y ∈ log') : Issued log' c side t := by
  obtain ⟨e, h, ta, tb, hmem, ht⟩ := hi
  exact ⟨e, h, ta, tb, hsub _ hmem, ht⟩

theorem Redeemed.mono {log log' : List Event} {c x : ℕ} {side : Bool} (hr : Redeemed log c side x)
    (hsub : ∀ y ∈ log, y ∈ log') : Redeemed log' c side x := by
  obtain ⟨t, hi, hmem⟩ := hr
  exact ⟨t, hi.mono hsub, hsub _ hmem⟩

/-- What the record says about the tickets, and who has redeemed them. -/
structure Tickets (s : Server) (log : List Event) : Prop where
  issued : ∀ e h c ta tb, .issued e h c ta tb ∈ log → c < s.circuit.next ∧ ta ≠ tb ∧
    ∀ e' h' ta' tb', .issued e' h' c ta' tb' ∈ log → e' = e ∧ h' = h ∧ ta' = ta ∧ tb' = tb
  ticket : ∀ t ref, s.tickets.lookup t = some ref →
    Issued log ref.circuit ref.side t ∧ ∀ h, .redeemed t h ∉ log
  redeemed : ∀ t h, .redeemed t h ∈ log → t ∈ s.issued
  once : ∀ t, log.countP (Event.redeems t) ≤ 1
  holder : ∀ h c side, (s.handler.get h).pc = .redeemed c side → Redeemed log c side h
  conn : ∀ c side x, (s.circuit.get c).conns side = some x → Redeemed log c side x
  spliced : ∀ c x y, .spliced c x y ∈ log → (s.circuit.get c).started = true ∧
    (s.circuit.get c).conns false = x ∧ (s.circuit.get c).conns true = y
  splicedOnce : ∀ c, log.countP (Event.splices c) ≤ 1

namespace Tickets

variable {s s' : Server} {log : List Event} {e h c ta tb : ℕ} {side : Bool}

/-- Nothing happens but that tickets and handlers go, which the events about codes have no part
in. -/
theorem other (ht : Tickets s log) (hl : LetsGo s s') {x : Option Event}
    (hx : ∀ y ∈ x, y.ofCodes = true) : Tickets s' (x.toList ++ log) := by
  have hsub : ∀ y ∈ log, y ∈ x.toList ++ log := fun y => List.mem_append_right _
  -- an event about tickets is an old one
  have hold : ∀ y, y.ofCodes = false → y ∈ x.toList ++ log → y ∈ log := by
    intro y hy hmem
    rcases List.mem_append.mp hmem with hmem | hmem
    · rw [hx y (Option.mem_toList.mp hmem)] at hy
      exact absurd hy (by simp)
    · exact hmem
  have hnone : ∀ p : Event → Bool, (∀ y, y.ofCodes = true → p y = false) →
      (x.toList ++ log).countP p = log.countP p := by
    intro p hp
    exact countP_append_of_not fun y hy => hp y (hx y (Option.mem_toList.mp hy))
  constructor
  case issued =>
    intro e h c ta tb hmem
    obtain ⟨hc, hne, huniq⟩ := ht.issued e h c ta tb (hold _ rfl hmem)
    refine ⟨hl.circuit.next ▸ hc, hne, fun e' h' ta' tb' hmem' => ?_⟩
    exact huniq e' h' ta' tb' (hold _ rfl hmem')
  case ticket =>
    intro t ref href
    obtain ⟨hi, hfree⟩ := ht.ticket t ref (hl.tickets t ref href)
    exact ⟨hi.mono hsub, fun h hmem => hfree h (hold _ rfl hmem)⟩
  case redeemed =>
    intro t h hmem
    rw [hl.issued]
    exact ht.redeemed t h (hold _ rfl hmem)
  case once =>
    intro t
    rw [hnone _ fun y hy => by cases y <;> first | rfl | exact absurd hy (by simp [Event.ofCodes])]
    exact ht.once t
  case holder =>
    intro h c side hpc
    exact (ht.holder h c side (hl.pc_of hpc nofun nofun nofun)).mono hsub
  case conn =>
    intro c side x hx
    rw [hl.circuit.conns] at hx
    exact (ht.conn c side x hx).mono hsub
  case spliced =>
    intro c x y hmem
    rw [hl.circuit.started, hl.circuit.conns]
    exact ht.spliced c x y (hold _ rfl hmem)
  case splicedOnce =>
    intro c
    rw [hnone _ fun y hy => by cases y <;> first | rfl | exact absurd hy (by simp [Event.ofCodes])]
    exact ht.splicedOnce c

/-- A pairing issues two tickets for a new circuit. Their numbers were never issued, so what the
record says of older ones stays true. -/
theorem opens (ht : Tickets s log) (hw : s.Wired) (hne : ta ≠ tb) (ho : Opens s s' h ta tb)
    (e : ℕ) :
    Tickets s' (.issued e h s.circuit.next ta tb :: log) := by
  have hsub : ∀ y ∈ log, y ∈ Event.issued e h s.circuit.next ta tb :: log :=
    fun y => List.mem_cons_of_mem _
  have hredeemed : ∀ t x, .redeemed t x ∈ Event.issued e h s.circuit.next ta tb :: log →
      .redeemed t x ∈ log := fun t x hmem => (List.mem_cons.mp hmem).resolve_left nofun
  constructor
  case issued =>
    intro e' h' c ta' tb' hmem
    rw [ho.next]
    rcases List.mem_cons.mp hmem with heq | hmem
    · cases heq
      refine ⟨Nat.lt_succ_self _, hne, fun e' h' ta' tb' hmem => ?_⟩
      rcases List.mem_cons.mp hmem with heq | hmem
      · cases heq
        exact ⟨rfl, rfl, rfl, rfl⟩
      · exact absurd (ht.issued _ _ _ _ _ hmem).1 (lt_irrefl _)
    · obtain ⟨hc, hne', huniq⟩ := ht.issued e' h' c ta' tb' hmem
      refine ⟨hc.trans (Nat.lt_succ_self _), hne', fun e'' h'' ta'' tb'' hmem => ?_⟩
      rcases List.mem_cons.mp hmem with heq | hmem
      · cases heq
        exact absurd hc (lt_irrefl _)
      · exact huniq e'' h'' ta'' tb'' hmem
  case ticket =>
    intro t ref href
    have hnew : ∀ side, Issued (Event.issued e h s.circuit.next ta tb :: log) s.circuit.next side
        (bif side then tb else ta) := fun side => ⟨e, h, ta, tb, List.mem_cons_self, rfl⟩
    -- the ticket of either side of the new circuit, or an old one
    rcases (ho.lookup t ref).mp href with ⟨rfl, rfl⟩ | ⟨-, ⟨rfl, rfl⟩ | ⟨-, hold⟩⟩
    · exact ⟨hnew true, fun x hmem => ho.fresh_b (ht.redeemed _ x (hredeemed _ x hmem))⟩
    · exact ⟨hnew false, fun x hmem => ho.fresh_a (ht.redeemed _ x (hredeemed _ x hmem))⟩
    · obtain ⟨hi, hfree⟩ := ht.ticket t ref hold
      exact ⟨hi.mono hsub, fun x hmem => hfree x (hredeemed t x hmem)⟩
  case redeemed =>
    intro t x hmem
    rw [ho.issued]
    exact List.mem_cons_of_mem _ (List.mem_cons_of_mem _ (ht.redeemed t x (hredeemed t x hmem)))
  case once => exact fun t => countP_cons_le_one (ht.once t) nofun
  case holder =>
    intro x c side hpc
    exact (ht.holder x c side (ho.moves.pc_of hpc nofun)).mono hsub
  case conn =>
    intro c side x hx
    rw [ho.old c (ho.ne_next_of_conn hx)] at hx
    exact (ht.conn c side x hx).mono hsub
  case spliced =>
    intro c x y hmem
    -- a circuit that was spliced has connections, so it is not the new one
    obtain ⟨hstart, hxy⟩ := ht.spliced c x y ((List.mem_cons.mp hmem).resolve_left nofun)
    obtain ⟨z, hz⟩ := Option.ne_none_iff_exists'.mp (hw.started c hstart false)
    rw [ho.old c (hw.conn c false z hz).1.ne]
    exact ⟨hstart, hxy⟩
  case splicedOnce => exact fun c => countP_cons_le_one (ht.splicedOnce c) nofun

/-- The side of a ticket goes to the handler that redeems it. The ticket was in the table, so
nobody had redeemed it before, and it leaves the table. -/
theorem redeems (ht : Tickets s log) {t : ℕ} {ref : TicketRef} {hs : Heap Handler} (hw : s.Wired)
    (href : s.tickets.lookup t = some ref)
    (hm : Moves s.handler hs h (.redeemed ref.circuit ref.side) ∅) :
    Tickets { s with tickets := s.tickets.erase t, handler := hs } (.redeemed t h :: log) := by
  have hsub : ∀ y ∈ log, y ∈ Event.redeemed t h :: log := fun y => List.mem_cons_of_mem _
  obtain ⟨hi, hfree⟩ := ht.ticket t ref href
  have hself : Redeemed (.redeemed t h :: log) ref.circuit ref.side h :=
    ⟨t, hi.mono hsub, List.mem_cons_self⟩
  constructor
  case issued =>
    intro e h' c ta tb hmem
    obtain ⟨hc, hne, huniq⟩ := ht.issued e h' c ta tb ((List.mem_cons.mp hmem).resolve_left nofun)
    refine ⟨hc, hne, fun e' h'' ta' tb' hmem => ?_⟩
    exact huniq e' h'' ta' tb' ((List.mem_cons.mp hmem).resolve_left nofun)
  case ticket =>
    intro t' ref' href'
    obtain ⟨hold, hne⟩ := Maps.lookup_of_erase _ href'
    obtain ⟨hi', hfree'⟩ := ht.ticket t' ref' hold
    refine ⟨hi'.mono hsub, fun x hmem => ?_⟩
    rcases List.mem_cons.mp hmem with heq | hmem
    · exact hne (Event.redeemed.inj heq).1
    · exact hfree' x hmem
  case redeemed =>
    intro t' x hmem
    rcases List.mem_cons.mp hmem with heq | hmem
    · cases heq
      exact (hw.ticket t ref href).1
    · exact ht.redeemed t' x hmem
  case once =>
    intro t'
    refine countP_cons_le_one (ht.once t') fun hcons y hy => ?_
    -- a second redemption of `t` would be in the record, which `hfree` excludes
    have htt : t = t' := by simpa [Event.redeems] using hcons
    cases y with
    | redeemed t'' x =>
      have hne : t'' ≠ t' := by
        rintro rfl
        exact hfree x (htt ▸ hy)
      simpa [Event.redeems] using hne
    | added | consumed | issued | spliced => rfl
  case holder =>
    intro x c side hpc
    -- the handler that redeems is at the side of the ticket now
    rcases hm.cases x with ⟨rfl, hx⟩ | ⟨-, hx⟩
    · cases hx.symm.trans hpc
      exact hself
    · exact (ht.holder x c side (hx.symm.trans hpc)).mono hsub
  case conn => exact fun c side x hx => (ht.conn c side x hx).mono hsub
  case spliced =>
    exact fun c x y hmem => ht.spliced c x y ((List.mem_cons.mp hmem).resolve_left nofun)
  case splicedOnce => exact fun c => countP_cons_le_one (ht.splicedOnce c) nofun

/-- A connection attaches to the side whose ticket it has redeemed. The side was free, and a
splice of this circuit has not started, so what is on record about splices is about others. -/
theorem attaches (ht : Tickets s log) (hw : s.Wired)
    (hfrom : (s.handler.get h).pc = .redeemed c side) : Tickets (s.attach h c side) log := by
  obtain ⟨-, hfree, -, hstart, -⟩ := hw.free_of_redeemed hfrom
  constructor
  case issued => exact ht.issued
  case ticket => exact ht.ticket
  case redeemed => exact ht.redeemed
  case once => exact ht.once
  case holder =>
    intro x d e hpc
    refine ht.holder x d e ((s.moves_attach h c side).pc_of hpc ?_)
    split_ifs <;> nofun
  case conn =>
    intro d e x hx
    -- the new connection is that of the handler, which has redeemed the ticket
    rcases s.attach_conns h c side hx with ⟨rfl, rfl, rfl⟩ | ⟨-, hx⟩
    · exact ht.holder x d e hfrom
    · exact ht.conn d e x hx
  case spliced =>
    intro d x y hmem
    have hold := ht.spliced d x y hmem
    have hd : d ≠ c := by
      rintro rfl
      exact absurd (hold.1.symm.trans hstart) (by simp)
    rw [s.attach_circuit_of_ne h c side hd]
    exact hold
  case splicedOnce => exact ht.splicedOnce

/-- A splice starts on a circuit that was never spliced. What is noted are the connections it has
then, and a circuit that has started does not change them. -/
theorem splices (ht : Tickets s log) (hstart : (s.circuit.get c).started = true)
    (hnew : ∀ x y, .spliced c x y ∉ log) :
    Tickets s (.spliced c ((s.circuit.get c).conns false)
      ((s.circuit.get c).conns true) :: log) := by
  have hsub : ∀ y ∈ log, y ∈
      Event.spliced c ((s.circuit.get c).conns false) ((s.circuit.get c).conns true) :: log :=
    fun y => List.mem_cons_of_mem _
  constructor
  case issued =>
    intro e h' c ta tb hmem
    obtain ⟨hc, hne, huniq⟩ := ht.issued e h' c ta tb ((List.mem_cons.mp hmem).resolve_left nofun)
    refine ⟨hc, hne, fun e' h'' ta' tb' hmem => ?_⟩
    exact huniq e' h'' ta' tb' ((List.mem_cons.mp hmem).resolve_left nofun)
  case ticket =>
    intro t ref href
    obtain ⟨hi, hfree⟩ := ht.ticket t ref href
    exact ⟨hi.mono hsub, fun x hmem => hfree x ((List.mem_cons.mp hmem).resolve_left nofun)⟩
  case redeemed =>
    exact fun t x hmem => ht.redeemed t x ((List.mem_cons.mp hmem).resolve_left nofun)
  case once => exact fun t => countP_cons_le_one (ht.once t) nofun
  case holder => exact fun x d e hpc => (ht.holder x d e hpc).mono hsub
  case conn => exact fun d e x hx => (ht.conn d e x hx).mono hsub
  case spliced =>
    intro d x y hmem
    rcases List.mem_cons.mp hmem with heq | hmem
    · cases heq
      exact ⟨hstart, rfl, rfl⟩
    · exact ht.spliced d x y hmem
  case splicedOnce =>
    intro d
    refine countP_cons_le_one (ht.splicedOnce d) fun hcons y hy => ?_
    -- another splice of `c` would be on record
    have hcd : c = d := by simpa [Event.splices] using hcons
    cases y with
    | spliced d' x y =>
      have hne : d' ≠ d := by
        rintro rfl
        exact hnew x y (hcd ▸ hy)
      simpa [Event.splices] using hne
    | added | consumed | issued | redeemed => rfl

end Tickets

/-! ## Steps -/

namespace Server

variable {L : Limits} {s s' : Server} {h : ℕ}

theorem passesOn_issue {ta tb : ℕ} (hnext : s.next L (.issue h (some (ta, tb))) = some s') :
    s.PassesOn (.issue h (some (ta, tb))) s' := by
  obtain ⟨hfrom, ⟨hnone, -⟩ | ⟨_, _, ⟨⟩, hne, hta, htb, rfl⟩⟩ := next_issue hnext
  · exact absurd hnone (by simp)
  · exact .issue hfrom hne (.intro hta htb (moves_setPc _ h _))

theorem passesOn_redeem {t : ℕ} {ref : TicketRef} (href : s.tickets.lookup t = some ref)
    (hnext : s.next L (.redeem h t) = some s') : s.PassesOn (.redeem h t) s' := by
  obtain ⟨hfrom, ⟨hnone, -⟩ | ⟨ref', ht, rfl⟩⟩ := next_redeem hnext
  · exact absurd (href.symm.trans hnone) (by simp)
  · exact .redeem hfrom ht (moves_setPc _ h _)

theorem passesOn_answer (hnext : s.next L (.answer h true) = some s') :
    s.PassesOn (.answer h true) s' := by
  obtain ⟨c, side, hfrom, rfl⟩ := next_answer hnext
  exact .attach hfrom

end Server

namespace Recorded

variable {L : Limits} {r r' : Recorded} {a : Act} {t : Server}

/-- What the tables hold is explained by the record. -/
structure Sound (r : Recorded) : Prop where
  wired : r.srv.Wired
  codes : Codes r
  tickets : Tickets r.srv r.log

/-- Five actions may note something. What the others do is let tickets and handlers go. -/
theorem Sound.quiet (hr : r.Sound) (hnext : r.srv.next L a = some t) (hl : LetsGo r.srv t)
    (hpub : ∀ h rid u v, a ≠ .publish h rid u v)
    (hclaim : ∀ h rid, a = .claim h rid true → (t.handler.get h).pc ≠ .pairTaken) :
    (r.note t none).Sound := by
  have heff := Server.next_effect hnext
  have htr := Server.next_traffic hnext
  refine ⟨hl.wired hr.wired, hr.codes.other nofun ?_ ?_ nofun,
    hr.tickets.other (x := none) hl nofun⟩
  · exact fun rid p hp => htr.lookup_of hpub hp
  · intro x hx
    rcases heff.pairTaken_of hx with hold | ⟨rid, ha⟩
    · exact hold
    · exact absurd hx (hclaim x rid ha)

/-- `publish`: an entry is added, or the handler ends and takes its codes along. -/
theorem Sound.publish {h : ℕ} {rid : GoString} {allowed sent : Bool} (hr : r.Sound)
    (hnext : r.srv.next L (.publish h rid allowed sent) = some t) :
    (r.note t (r.event L t (.publish h rid allowed sent))).Sound := by
  have heff := Server.next_effect hnext
  have hl : LetsGo r.srv t := by
    rcases hr.wired.letsGo_or heff with hl | hp
    · exact hl
    · cases hp
  have htaken : ∀ x, (t.handler.get x).pc = .pairTaken → (r.srv.handler.get x).pc = .pairTaken :=
    fun x hx => (heff.pairTaken_of hx).resolve_right fun ⟨_, ha⟩ => nomatch ha
  -- refused, or entered under the next number
  obtain ⟨-, ⟨hno, ht⟩ | ⟨rfl, u, v, hroom, hsame, ht⟩⟩ := Server.next_publish hnext
  · rw [event, if_neg hno]
    refine ⟨hl.wired hr.wired, hr.codes.other nofun ?_ htaken nofun,
      hr.tickets.other (x := none) hl nofun⟩
    intro rid p hp
    rw [ht] at hp
    exact Server.lookup_of_finish hp
  · rw [event, if_pos ⟨rfl, by rw [hroom]⟩]
    refine ⟨hl.wired hr.wired, hr.codes.adds ?_ htaken, hr.tickets.other (x := some _) hl ?_⟩
    · intro rid' p hp
      rw [ht] at hp
      exact Server.lookup_of_addPending hroom hsame hp
    · rintro y ⟨⟩
      rfl

/-- `claim`: the handler has an entry now exactly if it is about to pair, and that is what is
noted. -/
theorem Sound.claim {h : ℕ} {rid : GoString} {sent : Bool} (hr : r.Sound)
    (hnext : r.srv.next L (.claim h rid sent) = some t) :
    (r.note t (r.event L t (.claim h rid sent))).Sound := by
  have heff := Server.next_effect hnext
  have hl : LetsGo r.srv t := by
    rcases hr.wired.letsGo_or heff with hl | hp
    · exact hl
    · cases hp
  rw [event]
  split_ifs with htaken
  · -- of the three outcomes of a claim only the last one has taken an entry
    obtain ⟨hfrom, rfl | rfl | ⟨rfl, -, p, hp, hother, rfl⟩⟩ := Server.next_claim hnext
    · exact absurd (hfrom.symm.trans htaken) (by simp)
    · rw [Server.finish_eq] at htaken
      exact absurd htaken (by simp)
    · refine ⟨hl.wired hr.wired, hr.codes.consumes hp hother ?_ ?_,
        hr.tickets.other (x := some _) hl ?_⟩
      · exact fun rid' q hq => (Maps.lookup_of_erase _ hq).symm
      · intro x hxh hx
        exact ((Server.moves_setPc _ h .pairTaken).pc_other x hxh).symm.trans hx
      · rintro y ⟨⟩
        rfl
  · refine hr.quiet hnext hl nofun fun h' rid' ha => ?_
    cases ha
    exact htaken

/-- `answer`: the handler attaches, and if it is the second one of its circuit, the splice is
noted. -/
theorem Sound.answer {h : ℕ} {sent : Bool} (hr : r.Sound)
    (hnext : r.srv.next L (.answer h sent) = some t) :
    (r.note t (r.event L t (.answer h sent))).Sound := by
  have hw' := hr.wired.step (Server.next_effect hnext)
  have htr := Server.next_traffic hnext
  rcases sent with _ | _
  · have hgone : (t.handler.get h).pc = .gone := by
      obtain ⟨c, side, -, rfl⟩ := Server.next_answer hnext
      rw [if_neg (by decide), Server.finish_eq]
      exact (Server.moves_leave r.srv.handler h).pc_self
    rw [event, hgone]
    refine hr.quiet hnext ?_ nofun nofun
    rcases hr.wired.letsGo_or (Server.next_effect hnext) with hl | hp
    · exact hl
    · cases hp
  · have hp := Server.passesOn_answer hnext
    cases hp with
    | @attach _ c side hfrom =>
      have ht := hr.tickets.attaches hr.wired hfrom
      have hm := r.srv.moves_attach h c side
      have htaken : ∀ x, ((r.srv.attach h c side).handler.get x).pc = .pairTaken →
          (r.srv.handler.get x).pc = .pairTaken := by
        intro x hx
        refine hm.pc_of hx ?_
        split_ifs <;> nofun
      rw [event, hm.pc_self]
      by_cases hsec : r.srv.second c side = true
      · -- the second half: the splice starts
        rw [if_pos hsec]
        refine ⟨hw', hr.codes.other ?_ (fun _ _ => htr.lookup_of nofun) htaken nofun,
          ht.splices ?_ ?_⟩
        · rintro y ⟨⟩
          rfl
        · exact (r.srv.attach_started h c side c).mpr (.inr ⟨rfl, hsec⟩)
        · intro x y hmem
          have hstart := (hr.wired.free_of_redeemed hfrom).2.2.2.1
          exact absurd ((hr.tickets.spliced c x y hmem).1.symm.trans hstart) (by simp)
      · rw [if_neg hsec]
        exact ⟨hw', hr.codes.other nofun (fun _ _ => htr.lookup_of nofun) htaken nofun, ht⟩

/-- **One step keeps the record sound**, by the action. The invariants of the server are carried
along, as the tables are read off them. -/
theorem Sound.step (hr : r.Sound) (hstep : r.next L a = some r') : r'.Sound := by
  obtain ⟨t, hnext, rfl⟩ := Option.map_eq_some_iff.mp hstep
  have hw' := hr.wired.step (Server.next_effect hnext)
  -- an action that does not pass a side on lets go of things at most
  have hletsGo : ¬ r.srv.PassesOn a t → LetsGo r.srv t :=
    (hr.wired.letsGo_or (Server.next_effect hnext)).resolve_right
  cases a with
  | publish h rid allowed sent => exact hr.publish hnext
  | claim h rid sent => exact hr.claim hnext
  | issue h tickets =>
    rcases tickets with _ | ⟨ta, tb⟩
    · exact hr.quiet hnext (hletsGo nofun) nofun nofun
    · have hp := Server.passesOn_issue hnext
      have htr := Server.next_traffic hnext
      cases hp with
      | issue hfrom hne ho =>
        refine ⟨hw', hr.codes.other ?_ ?_ ?_ ?_, hr.tickets.opens hr.wired hne ho _⟩
        · rintro y ⟨⟩
          rfl
        · exact fun rid p hp => htr.lookup_of nofun hp
        · exact fun x hx => ho.moves.pc_of hx nofun
        · rintro e h' c ta' tb' ⟨⟩
          exact hr.codes.taken h hfrom
  | redeem h k =>
    rcases href : r.srv.tickets.lookup k with _ | ref
    · rw [event, href, if_neg (by simp)]
      refine hr.quiet hnext (hletsGo ?_) nofun nofun
      rintro ⟨⟩
      simp_all
    · have hp := Server.passesOn_redeem href hnext
      have htr := Server.next_traffic hnext
      rw [event, href, if_pos (by simp)]
      cases hp with
      | redeem hfrom href hm =>
        refine ⟨hw', hr.codes.other ?_ ?_ ?_ nofun, hr.tickets.redeems hr.wired href hm⟩
        · rintro y ⟨⟩
          rfl
        · exact fun rid p hp => htr.lookup_of nofun hp
        · exact fun x hx => hm.pc_of hx nofun
  | answer h sent => exact hr.answer hnext
  | connect | quit | deliver | pumpEnd | spliceEnd | wake | idle | shutdown | sweep | close
  | tick =>
    exact hr.quiet hnext (hletsGo nofun) nofun nofun

theorem Sound.start : ({} : Recorded).Sound where
  wired := .start
  codes :=
    { added := nofun
      pending := fun _ _ hp => absurd hp (by simp)
      consumed := nofun
      once := fun _ => Nat.zero_le _
      taken := fun _ hx => absurd hx (by simp [Heap.empty])
      issued := nofun }
  tickets :=
    { issued := nofun
      ticket := fun _ _ ht => absurd ht (by simp)
      redeemed := nofun
      once := fun _ => Nat.zero_le _
      holder := fun _ _ _ hx => absurd hx (by simp [Heap.empty])
      conn := fun _ _ _ hx => absurd hx (by simp [Heap.empty])
      spliced := nofun
      splicedOnce := fun _ => Nat.zero_le _ }

/-- The two connections of a splice have redeemed the two tickets of one pairing. They are
different connections, because the tickets are different and each handler has redeemed one. -/
theorem Sound.spliced {c : ℕ} {x y : Option ℕ} (hr : r.Sound) (hmem : .spliced c x y ∈ r.log) :
    ∃ e h ta tb u v, x = some u ∧ y = some v ∧ u ≠ v ∧ ta ≠ tb ∧ .consumed e h ∈ r.log ∧
      .issued e h c ta tb ∈ r.log ∧ .redeemed ta u ∈ r.log ∧ .redeemed tb v ∈ r.log := by
  obtain ⟨hstart, rfl, rfl⟩ := hr.tickets.spliced c x y hmem
  obtain ⟨u, hu⟩ := Option.ne_none_iff_exists'.mp (hr.wired.started c hstart false)
  obtain ⟨v, hv⟩ := Option.ne_none_iff_exists'.mp (hr.wired.started c hstart true)
  obtain ⟨t, ⟨e, h, ta, tb, hissued, ht⟩, hredeemed⟩ := hr.tickets.conn c false u hu
  obtain ⟨t', ⟨e', h', ta', tb', hissued', ht'⟩, hredeemed'⟩ := hr.tickets.conn c true v hv
  obtain ⟨-, hne, huniq⟩ := hr.tickets.issued e h c ta tb hissued
  have htb : t' = tb := ht'.trans (huniq e' h' ta' tb' hissued').2.2.2
  refine ⟨e, h, ta, tb, u, v, hu, hv, ?_, hne, hr.codes.issued e h c ta tb hissued, hissued, ?_, ?_⟩
  rotate_left
  · exact (show t = ta from ht) ▸ hredeemed
  · exact htb ▸ hredeemed'
  rintro rfl
  exact absurd (hr.wired.conn_inj c c false true u hu hv).2 (by decide)

end Recorded

/-! ## The result -/

section Runs

variable {L : Limits} {r : Recorded} {as : List Act}

/-- **Pairing is exclusive.** In every run an entry of `pending` is consumed by at most one claim,
never by the connection it was added for; a ticket is redeemed at most once and a circuit is
spliced at most once; and the two ends of a splice are the two connections that redeemed the two
tickets issued for one pairing, the publisher's on one side and the claimer's on the other. -/
theorem pairing_exclusive (hrun : Run (ofNext (Recorded.next L)) {} as r) :
    (∀ e, r.log.countP (Event.consumes e) ≤ 1) ∧
    (∀ e h, .consumed e h ∈ r.log → ∃ rid h', .added e rid h' ∈ r.log ∧ h' ≠ h) ∧
    (∀ t, r.log.countP (Event.redeems t) ≤ 1) ∧
    (∀ c, r.log.countP (Event.splices c) ≤ 1) ∧
    ∀ c x y, .spliced c x y ∈ r.log → ∃ e h ta tb u v, x = some u ∧ y = some v ∧ u ≠ v ∧ ta ≠ tb ∧
      .consumed e h ∈ r.log ∧ .issued e h c ta tb ∈ r.log ∧ .redeemed ta u ∈ r.log ∧
      .redeemed tb v ∈ r.log := by
  have hr : r.Sound := hrun.invariant Recorded.Sound .start fun _ _ _ hs hnext => hs.step hnext
  exact ⟨hr.codes.once, hr.codes.consumed, hr.tickets.once, hr.tickets.splicedOnce,
    fun _ _ _ => hr.spliced⟩

/-- Two claims race for one code; the winner is paired, and the circuit is spliced. -/
def racedActs : List Act :=
  [.connect [1], .connect [2], .connect [3], .publish 0 [7] true true, .claim 0 [7] true,
    .claim 2 [7] true, .claim 1 [7] true, .issue 2 (some (10, 11)), .deliver 2 true, .connect [1],
    .connect [3], .redeem 3 10, .redeem 4 11, .answer 4 true, .answer 3 true]

/-- The theorem at that run: the publisher's own claim and the one that comes too late get
nothing. -/
theorem pairing_exclusive_raced : ∃ r : Recorded,
    Run (ofNext (Recorded.next defaultLimits)) {} racedActs r ∧
    r.log = [.spliced 0 (some 3) (some 4), .redeemed 11 4, .redeemed 10 3, .issued 0 2 0 10 11,
      .consumed 0 2, .added 0 [7] 0] ∧
    r.log.countP (Event.consumes 0) ≤ 1 ∧
    ∃ e h ta tb u v, some 3 = some u ∧ some 4 = some v ∧ u ≠ v ∧ ta ≠ tb ∧
      .consumed e h ∈ r.log ∧ .issued e h 0 ta tb ∈ r.log ∧ .redeemed ta u ∈ r.log ∧
      .redeemed tb v ∈ r.log := by
  obtain ⟨r, hrun, hlog⟩ : ∃ r, Run (ofNext (Recorded.next defaultLimits)) {} racedActs r ∧
      r.log = [.spliced 0 (some 3) (some 4), .redeemed 11 4, .redeemed 10 3, .issued 0 2 0 10 11,
        .consumed 0 2, .added 0 [7] 0] := exists_run_of_any _ (by decide)
  have hex := pairing_exclusive hrun
  exact ⟨r, hrun, hlog, hex.1 0, hex.2.2.2.2 0 (some 3) (some 4) (by rw [hlog]; decide)⟩

end Runs

end Heimdall.Relay
