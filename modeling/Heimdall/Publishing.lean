/-
The codes on a relay and their publishers, `internal/relay/server.go`.

`serveConn` keeps a list of the codes it has published, and its deferred function goes through the
list and drops each code that still belongs to the connection. Others come in between: `Relay` takes
the end of a handler in one step, here every `dropPending` is a step of its own. The list of a
handler may be stale in every way: a code on it has been claimed, or swept, or published by another
connection in the meantime. What it is not is incomplete (`Board.Owned`), so nothing is left behind
(`codes_end_with_publisher`).

The first section is about `addPending`, which takes the ceiling for reached before it looks whether
the code is there already. A client that reconnects and publishes its code again is refused by a
full relay, though the table would not grow (`republication_refused`).
-/
import Heimdall.RelaySteps
import Heimdall.Runs

set_option autoImplicit false

namespace Heimdall.Relay

open Heimdall.Peers (GoString)
open Heimdall.Runs

namespace Server

variable {L : Limits} {s : Server} {rid : GoString} {h : ℕ}

/-! ## The ceiling -/

theorem card_insert_keys (m : AList fun _ : GoString => PendingCode) (rid : GoString) :
    (insert rid m.keys.toFinset).card = if rid ∈ m then m.keys.length else m.keys.length + 1 := by
  have hcard : m.keys.toFinset.card = m.keys.length := List.toFinset_card_of_nodup m.keys_nodup
  split_ifs with hmem
  · rw [Finset.insert_eq_of_mem (List.mem_toFinset.mpr hmem), hcard]
  · rw [Finset.card_insert_of_notMem fun hc => hmem (List.mem_toFinset.mp hc), hcard]

/-- **When `addPending` keeps to the ceiling.** In a table within the ceiling, publishing succeeds
exactly if the codes together with the new one are within it, binds the code to the connection and
leaves the others alone, and leaves the table alone if it is refused, unless the table is full and
the code is in it. -/
theorem addPending_within_iff (L : Limits) (s : Server) (rid : GoString) (h : ℕ)
    (hle : s.pending.keys.length ≤ L.maxPendingCodes) :
    (((s.addPending L rid h).1 = true ↔
          (insert rid s.pending.keys.toFinset).card ≤ L.maxPendingCodes) ∧
        ((s.addPending L rid h).1 = true →
          (s.addPending L rid h).2.pending.lookup rid = some ⟨h, s.now⟩ ∧
            ∀ other, other ≠ rid →
              (s.addPending L rid h).2.pending.lookup other = s.pending.lookup other) ∧
        ((s.addPending L rid h).1 = false → (s.addPending L rid h).2.pending = s.pending)) ↔
      ¬ (rid ∈ s.pending ∧ s.pending.keys.length = L.maxPendingCodes) := by
  have hbound : (s.addPending L rid h).1 = true →
      (s.addPending L rid h).2.pending.lookup rid = some ⟨h, s.now⟩ ∧
        ∀ other, other ≠ rid →
          (s.addPending L rid h).2.pending.lookup other = s.pending.lookup other := by
    intro hok
    have hadd : s.addPending L rid h = (true, (s.addPending L rid h).2) := Prod.ext hok rfl
    rw [(addPending_eq_true.mp hadd).2]
    exact ⟨AList.lookup_insert _, fun other hne => AList.lookup_insert_ne hne⟩
  have hrefused : (s.addPending L rid h).1 = false →
      (s.addPending L rid h).2.pending = s.pending := by
    intro hno
    have hadd : s.addPending L rid h = (false, (s.addPending L rid h).2) := Prod.ext hno rfl
    rw [addPending_eq_false hadd]
  have hsome : (s.addPending L rid h).1 = true ↔ s.pending.keys.length < L.maxPendingCodes := by
    unfold addPending
    split_ifs with hfull
    · simpa using hfull
    · simpa using hfull
  rw [and_iff_left ⟨hbound, hrefused⟩, hsome, card_insert_keys]
  split_ifs with hmem
  · -- the code is there: the table does not grow
    simp only [hmem, true_and]
    omega
  · simp only [hmem, false_and, not_false_eq_true, iff_true]
    omega

/-- A relay with room for two codes, and one connection that has published one: the next code is
taken. -/
theorem addPending_within_new_code :
    ∃ s, Run (ofNext (next { defaultLimits with maxPendingCodes := 2 })) {}
        [.connect [49], .publish 0 [65] true true] s ∧
      (s.addPending { defaultLimits with maxPendingCodes := 2 } [66] 0).1 = true ∧
      (s.addPending { defaultLimits with maxPendingCodes := 2 } [66] 0).2.pending.lookup [65] =
        s.pending.lookup [65] := by
  obtain ⟨s, hrun, hlen, hnew⟩ :
    ∃ s, Run (ofNext (next { defaultLimits with maxPendingCodes := 2 })) {}
      [.connect [49], .publish 0 [65] true true] s ∧ s.pending.keys.length = 1 ∧ [66] ∉ s.pending :=
    exists_run_of_any _ (by decide +kernel)
  have hle : s.pending.keys.length
      ≤ Limits.maxPendingCodes { defaultLimits with maxPendingCodes := 2 } := by
    rw [hlen]
    decide
  obtain ⟨hiff, hbound, -⟩ := (addPending_within_iff _ s [66] 0 hle).mpr fun hc => hnew hc.1
  have hok := hiff.mpr (by rw [card_insert_keys, if_neg hnew, hlen])
  exact ⟨s, hrun, hok, (hbound hok).2 [65] (by decide)⟩

/-- **A code is refused that the table holds already**: the connection that published it is
replaced, and the relay is full. -/
theorem republication_refused :
    ∃ s, Run (ofNext (next { defaultLimits with maxPendingCodes := 1 })) {}
        [.connect [49], .publish 0 [65] true true, .connect [49]] s ∧
      s.pending.keys.length ≤ 1 ∧ (insert [65] s.pending.keys.toFinset).card ≤ 1 ∧
      (s.addPending { defaultLimits with maxPendingCodes := 1 } [65] 1).1 = false := by
  exact exists_run_of_any _ (by decide +kernel)

/-! ## Dropping codes -/

/-- `dropPending` removes the code if it belongs to the connection, and nothing else. A code that
another connection has published since stays. -/
theorem lookup_dropPending {k : GoString} {p : PendingCode} :
    (s.dropPending rid h).pending.lookup k = some p ↔
      s.pending.lookup k = some p ∧ ¬ (k = rid ∧ p.conn = h) := by
  unfold dropPending
  cases hrid : s.pending.lookup rid with
  | none =>
    refine ⟨fun hk => ⟨hk, ?_⟩, fun hk => hk.1⟩
    rintro ⟨rfl, -⟩
    rw [hrid] at hk
    exact absurd hk nofun
  -- the code is there, and belongs to this connection or to another one
  | some q =>
    dsimp only
    split_ifs with hown
    · by_cases hk : k = rid
      · subst hk
        rw [AList.lookup_erase, hrid]
        refine ⟨nofun, ?_⟩
        rintro ⟨hq, hno⟩
        obtain rfl := Option.some.inj hq
        exact absurd ⟨rfl, hown⟩ hno
      · rw [AList.lookup_erase_ne hk]
        exact ⟨fun hp => ⟨hp, fun hc => hk hc.1⟩, fun hp => hp.1⟩
    · refine ⟨fun hp => ⟨hp, ?_⟩, fun hp => hp.1⟩
      rintro ⟨rfl, hconn⟩
      rw [hrid] at hp
      obtain rfl := Option.some.inj hp
      exact hown hconn

/-- The deferred loop of `serveConn`, with nobody in between, by induction on the codes. -/
theorem lookup_foldl_dropPending (rids : List GoString) {k : GoString} {p : PendingCode} :
    (rids.foldl (fun t rid => t.dropPending rid h) s).pending.lookup k = some p ↔
      s.pending.lookup k = some p ∧ ¬ (k ∈ rids ∧ p.conn = h) := by
  induction rids generalizing s with
  | nil => simp
  | cons rid rids ih =>
    rw [List.foldl_cons, ih, lookup_dropPending]
    simp only [List.mem_cons]
    tauto

/-- When a handler returns, the codes it has published are dropped, and those that another
connection has published since are not. -/
theorem lookup_finish {k : GoString} {p : PendingCode} :
    (s.finish h).pending.lookup k = some p ↔
      s.pending.lookup k = some p ∧ ¬ (k ∈ (s.handler.get h).published ∧ p.conn = h) :=
  lookup_foldl_dropPending (s.handler.get h).published

end Server

/-! ## The handlers -/

/-- Where a `serveConn` is. -/
inductive Stage where
  | serving
  /-- In its deferred function, with these codes left to drop. -/
  | leaving (rids : List GoString)
  | finished
  deriving DecidableEq

/-- A `serveConn`, with its variable `published`. -/
structure Publisher where
  published : List GoString := []
  stage : Stage := .finished

/-- The codes a handler is going to drop when it ends, or is dropping. -/
def Publisher.due (x : Publisher) : List GoString :=
  match x.stage with
  | .serving => x.published
  | .leaving rids => rids
  | .finished => []

/-- The tables of the relay and its handlers. -/
structure Board where
  srv : Server := {}
  conn : Heap Publisher := Heap.empty {}

inductive BoardAct where
  | connect
  /-- A `publish` message that the rate limit allows. -/
  | publish (h : ℕ) (rid : GoString)
  /-- A `claim` message: `pair`, up to the slot. -/
  | claim (h : ℕ) (rid : GoString)
  /-- The loop of `serveConn` returns: an error, `bye`, a refusal, a circuit that has ended. -/
  | leave (h : ℕ)
  /-- The deferred function drops one code. -/
  | drop (h : ℕ)
  | finish (h : ℕ)
  /-- A circuit gives its slot back. -/
  | release
  | sweep
  | tick (dt : ℕ)

namespace Board

variable (L : Limits) (b : Board)

def stage (h : ℕ) : Stage := (b.conn.get h).stage

def setStage (h : ℕ) (stage : Stage) : Board :=
  { b with conn := b.conn.modify h fun x => { x with stage := stage } }

def pair (h : ℕ) (rid : GoString) : Board :=
  match b.srv.pending.lookup rid with
  | none => b
  | some p =>
    if p.conn = h ∨ b.srv.circuits ≥ L.maxCircuits then b
    else { b with srv := { b.srv with
      pending := b.srv.pending.erase rid, circuits := b.srv.circuits + 1 } }

def next : BoardAct → Option Board
  | .connect => some { b with conn := b.conn.alloc { stage := .serving } }
  | .publish h rid =>
    if b.stage h = .serving then
      match b.srv.addPending L rid h with
      | (false, _) => some (b.setStage h (.leaving (b.conn.get h).published))
      | (true, srv) => some
          { srv := srv
            conn := b.conn.modify h fun x => { x with published := x.published ++ [rid] } }
    else none
  | .claim h rid => if b.stage h = .serving then some (b.pair L h rid) else none
  | .leave h =>
    if b.stage h = .serving then some (b.setStage h (.leaving (b.conn.get h).published)) else none
  | .drop h =>
    match b.stage h with
    | .leaving (rid :: rids) =>
      some (setStage { b with srv := b.srv.dropPending rid h } h (.leaving rids))
    | _ => none
  | .finish h => if b.stage h = .leaving [] then some (b.setStage h .finished) else none
  | .release => some { b with srv := b.srv.releaseCircuit }
  | .sweep => some { b with srv := b.srv.reap L }
  | .tick dt => some { b with srv := { b.srv with now := b.srv.now + dt } }

/-- **No handler has lost sight of a code**: every entry is among those that its connection is still
to drop. -/
structure Owned : Prop where
  due : ∀ rid p, b.srv.pending.lookup rid = some p → rid ∈ (b.conn.get p.conn).due
  fresh : ∀ h, b.conn.next ≤ h → b.stage h = .finished

variable {L b} {b' : Board} {a : BoardAct} {h : ℕ}

theorem get_setStage (x : ℕ) (stage : Stage) :
    ((b.setStage h stage).conn.get x) =
      if x = h then { b.conn.get h with stage := stage } else b.conn.get x := by
  by_cases hx : x = h
  · subst hx
    rw [if_pos rfl, setStage, Heap.get_modify_self]
  · rw [if_neg hx, setStage, Heap.get_modify_of_ne _ _ hx]

theorem Owned.stage_ne (hb : b.Owned) {rid : GoString} {p : PendingCode}
    (hp : b.srv.pending.lookup rid = some p) : b.stage p.conn ≠ .finished := by
  intro hfin
  have hdue := hb.due rid p hp
  rw [Publisher.due, show (b.conn.get p.conn).stage = .finished from hfin] at hdue
  exact List.not_mem_nil hdue

theorem Owned.shrink (hb : b.Owned) {srv : Server}
    (hsub : ∀ rid p, srv.pending.lookup rid = some p → b.srv.pending.lookup rid = some p) :
    Owned { b with srv := srv } :=
  ⟨fun rid p hp => hb.due rid p (hsub rid p hp), hb.fresh⟩

theorem Owned.move (hb : b.Owned) {srv : Server} {stage : Stage} (hserved : b.stage h ≠ .finished)
    (hsub : ∀ rid p, srv.pending.lookup rid = some p → b.srv.pending.lookup rid = some p)
    (hdue : ∀ rid p, srv.pending.lookup rid = some p → p.conn = h → rid ∈ (b.conn.get h).due →
      rid ∈ Publisher.due { b.conn.get h with stage := stage }) :
    Owned (setStage { b with srv := srv } h stage) := by
  refine ⟨fun rid p hp => ?_, fun x hx => ?_⟩
  · have hold := hb.due rid p (hsub rid p hp)
    rw [get_setStage]
    split_ifs with hown
    · rw [hown] at hold
      exact hdue rid p hp hown hold
    · exact hold
  · have hfin := hb.fresh x hx
    have hne : x ≠ h := fun hc => hserved (hc ▸ hfin)
    rw [Board.stage, get_setStage, if_neg hne]
    exact hfin

theorem Owned.leave (hb : b.Owned) (hserving : b.stage h = .serving) :
    Owned (b.setStage h (.leaving (b.conn.get h).published)) := by
  refine hb.move (by rw [hserving]; nofun) (fun _ _ hp => hp) fun rid p _ _ hdue => ?_
  rwa [Publisher.due, show (b.conn.get h).stage = .serving from hserving] at hdue

/-- A code is published: it is noted in `published` in the same step, so the handler will drop it.
If it replaces a code of another connection, that one has nothing left to drop. -/
theorem Owned.publish (hb : b.Owned) (hserving : b.stage h = .serving) {rid : GoString}
    {srv : Server}
    (hadd : b.srv.addPending L rid h = (true, srv)) :
    Owned { srv := srv
            conn := b.conn.modify h fun x => { x with published := x.published ++ [rid] } } := by
  have hstage : ∀ x, ((b.conn.modify h fun x => { x with published := x.published ++ [rid] }).get
      x).stage = b.stage x := b.conn.get_modify_congr _ fun _ => rfl
  have hpend : srv.pending = b.srv.pending.insert rid ⟨h, b.srv.now⟩ := by
    rw [(Server.addPending_eq_true.mp hadd).2]
  refine ⟨fun k p hp => ?_, fun x hx => (hstage x).trans (hb.fresh x hx)⟩
  dsimp only at hp ⊢
  rw [hpend, Maps.lookup_insert_iff] at hp
  rw [Publisher.due, hstage]
  rcases hp with ⟨rfl, rfl⟩ | ⟨-, hp⟩
  · -- the new entry is on the list from now on
    rw [hserving]
    simp
  · have hdue := hb.due k p hp
    by_cases hown : p.conn = h
    · rw [hown] at hdue ⊢
      rw [Publisher.due, show (b.conn.get h).stage = .serving from hserving] at hdue
      rw [hserving, Heap.get_modify_self]
      exact List.mem_append_left _ hdue
    · rw [Heap.get_modify_of_ne _ _ hown]
      exact hdue

/-- A claim removes an entry, if it changes the table at all. -/
theorem Owned.pair (hb : b.Owned) (rid : GoString) : Owned (b.pair L h rid) := by
  unfold Board.pair
  cases b.srv.pending.lookup rid with
  | none => exact hb
  | some p =>
    dsimp only
    split_ifs
    · -- the claimer's own code, or no slot left
      exact hb
    · exact hb.shrink fun k q hq => (Maps.lookup_of_erase _ hq).1

/-- A code is dropped, by its owner or without effect. In both cases it is no longer an entry that
the handler has to drop. -/
theorem Owned.drop (hb : b.Owned) {rid : GoString} {rids : List GoString}
    (hleaving : b.stage h = .leaving (rid :: rids)) :
    Owned (setStage { b with srv := b.srv.dropPending rid h } h (.leaving rids)) := by
  refine hb.move (by rw [hleaving]; nofun) (fun k p hp => (Server.lookup_dropPending.mp hp).1)
    fun k p hp hown hdue => ?_
  rw [Publisher.due, show (b.conn.get h).stage = .leaving (rid :: rids) from hleaving] at hdue
  have hne : k ≠ rid := fun hk => (Server.lookup_dropPending.mp hp).2 ⟨hk, hown⟩
  exact (List.mem_cons.mp hdue).resolve_left hne

theorem next_drop (hstep : b.next L (.drop h) = some b') :
    ∃ rid rids, b.stage h = .leaving (rid :: rids) ∧
      b' = setStage { b with srv := b.srv.dropPending rid h } h (.leaving rids) := by
  simp only [next] at hstep
  split at hstep
  next rid rids hleaving => exact ⟨rid, rids, hleaving, (Option.some.inj hstep).symm⟩
  next => exact absurd hstep nofun

/-- **One step keeps the codes with their owners**, by the action. `finish` is where nothing is
left to do: the list of codes is empty, so the handler owns none. -/
theorem Owned.step (hb : b.Owned) (hstep : b.next L a = some b') : b'.Owned := by
  cases a with
  | connect =>
    obtain rfl := Option.some.inj hstep
    -- the new connection has no entry yet, and an entry's connection is an old one
    refine ⟨fun rid p hp => ?_, fun x hx => ?_⟩
    · have hlt : p.conn < b.conn.next := by
        by_contra hc
        exact hb.stage_ne hp (hb.fresh p.conn (by omega))
      rw [b.conn.get_alloc_of_lt _ hlt]
      exact hb.due rid p hp
    · have hx' : b.conn.next + 1 ≤ x := hx
      rw [Board.stage, b.conn.get_alloc_of_ne _ (by omega)]
      exact hb.fresh x (by omega)
  | publish h rid =>
    obtain ⟨hserving, hstep⟩ := Option.ite_none_right_eq_some.mp hstep
    rcases hadd : b.srv.addPending L rid h with ⟨_ | _, srv⟩
    · rw [hadd] at hstep
      obtain rfl := Option.some.inj hstep
      exact hb.leave hserving
    · rw [hadd] at hstep
      obtain rfl := Option.some.inj hstep
      exact hb.publish hserving hadd
  | claim h rid =>
    obtain ⟨-, hstep⟩ := Option.ite_none_right_eq_some.mp hstep
    obtain rfl := Option.some.inj hstep
    exact hb.pair rid
  | leave h =>
    obtain ⟨hserving, hstep⟩ := Option.ite_none_right_eq_some.mp hstep
    obtain rfl := Option.some.inj hstep
    exact hb.leave hserving
  | drop h =>
    obtain ⟨rid, rids, hleaving, rfl⟩ := next_drop hstep
    exact hb.drop hleaving
  | finish h =>
    obtain ⟨hleaving, hstep⟩ := Option.ite_none_right_eq_some.mp hstep
    obtain rfl := Option.some.inj hstep
    refine hb.move (by rw [hleaving]; nofun) (fun _ _ hp => hp) fun rid p _ _ hdue => ?_
    rwa [Publisher.due, show (b.conn.get h).stage = .leaving [] from hleaving] at hdue
  | release =>
    obtain rfl := Option.some.inj hstep
    refine hb.shrink fun rid p hp => ?_
    rwa [Server.releaseCircuit_eq] at hp
  | sweep =>
    obtain rfl := Option.some.inj hstep
    exact hb.shrink fun rid p hp => ((Maps.lookup_sweep _ _).mp hp).1
  | tick dt =>
    obtain rfl := Option.some.inj hstep
    exact hb.shrink fun rid p hp => hp

end Board

/-- **No code outlives its publisher.** In every run of the handlers, with a `dropPending` at a
time: every entry belongs to a connection whose `serveConn` has not finished; a `dropPending`
removes no entry of another connection, and adds none; when a handler finishes, no entry is its
own. With nobody in between, the entries that its deferred function removes are exactly its own. -/
theorem codes_end_with_publisher {L : Limits} {acts : List BoardAct} {b : Board}
    (hrun : Run (ofNext (Board.next L)) {} acts b) :
    (∀ rid p, b.srv.pending.lookup rid = some p → b.stage p.conn ≠ .finished) ∧
      (∀ h b', b.next L (.drop h) = some b' → ∀ rid p,
        (b'.srv.pending.lookup rid = some p → b.srv.pending.lookup rid = some p) ∧
          (b.srv.pending.lookup rid = some p → p.conn ≠ h → b'.srv.pending.lookup rid = some p)) ∧
      (∀ h b', b.next L (.finish h) = some b' → b'.srv = b.srv ∧
        ∀ rid p, b.srv.pending.lookup rid = some p → p.conn ≠ h) ∧
      ∀ h, b.stage h = .serving → ∀ rid p,
        ((b.conn.get h).published.foldl (fun t rid => t.dropPending rid h) b.srv).pending.lookup rid
          =
            some p ↔
          b.srv.pending.lookup rid = some p ∧ p.conn ≠ h := by
  have hb : b.Owned := by
    refine hrun.invariant Board.Owned ⟨fun rid p hp => ?_, fun _ _ => rfl⟩ fun _ _ _ h hs =>
      h.step hs
    exact absurd hp nofun
  refine ⟨fun rid p hp => hb.stage_ne hp, fun h b' hdrop rid p => ?_, fun h b' hfinish => ?_,
    fun h hserving rid p => ?_⟩
  · obtain ⟨_, _, -, rfl⟩ := Board.next_drop hdrop
    exact ⟨fun hp => (Server.lookup_dropPending.mp hp).1,
      fun hp hne => Server.lookup_dropPending.mpr ⟨hp, fun hc => hne hc.2⟩⟩
  · obtain ⟨hleaving, hfinish⟩ := Option.ite_none_right_eq_some.mp hfinish
    obtain rfl := Option.some.inj hfinish
    refine ⟨rfl, fun rid p hp hown => ?_⟩
    have hdue := hb.due rid p hp
    rw [hown, Publisher.due, show (b.conn.get h).stage = .leaving [] from hleaving] at hdue
    exact List.not_mem_nil hdue
  · rw [Server.lookup_foldl_dropPending]
    refine and_congr_right fun hp => ?_
    -- an entry of this connection is on its list
    refine not_congr ⟨fun hc => hc.2, fun hown => ⟨?_, hown⟩⟩
    have hdue := hb.due rid p hp
    rwa [hown, Publisher.due, show (b.conn.get h).stage = .serving from hserving] at hdue

/-- Two connections publish the same code; the first one ends, and the entry stays with the
second. -/
theorem codes_end_with_publisher_taken_over :
    ∃ b, Run (ofNext (Board.next defaultLimits)) {}
        [.connect, .connect, .publish 0 [65], .publish 0 [66], .publish 1 [65], .leave 0, .drop 0,
          .claim 1 [66], .drop 0] b ∧
      (∃ b', b.next defaultLimits (.finish 0) = some b' ∧ b'.srv = b.srv) ∧
      (b.srv.pending.lookup [65]).map PendingCode.conn = some 1 ∧ b.stage 1 ≠ .finished := by
  obtain ⟨b, hrun, hfinish, hlookup⟩ : ∃ b, Run (ofNext (Board.next defaultLimits)) {}
      [.connect, .connect, .publish 0 [65], .publish 0 [66], .publish 1 [65], .leave 0, .drop 0,
        .claim 1 [66], .drop 0] b ∧ (b.next defaultLimits (.finish 0)).isSome = true ∧
      (b.srv.pending.lookup [65]).map PendingCode.conn = some 1 :=
    exists_run_of_any _ (by decide +kernel)
  obtain ⟨hserved, -, hfin, -⟩ := codes_end_with_publisher hrun
  obtain ⟨b', hb'⟩ := Option.isSome_iff_exists.mp hfinish
  obtain ⟨p, hp, hconn⟩ := Option.map_eq_some_iff.mp hlookup
  exact ⟨b, hrun, ⟨b', hb', (hfin 0 b' hb').1⟩, hlookup, hconn ▸ hserved [65] p hp⟩

end Heimdall.Relay
