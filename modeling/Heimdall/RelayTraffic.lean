/-
Who comes and goes, and the codes they publish.

`Effect` leaves the pending codes and the connections per address open. They change in few places:
a connection is accepted, a handler returns, a code is published or claimed, and the reaper comes;
every other step leaves both tables alone (`Traffic`). From that the counters of the relay are
exact and bounded (`counters_exact`), and `releaseCircuit` never needs its guard.
-/
import Heimdall.RelaySlots

set_option autoImplicit false

namespace Heimdall.Relay

open Heimdall.Peers (GoString)
open Heimdall.Runs

namespace Server

/-! ## Steps in which nobody comes or goes -/

/-- The same codes, and the same connections being served. -/
structure Same (s t : Server) : Prop where
  pending : t.pending = s.pending
  ipConns : t.ipConns = s.ipConns
  next : t.handler.next = s.handler.next
  ip : ∀ x, (t.handler.get x).ip = (s.handler.get x).ip
  gone : ∀ x, (t.handler.get x).pc = .gone ↔ (s.handler.get x).pc = .gone

namespace Same

variable {s t u : Server} {h c : ℕ} {side : Bool}

theorem refl (s : Server) : Same s s := ⟨rfl, rfl, rfl, fun _ => rfl, fun _ => Iff.rfl⟩

/-- Most of what a handler does leaves the two tables alone. This is composed along the calls that
a step makes. -/
theorem trans (hst : Same s t) (htu : Same t u) : Same s u where
  pending := htu.pending.trans hst.pending
  ipConns := htu.ipConns.trans hst.ipConns
  next := htu.next.trans hst.next
  ip x := (htu.ip x).trans (hst.ip x)
  gone x := (htu.gone x).trans (hst.gone x)

theorem of_handler (hpending : t.pending = s.pending) (hip : t.ipConns = s.ipConns)
    (hhandler : t.handler = s.handler) : Same s t :=
  ⟨hpending, hip, by rw [hhandler], fun _ => by rw [hhandler], fun _ => by rw [hhandler]⟩

theorem after (htu : Same t u) (hpending : t.pending = s.pending) (hip : t.ipConns = s.ipConns)
    (hhandler : t.handler = s.handler) : Same s u :=
  (of_handler hpending hip hhandler).trans htu

theorem modify (s : Server) (h : ℕ) (f : Handler → Handler) (hip : ∀ x, (f x).ip = x.ip)
    (hgone : (f (s.handler.get h)).pc = .gone ↔ (s.handler.get h).pc = .gone) :
    Same s { s with handler := s.handler.modify h f } where
  pending := rfl
  ipConns := rfl
  next := rfl
  ip x := s.handler.get_modify_congr f hip x
  gone x := by
    dsimp only
    by_cases hx : x = h
    · subst hx
      rw [Heap.get_modify_self]
      exact hgone
    · rw [Heap.get_modify_of_ne _ _ hx]

theorem setPc {pc : Pc} (hfrom : (s.handler.get h).pc ≠ .gone) (hpc : pc ≠ .gone) :
    Same s (s.setPc h pc) :=
  modify s h (fun x => { x with pc := pc }) (fun _ => rfl) (iff_of_false hpc hfrom)

theorem closeConn (s : Server) (h : ℕ) : Same s (s.closeConn h) :=
  modify s h (fun x => { x with shut := true }) (fun _ => rfl) Iff.rfl

theorem releaseCircuit (s : Server) : Same s s.releaseCircuit := by
  unfold Server.releaseCircuit
  split_ifs
  · exact of_handler rfl rfl rfl
  · exact refl s

theorem releaseOnce (s : Server) (c : ℕ) : Same s (s.releaseOnce c) := by
  unfold Server.releaseOnce
  split_ifs
  · exact refl s
  · exact (releaseCircuit _).after rfl rfl rfl

theorem closeEnd (s : Server) : ∀ x, Same s (s.closeEnd x)
  | some x => closeConn s x
  | none => refl s

theorem endSplice (s : Server) (c : ℕ) : Same s (s.endSplice c) := by
  unfold Server.endSplice
  have hclosed := (closeEnd s ((s.circuit.get c).conns true)).trans
    (closeEnd _ ((s.circuit.get c).conns false))
  exact (hclosed.trans (releaseOnce _ c)).trans (of_handler rfl rfl rfl)

theorem attach (hfrom : (s.handler.get h).pc = .redeemed c side) : Same s (s.attach h c side) := by
  unfold Server.attach
  refine after (setPc (s := { s with circuit := _ }) ?_ ?_) rfl rfl rfl
  · dsimp only
    rw [hfrom]
    nofun
  · split_ifs <;> nofun

end Same

/-! ## What a step does to the two tables -/

/-- What an action does to the codes and to the connections being served. -/
inductive Traffic (L : Limits) (s : Server) : Act → Server → Prop
  | connect {ip : GoString} {t : Server} (hroom : s.acquireIP L ip = some t) :
    Traffic L s (.connect ip)
      { t with handler := t.handler.alloc { ip := ip, pc := .control } }
  | same {a : Act} {t : Server} (hsame : Same s t) : Traffic L s a t
  | leave {a : Act} {h : ℕ} {t : Server} (hsame : Same s t) (hh : (s.handler.get h).pc ≠ .gone) :
    Traffic L s a (t.finish h)
  | publish {h : ℕ} {rid : GoString} {sent : Bool} {t u : Server}
      (hroom : s.addPending L rid h = (true, t)) (hh : (s.handler.get h).pc = .control)
      (hsame : Same t u) :
    Traffic L s (.publish h rid true sent) (if sent then u else u.finish h)
  | claim {h : ℕ} {rid : GoString} {p : PendingCode} (hp : s.pending.lookup rid = some p)
      (hother : p.conn ≠ h) (hh : (s.handler.get h).pc = .control) :
    Traffic L s (.claim h rid true)
      ({ s with pending := s.pending.erase rid, circuits := s.circuits + 1 }.setPc h .pairTaken)
  | sweep : Traffic L s .sweep (s.reap L)

section Inversion

variable {L : Limits} {s s' : Server} {a : Act} {h : ℕ}

theorem Traffic.finish (hfrom : (s.handler.get h).pc ≠ .gone) : Traffic L s a (s.finish h) :=
  .leave (Same.refl s) hfrom

theorem next_publish {rid : GoString} {allowed sent : Bool}
    (hnext : s.next L (.publish h rid allowed sent) = some s') :
    (s.handler.get h).pc = .control ∧
      ((¬ (allowed = true ∧ (s.addPending L rid h).1 = true) ∧ s' = s.finish h) ∨
        (allowed = true ∧ ∃ t u, s.addPending L rid h = (true, t) ∧ Same t u ∧
          s' = if sent then u else u.finish h)) := by
  by_cases hfrom : (s.handler.get h).pc = .control
  · refine ⟨hfrom, ?_⟩
    simp only [next, if_pos hfrom] at hnext
    -- the rate limit refuses, the table is full, or the code is added
    rcases allowed with _ | _
    · exact .inl ⟨by simp, (Option.some.inj hnext).symm⟩
    · rw [if_neg (by decide)] at hnext
      rcases hadd : s.addPending L rid h with ⟨_ | _, t⟩
      · rw [hadd, addPending_eq_false hadd] at hnext
        exact .inl ⟨by simp, (Option.some.inj hnext).symm⟩
      · rw [hadd] at hnext
        refine .inr ⟨rfl, t, _, rfl, ?_, (Option.some.inj hnext).symm⟩
        exact Same.modify t h (fun x => { x with published := x.published ++ [rid] }) (fun _ => rfl)
          Iff.rfl
  · simp [next, hfrom] at hnext

/-- **The traffic of a step**, one case for each action. The lemmas `next_…` say what the action
did, and most of it is `Same`. -/
theorem next_traffic (hnext : s.next L a = some s') : Traffic L s a s' := by
  -- those that end a handler are `leave`, and only four actions are about the tables
  cases a with
  | connect ip =>
    simp only [next] at hnext
    obtain ⟨t, hroom, rfl⟩ := Option.map_eq_some_iff.mp hnext
    exact .connect hroom
  | quit h =>
    simp only [next] at hnext
    split_ifs at hnext with hfrom
    exact Option.some.inj hnext ▸ .finish (by simp [hfrom])
  | publish h rid allowed sent =>
    obtain ⟨hfrom, ⟨-, rfl⟩ | ⟨rfl, t, u, hroom, hsame, rfl⟩⟩ := next_publish hnext
    · exact .finish (by simp [hfrom])
    · exact .publish hroom hfrom hsame
  | claim h rid sent =>
    obtain ⟨hfrom, rfl | rfl | ⟨rfl, -, p, hp, hother, rfl⟩⟩ := next_claim hnext
    · exact .same (Same.refl _)
    · exact .finish (by simp [hfrom])
    · exact .claim hp hother hfrom
  | issue h tickets =>
    obtain ⟨hfrom, ⟨rfl, rfl⟩ | ⟨ta, tb, rfl, -, -, -, rfl⟩⟩ := next_issue hnext
    · have hsame := Same.releaseCircuit s
      refine .same (hsame.trans (.setPc (fun hg => ?_) (by simp)))
      exact absurd ((hsame.gone h).mp hg) (by simp [hfrom])
    · refine .same (Same.after (Same.setPc ?_ ?_) rfl rfl rfl)
      · show (s.handler.get h).pc ≠ .gone
        simp [hfrom]
      · simp
  | deliver h sent =>
    obtain ⟨c, ta, tb, hfrom, rfl⟩ := next_deliver hnext
    rcases sent with _ | _
    · have hsame : Same s (s.dropCircuit c ta tb) := (Same.releaseOnce _ c).after rfl rfl rfl
      refine .same (hsame.trans (.setPc (fun hg => ?_) (by simp)))
      exact absurd ((hsame.gone h).mp hg) (by simp [hfrom])
    · exact .same (.setPc (by simp [hfrom]) (by simp))
  | redeem h t =>
    obtain ⟨hfrom, ⟨-, rfl⟩ | ⟨ref, -, rfl⟩⟩ := next_redeem hnext
    · exact .finish (by simp [hfrom])
    · refine .same (Same.after (Same.setPc ?_ ?_) rfl rfl rfl)
      · show (s.handler.get h).pc ≠ .gone
        simp [hfrom]
      · simp
  | answer h sent =>
    obtain ⟨c, side, hfrom, rfl⟩ := next_answer hnext
    rcases sent with _ | _
    · exact .finish (by simp [hfrom])
    · exact .same (.attach hfrom)
  | pumpEnd c =>
    simp only [next] at hnext
    split_ifs at hnext
    exact Option.some.inj hnext ▸ .same (.of_handler rfl rfl rfl)
  | spliceEnd h =>
    obtain ⟨c, side, hfrom, -, rfl⟩ := next_spliceEnd hnext
    exact .leave (.endSplice s c) (by simp [hfrom])
  | wake h =>
    obtain ⟨c, side, since, hfrom, -, rfl⟩ := next_wake hnext
    exact .finish (by simp [hfrom])
  | idle h =>
    obtain ⟨c, side, since, hfrom, rfl⟩ := next_idle hnext
    exact .leave ((Same.closeConn s h).trans (.releaseOnce _ c)) (by simp [hfrom])
  | shutdown h =>
    obtain ⟨c, side, since, hfrom, -, rfl⟩ := next_shutdown hnext
    exact .leave (.closeConn s h) (by simp [hfrom])
  | sweep => exact Option.some.inj hnext ▸ .sweep
  | close | tick => exact Option.some.inj hnext ▸ .same (.of_handler rfl rfl rfl)

theorem lookup_of_finish {rid : GoString} {p : PendingCode}
    (hp : (s.finish h).pending.lookup rid = some p) : s.pending.lookup rid = some p := by
  have hdrop : ∀ (t : Server) (rid' : GoString),
      (t.dropPending rid' h).pending.lookup rid = some p → t.pending.lookup rid = some p := by
    intro t rid' ht
    unfold dropPending at ht
    split at ht
    · split_ifs at ht
      · exact (Maps.lookup_of_erase _ ht).1
      · exact ht
    · exact ht
  -- the deferred loop over the codes of this connection
  have hfold : ∀ (rids : List GoString) (t : Server),
      (rids.foldl (fun t rid => t.dropPending rid h) t).pending.lookup rid = some p →
        t.pending.lookup rid = some p := by
    intro rids
    induction rids with
    | nil => exact fun _ => id
    | cons rid' rids ih => exact fun t ht => hdrop t rid' (ih _ ht)
  exact hfold _ s hp

theorem lookup_of_addPending {rid rid' : GoString} {p : PendingCode} {t u : Server} {sent : Bool}
    (hroom : s.addPending L rid h = (true, t)) (hsame : Same t u)
    (hp : (if sent then u else u.finish h).pending.lookup rid' = some p) :
    (rid' = rid ∧ p.conn = h) ∨ (rid' ≠ rid ∧ s.pending.lookup rid' = some p) := by
  have ht := addPending_eq_true.mp hroom
  have hins : (s.pending.insert rid ⟨h, s.now⟩).lookup rid' = some p := by
    have hu : u.pending.lookup rid' = some p := by
      rcases sent with _ | _
      · exact lookup_of_finish hp
      · exact hp
    rw [hsame.pending, ht.2] at hu
    exact hu
  rcases (Maps.lookup_insert_iff _).mp hins with ⟨hrid, hpe⟩ | hold
  · exact .inl ⟨hrid, by rw [hpe]⟩
  · exact .inr hold

/-- Only `publish` adds codes, so one that is there after another step was there before. -/
theorem Traffic.lookup_of {rid : GoString} {p : PendingCode} (htr : s.Traffic L a s')
    (hpub : ∀ h rid u v, a ≠ .publish h rid u v) (hp : s'.pending.lookup rid = some p) :
    s.pending.lookup rid = some p := by
  cases htr with
  | connect hroom =>
    unfold acquireIP at hroom
    dsimp only at hroom
    split_ifs at hroom
    rw [← Option.some.inj hroom] at hp
    exact hp
  | same hsame => exact hsame.pending ▸ hp
  | leave hsame _ => exact hsame.pending ▸ lookup_of_finish hp
  | publish => exact absurd rfl (hpub _ _ _ _)
  | claim => exact (Maps.lookup_of_erase _ hp).1
  | sweep => exact ((Maps.lookup_sweep _ _).mp hp).1

theorem Effect.pairTaken_of {x : ℕ} (heff : s.Effect L a s')
    (hx : (s'.handler.get x).pc = .pairTaken) :
    (s.handler.get x).pc = .pairTaken ∨ ∃ rid, a = .claim x rid true := by
  cases heff with
  | connect =>
    left
    dsimp only at hx
    by_cases hxn : x = s.handler.next
    · rw [hxn, Heap.get_alloc_next] at hx
      exact absurd hx (by simp)
    · rwa [Heap.get_alloc_of_ne _ _ hxn] at hx
  -- the handlers that move go elsewhere
  | quiet _ hpc hm =>
    refine .inl (hm.pc_of hx ?_)
    rcases hpc with rfl | rfl <;> nofun
  | @take h rid p hs _ _ hm =>
    rcases hm.cases x with ⟨rfl, -⟩ | ⟨-, hsame⟩
    · exact .inr ⟨rid, rfl⟩
    · exact .inl (hsame.symm.trans hx)
  | giveBack _ hm | issue _ _ _ _ hm | resume _ hm | drop _ hm | redeem _ _ hm | fail _ hm
  | splice _ _ hm | wake _ _ hm | idle _ hm | shutdown _ _ hm => exact .inl (hm.pc_of hx nofun)
  | @attach h c side hfrom =>
    refine .inl ((s.moves_attach h c side).pc_of hx ?_)
    split_ifs <;> nofun
  | pump | sweep | close | tick => exact .inl hx

end Inversion

/-! ## Connections per address -/

/-- How many requests from `ip` are being served. -/
def served (hs : Heap Handler) (ip : GoString) : ℕ :=
  Nat.count (fun h => (hs.get h).pc ≠ .gone ∧ (hs.get h).ip = ip) hs.next

theorem served_alloc (hs : Heap Handler) (ip ip' : GoString) :
    served (hs.alloc { ip := ip, pc := .control }) ip' =
      served hs ip' + if ip = ip' then 1 else 0 := by
  unfold served
  rw [Heap.next_alloc, Nat.count_succ, Heap.get_alloc_next]
  congr 1
  · apply Heap.count_congr
    intro x hx
    rw [Heap.get_alloc_of_lt _ _ hx]
  · simp

theorem served_leave {hs : Heap Handler} {h : ℕ} (hh : (hs.get h).pc ≠ .gone) (hlt : h < hs.next)
    (ip : GoString) :
    served hs ip = served (hs.modify h fun x => { x with pc := .gone, shut := true }) ip +
      if (hs.get h).ip = ip then 1 else 0 := by
  have hself : (hs.modify h fun x => { x with pc := .gone, shut := true }).get h =
      { hs.get h with pc := .gone, shut := true } := Heap.get_modify_self _ _
  have hother : ∀ x, x ≠ h → (hs.modify h fun x => { x with pc := .gone, shut := true }).get x =
      hs.get x := fun x hx => Heap.get_modify_of_ne _ _ hx
  unfold served
  rw [Heap.next_modify]
  -- the count of its address loses this handler, and the others count the same ones
  split_ifs with hip
  · apply Heap.count_eq_succ hlt
    · rw [hself]
      simp
    · exact ⟨hh, hip⟩
    · intro x hx
      rw [hother x hx]
  · rw [Nat.add_zero]
    apply Heap.count_congr
    intro x _
    by_cases hx : x = h
    · subst hx
      rw [hself]
      exact iff_of_false (fun hp => hip hp.2) (by simp)
    · rw [hother x hx]

/-- `ipConns` has an entry for the addresses being served, and only for them. -/
def IpExact (L : Limits) (s : Server) : Prop :=
  ∀ ip, s.ipConns.lookup ip =
      (if served s.handler ip = 0 then none else some (served s.handler ip)) ∧
    served s.handler ip ≤ L.maxConnsPerIP

section IpExact

variable {L : Limits} {s s' t : Server} {a : Act} {h : ℕ} {ip : GoString}

theorem IpExact.getD (hs : s.IpExact L) (ip : GoString) :
    (s.ipConns.lookup ip).getD 0 = served s.handler ip := by
  rw [(hs ip).1]
  split_ifs with hzero
  · exact hzero.symm
  · rfl

theorem IpExact.same (hs : s.IpExact L) (hsame : Same s t) : t.IpExact L := by
  intro ip
  have hserved : served t.handler ip = served s.handler ip := by
    unfold served
    rw [hsame.next]
    apply Heap.count_congr
    intro x _
    rw [hsame.ip x, ne_eq, hsame.gone x]
  rw [hsame.ipConns, hserved]
  exact hs ip

/-- A connection is accepted while there is room, so the bound holds after it. -/
theorem IpExact.connect (hs : s.IpExact L) (hroom : s.acquireIP L ip = some t) :
    IpExact L { t with handler := t.handler.alloc { ip := ip, pc := .control } } := by
  unfold acquireIP at hroom
  dsimp only at hroom
  rw [hs.getD] at hroom
  split_ifs at hroom with hfull
  obtain rfl := Option.some.inj hroom
  intro ip'
  dsimp only
  rw [served_alloc]
  -- its own address has one more, which is within the limit
  by_cases hip : ip = ip'
  · subst hip
    rw [if_pos rfl, AList.lookup_insert, if_neg (by omega)]
    exact ⟨rfl, by omega⟩
  · rw [if_neg hip, Nat.add_zero, AList.lookup_insert_ne (Ne.symm hip)]
    exact hs ip'

theorem finish_ipConns (s : Server) (h : ℕ) :
    (s.finish h).ipConns = (s.releaseIP (s.handler.get h).ip).ipConns := by
  obtain ⟨p, hp⟩ := foldl_dropPending (s.handler.get h).published h s
  rw [finish, hp]
  rfl

/-- A handler returns, and its address has one less. The entry goes with the last one. -/
theorem IpExact.finish (hs : s.IpExact L) (hh : (s.handler.get h).pc ≠ .gone)
    (hlt : h < s.handler.next) : (s.finish h).IpExact L := by
  intro ip
  have hcount := served_leave hh hlt ip
  have hhandler : (s.finish h).handler =
      s.handler.modify h fun x => { x with pc := .gone, shut := true } := by rw [finish_eq]
  rw [hhandler, finish_ipConns, releaseIP]
  dsimp only
  rw [hs.getD]
  by_cases hip : (s.handler.get h).ip = ip
  · rw [if_pos hip] at hcount
    rw [hip]
    have hmax := (hs ip).2
    refine ⟨?_, by omega⟩
    -- the last one, or not
    by_cases hone : served s.handler ip ≤ 1
    · rw [if_pos hone, AList.lookup_erase, if_pos (by omega)]
    · rw [if_neg hone, AList.lookup_insert, if_neg (by omega), hcount, Nat.add_sub_cancel]
  · rw [if_neg hip, Nat.add_zero] at hcount
    rw [← hcount]
    refine ⟨?_, (hs ip).2⟩
    rw [← (hs ip).1]
    split_ifs
    · exact AList.lookup_erase_ne (Ne.symm hip)
    · exact AList.lookup_insert_ne (Ne.symm hip)

/-- A handler returns. An entry that has come down to zero is deleted, so the map is as large as
it has to be. -/
theorem IpExact.leave (hs : s.IpExact L)
    (hfresh : ∀ x, s.handler.next ≤ x → (s.handler.get x).pc = .gone) (hsame : Same s t)
    (hh : (s.handler.get h).pc ≠ .gone) : (t.finish h).IpExact L := by
  apply (hs.same hsame).finish
  · exact fun hg => hh ((hsame.gone h).mp hg)
  · rw [hsame.next]
    by_contra hlt
    exact hh (hfresh h (not_lt.mp hlt))

/-- **One step keeps the connections counted**: by the traffic of the step. -/
theorem IpExact.step (hs : s.IpExact L) (hw : s.Wired) (htr : s.Traffic L a s') : s'.IpExact L := by
  cases htr with
  | connect hroom => exact hs.connect hroom
  | same hsame => exact hs.same hsame
  | leave hsame hh => exact hs.leave hw.fresh hsame hh
  | @publish h rid sent t u hroom hh hsame =>
    -- the new code is no concern of `ipConns`
    obtain ⟨-, rfl⟩ := addPending_eq_true.mp hroom
    have ht : IpExact L { s with pending := s.pending.insert rid ⟨h, s.now⟩ } := hs
    rcases sent with _ | _
    · exact ht.leave hw.fresh hsame (by simp [hh])
    · exact ht.same hsame
  | @claim h rid p hp hother hh =>
    have ht : IpExact L { s with pending := s.pending.erase rid, circuits := s.circuits + 1 } := hs
    exact ht.same (.setPc (by simp [hh]) nofun)
  | sweep => exact hs

end IpExact

/-! ## The slots -/

section Slots

variable {L : Limits} {s s' : Server} {a : Act} {c : ℕ}

/-- What a step does to the counter of slots: it takes one when there is room, or returns one
that nobody has returned, or leaves it alone. -/
structure Slots (L : Limits) (s : Server) (a : Act) (s' : Server) : Prop where
  kept : ∀ c < s.circuit.next, (s.circuit.get c).released = true →
    (s'.circuit.get c).released = true
  taken : s'.circuits ≤ s.circuits ∨ (s'.circuits = s.circuits + 1 ∧ s.circuits < L.maxCircuits)
  returned : s'.circuits < s.circuits → s'.circuits + 1 = s.circuits ∧
    ((∃ h, a = .issue h none ∧ (s.handler.get h).pc = .pairTaken) ∨
      ∃ c, (s.circuit.get c).released = false ∧ (s'.circuit.get c).released = true)

theorem Slots.same (hk : ∀ c < s.circuit.next, (s.circuit.get c).released = true →
      (s'.circuit.get c).released = true) (hn : s'.circuits = s.circuits) : Slots L s a s' :=
  ⟨hk, .inl hn.le, fun hlt => absurd hlt (by omega)⟩

theorem Slots.releaseOnce (hrel : (s'.circuit.get c).released = true)
    (hkept : ∀ d, (s.circuit.get d).released = true → (s'.circuit.get d).released = true)
    (hn : s'.circuits = (s.releaseOnce c).circuits) : Slots L s a s' := by
  refine ⟨fun d _ => hkept d, ?_, fun hlt => ?_⟩
  · left
    rw [hn]
    unfold Server.releaseOnce Server.releaseCircuit
    split_ifs
    · exact le_rfl
    · exact Nat.sub_le _ _
    · exact le_rfl
  · rw [hn] at hlt ⊢
    unfold Server.releaseOnce Server.releaseCircuit at hlt ⊢
    -- returned before, returned now, or the counter was zero
    split_ifs at hlt ⊢ with hdone hpos
    · exact absurd hlt (lt_irrefl _)
    · exact ⟨Nat.sub_add_cancel hpos, .inr ⟨c, by simpa using hdone, hrel⟩⟩
    · exact absurd hlt (lt_irrefl _)

theorem releaseOnce_released (s : Server) (c d : ℕ) :
    ((s.releaseOnce c).circuit.get d).released = true ↔
      d = c ∨ (s.circuit.get d).released = true := by
  rw [releaseOnce_circuit]
  by_cases hd : d = c
  · subst hd
    rw [Heap.get_modify_self]
    simp
  · rw [Heap.get_modify_of_ne _ _ hd]
    simp [hd]

/-- **The slots of a step.** A claim takes one, and it is returned when the tickets cannot be
drawn or delivered, when the splice ends or when a half is idle for too long. -/
theorem Effect.slots (heff : s.Effect L a s') : Slots L s a s' := by
  cases heff with
  | connect | quiet | resume | redeem | fail | wake | shutdown | sweep | close | tick =>
    exact .same (fun _ _ => id) rfl
  | take hfrom hroom hm =>
    exact ⟨fun _ _ => id, .inr ⟨rfl, hroom⟩, fun hlt => absurd hlt (by simp)⟩
  | @giveBack h hs hfrom hm =>
    refine ⟨fun _ _ => id, .inl (Nat.sub_le _ _), fun hlt => ?_⟩
    dsimp only at hlt ⊢
    exact ⟨by omega, .inl ⟨h, rfl, hfrom⟩⟩
  | issue hfrom hne hta htb hm =>
    refine .same (fun c hc hrel => ?_) rfl
    dsimp only
    rw [Heap.get_alloc_of_lt _ _ hc]
    exact hrel
  -- the three that go through the `Once`: undelivered, spliced, idle
  | @drop h c ta tb hs hfrom hm =>
    have hrel := releaseOnce_released { s with tickets := (s.tickets.erase ta).erase tb } c
    refine .releaseOnce ((hrel c).mpr (.inl rfl)) (fun d hd => (hrel d).mpr (.inr hd)) ?_
    dsimp only [dropCircuit]
    unfold Server.releaseOnce Server.releaseCircuit
    dsimp only
    split_ifs <;> rfl
  | @attach h c side hfrom =>
    refine .same (fun d _ hrel => ?_) rfl
    have hsame : ((s.attach h c side).circuit.get d).released = (s.circuit.get d).released :=
      s.circuit.get_modify_congr (fun x => x.attach h side (s.second c side) s.now) (fun _ => rfl) d
    exact hsame.trans hrel
  | @pump c hstart =>
    refine .same (fun d _ hrel => ?_) rfl
    have hsame : ((s.circuit.modify c fun x => { x with pumpDone := true }).get d).released =
        (s.circuit.get d).released :=
      s.circuit.get_modify_congr (fun x => { x with pumpDone := true }) (fun _ => rfl) d
    exact hsame.trans hrel
  | @splice h c side p i hs hfrom hex hm =>
    have hsame : ∀ d, (((s.releaseOnce c).circuit.modify c fun x => { x with done := true }).get
        d).released = ((s.releaseOnce c).circuit.get d).released :=
      (s.releaseOnce c).circuit.get_modify_congr (fun x => { x with done := true }) fun _ => rfl
    have hrel := s.releaseOnce_released c
    refine .releaseOnce (c := c) ?_ (fun d hd => ?_) rfl
    · exact (hsame c).trans ((hrel c).mpr (.inl rfl))
    · exact (hsame d).trans ((hrel d).mpr (.inr hd))
  | @idle h c since side p i hs hfrom hm =>
    have hrel := s.releaseOnce_released c
    exact .releaseOnce ((hrel c).mpr (.inl rfl)) (fun d hd => (hrel d).mpr (.inr hd)) rfl

end Slots

end Server

/-! ## Runs -/

section Runs

variable {L : Limits} {s : Server} {as : List Act}

theorem run_counters (hrun : Run (ofNext (Server.next L)) {} as s) :
    s.Wired ∧ s.circuits ≤ L.maxCircuits ∧ s.IpExact L := by
  refine hrun.invariant (fun s => s.Wired ∧ s.circuits ≤ L.maxCircuits ∧ s.IpExact L)
    ⟨.start, Nat.zero_le _, fun ip => ⟨rfl, Nat.zero_le _⟩⟩ ?_
  rintro t a u ⟨hw, hmax, hip⟩ hnext
  have heff := Server.next_effect hnext
  refine ⟨hw.step heff, ?_, hip.step hw (Server.next_traffic hnext)⟩
  have htaken := heff.slots.taken
  omega

/-- **The counters are exact and bounded.** `circuits` is the number of pairings that have taken a
slot and not returned it, at most `maxCircuits`, and positive wherever `releaseCircuit` can be
called. A step returns at most one slot, of a pairing that had not returned it, and a slot that
is returned stays so. `ipConns` has an entry for the addresses that are being served, with their
number of requests, which is at most `maxConnsPerIP`. -/
theorem counters_exact (hrun : Run (ofNext (Server.next L)) {} as s) :
    (s.circuits = Nat.count (fun c => (s.circuit.get c).released = false) s.circuit.next +
        Nat.count (fun h => (s.handler.get h).pc = .pairTaken) s.handler.next ∧
      s.circuits ≤ L.maxCircuits) ∧
    ((∀ c < s.circuit.next, (s.circuit.get c).released = false → 0 < s.circuits) ∧
      ∀ h, (s.handler.get h).pc = .pairTaken → 0 < s.circuits) ∧
    (∀ a s', s.next L a = some s' →
      (∀ c < s.circuit.next, (s.circuit.get c).released = true →
        (s'.circuit.get c).released = true) ∧
      (s'.circuits < s.circuits → s'.circuits + 1 = s.circuits ∧
        ((∃ h, a = .issue h none ∧ (s.handler.get h).pc = .pairTaken) ∨
          ∃ c, (s.circuit.get c).released = false ∧ (s'.circuit.get c).released = true))) ∧
    ∀ ip, (s.ipConns.lookup ip).getD 0 = Server.served s.handler ip ∧
      Server.served s.handler ip ≤ L.maxConnsPerIP ∧
      ((s.ipConns.lookup ip).isSome ↔ 0 < Server.served s.handler ip) := by
  obtain ⟨hw, hmax, hip⟩ := run_counters hrun
  have hcount := circuits_counted hrun
  refine ⟨⟨hcount, hmax⟩, ⟨fun c hc hrel => ?_, fun h hpc => ?_⟩, fun a s' hnext => ?_, fun ip =>
    ?_⟩
  · -- a circuit that has not returned its slot is counted
    have hpos := Nat.count_strict_mono (p := fun c => (s.circuit.get c).released = false) hrel hc
    omega
  · have hlt : h < s.handler.next := by
      by_contra hge
      rw [hw.fresh h (not_lt.mp hge)] at hpc
      exact absurd hpc (by simp)
    have hpos := Nat.count_strict_mono (p := fun h => (s.handler.get h).pc = .pairTaken) hpc hlt
    omega
  · have hslots := (Server.next_effect hnext).slots
    exact ⟨hslots.kept, hslots.returned⟩
  · refine ⟨hip.getD ip, (hip ip).2, ?_⟩
    rw [(hip ip).1]
    split_ifs with hzero
    · simp [hzero]
    · simpa using Nat.pos_of_ne_zero hzero

/-- Two peers are paired and one of them holds its half open from the other's address. -/
theorem counters_exact_busy : ∃ s : Server,
    Run (ofNext (Server.next defaultLimits)) {} busyActs s ∧
    (s.circuits = 2 ∧ (s.ipConns.lookup [1]).getD 0 = 2 ∧ Server.served s.handler [1] = 2) ∧
    s.circuits ≤ defaultLimits.maxCircuits ∧
    (∀ c < s.circuit.next, (s.circuit.get c).released = false → 0 < s.circuits) ∧
    (s.ipConns.lookup [1]).getD 0 = Server.served s.handler [1] := by
  obtain ⟨s, hrun, hs⟩ : ∃ s, Run (ofNext (Server.next defaultLimits)) {} busyActs s ∧
      (s.circuits = 2 ∧ (s.ipConns.lookup [1]).getD 0 = 2 ∧ Server.served s.handler [1] = 2) :=
    exists_run_of_any (fun s : Server => s.circuits = 2 ∧ (s.ipConns.lookup [1]).getD 0 = 2 ∧
      Server.served s.handler [1] = 2) (by decide)
  have hexact := counters_exact hrun
  exact ⟨s, hrun, hs, hexact.1.2, hexact.2.1.1, (hexact.2.2.2 [1]).1⟩

end Runs

end Heimdall.Relay
