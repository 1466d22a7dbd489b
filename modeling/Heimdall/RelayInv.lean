/-
The invariant that ties circuits, tickets and handlers together.

A side of a circuit is in one place at a time: its ticket is in the table, or a handler has
redeemed it, or a connection is attached there. That much holds in every run, whatever the
environment does (`Wired`). Most steps only let go of tickets and handlers (`LetsGo`), which the
invariant does not mind; what remains are the steps that pass a side on.
-/
import Heimdall.RelaySteps
import Heimdall.Runs

set_option autoImplicit false

namespace Heimdall.Relay

open Heimdall.Runs

def Pc.circuit : Pc → Option ℕ
  | .gone | .control | .pairTaken => none
  | .pairIssued c _ _ | .redeemed c _ | .waiting c _ _ | .splicing c _ => some c

/-! ## The invariant

A circuit has two sides, and each side has one owner at a time: a ticket, then the handler that has
redeemed it, then the connection that is attached. Tickets that are dropped and handlers that fail
leave a side without an owner, and nobody takes it again. -/

namespace Server

variable (s : Server)

/-- What a handler can rely on at `pc`. -/
def Placed (h : ℕ) : Pc → Prop
  | .gone | .control | .pairTaken => True
  | .pairIssued c ta tb => c < s.circuit.next ∧ ta ∈ s.issued ∧ tb ∈ s.issued ∧
      ∀ t ref, s.tickets.lookup t = some ref → (ref.circuit = c ↔ t = ta ∨ t = tb)
  | .redeemed c side => c < s.circuit.next ∧ (s.circuit.get c).conns side = none ∧
      ∀ t, s.tickets.lookup t ≠ some ⟨c, side⟩
  | .waiting c side _ => (s.circuit.get c).conns side = some h
  | .splicing c side => (s.circuit.get c).conns side = some h ∧ (s.circuit.get c).started = true

structure Wired : Prop where
  fresh : ∀ h, s.handler.next ≤ h → (s.handler.get h).pc = .gone
  placed : ∀ h, s.Placed h (s.handler.get h).pc
  ticket : ∀ t ref, s.tickets.lookup t = some ref → t ∈ s.issued ∧ ref.circuit < s.circuit.next ∧
    (s.circuit.get ref.circuit).conns ref.side = none
  unique : ∀ t t' ref, s.tickets.lookup t = some ref → s.tickets.lookup t' = some ref → t = t'
  redeemed : ∀ h h' c side, (s.handler.get h).pc = .redeemed c side →
    (s.handler.get h').pc = .redeemed c side → h = h'
  splicing : ∀ h h' c side side', (s.handler.get h).pc = .splicing c side →
    (s.handler.get h').pc = .splicing c side' → h = h'
  conn : ∀ c side x, (s.circuit.get c).conns side = some x →
    c < s.circuit.next ∧ x < s.handler.next ∧ ((s.handler.get x).pc = .gone ∨
      (∃ since, (s.handler.get x).pc = .waiting c side since) ∨
      (s.handler.get x).pc = .splicing c side)
  conn_inj : ∀ c c' side side' x, (s.circuit.get c).conns side = some x →
    (s.circuit.get c').conns side' = some x → c = c' ∧ side = side'
  started : ∀ c, (s.circuit.get c).started = true → ∀ side, (s.circuit.get c).conns side ≠ none
  done : ∀ c, (s.circuit.get c).done = true → (s.circuit.get c).started = true

end Server

/-! ## Letting go -/

/-- The circuits are the same up to slots, pumps and the ends of splices. -/
structure Keeps (k k' : Heap Circuit) : Prop where
  next : k'.next = k.next
  conns : ∀ c, (k'.get c).conns = (k.get c).conns
  started : ∀ c, (k'.get c).started = (k.get c).started
  done : ∀ c, (k'.get c).done = true → (k.get c).done = true ∨ (k.get c).started = true

theorem Keeps.refl (k : Heap Circuit) : Keeps k k :=
  ⟨rfl, fun _ => rfl, fun _ => rfl, fun _ => Or.inl⟩

theorem Keeps.trans {k k' k'' : Heap Circuit} (h : Keeps k k') (h' : Keeps k' k'') :
    Keeps k k'' where
  next := h'.next.trans h.next
  conns c := (h'.conns c).trans (h.conns c)
  started c := (h'.started c).trans (h.started c)
  done c hc := by
    rcases h'.done c hc with hc | hc
    · exact h.done c hc
    · exact .inr (h.started c ▸ hc)

theorem Keeps.modify (k : Heap Circuit) (c : ℕ) (f : Circuit → Circuit)
    (hconns : ∀ x, (f x).conns = x.conns) (hstarted : ∀ x, (f x).started = x.started)
    (hdone : (f (k.get c)).done = true → (k.get c).done = true ∨ (k.get c).started = true) :
    Keeps k (k.modify c f) where
  next := rfl
  conns d := k.get_modify_congr f hconns d
  started d := k.get_modify_congr f hstarted d
  done d hd := by
    by_cases hdc : d = c
    · subst hdc
      rw [Heap.get_modify_self] at hd
      exact hdone hd
    · rw [Heap.get_modify_of_ne _ _ hdc] at hd
      exact .inl hd

theorem Server.keeps_releaseOnce (s : Server) (c : ℕ) :
    Keeps s.circuit (s.releaseOnce c).circuit := by
  rw [Server.releaseOnce_circuit]
  exact Keeps.modify _ c (fun x => { x with released := true }) (fun _ => rfl) (fun _ => rfl) Or.inl

/-- What a handler relies on stays when tickets go, as it never relies on a ticket being there. -/
theorem Server.Placed.mono {s s' : Server} {h : ℕ} {p : Pc} (hp : s.Placed h p)
    (htickets : ∀ t ref, s'.tickets.lookup t = some ref → s.tickets.lookup t = some ref)
    (hissued : s'.issued = s.issued) (hk : Keeps s.circuit s'.circuit) : s'.Placed h p := by
  cases p with
  | gone | control | pairTaken => trivial
  | pairIssued c ta tb =>
    obtain ⟨hc, hta, htb, hcirc⟩ := hp
    refine ⟨hk.next ▸ hc, hissued ▸ hta, hissued ▸ htb, fun t ref ht => ?_⟩
    exact hcirc t ref (htickets t ref ht)
  | redeemed c side =>
    obtain ⟨hc, hfree, hcirc⟩ := hp
    refine ⟨hk.next ▸ hc, hk.conns c ▸ hfree, fun t ht => ?_⟩
    exact hcirc t (htickets t _ ht)
  | waiting c side since => exact (congrFun (hk.conns c) side).trans hp
  | splicing c side =>
    exact ⟨(congrFun (hk.conns c) side).trans hp.1, (hk.started c).trans hp.2⟩

/-- Tickets may go, and handlers may leave their circuit or not have had one. -/
structure LetsGo (s s' : Server) : Prop where
  tickets : ∀ t ref, s'.tickets.lookup t = some ref → s.tickets.lookup t = some ref
  issued : s'.issued = s.issued
  circuit : Keeps s.circuit s'.circuit
  handlers : s.handler.next ≤ s'.handler.next
  pc : ∀ x, (s'.handler.get x).pc = (s.handler.get x).pc ∨ (s'.handler.get x).pc = .gone ∨
    (x < s'.handler.next ∧ (∀ c, x ∉ s.ends c) ∧
      ((s'.handler.get x).pc = .control ∨ (s'.handler.get x).pc = .pairTaken))

namespace LetsGo

variable {s s' : Server} {h c : ℕ} {side : Bool} {p : Pc}

theorem pc_of (hl : LetsGo s s') (hpc : (s'.handler.get h).pc = p) (hgone : p ≠ .gone)
    (hcontrol : p ≠ .control) (htaken : p ≠ .pairTaken) : (s.handler.get h).pc = p := by
  rcases hl.pc h with hsame | hsame | ⟨-, -, hsame | hsame⟩
  · exact hsame.symm.trans hpc
  · exact absurd (hpc.symm.trans hsame) hgone
  · exact absurd (hpc.symm.trans hsame) hcontrol
  · exact absurd (hpc.symm.trans hsame) htaken

/-- **Letting go keeps the invariant.** Each clause is about what there is, so it holds for less;
what is new is at most a handler that is no end of a circuit. -/
theorem wired (hl : LetsGo s s') (hw : s.Wired) : s'.Wired where
  fresh x hx := by
    rcases hl.pc x with hsame | hgone | ⟨hlt, -⟩
    · exact hsame.trans (hw.fresh x (hl.handlers.trans hx))
    · exact hgone
    · exact absurd hlt (not_lt.mpr hx)
  placed x := by
    rcases hl.pc x with hsame | hgone | ⟨-, -, hpc | hpc⟩
    · rw [hsame]
      exact (hw.placed x).mono hl.tickets hl.issued hl.circuit
    · rw [hgone]
      trivial
    · rw [hpc]
      trivial
    · rw [hpc]
      trivial
  ticket t ref ht := by
    have hold := hw.ticket t ref (hl.tickets t ref ht)
    rw [hl.issued, hl.circuit.next, hl.circuit.conns]
    exact hold
  unique t t' ref ht ht' := hw.unique t t' ref (hl.tickets t ref ht) (hl.tickets t' ref ht')
  redeemed x x' c side hx hx' := by
    apply hw.redeemed x x' c side
    · exact hl.pc_of hx nofun nofun nofun
    · exact hl.pc_of hx' nofun nofun nofun
  splicing x x' c side side' hx hx' := by
    apply hw.splicing x x' c side side'
    · exact hl.pc_of hx nofun nofun nofun
    · exact hl.pc_of hx' nofun nofun nofun
  -- a connection may lose its handler, and that is the first of the three cases
  conn c side x hx := by
    rw [hl.circuit.conns] at hx
    obtain ⟨hc, hlt, hpc⟩ := hw.conn c side x hx
    refine ⟨hl.circuit.next ▸ hc, hlt.trans_le hl.handlers, ?_⟩
    rcases hl.pc x with hsame | hgone | ⟨-, hends, -⟩
    · rw [hsame]
      exact hpc
    · exact .inl hgone
    · exact absurd ⟨side, hx⟩ (hends c)
  conn_inj c c' side side' x hx hx' := by
    rw [hl.circuit.conns] at hx hx'
    exact hw.conn_inj c c' side side' x hx hx'
  started c hc side := by
    rw [hl.circuit.conns]
    exact hw.started c (hl.circuit.started c ▸ hc) side
  done c hc := by
    rw [hl.circuit.started]
    exact (hl.circuit.done c hc).elim (hw.done c) id

end LetsGo

/-! ## A new circuit -/

/-- What `pair` has done when handler `h` has put the tickets `ta` and `tb` into the table. -/
structure Opens (s s' : Server) (h ta tb : ℕ) : Prop where
  fresh_a : ta ∉ s.issued
  fresh_b : tb ∉ s.issued
  issued : s'.issued = ta :: tb :: s.issued
  next : s'.circuit.next = s.circuit.next + 1
  new : s'.circuit.get s.circuit.next = { created := s.now }
  old : ∀ c, c ≠ s.circuit.next → s'.circuit.get c = s.circuit.get c
  lookup : ∀ t ref, s'.tickets.lookup t = some ref ↔ (t = tb ∧ ref = ⟨s.circuit.next, true⟩) ∨
    (t ≠ tb ∧ ((t = ta ∧ ref = ⟨s.circuit.next, false⟩) ∨ (t ≠ ta ∧ s.tickets.lookup t = some ref)))
  moves : Moves s.handler s'.handler h (.pairIssued s.circuit.next ta tb) ∅

theorem Opens.intro {s : Server} {h ta tb : ℕ} {hs : Heap Handler} (hta : ta ∉ s.issued)
    (htb : tb ∉ s.issued) (hm : Moves s.handler hs h (.pairIssued s.circuit.next ta tb) ∅) :
    Opens s { s with
      circuit := s.circuit.alloc { created := s.now }
      tickets := (s.tickets.insert ta (TicketRef.mk s.circuit.next false)).insert tb
        (TicketRef.mk s.circuit.next true)
      issued := ta :: tb :: s.issued
      handler := hs } h ta tb where
  fresh_a := hta
  fresh_b := htb
  issued := rfl
  next := rfl
  new := s.circuit.get_alloc_next _
  old _ hc := s.circuit.get_alloc_of_ne _ hc
  lookup t ref := by rw [Maps.lookup_insert_iff, Maps.lookup_insert_iff]
  moves := hm

namespace Opens

variable {s s' : Server} {h ta tb : ℕ} {x : ℕ} {p : Pc}

theorem lookup_of_ne (ho : Opens s s' h ta tb) {t : ℕ} {ref : TicketRef}
    (hc : ref.circuit ≠ s.circuit.next) (ht : s'.tickets.lookup t = some ref) :
    t ≠ ta ∧ t ≠ tb ∧ s.tickets.lookup t = some ref := by
  rcases (ho.lookup t ref).mp ht with ⟨-, rfl⟩ | ⟨htb, ⟨-, rfl⟩ | ⟨hta, ht⟩⟩
  · exact absurd rfl hc
  · exact absurd rfl hc
  · exact ⟨hta, htb, ht⟩

theorem lookup_new (ho : Opens s s' h ta tb) (hw : s.Wired) {t : ℕ} {ref : TicketRef}
    (hc : ref.circuit = s.circuit.next) (ht : s'.tickets.lookup t = some ref) :
    (t = tb ∧ ref.side = true) ∨ (t = ta ∧ ref.side = false) := by
  rcases (ho.lookup t ref).mp ht with ⟨rfl, rfl⟩ | ⟨-, ⟨rfl, rfl⟩ | ⟨-, ht⟩⟩
  · exact .inl ⟨rfl, rfl⟩
  · exact .inr ⟨rfl, rfl⟩
  · exact absurd hc (hw.ticket t ref ht).2.1.ne

theorem placed (ho : Opens s s' h ta tb) (hw : s.Wired) (hp : s.Placed x p) : s'.Placed x p := by
  cases p with
  | gone | control | pairTaken => trivial
  | pairIssued c ta' tb' =>
    obtain ⟨hc, hta', htb', htickets⟩ := hp
    refine ⟨?_, ?_, ?_, fun t ref ht => ?_⟩
    · rw [ho.next]
      exact hc.trans (Nat.lt_succ_self _)
    · rw [ho.issued]
      exact List.mem_cons_of_mem _ (List.mem_cons_of_mem _ hta')
    · rw [ho.issued]
      exact List.mem_cons_of_mem _ (List.mem_cons_of_mem _ htb')
    · -- the new tickets were drawn now, `ta'` and `tb'` before
      by_cases href : ref.circuit = s.circuit.next
      · have hne : t ≠ ta' ∧ t ≠ tb' := by
          rcases ho.lookup_new hw href ht with ⟨rfl, -⟩ | ⟨rfl, -⟩
          · exact ⟨fun h => ho.fresh_b (h ▸ hta'), fun h => ho.fresh_b (h ▸ htb')⟩
          · exact ⟨fun h => ho.fresh_a (h ▸ hta'), fun h => ho.fresh_a (h ▸ htb')⟩
        rw [href]
        exact iff_of_false hc.ne' (not_or.mpr hne)
      · exact htickets t ref (ho.lookup_of_ne href ht).2.2
  | redeemed c side =>
    obtain ⟨hc, hfree, htickets⟩ := hp
    refine ⟨?_, ?_, fun t ht => ?_⟩
    · rw [ho.next]
      exact hc.trans (Nat.lt_succ_self _)
    · rw [ho.old c hc.ne]
      exact hfree
    · exact htickets t (ho.lookup_of_ne hc.ne ht).2.2
  | waiting c side since =>
    have hc := (hw.conn c side x hp).1.ne
    exact (congrArg (fun k : Circuit => k.conns side) (ho.old c hc)).trans hp
  | splicing c side =>
    have hc := ho.old c (hw.conn c side x hp.1).1.ne
    exact ⟨(congrArg (fun k : Circuit => k.conns side) hc).trans hp.1,
      (congrArg Circuit.started hc).trans hp.2⟩

theorem ne_next_of_conn (ho : Opens s s' h ta tb) {c : ℕ} {side : Bool}
    (hc : (s'.circuit.get c).conns side = some x) : c ≠ s.circuit.next := by
  rintro rfl
  rw [ho.new] at hc
  exact absurd hc (by simp)

end Opens

/-! ## Steps -/

/-- A handler that is serving a connection and has not attached it. -/
def Pc.Early : Pc → Prop
  | .control | .pairTaken | .pairIssued _ _ _ | .redeemed _ _ => True
  | .gone | .waiting _ _ _ | .splicing _ _ => False

/-- The steps that pass a side of a circuit on: to a ticket, from there to a handler, and from
there to a connection. -/
inductive Server.PassesOn (s : Server) : Act → Server → Prop
  | issue {s' : Server} {h ta tb : ℕ} (hfrom : (s.handler.get h).pc = .pairTaken) (hne : ta ≠ tb)
      (ho : Opens s s' h ta tb) : PassesOn s (.issue h (some (ta, tb))) s'
  | redeem {h t : ℕ} {ref : TicketRef} {hs : Heap Handler}
      (hfrom : (s.handler.get h).pc = .control) (ht : s.tickets.lookup t = some ref)
      (hm : Moves s.handler hs h (.redeemed ref.circuit ref.side) ∅) :
    PassesOn s (.redeem h t) { s with tickets := s.tickets.erase t, handler := hs }
  | attach {h c : ℕ} {side : Bool} (hfrom : (s.handler.get h).pc = .redeemed c side) :
    PassesOn s (.answer h true) (s.attach h c side)

namespace Server.Wired

variable {L : Limits} {s s' : Server} {a : Act} {h : ℕ} {p : Pc}

theorem placed_of (hw : s.Wired) (hfrom : (s.handler.get h).pc = p) : s.Placed h p :=
  hfrom ▸ hw.placed h

/-- A handler that has not attached is serving a connection, and is the end of no circuit. The
first is so because a handler that does not exist is gone. -/
theorem early (hw : s.Wired) (hfrom : (s.handler.get h).pc = p) (hp : p.Early) :
    h < s.handler.next ∧ ∀ c, h ∉ s.ends c := by
  subst hfrom
  constructor
  · by_contra hlt
    rw [hw.fresh h (not_lt.mp hlt)] at hp
    exact hp
  · rintro c ⟨side, hc⟩
    rcases (hw.conn c side h hc).2.2 with hg | ⟨_, hg⟩ | hg
    all_goals
      rw [hg] at hp
      exact hp

theorem fresh_of_moves (hw : s.Wired) {hs : Heap Handler} {also : Set ℕ}
    (hm : Moves s.handler hs h p also) (hlt : h < s.handler.next) (x : ℕ) (hx : hs.next ≤ x) :
    (hs.get x).pc = .gone := by
  rw [hm.next] at hx
  exact (hm.pc_other x (hlt.trans_le hx).ne').trans (hw.fresh x hx)

theorem of_moves (hw : s.Wired) {also : Set ℕ} (hm : Moves s.handler s'.handler h p also)
    (hp : p = .gone ∨ ((p = .control ∨ p = .pairTaken) ∧ (s.handler.get h).pc.Early))
    (htickets : ∀ t ref, s'.tickets.lookup t = some ref → s.tickets.lookup t = some ref)
    (hissued : s'.issued = s.issued) (hcircuit : Keeps s.circuit s'.circuit) : LetsGo s s' := by
  refine ⟨htickets, hissued, hcircuit, hm.next.ge, fun x => ?_⟩
  rcases hm.cases x with ⟨rfl, hx⟩ | ⟨-, hx⟩
  · right
    rcases hp with rfl | ⟨hp, hearly⟩
    · exact .inl hx
    · obtain ⟨hlt, hends⟩ := hw.early rfl hearly
      exact .inr ⟨hm.next.symm ▸ hlt, hends, by rwa [hx]⟩
  · exact .inl hx

/-- Two tickets are issued for a new circuit. Nothing points to it yet, and the two tickets have
numbers that were never issued. -/
theorem opens (hw : s.Wired) {ta tb : ℕ} (hfrom : (s.handler.get h).pc = .pairTaken)
    (ho : Opens s s' h ta tb) : s'.Wired := by
  obtain ⟨hlt, hends⟩ := hw.early hfrom trivial
  constructor
  case fresh => exact hw.fresh_of_moves ho.moves hlt
  case placed =>
    intro x
    rcases ho.moves.cases x with ⟨rfl, hx⟩ | ⟨-, hx⟩
    · rw [hx]
      refine ⟨by rw [ho.next]; omega, by simp [ho.issued], by simp [ho.issued], fun t ref ht => ?_⟩
      constructor
      · intro hc
        exact (ho.lookup_new hw hc ht).elim (fun h => .inr h.1) fun h => .inl h.1
      · intro htt
        by_contra hc
        obtain ⟨hta, htb, -⟩ := ho.lookup_of_ne hc ht
        exact htt.elim hta htb
    · rw [hx]
      exact ho.placed hw (hw.placed x)
  case ticket =>
    intro t ref ht
    -- a ticket of the new circuit, or an older one
    by_cases hc : ref.circuit = s.circuit.next
    · rw [hc, ho.new, ho.next, ho.issued]
      refine ⟨?_, Nat.lt_succ_self _, rfl⟩
      rcases ho.lookup_new hw hc ht with ⟨rfl, -⟩ | ⟨rfl, -⟩
      · simp
      · simp
    · obtain ⟨hmem, hlt, hfree⟩ := hw.ticket t ref (ho.lookup_of_ne hc ht).2.2
      rw [ho.old _ hc, ho.next, ho.issued]
      exact ⟨List.mem_cons_of_mem _ (List.mem_cons_of_mem _ hmem), by omega, hfree⟩
  case unique =>
    intro t t' ref ht ht'
    by_cases hc : ref.circuit = s.circuit.next
    · -- two tickets of the new circuit for one side are the same
      rcases ho.lookup_new hw hc ht with ⟨rfl, hside⟩ | ⟨rfl, hside⟩
      · rcases ho.lookup_new hw hc ht' with ⟨rfl, -⟩ | ⟨-, hside'⟩
        · rfl
        · exact absurd (hside.symm.trans hside') (by simp)
      · rcases ho.lookup_new hw hc ht' with ⟨-, hside'⟩ | ⟨rfl, -⟩
        · exact absurd (hside.symm.trans hside') (by simp)
        · rfl
    · exact hw.unique t t' ref (ho.lookup_of_ne hc ht).2.2 (ho.lookup_of_ne hc ht').2.2
  case redeemed =>
    intro x x' c side hx hx'
    exact hw.redeemed x x' c side (ho.moves.pc_of hx nofun) (ho.moves.pc_of hx' nofun)
  case splicing =>
    intro x x' c side side' hx hx'
    exact hw.splicing x x' c side side' (ho.moves.pc_of hx nofun) (ho.moves.pc_of hx' nofun)
  case conn =>
    intro c side x hx
    have hc := ho.ne_next_of_conn hx
    rw [ho.old c hc] at hx
    have hxh : x ≠ h := fun hxh => hends c ⟨side, hxh ▸ hx⟩
    obtain ⟨hlt, hltx, hcase⟩ := hw.conn c side x hx
    rw [ho.moves.pc_other x hxh, ho.moves.next, ho.next]
    exact ⟨by omega, hltx, hcase⟩
  case conn_inj =>
    intro c c' side side' x hx hx'
    rw [ho.old c (ho.ne_next_of_conn hx)] at hx
    rw [ho.old c' (ho.ne_next_of_conn hx')] at hx'
    exact hw.conn_inj c c' side side' x hx hx'
  case started =>
    intro c hc side
    by_cases hcn : c = s.circuit.next
    · rw [hcn, ho.new] at hc
      exact absurd hc (by simp)
    · rw [ho.old c hcn] at hc ⊢
      exact hw.started c hc side
  case done =>
    intro c hc
    by_cases hcn : c = s.circuit.next
    · rw [hcn, ho.new] at hc
      exact absurd hc (by simp)
    · rw [ho.old c hcn] at hc ⊢
      exact hw.done c hc

/-- A ticket is redeemed: its side belongs to the handler now. Nobody else has redeemed it, as it
was in the table, and no other ticket is for the same side. -/
theorem redeems (hw : s.Wired) {t : ℕ} {ref : TicketRef} {hs : Heap Handler}
    (hfrom : (s.handler.get h).pc = .control) (ht : s.tickets.lookup t = some ref)
    (hm : Moves s.handler hs h (.redeemed ref.circuit ref.side) ∅) :
    Server.Wired { s with tickets := s.tickets.erase t, handler := hs } := by
  obtain ⟨hlt, hends⟩ := hw.early hfrom trivial
  have herase : ∀ t' ref', (s.tickets.erase t).lookup t' = some ref' →
      s.tickets.lookup t' = some ref' := fun t' ref' ht' => (Maps.lookup_of_erase _ ht').1
  -- nobody else has redeemed this ticket, for it was in the table
  have honly : ∀ x, (hs.get x).pc = .redeemed ref.circuit ref.side → x = h := by
    intro x hx
    rcases hm.cases x with ⟨hxh, -⟩ | ⟨-, hx'⟩
    · exact hxh
    · exact absurd ht ((hw.placed_of (hx'.symm.trans hx)).2.2 t)
  constructor
  case fresh => exact hw.fresh_of_moves hm hlt
  case placed =>
    intro x
    dsimp only
    rcases hm.cases x with ⟨rfl, hx⟩ | ⟨-, hx⟩
    · rw [hx]
      obtain ⟨-, hc, hfree⟩ := hw.ticket t ref ht
      refine ⟨hc, hfree, fun t' ht' => ?_⟩
      obtain ⟨hold, hne⟩ := Maps.lookup_of_erase _ ht'
      exact hne (hw.unique t' t ref hold ht)
    · rw [hx]
      exact (hw.placed x).mono herase rfl (Keeps.refl _)
  case ticket =>
    intro t' ref' ht'
    exact hw.ticket t' ref' (herase t' ref' ht')
  case unique =>
    intro t₁ t₂ ref' h₁ h₂
    exact hw.unique t₁ t₂ ref' (herase t₁ ref' h₁) (herase t₂ ref' h₂)
  case redeemed =>
    intro x x' c side hx hx'
    by_cases heq : Pc.redeemed c side = .redeemed ref.circuit ref.side
    · exact (honly x (hx.trans heq)).trans (honly x' (hx'.trans heq)).symm
    · exact hw.redeemed x x' c side (hm.pc_of hx heq) (hm.pc_of hx' heq)
  case splicing =>
    intro x x' c side side' hx hx'
    exact hw.splicing x x' c side side' (hm.pc_of hx nofun) (hm.pc_of hx' nofun)
  case conn =>
    intro c side x hx
    have hxh : x ≠ h := fun hxh => hends c ⟨side, hxh ▸ hx⟩
    dsimp only
    rw [hm.pc_other x hxh, hm.next]
    exact hw.conn c side x hx
  case conn_inj => exact hw.conn_inj
  case started => exact hw.started
  case done => exact hw.done

theorem free_of_redeemed (hw : s.Wired) {c : ℕ} {side : Bool}
    (hfrom : (s.handler.get h).pc = .redeemed c side) :
    c < s.circuit.next ∧ (s.circuit.get c).conns side = none ∧
      (∀ t, s.tickets.lookup t ≠ some ⟨c, side⟩) ∧ (s.circuit.get c).started = false ∧
      (s.circuit.get c).done = false := by
  obtain ⟨hc, hfree, htickets⟩ := hw.placed_of hfrom
  have hstart : (s.circuit.get c).started = false := by
    by_contra hstart
    exact hw.started c (Bool.not_eq_false _ ▸ hstart) side hfree
  refine ⟨hc, hfree, htickets, hstart, ?_⟩
  by_contra hdone
  rw [hw.done c (Bool.not_eq_false _ ▸ hdone)] at hstart
  exact absurd hstart (by simp)

theorem attach_placed (hw : s.Wired) {c : ℕ} {side : Bool}
    (hfrom : (s.handler.get h).pc = .redeemed c side) (x : ℕ) :
    (s.attach h c side).Placed x ((s.attach h c side).handler.get x).pc := by
  have hfree := (hw.free_of_redeemed hfrom).2.1
  rcases (s.moves_attach h c side).cases x with ⟨rfl, hx⟩ | ⟨hxh, hx⟩
  · rw [hx]
    by_cases hsec : s.second c side = true
    · rw [if_pos hsec]
      exact ⟨s.attach_conns_self x c side, (s.attach_started x c side c).mpr (.inr ⟨rfl, hsec⟩)⟩
    · rw [if_neg hsec]
      exact s.attach_conns_self x c side
  · have hplaced := hw.placed x
    rw [hx]
    cases hq : (s.handler.get x).pc with
    | gone | control | pairTaken => trivial
    | pairIssued d ta tb =>
      rw [hq] at hplaced
      exact hplaced
    | redeemed d e =>
      -- nobody else has redeemed a ticket for the same end
      rw [hq] at hplaced
      refine ⟨hplaced.1, s.attach_conns_none h c side hplaced.2.1 ?_, hplaced.2.2⟩
      rintro ⟨rfl, rfl⟩
      exact hxh (hw.redeemed x h d e hq hfrom)
    | waiting d e since =>
      rw [hq] at hplaced
      exact s.attach_conns_of h c side hfree hplaced
    | splicing d e =>
      rw [hq] at hplaced
      exact ⟨s.attach_conns_of h c side hfree hplaced.1,
        (s.attach_started h c side d).mpr (.inl hplaced.2)⟩

theorem attach_splicing (hw : s.Wired) {c : ℕ} {side : Bool}
    (hfrom : (s.handler.get h).pc = .redeemed c side) {x x' d : ℕ} {e e' : Bool}
    (hx : ((s.attach h c side).handler.get x).pc = .splicing d e)
    (hx' : ((s.attach h c side).handler.get x').pc = .splicing d e') : x = x' := by
  have hm := s.moves_attach h c side
  have hstart := (hw.free_of_redeemed hfrom).2.2.2.1
  -- before, nobody was splicing `c`
  have hnot : ∀ x e, (s.handler.get x).pc ≠ .splicing c e := by
    intro x e hx
    exact absurd (hstart.symm.trans (hw.placed_of hx).2) (by simp)
  have hself : ∀ d e, ((s.attach h c side).handler.get h).pc = .splicing d e → d = c := by
    intro d e hx
    rw [hm.pc_self] at hx
    split_ifs at hx
    exact (Pc.splicing.inj hx).1.symm
  rcases hm.cases x with ⟨rfl, -⟩ | ⟨hxh, hx₀⟩
  · rcases hm.cases x' with ⟨rfl, -⟩ | ⟨-, hx₀'⟩
    · rfl
    · have hd := hself d e hx
      subst hd
      exact absurd (hx₀'.symm.trans hx') (hnot x' e')
  · rcases hm.cases x' with ⟨rfl, -⟩ | ⟨-, hx₀'⟩
    · have hd := hself d e' hx'
      subst hd
      exact absurd (hx₀.symm.trans hx) (hnot x e)
    · exact hw.splicing x x' d e e' (hx₀.symm.trans hx) (hx₀'.symm.trans hx')

/-- A connection attaches to its side. This is the only step that puts a connection on a circuit,
and the only one that can start a splice. -/
theorem attaches (hw : s.Wired) {c : ℕ} {side : Bool}
    (hfrom : (s.handler.get h).pc = .redeemed c side) : (s.attach h c side).Wired := by
  obtain ⟨hlt, hends⟩ := hw.early hfrom trivial
  obtain ⟨hc, hfree, htickets, hstart, hdone⟩ := hw.free_of_redeemed hfrom
  have hm := s.moves_attach h c side
  constructor
  case fresh => exact hw.fresh_of_moves hm hlt
  case placed => exact hw.attach_placed hfrom
  case ticket =>
    intro t ref ht
    obtain ⟨hmem, hlt, hnone⟩ := hw.ticket t ref ht
    refine ⟨hmem, hlt, s.attach_conns_none h c side hnone ?_⟩
    rintro ⟨hd, he⟩
    apply htickets t
    rw [← hd, ← he]
    exact ht
  case unique => exact hw.unique
  case redeemed =>
    -- the handler that attaches waits or splices, so it is no longer one that has redeemed
    have hne : ∀ d e, Pc.redeemed d e ≠
        if s.second c side then .splicing c side else .waiting c side s.now := by
      intro d e
      split_ifs
      · nofun
      · nofun
    intro x x' d e hx hx'
    exact hw.redeemed x x' d e (hm.pc_of hx (hne d e)) (hm.pc_of hx' (hne d e))
  case splicing => exact fun x x' d e e' => hw.attach_splicing hfrom
  case conn =>
    intro d e x hx
    rw [hm.next]
    rcases s.attach_conns h c side hx with ⟨rfl, rfl, rfl⟩ | ⟨-, hx⟩
    · refine ⟨hc, hlt, .inr ?_⟩
      rw [hm.pc_self]
      by_cases hsec : s.second d e = true
      · rw [if_pos hsec]
        exact .inr rfl
      · rw [if_neg hsec]
        exact .inl ⟨s.now, rfl⟩
    · -- the handler that attaches was the end of no circuit
      have hxh : x ≠ h := fun hxh => hends d ⟨e, hxh ▸ hx⟩
      rw [hm.pc_other x hxh]
      exact hw.conn d e x hx
  case conn_inj =>
    intro d d' e e' x hx hx'
    rcases s.attach_conns h c side hx with ⟨hd, he, hxh⟩ | ⟨-, hx₀⟩
    · rcases s.attach_conns h c side hx' with ⟨hd', he', -⟩ | ⟨-, hx₀'⟩
      · exact ⟨hd.trans hd'.symm, he.trans he'.symm⟩
      · exact absurd ⟨e', hxh ▸ hx₀'⟩ (hends d')
    · rcases s.attach_conns h c side hx' with ⟨-, -, hxh⟩ | ⟨-, hx₀'⟩
      · exact absurd ⟨e, hxh ▸ hx₀⟩ (hends d)
      · exact hw.conn_inj d d' e e' x hx₀ hx₀'
  case started =>
    intro d hd e
    rcases (s.attach_started h c side d).mp hd with hd | ⟨rfl, hsec⟩
    · obtain ⟨x, hx⟩ := Option.ne_none_iff_exists'.mp (hw.started d hd e)
      rw [s.attach_conns_of h c side hfree hx]
      simp
    · -- the circuit starts now: this side has just been taken, and the other one was
      by_cases he : e = side
      · rw [he, attach_conns_self]
        simp
      · have hother : e = !side := by
          cases e <;> cases side <;> simp_all
        rw [second, Bool.and_eq_true] at hsec
        obtain ⟨x, hx⟩ := Option.isSome_iff_exists.mp hsec.1
        rw [hother, s.attach_conns_of h d side hfree hx]
        simp
  case done =>
    intro d hd
    rw [attach_done] at hd
    exact (s.attach_started h c side d).mpr (.inl (hw.done d hd))

theorem letsGo_or (hw : s.Wired) (heff : s.Effect L a s') : LetsGo s s' ∨ s.PassesOn a s' := by
  have hearly : ∀ {x q}, (s.handler.get x).pc = q → q.Early → (s.handler.get x).pc.Early :=
    fun hx hq => hx ▸ hq
  cases heff with
  | connect =>
    -- the address of the new handler was never used
    refine .inl ⟨fun _ _ => id, rfl, Keeps.refl _, Nat.le_succ _, fun x => ?_⟩
    by_cases hx : x = s.handler.next
    · subst hx
      right; right
      refine ⟨Nat.lt_succ_self _, ?_, .inl ?_⟩
      · rintro c ⟨side, hc⟩
        exact absurd (hw.conn c side _ hc).2.1 (lt_irrefl _)
      · dsimp only
        rw [Heap.get_alloc_next]
    · left
      dsimp only
      rw [Heap.get_alloc_of_ne _ _ hx]
  | quiet hfrom hpc hm =>
    refine .inl (hw.of_moves hm ?_ (fun _ _ => id) rfl (Keeps.refl _))
    exact hpc.symm.imp_right fun hpc => ⟨.inl hpc, hearly hfrom trivial⟩
  | take hfrom _ hm =>
    refine .inl (hw.of_moves hm ?_ (fun _ _ => id) rfl (Keeps.refl _))
    exact .inr ⟨.inr rfl, hearly hfrom trivial⟩
  | giveBack hfrom hm | resume hfrom hm =>
    refine .inl (hw.of_moves hm ?_ (fun _ _ => id) rfl (Keeps.refl _))
    exact .inr ⟨.inl rfl, hearly hfrom trivial⟩
  | issue hfrom hne hta htb hm => exact .inr (.issue hfrom hne (.intro hta htb hm))
  | @drop h c ta tb hs hfrom hm =>
    refine .inl (hw.of_moves hm (.inr ⟨.inl rfl, hearly hfrom trivial⟩) ?_ ?_ ?_)
    · intro t ref ht
      dsimp only [dropCircuit] at ht
      rw [releaseOnce_tickets] at ht
      exact (Maps.lookup_of_erase _ (Maps.lookup_of_erase _ ht).1).1
    · exact releaseOnce_issued _ c
    · exact keeps_releaseOnce { s with tickets := (s.tickets.erase ta).erase tb } c
  | redeem hfrom ht hm => exact .inr (.redeem hfrom ht hm)
  | attach hfrom => exact .inr (.attach hfrom)
  | fail _ hm | wake _ _ hm | shutdown _ _ hm =>
    exact .inl (hw.of_moves hm (.inl rfl) (fun _ _ => id) rfl (Keeps.refl _))
  | pump hstart =>
    refine .inl ⟨fun _ _ => id, rfl, ?_, le_rfl, fun _ => .inl rfl⟩
    exact Keeps.modify _ _ (fun x => { x with pumpDone := true }) (fun _ => rfl)
      (fun _ => rfl) Or.inl
  | @splice h c side p i hs hfrom _ hm =>
    refine .inl (hw.of_moves hm (.inl rfl) ?_ (s.releaseOnce_issued c) ?_)
    · intro t ref ht
      rwa [← s.releaseOnce_tickets c]
    · apply (s.keeps_releaseOnce c).trans
      refine Keeps.modify _ c (fun x => { x with done := true }) (fun _ => rfl) (fun _ => rfl) ?_
      intro _
      exact .inr ((s.keeps_releaseOnce c).started c ▸ (hw.placed_of hfrom).2)
  | @idle h c since side p i hs hfrom hm =>
    refine .inl (hw.of_moves hm (.inl rfl) ?_ (s.releaseOnce_issued c) (s.keeps_releaseOnce c))
    intro t ref ht
    rwa [← s.releaseOnce_tickets c]
  | sweep =>
    refine .inl ⟨?_, rfl, Keeps.refl _, le_rfl, fun _ => .inl rfl⟩
    intro t ref ht
    exact ((Maps.lookup_sweep _ _).mp ht).1
  | close | tick => exact .inl ⟨fun _ _ => id, rfl, Keeps.refl _, le_rfl, fun _ => .inl rfl⟩

/-- **One step keeps the invariant**: by letting go, or by one of the three ways a side is passed
on. -/
theorem step (hw : s.Wired) (heff : s.Effect L a s') : s'.Wired := by
  rcases hw.letsGo_or heff with hl | hp
  · exact hl.wired hw
  · cases hp with
    | issue hfrom _ ho => exact hw.opens hfrom ho
    | redeem hfrom ht hm => exact hw.redeems hfrom ht hm
    | attach hfrom => exact hw.attaches hfrom

theorem start : ({} : Server).Wired where
  fresh _ _ := rfl
  placed _ := trivial
  ticket _ _ ht := absurd ht (by simp)
  unique _ _ _ ht := absurd ht (by simp)
  redeemed _ _ _ _ hx := absurd hx (by simp [Heap.empty])
  splicing _ _ _ _ _ hx := absurd hx (by simp [Heap.empty])
  conn _ _ _ hx := absurd hx (by simp [Heap.empty])
  conn_inj _ _ _ _ _ hx := absurd hx (by simp [Heap.empty])
  started _ hc := absurd hc (by simp [Heap.empty])
  done _ hc := absurd hc (by simp [Heap.empty])

end Server.Wired

end Heimdall.Relay
