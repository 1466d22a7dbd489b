/-
The slots of the relay.

`Server.circuits` counts what it should: the circuits whose slot has not been returned, and the
handlers that have taken a slot and not made a circuit of it (`counted`). Whether a slot is
returned when the circuit is over is another matter. Nothing returns the slot of a circuit whose
tickets `reap` has swept (`swept_slot_leaked`), nor of one whose last half could not be told
`circuit_ok`, nor of one whose first half leaves because the server is closed. The other way
round, the first half that gives up waiting returns the slot while the ticket of the second is
still good, and so does `pair` when it cannot deliver a ticket and the other one is redeemed.

Apart from these the slots are right: if no circuit loses its last ticket or handler in one of
the first three ways, every slot is returned (`slots_not_leaked`), and if none is returned early,
the slots taken are those of the circuits that are still live (`slots_match_live`).
-/
import Heimdall.RelayInv

set_option autoImplicit false

namespace Heimdall.Relay

open Heimdall.Runs

/-! ## What the counter counts -/

def Counted (n : ℕ) (k : Heap Circuit) (hs : Heap Handler) : Prop :=
  n = Nat.count (fun c => (k.get c).released = false) k.next +
    Nat.count (fun h => (hs.get h).pc = .pairTaken) hs.next

namespace Counted

variable {n : ℕ} {k k' : Heap Circuit} {hs hs' : Heap Handler} {h c : ℕ} {p : Pc} {also : Set ℕ}

/-- The counter is the number of circuits that have not returned their slot, and of the handlers
that have taken one and have no circuit yet. A move between other places does not change it. -/
theorem moves (hn : Counted n k hs) (hm : Moves hs hs' h p also)
    (hfrom : (hs.get h).pc ≠ .pairTaken)
    (hp : p ≠ .pairTaken) : Counted n k hs' := by
  have hcount : Nat.count (fun x => (hs'.get x).pc = .pairTaken) hs.next =
      Nat.count (fun x => (hs.get x).pc = .pairTaken) hs.next := by
    apply Heap.count_congr
    intro x _
    rcases hm.cases x with ⟨rfl, hx⟩ | ⟨-, hx⟩
    · rw [hx]
      exact iff_of_false hp hfrom
    · rw [hx]
  rw [Counted, hm.next, hcount]
  exact hn

theorem take (hn : Counted n k hs) (hm : Moves hs hs' h .pairTaken also) (hlt : h < hs.next)
    (hfrom : (hs.get h).pc ≠ .pairTaken) : Counted (n + 1) k hs' := by
  have hcount := Heap.count_eq_succ (p := fun h => (hs.get h).pc = .pairTaken)
    (q := fun h => (hs'.get h).pc = .pairTaken) hlt hfrom hm.pc_self
    fun x hx => by rw [hm.pc_other x hx]
  rw [Counted, hm.next, hcount, hn]
  omega

theorem give (hn : Counted n k hs) (hm : Moves hs hs' h p also) (hlt : h < hs.next)
    (hfrom : (hs.get h).pc = .pairTaken) (hp : p ≠ .pairTaken) : Counted (n - 1) k hs' ∧ 0 < n := by
  have hcount := Heap.count_eq_succ (p := fun h => (hs'.get h).pc = .pairTaken)
    (q := fun h => (hs.get h).pc = .pairTaken) hlt (by rw [hm.pc_self]; exact hp) hfrom
    fun x hx => by rw [hm.pc_other x hx]
  rw [Counted] at hn
  rw [Counted, hm.next]
  omega

theorem modify (hn : Counted n k hs) (c : ℕ) (f : Circuit → Circuit)
    (hrel : ∀ x, (f x).released = x.released) : Counted n (k.modify c f) hs := by
  have hcount : Nat.count (fun d => ((k.modify c f).get d).released = false) k.next =
      Nat.count (fun d => (k.get d).released = false) k.next := by
    apply Heap.count_congr
    intro d _
    rw [k.get_modify_congr f hrel]
  rw [Counted, Heap.next_modify, hcount]
  exact hn

theorem connect (hn : Counted n k hs) (x : Handler) (hx : x.pc ≠ .pairTaken) :
    Counted n k (hs.alloc x) := by
  have hbelow : Nat.count (fun h => ((hs.alloc x).get h).pc = .pairTaken) hs.next =
      Nat.count (fun h => (hs.get h).pc = .pairTaken) hs.next :=
    Heap.count_congr fun h hh => by rw [Heap.get_alloc_of_lt _ _ hh]
  rw [Counted, Heap.next_alloc, Nat.count_succ, hbelow, Heap.get_alloc_next, if_neg hx]
  exact hn

theorem alloc (hn : Counted n k hs) (x : Circuit) (hx : x.released = false) :
    Counted (n + 1) (k.alloc x) hs := by
  have hbelow : Nat.count (fun c => ((k.alloc x).get c).released = false) k.next =
      Nat.count (fun c => (k.get c).released = false) k.next :=
    Heap.count_congr fun c hc => by rw [Heap.get_alloc_of_lt _ _ hc]
  rw [Counted, Heap.next_alloc, Nat.count_succ, hbelow, Heap.get_alloc_next, if_pos hx, hn]
  omega

theorem releaseOnce {s : Server} (hn : Counted s.circuits s.circuit hs) (hc : c < s.circuit.next) :
    Counted (s.releaseOnce c).circuits (s.releaseOnce c).circuit hs := by
  by_cases hrel : (s.circuit.get c).released = true
  · rw [Server.releaseOnce, if_pos hrel]
    exact hn
  · -- one circuit less has its slot
    have hcount := Heap.count_eq_succ
      (p := fun d => ((s.releaseOnce c).circuit.get d).released = false)
      (q := fun d => (s.circuit.get d).released = false) hc
      (by rw [Server.releaseOnce_circuit, Heap.get_modify_self]; simp) (by simpa using hrel)
      fun d hd => by rw [Server.releaseOnce_circuit, Heap.get_modify_of_ne _ _ hd]
    have hcirc : (s.releaseOnce c).circuits = s.circuits - 1 := by
      rw [Server.releaseOnce, if_neg hrel, Server.releaseCircuit_eq]
    have hnext : (s.releaseOnce c).circuit.next = s.circuit.next := by
      rw [Server.releaseOnce_circuit, Heap.next_modify]
    rw [Counted] at hn
    rw [Counted, hcirc, hnext]
    omega

end Counted

/-- **The counter is right after every step**: one case for each effect. -/
theorem Server.Wired.counted {L : Limits} {s s' : Server} {a : Act} (hw : s.Wired)
    (heff : s.Effect L a s') (hn : Counted s.circuits s.circuit s.handler) :
    Counted s'.circuits s'.circuit s'.handler := by
  have hother : ∀ {x q}, (s.handler.get x).pc = q → q ≠ .pairTaken →
      (s.handler.get x).pc ≠ .pairTaken := fun hx hq => hx ▸ hq
  have hlt : ∀ {x q}, (s.handler.get x).pc = q → q.Early → x < s.handler.next :=
    fun hx hq => (hw.early hx hq).1
  cases heff with
  | connect =>
    exact hn.connect _ nofun
  | quiet hfrom hpc hm =>
    apply hn.moves hm (hother hfrom nofun)
    rcases hpc with rfl | rfl
    · nofun
    · nofun
  | take hfrom _ hm => exact hn.take hm (hlt hfrom trivial) (hother hfrom nofun)
  | giveBack hfrom hm => exact (hn.give hm (hlt (q := .pairTaken) hfrom trivial) hfrom nofun).1
  | issue hfrom _ _ _ hm =>
    -- the slot passes from the handler to the circuit
    obtain ⟨hgive, hpos⟩ := hn.give hm (hlt (q := .pairTaken) hfrom trivial) hfrom nofun
    have halloc := hgive.alloc { created := s.now } rfl
    rwa [Nat.sub_add_cancel hpos] at halloc
  | resume hfrom hm => exact hn.moves hm (hother hfrom nofun) nofun
  | @drop h c ta tb hs hfrom hm =>
    have hplaced := hw.placed_of hfrom
    have hmoved := hn.moves hm (hother hfrom nofun) nofun
    exact Counted.releaseOnce (s := { s with tickets := (s.tickets.erase ta).erase tb })
      hmoved hplaced.1
  | redeem hfrom _ hm => exact hn.moves hm (hother hfrom nofun) nofun
  | @attach h c side hfrom =>
    have hmoved : Counted s.circuits s.circuit (s.attach h c side).handler := by
      apply hn.moves (s.moves_attach h c side) (hother hfrom nofun)
      split_ifs <;> nofun
    exact hmoved.modify c (fun x => x.attach h side (s.second c side) s.now) fun _ => rfl
  | fail hfrom hm | wake hfrom _ hm | shutdown hfrom _ hm =>
    exact hn.moves hm (hother hfrom nofun) nofun
  | pump _ => exact hn.modify _ (fun x => { x with pumpDone := true }) fun _ => rfl
  | @splice h c side p i hs hfrom _ hm =>
    have hplaced := hw.placed_of hfrom
    have hmoved := hn.moves hm (hother hfrom nofun) nofun
    have hreleased := hmoved.releaseOnce (hw.conn c side h hplaced.1).1
    exact hreleased.modify c (fun x => { x with done := true }) fun _ => rfl
  | @idle h c since side p i hs hfrom hm =>
    have hplaced := hw.placed_of hfrom
    exact (hn.moves hm (hother hfrom nofun) nofun).releaseOnce (hw.conn c side h hplaced).1
  | sweep | close | tick => exact hn

/-! ## Live circuits -/

namespace Server

section Live

variable (L : Limits) (s : Server)

/-- A handler at `p` is attached to circuit `c`. When `done` is closed, the first half has been
woken and is no longer attached. -/
def On (c : ℕ) : Pc → Prop
  | .gone | .control | .pairTaken | .pairIssued _ _ _ => False
  | .redeemed d _ | .splicing d _ => d = c
  | .waiting d _ _ => d = c ∧ (s.circuit.get d).done = false

instance (c : ℕ) (p : Pc) : Decidable (s.On c p) :=
  match p with
  | .gone | .control | .pairTaken | .pairIssued _ _ _ => inferInstanceAs (Decidable False)
  | .redeemed _ _ | .splicing _ _ => inferInstanceAs (Decidable (_ = _))
  | .waiting _ _ _ => inferInstanceAs (Decidable (_ ∧ _))

def HasTicket (c : ℕ) : Prop := ∃ e ∈ s.tickets.entries, e.2.circuit = c

def HasHandler (c : ℕ) : Prop := ∃ x < s.handler.next, s.On c (s.handler.get x).pc

/-- A circuit with an outstanding ticket or an attached handler. -/
def Live (c : ℕ) : Prop := s.HasTicket c ∨ s.HasHandler c

/-- The same without handler `h`. -/
def Others (h c : ℕ) : Prop :=
  s.HasTicket c ∨ ∃ x < s.handler.next, x ≠ h ∧ s.On c (s.handler.get x).pc

instance (c : ℕ) : Decidable (s.HasTicket c) := inferInstanceAs (Decidable (∃ e ∈ _, _))

instance (c : ℕ) : Decidable (s.HasHandler c) := inferInstanceAs (Decidable (∃ x < _, _))

instance (c : ℕ) : Decidable (s.Live c) := inferInstanceAs (Decidable (_ ∨ _))

instance (h c : ℕ) : Decidable (s.Others h c) :=
  inferInstanceAs (Decidable (_ ∨ ∃ x < _, _ ∧ _))

/-- No circuit loses its last ticket or handler on a path that does not return the slot: in the
sweep of the reaper, when `circuit_ok` cannot be sent, and when the server is closed. -/
def Kept : Act → Prop
  | .sweep => ∀ e ∈ s.tickets.entries,
      s.now - (s.circuit.get e.2.circuit).created > L.codeTTL → s.HasHandler e.2.circuit
  | .answer h false | .shutdown h => ∀ c ∈ (s.handler.get h).pc.circuit,
      s.On c (s.handler.get h).pc → s.Others h c
  | _ => True

/-- No slot is returned while something is left of the circuit: neither when the first half has
waited for `CircuitIdle`, nor when a ticket could not be delivered. -/
def Prompt : Act → Prop
  | .idle h => ∀ c ∈ (s.handler.get h).pc.circuit, ¬ s.Others h c
  | .deliver h false => ∀ c ∈ (s.handler.get h).pc.circuit, ¬ s.HasHandler c
  | _ => True

instance (a : Act) : Decidable (s.Kept L a) :=
  match a with
  | .sweep => inferInstanceAs (Decidable (∀ e ∈ _, _ → _))
  | .answer _ false | .shutdown _ => inferInstanceAs (Decidable (∀ c ∈ _, _ → _))
  | .connect _ | .quit _ | .publish _ _ _ _ | .claim _ _ _ | .issue _ _ | .deliver _ _
  | .redeem _ _ | .answer _ true | .pumpEnd _ | .spliceEnd _ | .wake _ | .idle _ | .close
  | .tick _ => inferInstanceAs (Decidable True)

instance (a : Act) : Decidable (s.Prompt a) :=
  match a with
  | .idle _ | .deliver _ false => inferInstanceAs (Decidable (∀ c ∈ _, ¬ _))
  | .connect _ | .quit _ | .publish _ _ _ _ | .claim _ _ _ | .issue _ _ | .deliver _ true
  | .redeem _ _ | .answer _ _ | .pumpEnd _ | .spliceEnd _ | .wake _ | .shutdown _ | .sweep
  | .close | .tick _ => inferInstanceAs (Decidable True)

end Live

variable {L : Limits} {s s' : Server} {a : Act} {h d : ℕ} {p : Pc} {also : Set ℕ}

theorem hasTicket_iff :
    s.HasTicket d ↔ ∃ t ref, s.tickets.lookup t = some ref ∧ ref.circuit = d := by
  constructor
  · rintro ⟨⟨t, ref⟩, hmem, hd⟩
    exact ⟨t, ref, (Maps.lookup_eq_some_iff _).mpr hmem, hd⟩
  · rintro ⟨t, ref, ht, hd⟩
    exact ⟨⟨t, ref⟩, (Maps.lookup_eq_some_iff _).mp ht, hd⟩

theorem circuit_of_on (hon : s.On d p) : p.circuit = some d := by
  cases p with
  | gone | control | pairTaken | pairIssued => exact absurd hon id
  | redeemed | splicing => exact congrArg some hon
  | waiting => exact congrArg some hon.1

theorem on_congr (hdone : (s'.circuit.get d).done = (s.circuit.get d).done) :
    s'.On d p ↔ s.On d p := by
  cases p with
  | gone | control | pairTaken | pairIssued | redeemed | splicing => exact Iff.rfl
  | waiting c side since =>
    apply and_congr_right
    rintro rfl
    rw [hdone]

/-- A circuit is live while there is a ticket for it, or a handler at it. The handler of the step
is told apart from all others. -/
theorem live_iff_others (h : ℕ) :
    s.Live d ↔ s.Others h d ∨ (h < s.handler.next ∧ s.On d (s.handler.get h).pc) := by
  constructor
  · rintro (ht | ⟨x, hx, hon⟩)
    · exact .inl (.inl ht)
    · by_cases hxh : x = h
      · subst hxh
        exact .inr ⟨hx, hon⟩
      · exact .inl (.inr ⟨x, hx, hxh, hon⟩)
  · rintro ((ht | ⟨x, hx, -, hon⟩) | ⟨hlt, hon⟩)
    · exact .inl ht
    · exact .inr ⟨x, hx, hon⟩
    · exact .inr ⟨h, hlt, hon⟩

theorem others_congr (hm : Moves s.handler s'.handler h p also)
    (htickets : ∀ t ref, ref.circuit = d →
      (s'.tickets.lookup t = some ref ↔ s.tickets.lookup t = some ref))
    (hdone : (s'.circuit.get d).done = (s.circuit.get d).done) : s'.Others h d ↔ s.Others h d := by
  -- the tickets, and the other handlers
  apply or_congr
  · rw [hasTicket_iff, hasTicket_iff]
    constructor
    · rintro ⟨t, ref, ht, hd⟩
      exact ⟨t, ref, (htickets t ref hd).mp ht, hd⟩
    · rintro ⟨t, ref, ht, hd⟩
      exact ⟨t, ref, (htickets t ref hd).mpr ht, hd⟩
  · rw [hm.next]
    apply exists_congr
    intro x
    apply and_congr_right
    intro _
    apply and_congr_right
    intro hx
    rw [hm.pc_other x hx]
    exact on_congr hdone

theorem live_of_moves (hm : Moves s.handler s'.handler h p also)
    (htickets : ∀ t ref, ref.circuit = d →
      (s'.tickets.lookup t = some ref ↔ s.tickets.lookup t = some ref))
    (hdone : (s'.circuit.get d).done = (s.circuit.get d).done) (hp : ¬ s'.On d p) :
    (s'.Live d → s.Live d) ∧
      ((s.On d (s.handler.get h).pc → s.Others h d) → s.Live d → s'.Live d) := by
  have hothers := others_congr hm htickets hdone
  rw [live_iff_others h, live_iff_others h, hm.pc_self, hothers]
  constructor
  · rintro (ho | ⟨-, hon⟩)
    · exact .inl ho
    · exact absurd hon hp
  · rintro hleft (ho | ⟨-, hon⟩)
    · exact .inl ho
    · exact .inl (hleft hon)

/-! ## What a step does to a slot -/

/-- The slot of circuit `d` in a step: it stays as it is, with the circuit; or it is returned; or
the circuit is new. -/
inductive SlotStep (L : Limits) (s : Server) (a : Act) (s' : Server) (d : ℕ) : Prop
  | same (hd : d < s.circuit.next)
      (hrel : (s'.circuit.get d).released = (s.circuit.get d).released)
      (hlive : s'.Live d → s.Live d) (hkept : s.Kept L a → s.Live d → s'.Live d)
  | returned (hrel : (s'.circuit.get d).released = true) (hprompt : s.Prompt a → ¬ s'.Live d)
  | taken (hrel : (s'.circuit.get d).released = false) (hlive : s'.Live d)

/-- Each step is described by what it does to one circuit: whether its slot is returned, and
whether anybody is left who could return it. Here nothing happens to it. -/
theorem SlotStep.of_moves (hd : d < s.circuit.next)
    (hm : Moves s.handler s'.handler h p also)
    (htickets : ∀ t ref, ref.circuit = d →
      (s'.tickets.lookup t = some ref ↔ s.tickets.lookup t = some ref))
    (hcircuit : s'.circuit.get d = s.circuit.get d) (hp : ¬ s'.On d p)
    (hleft : s.Kept L a → s.On d (s.handler.get h).pc → s.Others h d) : SlotStep L s a s' d := by
  obtain ⟨hback, hforth⟩ := live_of_moves hm htickets (by rw [hcircuit]) hp
  exact .same hd (by rw [hcircuit]) hback fun hk => hforth (hleft hk)

theorem releaseOnce_get (s : Server) (c d : ℕ) : ((s.releaseOnce c).circuit.get c).released = true ∧
    (d ≠ c → (s.releaseOnce c).circuit.get d = s.circuit.get d) := by
  rw [releaseOnce_circuit, Heap.get_modify_self]
  exact ⟨rfl, fun hd => Heap.get_modify_of_ne _ _ hd⟩

theorem releaseOnce_done (s : Server) (c d : ℕ) :
    ((s.releaseOnce c).circuit.get d).done = (s.circuit.get d).done := by
  rw [releaseOnce_circuit]
  exact s.circuit.get_modify_congr (fun x => { x with released := true }) (fun _ => rfl) d

theorem SlotStep.connect {ip : Peers.GoString} {i : AList fun _ : Peers.GoString => ℕ}
    (hd : d < s.circuit.next) : SlotStep L s a
      { s with ipConns := i, handler := s.handler.alloc { ip := ip, pc := .control } } d := by
  refine .same hd rfl ?_ ?_
  · -- a handler at the circuit is one of those before
    rintro (ht | ⟨x, hx, hon⟩)
    · exact .inl ht
    · dsimp only at hx hon
      rcases Nat.lt_succ_iff_lt_or_eq.mp hx with hlt | rfl
      · rw [Heap.get_alloc_of_lt _ _ hlt] at hon
        exact .inr ⟨x, hlt, hon⟩
      · rw [Heap.get_alloc_next] at hon
        exact absurd hon id
  · rintro - (ht | ⟨x, hx, hon⟩)
    · exact .inl ht
    · refine .inr ⟨x, hx.trans (Nat.lt_succ_self _), ?_⟩
      dsimp only
      rw [Heap.get_alloc_of_lt _ _ hx]
      exact hon

theorem SlotStep.issue (hw : s.Wired) {ta tb : ℕ} (hd : d < s'.circuit.next)
    (hfrom : (s.handler.get h).pc = .pairTaken) (ho : Opens s s' h ta tb) :
      SlotStep L s a s' d := by
  by_cases hdn : d = s.circuit.next
  · subst hdn
    apply SlotStep.taken
    · rw [ho.new]
    · left
      rw [hasTicket_iff]
      exact ⟨tb, _, (ho.lookup tb _).mpr (.inl ⟨rfl, rfl⟩), rfl⟩
  · rw [ho.next] at hd
    refine SlotStep.of_moves (by omega) ho.moves (fun t ref href => ?_) (ho.old d hdn) id ?_
    · constructor
      · intro ht
        exact (ho.lookup_of_ne (href ▸ hdn) ht).2.2
      · intro ht
        -- the tickets in the table were drawn before
        have hmem := (hw.ticket t ref ht).1
        have hta : t ≠ ta := fun h => ho.fresh_a (h ▸ hmem)
        have htb : t ≠ tb := fun h => ho.fresh_b (h ▸ hmem)
        exact (ho.lookup t ref).mpr (.inr ⟨htb, .inr ⟨hta, ht⟩⟩)
    · intro _ hon
      rw [hfrom] at hon
      exact absurd hon id

/-- When a ticket could not be delivered, nothing but handlers can be left. -/
theorem SlotStep.drop (hw : s.Wired) {c ta tb : ℕ} {hs : Heap Handler} (hd : d < s.circuit.next)
    (hfrom : (s.handler.get h).pc = .pairIssued c ta tb) (hm : Moves s.handler hs h .control ∅) :
    SlotStep L s (.deliver h false) { s.dropCircuit c ta tb with handler := hs } d := by
  have hplaced := hw.placed_of hfrom
  -- both tickets of the circuit are gone, and no others
  have hlookup : ∀ t ref, (s.dropCircuit c ta tb).tickets.lookup t = some ref ↔
      t ≠ ta ∧ t ≠ tb ∧ s.tickets.lookup t = some ref := by
    intro t ref
    rw [dropCircuit, releaseOnce_tickets]
    constructor
    · intro ht
      obtain ⟨ht, htb⟩ := Maps.lookup_of_erase _ ht
      obtain ⟨ht, hta⟩ := Maps.lookup_of_erase _ ht
      exact ⟨hta, htb, ht⟩
    · rintro ⟨hta, htb, ht⟩
      rw [AList.lookup_erase_ne htb, AList.lookup_erase_ne hta, ht]
  obtain ⟨hself, hother⟩ := releaseOnce_get { s with tickets := (s.tickets.erase ta).erase tb } c d
  by_cases hdc : d = c
  · subst hdc
    refine .returned hself fun hprompt => ?_
    have hnone : ¬ s.HasHandler d := hprompt d (by rw [hfrom]; rfl)
    rintro (ht | ⟨x, hx, hon⟩)
    · obtain ⟨t, ref, ht, href⟩ := hasTicket_iff.mp ht
      obtain ⟨hta, htb, ht⟩ := (hlookup t ref).mp ht
      exact ((hplaced.2.2.2 t ref ht).mp href).elim hta htb
    · rcases hm.cases x with ⟨-, hpc⟩ | ⟨-, hpc⟩
      · dsimp only at hon
        rw [hpc] at hon
        exact hon
      · dsimp only at hx hon
        rw [hpc] at hon
        rw [hm.next] at hx
        refine hnone ⟨x, hx, (on_congr ?_).mp hon⟩
        exact releaseOnce_done _ d d
  · refine SlotStep.of_moves hd hm (fun t ref href => ?_) (hother hdc) id ?_
    · dsimp only
      rw [hlookup]
      constructor
      · exact fun ht => ht.2.2
      · intro ht
        have hnot := mt (hplaced.2.2.2 t ref ht).mpr (href ▸ hdc)
        exact ⟨fun hta => hnot (.inl hta), fun htb => hnot (.inr htb), ht⟩
    · intro _ hon
      rw [hfrom] at hon
      exact absurd hon id

theorem SlotStep.redeem (hw : s.Wired) {t : ℕ} {ref : TicketRef} {hs : Heap Handler}
    (hd : d < s.circuit.next) (hfrom : (s.handler.get h).pc = .control)
    (ht : s.tickets.lookup t = some ref)
    (hm : Moves s.handler hs h (.redeemed ref.circuit ref.side) ∅) :
    SlotStep L s a { s with tickets := s.tickets.erase t, handler := hs } d := by
  -- the circuit of the ticket, which has a handler now, and the others
  by_cases hdc : ref.circuit = d
  · subst hdc
    refine .same hd rfl (fun _ => .inl (hasTicket_iff.mpr ⟨t, ref, ht, rfl⟩)) fun _ _ => ?_
    have hlt := (hw.early hfrom trivial).1
    refine .inr ⟨h, hm.next.symm ▸ hlt, ?_⟩
    dsimp only
    rw [hm.pc_self]
    exact rfl
  · refine SlotStep.of_moves hd hm (fun t' ref' href' => ?_) rfl hdc ?_
    · dsimp only
      constructor
      · exact fun ht' => (Maps.lookup_of_erase _ ht').1
      · intro ht'
        have hne : t' ≠ t := by
          rintro rfl
          exact hdc (Option.some.inj (ht.symm.trans ht') ▸ href')
        rw [AList.lookup_erase_ne hne, ht']
    · intro _ hon
      rw [hfrom] at hon
      exact absurd hon id

theorem SlotStep.attach (hw : s.Wired) {c : ℕ} {side : Bool} (hd : d < s.circuit.next)
    (hfrom : (s.handler.get h).pc = .redeemed c side) : SlotStep L s a (s.attach h c side) d := by
  have hm := s.moves_attach h c side
  -- it splices, or waits for the other half
  by_cases hdc : d = c
  · subst hdc
    have hlt := (hw.early hfrom trivial).1
    refine .same hd ?_ (fun _ => .inr ⟨h, hlt, by rw [hfrom]; exact rfl⟩) fun _ _ => ?_
    · rw [attach_circuit_self]
      rfl
    · refine .inr ⟨h, hm.next.symm ▸ hlt, ?_⟩
      rw [hm.pc_self]
      split_ifs
      · exact rfl
      · refine ⟨rfl, ?_⟩
        rw [attach_done]
        exact (hw.free_of_redeemed hfrom).2.2.2.2
  · refine SlotStep.of_moves hd hm (fun _ _ _ => Iff.rfl) (s.attach_circuit_of_ne h c side hdc) ?_
      ?_
    · split_ifs
      · exact fun hon => hdc hon.symm
      · exact fun hon => hdc hon.1.symm
    · intro _ hon
      rw [hfrom] at hon
      exact absurd hon.symm hdc

theorem SlotStep.pump {c : ℕ} (hd : d < s.circuit.next) : SlotStep L s a
    { s with circuit := s.circuit.modify c fun x => { x with pumpDone := true } } d := by
  have hdone : ((s.circuit.modify c fun x => { x with pumpDone := true }).get d).done =
      (s.circuit.get d).done :=
    s.circuit.get_modify_congr (fun x => { x with pumpDone := true }) (fun _ => rfl) d
  refine .same hd ?_ ?_ ?_
  · exact s.circuit.get_modify_congr (fun x => { x with pumpDone := true }) (fun _ => rfl) d
  · exact Or.imp_right fun ⟨x, hx, hon⟩ => ⟨x, hx, (on_congr hdone).mp hon⟩
  · exact fun _ => Or.imp_right fun ⟨x, hx, hon⟩ => ⟨x, hx, (on_congr hdone).mpr hon⟩

/-- When a splice ends, both sides were attached and nobody else can be. -/
theorem SlotStep.splice (hw : s.Wired) {c : ℕ} {side : Bool} (hd : d < s.circuit.next)
    (hfrom : (s.handler.get h).pc = .splicing c side) (htickets : s'.tickets = s.tickets)
    (hself : (s'.circuit.get c).released = true ∧ (s'.circuit.get c).done = true)
    (hother : ∀ d, d ≠ c → s'.circuit.get d = s.circuit.get d)
    (hm : Moves s.handler s'.handler h .gone also) : SlotStep L s a s' d := by
  have hplaced := hw.placed_of hfrom
  have hbusy := hw.started c hplaced.2
  by_cases hdc : d = c
  · subst hdc
    refine .returned hself.1 fun _ => ?_
    -- both tickets have been redeemed, and the other half waits on `done`, which is closed now
    rintro (ht | ⟨x, -, hon⟩)
    · obtain ⟨t, ref, hlookup, rfl⟩ := hasTicket_iff.mp ht
      rw [htickets] at hlookup
      exact hbusy ref.side (hw.ticket t ref hlookup).2.2
    · rcases hm.cases x with ⟨-, hpc⟩ | ⟨hxh, hpc⟩
      · rw [hpc] at hon
        exact hon
      · have hx := hw.placed x
        rw [hpc] at hon
        cases hq : (s.handler.get x).pc with
        | gone | control | pairTaken | pairIssued =>
          rw [hq] at hon
          exact hon
        | redeemed e side' =>
          rw [hq] at hon hx
          obtain rfl : e = d := hon
          exact hbusy side' hx.2.1
        | waiting e side' since =>
          rw [hq] at hon
          obtain ⟨rfl, hdone⟩ := hon
          exact absurd (hself.2.symm.trans hdone) (by simp)
        | splicing e side' =>
          rw [hq] at hon
          obtain rfl : e = d := hon
          exact hxh (hw.splicing x h e side' side hq hfrom)
  · refine SlotStep.of_moves hd hm (fun t ref _ => by rw [htickets]) (hother d hdc) id ?_
    intro _ hon
    rw [hfrom] at hon
    exact absurd hon.symm hdc

/-- The first half gives up, and returns the slot whether or not the second ticket is still
there. -/
theorem SlotStep.idle {c since : ℕ} {side : Bool} (hd : d < s.circuit.next)
    (hfrom : (s.handler.get h).pc = .waiting c side since) (htickets : s'.tickets = s.tickets)
    (hcircuit : s'.circuit = (s.releaseOnce c).circuit)
    (hm : Moves s.handler s'.handler h .gone also) : SlotStep L s (.idle h) s' d := by
  obtain ⟨hself, hother⟩ := releaseOnce_get s c d
  rw [← hcircuit] at hself hother
  by_cases hdc : d = c
  · subst hdc
    refine .returned hself fun hprompt hlive => ?_
    have hnone : ¬ s.Others h d := hprompt d (by rw [hfrom]; rfl)
    -- what the others have is as it was
    have hcongr : s'.Others h d ↔ s.Others h d := by
      apply others_congr hm
      · intro t ref _
        rw [htickets]
      · rw [hcircuit, releaseOnce_done]
    rw [live_iff_others h, hcongr, hm.pc_self] at hlive
    exact hlive.elim hnone fun hon => hon.2
  · refine SlotStep.of_moves hd hm (fun t ref _ => by rw [htickets]) (hother hdc) id ?_
    intro _ hon
    rw [hfrom] at hon
    exact absurd hon.1.symm hdc

/-- The reaper takes tickets away. It does not return slots, so a circuit whose tickets it takes
must have a handler. -/
theorem SlotStep.sweep (hd : d < s.circuit.next) : SlotStep L s .sweep (s.reap L) d := by
  refine .same hd rfl ?_ ?_
  · rintro (ht | hon)
    · obtain ⟨t, ref, ht, href⟩ := hasTicket_iff.mp ht
      exact .inl (hasTicket_iff.mpr ⟨t, ref, ((Maps.lookup_sweep _ _).mp ht).1, href⟩)
    · exact .inr hon
  · rintro hkept (⟨e, hmem, rfl⟩ | hon)
    · by_cases hexp : s.now - (s.circuit.get e.2.circuit).created > L.codeTTL
      · exact .inr (hkept e hmem hexp)
      · refine .inl ⟨e, List.mem_filter.mpr ⟨hmem, ?_⟩, rfl⟩
        simpa using hexp
    · exact .inr hon

/-- **What a step does to a slot**, one case for each effect. -/
theorem Wired.slotStep (hw : s.Wired) (heff : s.Effect L a s') (hd : d < s'.circuit.next) :
    SlotStep L s a s' d := by
  -- a handler that is not attached leaves nothing behind
  have hearly : ∀ {x : ℕ} {q : Pc}, (s.handler.get x).pc = q → q.circuit = none →
      s.Kept L a → s.On d (s.handler.get x).pc → s.Others x d := by
    intro x q hx hq _ hon
    rw [hx] at hon
    exact absurd ((circuit_of_on hon).symm.trans hq) nofun
  cases heff with
  | connect => exact .connect hd
  | quiet hfrom hpc hm =>
    refine .of_moves hd hm (fun _ _ _ => Iff.rfl) rfl ?_ (hearly hfrom rfl)
    rcases hpc with rfl | rfl
    · exact id
    · exact id
  | take hfrom _ hm => exact .of_moves hd hm (fun _ _ _ => Iff.rfl) rfl id (hearly hfrom rfl)
  | giveBack hfrom hm => exact .of_moves hd hm (fun _ _ _ => Iff.rfl) rfl id (hearly hfrom rfl)
  | issue hfrom _ hta htb hm => exact .issue hw hd hfrom (.intro hta htb hm)
  | resume hfrom hm =>
    refine .of_moves hd hm (fun _ _ _ => Iff.rfl) rfl id fun _ hon => ?_
    rw [hfrom] at hon
    exact absurd hon id
  | @drop h c ta tb hs hfrom hm =>
    rw [dropCircuit, releaseOnce_circuit] at hd
    exact .drop hw hd hfrom hm
  | redeem hfrom ht hm => exact .redeem hw hd hfrom ht hm
  | attach hfrom => exact .attach hw hd hfrom
  | fail hfrom hm =>
    refine .of_moves hd hm (fun _ _ _ => Iff.rfl) rfl id fun hkept hon => ?_
    exact hkept d (circuit_of_on hon) hon
  | pump _ => exact .pump hd
  | @splice h c side p i hs hfrom _ hm =>
    rw [Heap.next_modify, releaseOnce_circuit] at hd
    refine .splice hw hd hfrom (s.releaseOnce_tickets c) ?_ ?_ hm
    · dsimp only
      rw [Heap.get_modify_self]
      exact ⟨(releaseOnce_get s c d).1, rfl⟩
    · intro e he
      dsimp only
      rw [Heap.get_modify_of_ne _ _ he]
      exact (releaseOnce_get s c e).2 he
  | @wake h c since side p i hs hfrom hdone hm =>
    refine .of_moves hd hm (fun _ _ _ => Iff.rfl) rfl id fun _ hon => ?_
    rw [hfrom] at hon
    exact absurd (hdone.symm.trans hon.2) (by simp)
  | @idle h c since side p i hs hfrom hm =>
    rw [releaseOnce_circuit] at hd
    exact .idle hd hfrom (s.releaseOnce_tickets c) rfl hm
  | shutdown hfrom _ hm =>
    refine .of_moves hd hm (fun _ _ _ => Iff.rfl) rfl id fun hkept hon => ?_
    exact hkept d (circuit_of_on hon) hon
  | sweep => exact .sweep hd
  | close | tick => exact .same hd rfl id fun _ => id

end Server

/-! ## Runs -/

section Runs

variable (L : Limits)

/-- A step in which no circuit loses its last ticket or handler without returning its slot. -/
def StepKept (s : Server) (a : Act) (s' : Server) : Prop := s.next L a = some s' ∧ s.Kept L a

/-- A step in which moreover no slot is returned early. -/
def StepCareful (s : Server) (a : Act) (s' : Server) : Prop :=
  s.next L a = some s' ∧ s.Kept L a ∧ s.Prompt a

variable {L} {s : Server} {as : List Act}

/-- **The counter.** In every run of the relay, `circuits` is the number of slots that are taken:
by circuits that have not returned theirs, and by handlers inside `pair`. -/
theorem circuits_counted (hrun : Run (ofNext (Server.next L)) {} as s) :
    s.circuits = Nat.count (fun c => (s.circuit.get c).released = false) s.circuit.next +
      Nat.count (fun h => (s.handler.get h).pc = .pairTaken) s.handler.next := by
  have hstart : Counted 0 (Heap.empty {}) (Heap.empty {}) := by
    rw [Counted, Heap.next_empty, Heap.next_empty, Nat.count_zero, Nat.count_zero]
  have hinv : s.Wired ∧ Counted s.circuits s.circuit s.handler := by
    refine hrun.invariant (fun s => s.Wired ∧ Counted s.circuits s.circuit s.handler)
      ⟨.start, hstart⟩ ?_
    rintro t a u ⟨hw, hn⟩ hnext
    have heff := Server.next_effect hnext
    exact ⟨hw.step heff, hw.counted heff hn⟩
  exact hinv.2

/-- **No slot is leaked**, as long as the last ticket or handler of a circuit does not go without
returning it. -/
theorem slots_not_leaked (hrun : Run (StepKept L) {} as s) (c : ℕ) (hc : c < s.circuit.next)
    (hdead : ¬ s.Live c) : (s.circuit.get c).released = true := by
  have hinv : s.Wired ∧ ∀ c < s.circuit.next, (s.circuit.get c).released = false → s.Live c := by
    refine hrun.invariant
      (fun s => s.Wired ∧ ∀ c < s.circuit.next, (s.circuit.get c).released = false → s.Live c)
      ⟨.start, fun _ hc => absurd hc (Nat.not_lt_zero _)⟩ ?_
    rintro t a u ⟨hw, hlive⟩ ⟨hnext, hkept⟩
    have heff := Server.next_effect hnext
    refine ⟨hw.step heff, fun d hd hrel => ?_⟩
    rcases hw.slotStep heff hd with ⟨hd, hsame, -, hforth⟩ | ⟨hret, -⟩ | ⟨-, hnew⟩
    · exact hforth hkept (hlive d hd (hsame ▸ hrel))
    · exact absurd (hret.symm.trans hrel) (by simp)
    · exact hnew
  by_contra hrel
  exact hdead (hinv.2 c hc (by simpa using hrel))

theorem slots_not_early (hrun : Run (StepCareful L) {} as s) (c : ℕ) (hc : c < s.circuit.next)
    (hlive : s.Live c) : (s.circuit.get c).released = false := by
  have hinv : s.Wired ∧ ∀ c < s.circuit.next, s.Live c → (s.circuit.get c).released = false := by
    refine hrun.invariant
      (fun s => s.Wired ∧ ∀ c < s.circuit.next, s.Live c → (s.circuit.get c).released = false)
      ⟨.start, fun _ hc => absurd hc (Nat.not_lt_zero _)⟩ ?_
    rintro t a u ⟨hw, hrel⟩ ⟨hnext, -, hprompt⟩
    have heff := Server.next_effect hnext
    refine ⟨hw.step heff, fun d hd hlive => ?_⟩
    rcases hw.slotStep heff hd with ⟨hd, hsame, hback, -⟩ | ⟨-, hdead⟩ | ⟨hnew, -⟩
    · exact hsame.trans (hrel d hd (hback hlive))
    · exact absurd hlive (hdead hprompt)
    · exact hnew
  exact hinv.2 c hc hlive

/-- **Slots are not leaked.** In every run of careful steps a circuit with neither a ticket nor a
handler has returned its slot, and `circuits` is the number of circuits that have one or the
other, with the pairings that are still inside `pair`. -/
theorem slots_match_live (hrun : Run (StepCareful L) {} as s) :
    (∀ c < s.circuit.next, ¬ s.Live c → (s.circuit.get c).released = true) ∧
      s.circuits = Nat.count s.Live s.circuit.next +
        Nat.count (fun h => (s.handler.get h).pc = .pairTaken) s.handler.next := by
  have hkept : ∀ c < s.circuit.next, ¬ s.Live c → (s.circuit.get c).released = true :=
    slots_not_leaked (hrun.mono fun _ _ _ h => ⟨h.1, h.2.1⟩)
  refine ⟨hkept, ?_⟩
  have hcount : Nat.count (fun c => (s.circuit.get c).released = false) s.circuit.next =
      Nat.count s.Live s.circuit.next := by
    apply Heap.count_congr
    intro c hc
    constructor
    · intro hrel
      by_contra hdead
      exact absurd ((hkept c hc hdead).symm.trans hrel) (by simp)
    · exact slots_not_early hrun c hc
  rw [circuits_counted (hrun.mono fun _ _ _ h => h.1), hcount]

/-- Two peers are paired and their splice ends; another pair has one ticket left; and a third
claim has a slot. -/
def busyActs : List Act :=
  [.connect [1], .connect [2], .publish 0 [7] true true, .claim 1 [7] true,
    .issue 1 (some (10, 11)),
    .deliver 1 true, .connect [1], .connect [2], .redeem 2 10, .answer 2 true, .redeem 3 11,
    .answer 3 true, .pumpEnd 0, .spliceEnd 3, .wake 2, .publish 0 [8] true true, .claim 1 [8] true,
    .issue 1 (some (12, 13)), .deliver 1 true, .connect [1], .redeem 4 12, .answer 4 true,
    .publish 0 [9] true true, .claim 1 [9] true]

theorem slots_match_live_busy : ∃ s : Server, Run (StepCareful defaultLimits) {} busyActs s ∧
    (s.circuit.next = 2 ∧ ¬ s.Live 0 ∧ s.Live 1 ∧ s.circuits = 2) ∧
    (∀ c < s.circuit.next, ¬ s.Live c → (s.circuit.get c).released = true) ∧
    s.circuits = Nat.count s.Live s.circuit.next +
      Nat.count (fun h => (s.handler.get h).pc = .pairTaken) s.handler.next := by
  obtain ⟨s, hrun, hs⟩ : ∃ s, Run (StepCareful defaultLimits) {} busyActs s ∧
      (s.circuit.next = 2 ∧ ¬ s.Live 0 ∧ s.Live 1 ∧ s.circuits = 2) :=
    exists_run_guarded _ (by decide)
  exact ⟨s, hrun, hs, slots_match_live hrun⟩

/-- Two peers are paired and leave, and neither redeems its ticket before the reaper comes. -/
def unredeemedActs : List Act :=
  [.connect [1], .connect [2], .publish 0 [7] true true, .claim 1 [7] true,
    .issue 1 (some (10, 11)), .deliver 1 true, .quit 0, .quit 1, .tick 300001, .sweep]

/-- **The reaper leaks a slot.** Both tickets are gone and no handler is attached, and the slot
has not been returned. Nobody is left who could do so. -/
theorem swept_slot_leaked :
    ∃ s : Server, Run (ofNext (Server.next defaultLimits)) {} unredeemedActs s ∧
      s.circuit.next = 1 ∧ ¬ s.Live 0 ∧ (s.circuit.get 0).released = false ∧ s.circuits = 1 ∧
      Nat.count s.Live s.circuit.next +
        Nat.count (fun h => (s.handler.get h).pc = .pairTaken) s.handler.next = 0 :=
  exists_run_of_any (fun s : Server => s.circuit.next = 1 ∧ ¬ s.Live 0 ∧
    (s.circuit.get 0).released = false ∧ s.circuits = 1 ∧
    Nat.count s.Live s.circuit.next +
      Nat.count (fun h => (s.handler.get h).pc = .pairTaken) s.handler.next = 0) (by decide)

end Runs

end Heimdall.Relay
