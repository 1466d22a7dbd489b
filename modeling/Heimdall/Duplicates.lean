/-
Duplicate connections between two managers.

Both ends of a connection know it by the same session ID, and `register` keeps the smaller one.
That alone makes the two managers agree: the smallest is never refused, replaced or closed. But
`register` also refuses to replace a connection that was announced to the user, and each side
announces by its own clock. If the sides disagree on whether a connection is announced, each may
close the connection the other one keeps, and in the end there is none (`both_sides_lost`).

They do agree as long as a side refuses a smaller session ID for the sake of an announced
connection only while that connection is announced and in use on the other side too
(`duplicates_converge`): then it stays in use at both ends for good (`Locked`), and until that
happens the smallest connection wins wherever it is registered (`Leads`).
-/
import Heimdall.Manager

set_option autoImplicit false

namespace Heimdall.Sessions

open Heimdall.Peers Heimdall.Runs

/-- Two managers, and the connections each of them has called `register` for. Connection `k` has
the address `k` at both ends. -/
structure Managers where
  mgr : Bool → Manager
  registered : Bool → Finset ℕ

inductive ManagersAct where
  /-- The end of `runHandshake` at one end of a connection. -/
  | register (side : Bool) (k : ℕ)
  | announce (side : Bool) (k : ℕ)
  /-- The other end has closed the connection: `readLoop` fails and drops it. -/
  | deliver (side : Bool) (k : ℕ)

namespace Managers

def conn (d : Managers) (side : Bool) (k : ℕ) : Conn := (d.mgr side).heap.get k

def current (d : Managers) (side : Bool) (k : ℕ) : Option ℕ :=
  (d.mgr side).conns.lookup (d.conn side k).fp

def setSide (d : Managers) (side : Bool) (m : Manager) (registered : Finset ℕ) : Managers :=
  ⟨Function.update d.mgr side m, Function.update d.registered side registered⟩

variable (K : Finset ℕ)

/-- One step, for the connections `K`. A close is delivered to an end that is registered and
still open. -/
def next (d : Managers) : ManagersAct → Option Managers
  | .register side k =>
    if k ∈ K ∧ k ∉ d.registered side then
      some (d.setSide side ((d.mgr side).establish k) (insert k (d.registered side)))
    else none
  | .announce side k =>
    if k ∈ d.registered side then
      some (d.setSide side ((d.mgr side).announce k) (d.registered side))
    else none
  | .deliver side k =>
    if k ∈ d.registered side ∧ (d.conn (!side) k).closed = true ∧
      (d.conn side k).closed = false then
      some (d.setSide side ((d.mgr side).dropConn k) (d.registered side))
    else none

/-- Both managers after the handshakes, before any registration. -/
def start (fp : Bool → GoString) (name : Bool → ℕ → GoString) (sid : ℕ → UInt64) : Managers where
  mgr side := { heap := ⟨fun k => { fp := fp (!side), name := name (!side) k, sessionID := sid k },
    0⟩ }
  registered _ := ∅

/-- Every connection has been registered at both ends and every close has been delivered. -/
def Quiescent (d : Managers) : Prop :=
  ∀ k ∈ K, (∀ side, k ∈ d.registered side) ∧ (d.conn true k).closed = (d.conn false k).closed

instance (d : Managers) : Decidable (d.Quiescent K) :=
  inferInstanceAs (Decidable (∀ k ∈ K, _ ∧ _))

/-- A side refuses a smaller session ID for an announced connection only if that connection is
announced and in use on the other side as well. -/
def Agreed (d : Managers) : ManagersAct → Prop
  | .register side k => ∀ c ∈ d.current side k, (d.conn side c).announced = true →
      (d.conn side k).sessionID < (d.conn side c).sessionID →
      d.current (!side) c = some c ∧ (d.conn (!side) c).announced = true
  | .announce _ _ | .deliver _ _ => True

instance (d : Managers) (a : ManagersAct) : Decidable (d.Agreed a) :=
  match a with
  | .register side k => inferInstanceAs (Decidable (∀ c ∈ d.current side k, _ → _ → _ ∧ _))
  | .announce _ _ | .deliver _ _ => inferInstanceAs (Decidable True)

def StepAgreed (d : Managers) (a : ManagersAct) (d' : Managers) : Prop :=
  d.next K a = some d' ∧ d.Agreed a

end Managers

/-! ## One side -/

section Side

variable {fp : GoString} {sid : ℕ → UInt64} {m : Manager} {c k : ℕ}

/-- Connections that are all to one peer and answer their pings. -/
structure Tame (fp : GoString) (sid : ℕ → UInt64) (heap : Heap Conn) : Prop where
  peer : ∀ k, (heap.get k).fp = fp
  sid_eq : ∀ k, (heap.get k).sessionID = sid k
  answered : ∀ k, (heap.get k).unanswered = 0
  done : ∀ k, (heap.get k).done = true → (heap.get k).closed = true

/-- A manager of such connections; the one in use is open. -/
structure Held (fp : GoString) (sid : ℕ → UInt64) (m : Manager) : Prop where
  tame : Tame fp sid m.heap
  inUse : ∀ c, m.conns.lookup fp = some c → (m.heap.get c).closed = false

theorem Tame.modify {heap : Heap Conn} (h : Tame fp sid heap) (k : ℕ) (f : Conn → Conn)
    (hfp : ∀ x, (f x).fp = x.fp) (hsid : ∀ x, (f x).sessionID = x.sessionID)
    (hans : ∀ x, (f x).unanswered = x.unanswered)
    (hdone : (f (heap.get k)).done = true → (f (heap.get k)).closed = true) :
    Tame fp sid (heap.modify k f) where
  peer j := (heap.get_modify_congr f hfp j).trans (h.peer j)
  sid_eq j := (heap.get_modify_congr f hsid j).trans (h.sid_eq j)
  answered j := (heap.get_modify_congr f hans j).trans (h.answered j)
  done j := by
    by_cases hj : j = k
    · subst hj
      rw [Heap.get_modify_self]
      exact hdone
    · rw [Heap.get_modify_of_ne _ _ hj]
      exact h.done j

theorem Conn.close_fields (c : Conn) : c.close.fp = c.fp ∧ c.close.sessionID = c.sessionID ∧
    c.close.unanswered = c.unanswered := by
  unfold Conn.close
  split_ifs <;> exact ⟨rfl, rfl, rfl⟩

theorem Tame.close {heap : Heap Conn} (h : Tame fp sid heap) (k : ℕ) :
    Tame fp sid (heap.modify k Conn.close) := by
  apply h.modify k Conn.close
  · exact fun x => x.close_fields.1
  · exact fun x => x.close_fields.2.1
  · exact fun x => x.close_fields.2.2
  · unfold Conn.close
    split_ifs with hd
    · exact h.done k
    · exact fun _ => rfl

theorem Held.store (h : Tame fp sid m.heap) (hk : (m.heap.get k).closed = false) :
    Held fp sid (m.store k) ∧ (m.store k).conns.lookup fp = some k := by
  have hlookup : (m.store k).conns.lookup fp = some k := by
    rw [Manager.store, h.peer k, AList.lookup_insert]
  refine ⟨⟨h, fun c hc => ?_⟩, hlookup⟩
  obtain rfl : k = c := Option.some.inj (hlookup.symm.trans hc)
  exact hk

theorem preferNew_eq (h : Tame fp sid m.heap) (old new : ℕ) :
    preferNew (m.heap.get old) (m.heap.get new) = decide (sid new < sid old) := by
  rw [preferNew, if_neg (by simp [h.answered old]), h.sid_eq, h.sid_eq]

/-- **Registering an open connection that is not in use**: it is refused for an announced or
smaller one, or it is in use afterwards and whatever it replaced was neither. -/
theorem Held.establish (h : Held fp sid m) (hk : (m.heap.get k).closed = false)
    (hnew : m.conns.lookup fp ≠ some k) :
    Held fp sid (m.establish k) ∧
      ((∃ old, m.conns.lookup fp = some old ∧
          ((m.heap.get old).announced = true ∨ ¬ sid k < sid old) ∧
          (m.establish k).conns = m.conns ∧
          ∀ j, j ≠ k → (m.establish k).heap.get j = m.heap.get j) ∨
        ((m.establish k).conns.lookup fp = some k ∧
          (∀ old, m.conns.lookup fp = some old →
            (m.heap.get old).announced = false ∧ sid k < sid old) ∧
          ∀ j, m.conns.lookup fp ≠ some j → (m.establish k).heap.get j = m.heap.get j)) := by
  have hcases := m.establish_cases k
  rw [h.tame.peer k] at hcases
  rcases hcases with ⟨old, hold, hwhy, heq⟩ | ⟨hnone, heq⟩ | ⟨old, hold, hann, hpref, heq⟩
  · -- refused: only its own record changes
    have hframe : ∀ j, j ≠ k → (m.establish k).heap.get j = m.heap.get j := by
      intro j hj
      rw [heq]
      exact m.heap.get_modify_of_ne Conn.shut hj
    rw [preferNew_eq h.tame, decide_eq_false_iff_not] at hwhy
    refine ⟨⟨?_, fun c hc => ?_⟩, .inl ⟨old, hold, hwhy.imp_left And.left, by rw [heq], hframe⟩⟩
    · rw [heq]
      exact h.tame.modify k Conn.shut (fun _ => rfl) (fun _ => rfl) (fun _ => rfl) fun _ => rfl
    · rw [heq] at hc
      rw [hframe c fun hck => hnew (hck ▸ hc)]
      exact h.inUse c hc
  · rw [heq]
    obtain ⟨hheld, hlookup⟩ := Held.store h.tame hk
    refine ⟨hheld, .inr ⟨hlookup, fun old hold => ?_, fun _ _ => rfl⟩⟩
    exact absurd (hnone.symm.trans hold) (by simp)
  · -- replaced: the old connection is closed
    have hko : k ≠ old := fun hko => hnew (hko ▸ hold)
    have hopen : ((m.heap.modify old Conn.close).get k).closed = false := by
      rw [Heap.get_modify_of_ne _ _ hko]
      exact hk
    rw [preferNew_eq h.tame, decide_eq_true_eq] at hpref
    rw [heq]
    obtain ⟨hheld, hlookup⟩ :=
      Held.store (m := { m with heap := m.heap.modify old Conn.close }) (h.tame.close old) hopen
    refine ⟨hheld, .inr ⟨hlookup, fun old' hold' => ?_, fun j hj => ?_⟩⟩
    · obtain rfl : old = old' := Option.some.inj (hold.symm.trans hold')
      refine ⟨?_, hpref⟩
      by_contra hc
      exact hann ⟨by simpa using hc, h.tame.answered old⟩
    · exact m.heap.get_modify_of_ne Conn.close fun hjo => hj (hjo ▸ hold)

theorem Held.announce (h : Held fp sid m) (k : ℕ) :
    Held fp sid (m.announce k) ∧ (m.announce k).conns = m.conns ∧
      ∀ j, ((m.announce k).heap.get j).closed = (m.heap.get j).closed ∧
        ((m.heap.get j).announced = true → ((m.announce k).heap.get j).announced = true) := by
  -- nothing, or the flag of `k`
  rcases m.announce_cases k with heq | ⟨-, hconns, hheap⟩
  · rw [heq]
    exact ⟨h, rfl, fun j => ⟨rfl, id⟩⟩
  · have hclosed : ∀ j, ((m.announce k).heap.get j).closed = (m.heap.get j).closed := by
      intro j
      rw [hheap]
      exact m.heap.get_modify_congr Conn.setAnnounced
        (show ∀ x, (Conn.setAnnounced x).closed = x.closed from fun _ => rfl) j
    refine ⟨⟨?_, fun c hc => ?_⟩, hconns, fun j => ⟨hclosed j, fun hj => ?_⟩⟩
    · rw [hheap]
      exact h.tame.modify k Conn.setAnnounced (fun _ => rfl) (fun _ => rfl) (fun _ => rfl)
        (h.tame.done k)
    · rw [hclosed]
      exact h.inUse c (hconns ▸ hc)
    · rw [hheap]
      by_cases hjk : j = k
      · rw [hjk, Heap.get_modify_self]
        rfl
      · rw [Heap.get_modify_of_ne _ _ hjk]
        exact hj

/-- Dropping an open connection touches no other, and takes only it out of use. -/
theorem Held.dropConn (h : Held fp sid m) (hk : (m.heap.get k).closed = false) :
    Held fp sid (m.dropConn k) ∧ (∀ j, j ≠ k → (m.dropConn k).heap.get j = m.heap.get j) ∧
      (∀ c, c ≠ k → m.conns.lookup fp = some c → (m.dropConn k).conns.lookup fp = some c) ∧
      ∀ c, (m.dropConn k).conns.lookup fp = some c → c ≠ k ∧ m.conns.lookup fp = some c := by
  have hdone : (m.heap.get k).done = false := by
    by_contra hc
    exact absurd (h.tame.done k (by simpa using hc)) (by simp [hk])
  obtain ⟨hheap, hconns⟩ := m.dropConn_cases k hdone
  rw [h.tame.peer k] at hconns
  have hframe : ∀ j, j ≠ k → (m.dropConn k).heap.get j = m.heap.get j := by
    intro j hj
    rw [hheap]
    exact m.heap.get_modify_of_ne _ hj
  -- if it was in use, nothing is any more
  have hlookup : ∀ c, (m.dropConn k).conns.lookup fp = some c → c ≠ k ∧
      m.conns.lookup fp = some c := by
    intro c hc
    rw [hconns] at hc
    by_cases hcur : m.conns.lookup fp = some k
    · rw [if_pos hcur, AList.lookup_erase] at hc
      exact absurd hc (by simp)
    · rw [if_neg hcur] at hc
      exact ⟨fun hck => hcur (hck ▸ hc), hc⟩
  refine ⟨⟨?_, fun c hc => ?_⟩, hframe, fun c hck hc => ?_, hlookup⟩
  · rw [hheap]
    exact h.tame.close k
  · obtain ⟨hck, hc'⟩ := hlookup c hc
    rw [hframe c hck]
    exact h.inUse c hc'
  · rw [hconns, if_neg fun hcur => hck (Option.some.inj (hc.symm.trans hcur))]
    exact hc

/-- The invariant of one side, for the connections `R` it has registered: an unregistered one is
open and not in use. -/
structure SideInv (K : Finset ℕ) (fp : GoString) (sid : ℕ → UInt64) (m : Manager) (R : Finset ℕ) :
    Prop extends Held fp sid m where
  fresh : ∀ k, k ∉ R → (m.heap.get k).closed = false
  used : ∀ c, m.conns.lookup fp = some c → c ∈ R
  known : R ⊆ K

/-- The connection `least` is open, and in use once it is registered. -/
def LeadsAt (fp : GoString) (least : ℕ) (m : Manager) (R : Finset ℕ) : Prop :=
  (m.heap.get least).closed = false ∧ (least ∈ R → m.conns.lookup fp = some least)

/-- The connection `c` is in use and announced. -/
def LockedAt (fp : GoString) (c : ℕ) (m : Manager) : Prop :=
  m.conns.lookup fp = some c ∧ (m.heap.get c).announced = true

variable {K R : Finset ℕ} {least : ℕ}

theorem SideInv.not_used (h : SideInv K fp sid m R) (hk : k ∉ R) : m.conns.lookup fp ≠ some k :=
  fun hc => hk (h.used k hc)

theorem SideInv.establish (h : SideInv K fp sid m R) (hkK : k ∈ K) (hk : k ∉ R) :
    SideInv K fp sid (m.establish k) (insert k R) := by
  obtain ⟨hheld, hcases⟩ := h.toHeld.establish (h.fresh k hk) (h.not_used hk)
  refine ⟨hheld, fun j hj => ?_, fun c hc => ?_, Finset.insert_subset hkK h.known⟩
  · obtain ⟨hjk, hjR⟩ : j ≠ k ∧ j ∉ R := by simpa using hj
    rcases hcases with ⟨old, -, -, -, hframe⟩ | ⟨-, -, hframe⟩
    · rw [hframe j hjk]
      exact h.fresh j hjR
    · rw [hframe j (h.not_used hjR)]
      exact h.fresh j hjR
  · rcases hcases with ⟨old, -, -, hconns, -⟩ | ⟨hlookup, -⟩
    · exact Finset.mem_insert_of_mem (h.used c (hconns ▸ hc))
    · rw [Option.some.inj (hc.symm.trans hlookup)]
      exact Finset.mem_insert_self k R

theorem SideInv.announce (h : SideInv K fp sid m R) (k : ℕ) :
    SideInv K fp sid (m.announce k) R := by
  obtain ⟨hheld, hconns, hfields⟩ := h.toHeld.announce k
  refine ⟨hheld, fun j hj => ?_, fun c hc => h.used c (hconns ▸ hc), h.known⟩
  rw [(hfields j).1]
  exact h.fresh j hj

theorem SideInv.dropConn (h : SideInv K fp sid m R) (hkR : k ∈ R)
    (hk : (m.heap.get k).closed = false) : SideInv K fp sid (m.dropConn k) R := by
  obtain ⟨hheld, hframe, -, hlookup⟩ := h.toHeld.dropConn hk
  refine ⟨hheld, fun j hj => ?_, fun c hc => h.used c (hlookup c hc).2, h.known⟩
  rw [hframe j fun hjk => hj (hjk ▸ hkR)]
  exact h.fresh j hj

/-- Under the smaller-session-ID rule the least connection keeps its lead. Only an announced
connection can stand in its way, when it is the least that registers. -/
theorem LeadsAt.establish (hl : LeadsAt fp least m R) (h : SideInv K fp sid m R)
    (hleast : ∀ k ∈ K, k ≠ least → sid least < sid k) (hkK : k ∈ K) (hk : k ∉ R) :
    LeadsAt fp least (m.establish k) (insert k R) ∨
      ∃ c, m.conns.lookup fp = some c ∧ (m.heap.get c).announced = true ∧ sid k < sid c ∧
        LockedAt fp c (m.establish k) := by
  obtain ⟨-, hcases⟩ := h.toHeld.establish (h.fresh k hk) (h.not_used hk)
  by_cases hkl : k = least
  · subst hkl
    rcases hcases with ⟨old, hold, hwhy, hconns, hframe⟩ | ⟨hlookup, -, hframe⟩
    · -- refused: the connection in use is not smaller, so it is announced
      have hok : old ≠ k := fun hc => h.not_used hk (hc ▸ hold)
      have hlt : sid k < sid old := hleast old (h.known (h.used old hold)) hok
      have hann := hwhy.resolve_right (not_not.mpr hlt)
      refine .inr ⟨old, hold, hann, hlt, ?_, ?_⟩
      · rw [hconns]
        exact hold
      · rw [hframe old hok]
        exact hann
    · refine .inl ⟨?_, fun _ => hlookup⟩
      rw [hframe k (h.not_used hk)]
      exact hl.1
  · left
    have hlt : sid least < sid k := hleast k hkK hkl
    rcases hcases with ⟨old, hold, -, hconns, hframe⟩ | ⟨hlookup, hold, hframe⟩
    · refine ⟨?_, fun hmem => ?_⟩
      · rw [hframe least (Ne.symm hkl)]
        exact hl.1
      · rw [hconns]
        exact hl.2 ((Finset.mem_insert.mp hmem).resolve_left (Ne.symm hkl))
    · -- kept: then the least was not in use, so it is not registered yet
      have hnot : m.conns.lookup fp ≠ some least := fun hc =>
        UInt64.lt_asymm hlt (hold least hc).2
      refine ⟨?_, fun hmem => ?_⟩
      · rw [hframe least hnot]
        exact hl.1
      · exact absurd (hl.2 ((Finset.mem_insert.mp hmem).resolve_left (Ne.symm hkl))) hnot

theorem LockedAt.establish (hc : LockedAt fp c m) (h : SideInv K fp sid m R) (hk : k ∉ R) :
    LockedAt fp c (m.establish k) := by
  obtain ⟨-, ⟨old, -, -, hconns, hframe⟩ | ⟨-, hold, -⟩⟩ :=
    h.toHeld.establish (h.fresh k hk) (h.not_used hk)
  · refine ⟨hconns ▸ hc.1, ?_⟩
    rw [hframe c fun hck => h.not_used hk (hck ▸ hc.1)]
    exact hc.2
  · exact absurd (hold c hc.1).1 (by simp [hc.2])

theorem LeadsAt.announce (hl : LeadsAt fp least m R) (h : SideInv K fp sid m R) (k : ℕ) :
    LeadsAt fp least (m.announce k) R := by
  obtain ⟨-, hconns, hfields⟩ := h.toHeld.announce k
  refine ⟨?_, fun hmem => ?_⟩
  · rw [(hfields least).1]
    exact hl.1
  · rw [hconns]
    exact hl.2 hmem

theorem LockedAt.announce (hc : LockedAt fp c m) (h : SideInv K fp sid m R) (k : ℕ) :
    LockedAt fp c (m.announce k) := by
  obtain ⟨-, hconns, hfields⟩ := h.toHeld.announce k
  exact ⟨hconns ▸ hc.1, (hfields c).2 hc.2⟩

theorem LeadsAt.dropConn (hl : LeadsAt fp least m R) (h : SideInv K fp sid m R)
    (hk : (m.heap.get k).closed = false) (hkl : least ≠ k) : LeadsAt fp least (m.dropConn k) R := by
  obtain ⟨-, hframe, hkept, -⟩ := h.toHeld.dropConn hk
  refine ⟨?_, fun hmem => hkept least hkl (hl.2 hmem)⟩
  rw [hframe least hkl]
  exact hl.1

theorem LockedAt.dropConn (hc : LockedAt fp c m) (h : SideInv K fp sid m R)
    (hk : (m.heap.get k).closed = false) (hck : c ≠ k) : LockedAt fp c (m.dropConn k) := by
  obtain ⟨-, hframe, hkept, -⟩ := h.toHeld.dropConn hk
  refine ⟨hkept c hck hc.1, ?_⟩
  rw [hframe c hck]
  exact hc.2

end Side

/-! ## Both sides -/

namespace Managers

variable {K : Finset ℕ} {fp : Bool → GoString} {sid : ℕ → UInt64} {d d' : Managers} {least c : ℕ}

/-- Until a side refuses the least connection it leads on both sides; from then on the
connection it was refused for stays in use. -/
def Resolved (fp : Bool → GoString) (least : ℕ) (d : Managers) : Prop :=
  (∀ side, LeadsAt (fp (!side)) least (d.mgr side) (d.registered side)) ∨
    ∃ c, ∀ side, LockedAt (fp (!side)) c (d.mgr side)

structure Inv (K : Finset ℕ) (fp : Bool → GoString) (sid : ℕ → UInt64) (least : ℕ) (d : Managers) :
    Prop where
  sides : ∀ side, SideInv K (fp (!side)) sid (d.mgr side) (d.registered side)
  resolved : Resolved fp least d

theorem forall_setSide {P : Bool → Manager → Finset ℕ → Prop} (d : Managers) (side : Bool)
    {m : Manager} {R : Finset ℕ} (hside : P side m R)
    (hother : ∀ s, s ≠ side → P s (d.mgr s) (d.registered s)) (s : Bool) :
    P s ((d.setSide side m R).mgr s) ((d.setSide side m R).registered s) := by
  by_cases hs : s = side
  · subst hs
    simp only [setSide, Function.update_self]
    exact hside
  · simp only [setSide, Function.update_of_ne hs]
    exact hother s hs

theorem Resolved.setSide (h : Resolved fp least d) (side : Bool) {m : Manager} {R : Finset ℕ}
    (hleads : LeadsAt (fp (!side)) least (d.mgr side) (d.registered side) →
      LeadsAt (fp (!side)) least m R)
    (hlocked : ∀ c, (∀ s, LockedAt (fp (!s)) c (d.mgr s)) → LockedAt (fp (!side)) c m) :
    Resolved fp least (d.setSide side m R) := by
  rcases h with hl | ⟨c, hc⟩
  · exact .inl (forall_setSide (P := fun s m R => LeadsAt (fp (!s)) least m R) d side
      (hleads (hl side)) fun s _ => hl s)
  · exact .inr ⟨c, forall_setSide (P := fun s m _ => LockedAt (fp (!s)) c m) d side
      (hlocked c hc) fun s _ => hc s⟩

/-- **Every agreed step keeps the invariant.** The only step that can turn the lead into a lock is
a refusal, and an agreed one finds the other side locked already. -/
theorem Inv.step (h : Inv K fp sid least d) (hleast : ∀ k ∈ K, k ≠ least → sid least < sid k)
    {a : ManagersAct} (hs : d.StepAgreed K a d') : Inv K fp sid least d' := by
  obtain ⟨hnext, hagreed⟩ := hs
  rcases a with ⟨side, k⟩ | ⟨side, k⟩ | ⟨side, k⟩
  · rw [next] at hnext
    split_ifs at hnext with hk
    obtain rfl := Option.some.inj hnext
    have hside := h.sides side
    refine ⟨forall_setSide (P := fun s m R => SideInv K (fp (!s)) sid m R) d side
      (hside.establish hk.1 hk.2) fun s _ => h.sides s, ?_⟩
    rcases h.resolved with hl | ⟨c, hc⟩
    · rcases (hl side).establish hside hleast hk.1 hk.2 with hlead | ⟨c, hcur, hann, hlt, hlock⟩
      · exact .inl (forall_setSide (P := fun s m R => LeadsAt (fp (!s)) least m R) d side hlead
          fun s _ => hl s)
      · -- the one deviation from the rule: the condition makes it a lock on both sides
        have hcur' : d.current side k = some c := by
          rw [current, conn, hside.tame.peer]
          exact hcur
        have hlt' : (d.conn side k).sessionID < (d.conn side c).sessionID := by
          rw [conn, conn, hside.tame.sid_eq, hside.tame.sid_eq]
          exact hlt
        obtain ⟨hother, hann'⟩ := hagreed c hcur' hann hlt'
        rw [current, conn, (h.sides (!side)).tame.peer] at hother
        refine .inr ⟨c, forall_setSide (P := fun s m _ => LockedAt (fp (!s)) c m) d side hlock ?_⟩
        intro s hsne
        obtain rfl : s = !side := by
          revert hsne
          rcases s <;> rcases side <;> decide
        exact ⟨hother, hann'⟩
    · exact .inr ⟨c, forall_setSide (P := fun s m _ => LockedAt (fp (!s)) c m) d side
        ((hc side).establish hside hk.2) fun s _ => hc s⟩
  · rw [next] at hnext
    split_ifs at hnext with hk
    obtain rfl := Option.some.inj hnext
    have hside := h.sides side
    exact ⟨forall_setSide (P := fun s m R => SideInv K (fp (!s)) sid m R) d side (hside.announce k)
        fun s _ => h.sides s,
      h.resolved.setSide side (fun hl => hl.announce hside k) fun c hc =>
        (hc side).announce hside k⟩
  · rw [next] at hnext
    split_ifs at hnext with hk
    obtain rfl := Option.some.inj hnext
    obtain ⟨hkR, hgone, hopen⟩ := hk
    have hside := h.sides side
    refine ⟨forall_setSide (P := fun s m R => SideInv K (fp (!s)) sid m R) d side
      (hside.dropConn hkR hopen) fun s _ => h.sides s, ?_⟩
    -- the other end has closed `k`, and it never closes the connection that matters
    rcases h.resolved with hl | ⟨c, hc⟩
    · have hkl : least ≠ k := by
        rintro rfl
        exact absurd (hgone.symm.trans (hl (!side)).1) (by simp)
      exact .inl (forall_setSide (P := fun s m R => LeadsAt (fp (!s)) least m R) d side
        ((hl side).dropConn hside hopen hkl) fun s _ => hl s)
    · have hck : c ≠ k := by
        rintro rfl
        exact absurd (hgone.symm.trans ((h.sides (!side)).inUse c (hc (!side)).1)) (by simp)
      exact .inr ⟨c, forall_setSide (P := fun s m _ => LockedAt (fp (!s)) c m) d side
        ((hc side).dropConn hside hopen hck) fun s _ => hc s⟩

/-- Nothing is registered, so the least connection leads by default. -/
theorem Inv.start (fp : Bool → GoString) (name : Bool → ℕ → GoString) (sid : ℕ → UInt64)
    (least : ℕ) : Inv K fp sid least (start fp name sid) where
  sides side :=
    { tame := ⟨fun _ => rfl, fun _ => rfl, fun _ => rfl, fun _ hd =>
      absurd hd (by simp [Managers.start])⟩
      inUse := fun c hc => absurd hc (by simp [Managers.start])
      fresh := fun _ _ => rfl
      used := fun c hc => absurd hc (by simp [Managers.start])
      known := Finset.empty_subset K }
  resolved := .inl fun side => ⟨rfl, fun hmem => absurd hmem (Finset.notMem_empty least)⟩

end Managers

/-! ## Convergence -/

section Convergence

variable {K : Finset ℕ} {sid : ℕ → UInt64}

theorem exists_least (hK : K.Nonempty) (hinj : Set.InjOn sid K) :
    ∃ least ∈ K, ∀ k ∈ K, k ≠ least → sid least < sid k := by
  obtain ⟨least, hmem, hmin⟩ := K.exists_min_image (fun k => (sid k).toNat) hK
  refine ⟨least, hmem, fun k hk hne => UInt64.lt_iff_toNat_lt.mpr ?_⟩
  refine lt_of_le_of_ne (hmin k hk) fun heq => hne ?_
  exact (hinj hmem hk (UInt64.toNat_inj.mp heq)).symm

/-- **Duplicates converge.** In every run in which a side refuses a smaller session ID for an
announced connection only while that connection is announced and in use on the other side too:
once all connections are registered at both ends and every close is delivered, both sides hold
the same connection. -/
theorem duplicates_converge (hK : K.Nonempty) (hinj : Set.InjOn sid K) {fp : Bool → GoString}
    {name : Bool → ℕ → GoString} {acts : List ManagersAct} {d : Managers}
    (hrun : Run (Managers.StepAgreed K) (Managers.start fp name sid) acts d)
    (hq : d.Quiescent K) :
    ∃ k ∈ K, ∀ side, (d.mgr side).conns.lookup (fp (!side)) = some k := by
  obtain ⟨least, hmem, hleast⟩ := exists_least hK hinj
  have h : Managers.Inv K fp sid least d :=
    hrun.invariant _ (Managers.Inv.start fp name sid least) fun _ _ _ hi hs => hi.step hleast hs
  rcases h.resolved with hl | ⟨c, hc⟩
  · exact ⟨least, hmem, fun side => (hl side).2 ((hq least hmem).1 side)⟩
  · have hcR := (h.sides true).used c (hc true).1
    exact ⟨c, (h.sides true).known hcR, fun side => (hc side).1⟩

end Convergence

/-- Connection 0 has the session ID 2 and connection 1 the session ID 1. -/
def twoConns : Managers :=
  Managers.start (fun side => [if side then 65 else 66]) (fun _ _ => [112])
    fun k => if k = 0 then 2 else 1

theorem twoConns_injOn : Set.InjOn (fun k => if k = 0 then (2 : UInt64) else 1)
    (({0, 1} : Finset ℕ) : Set ℕ) := by
  intro a ha b hb hab
  simp only [Finset.coe_insert, Finset.coe_singleton, Set.mem_insert_iff,
    Set.mem_singleton_iff] at ha hb
  rcases ha with rfl | rfl <;> rcases hb with rfl | rfl <;>
    first | rfl | exact absurd hab (by decide)

/-- The two sides settle on connection 1, although one of them knew connection 0 first. -/
def settledActs : List ManagersAct :=
  [.register true 0, .register true 1, .register false 1, .register false 0]

/-- One side announces connection 0, and the other replaces it by connection 1. -/
def crossedActs : List ManagersAct :=
  [.register true 0, .announce true 0, .register false 0, .register false 1, .register true 1,
    .deliver true 0, .deliver false 1]

/-- The theorem where the two sides register in opposite orders. -/
theorem duplicates_converge_settled :
    ∃ d : Managers, Run (Managers.StepAgreed {0, 1}) twoConns settledActs d ∧ d.Quiescent {0, 1} ∧
      ∃ k ∈ ({0, 1} : Finset ℕ), ∀ side : Bool,
        (d.mgr side).conns.lookup [if (!side) then 65 else 66] = some k := by
  obtain ⟨d, hrun, hq⟩ : ∃ d, Run (Managers.StepAgreed {0, 1}) twoConns settledActs d ∧
      d.Quiescent {0, 1} := exists_run_guarded _ (by decide)
  exact ⟨d, hrun, hq, duplicates_converge ⟨0, by decide⟩ twoConns_injOn hrun hq⟩

/-- **Both sides lose their connection.** Side `true` announces connection 0 and so refuses
connection 1. Side `false` has not announced connection 0 and replaces it by connection 1. Each
of them closes what the other one keeps. -/
theorem both_sides_lost :
    ∃ d : Managers, Run (ofNext (Managers.next {0, 1})) twoConns crossedActs d ∧
      d.Quiescent {0, 1} ∧
      ∀ side : Bool, (d.mgr side).conns.lookup [if (!side) then 65 else 66] = none :=
  exists_run_of_any (fun d : Managers => d.Quiescent {0, 1} ∧
    ∀ side : Bool, (d.mgr side).conns.lookup [if (!side) then 65 else 66] = none) (by decide)

end Heimdall.Sessions
