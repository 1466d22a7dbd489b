/-
The settle window.

Before a connection is announced, the ones that race for the same peer are told apart by their
session ID alone: `register` keeps the smaller one and closes or refuses the other. So whatever the
order in which they arrive, the smallest is in use when all have arrived, and it has not been
touched; of every other one, `register` has disposed exactly once (`smallest_survives`).
-/
import Heimdall.Manager
import Heimdall.Names

set_option autoImplicit false

namespace Heimdall.Sessions

open Heimdall.Peers

/-- What a registration has done: which connection it was for, whether it was refused, and for
which connections `once` has run. -/
structure Registration where
  conn : ℕ
  refused : Bool
  closed : ℕ → Bool

/-- The registration of the record `x`, told by the manager before and after it. -/
def Manager.registration (m : Manager) (x : Conn) : Registration :=
  let before : Manager := { m with heap := m.heap.alloc x }
  let after := before.register m.heap.next
  { conn := m.heap.next
    refused := !after.2
    closed := fun d => !(before.heap.get d).done && (after.1.heap.get d).done }

/-- A manager with the registrations it has seen. -/
structure Settling where
  mgr : Manager
  log : List Registration := []

namespace Settling

def arrive (s : Settling) (x : Conn) : Settling :=
  { mgr := s.mgr.welcome x, log := s.log ++ [s.mgr.registration x] }

/-- How often a connection was refused or closed. -/
def disposed (s : Settling) (d : ℕ) : ℕ :=
  (s.log.countP fun r => r.conn = d && r.refused) + s.log.countP fun r => r.closed d

end Settling

def settle (m : Manager) (xs : List Conn) : Settling := xs.foldl Settling.arrive { mgr := m }

/-- A connection to `fp` as `runHandshake` makes it: open, not announced, and without pings. -/
structure Conn.Fresh (fp : GoString) (x : Conn) : Prop where
  fp : x.fp = fp
  announced : x.announced = false
  unanswered : x.unanswered = 0
  done : x.done = false
  closed : x.closed = false

namespace Manager

variable {m : Manager} {fp : GoString} {x y : Conn} {old : ℕ}

/-- `x` was registered, refused or not, and `old` was closed for it, if anything was. -/
def Did (m : Manager) (x : Conn) (refused : Bool) (closed : Option ℕ) : Prop :=
  (m.registration x).conn = m.heap.next ∧ (m.registration x).refused = refused ∧
    ∀ d, (m.registration x).closed d = decide (closed = some d)

theorem welcome_first (hx : x.Fresh fp) (hfree : m.conns.lookup fp = none) :
    m.Did x false none ∧ (m.welcome x).conns.lookup fp = some m.heap.next ∧
      (m.welcome x).heap = m.heap.alloc x := by
  have hreg : ({ m with heap := m.heap.alloc x } : Manager).register m.heap.next
      = (({ m with heap := m.heap.alloc x } : Manager).store m.heap.next, true) := by
    have hlookup : m.conns.lookup ((m.heap.alloc x).get m.heap.next).fp = none := by
      rw [Heap.get_alloc_next, hx.fp, hfree]
    simp only [register, hlookup]
  refine ⟨⟨rfl, ?_, fun d => ?_⟩, ?_, ?_⟩
  · simp only [registration, hreg, Bool.not_true]
  · simp only [registration, hreg, store]
    simp
  · simp only [welcome, establish, hreg, store]
    rw [Heap.get_alloc_next, hx.fp, AList.lookup_insert]
  · simp only [welcome, establish, hreg, store]

theorem lookup_welcome (hx : x.Fresh fp) (hold : m.conns.lookup fp = some old) :
    m.conns.lookup ((m.heap.alloc x).get m.heap.next).fp = some old := by
  rw [Heap.get_alloc_next, hx.fp, hold]

/-- A later one with a smaller session ID takes the place of the one in use, which is closed.
Neither has been announced nor has an unanswered ping, so the session IDs alone decide. -/
theorem welcome_smaller (hx : x.Fresh fp) (hold : m.conns.lookup fp = some old)
    (hlt : old < m.heap.next) (hy : (m.heap.get old).Fresh fp)
    (hsid : x.sessionID < (m.heap.get old).sessionID) :
    m.Did x false (some old) ∧ (m.welcome x).conns.lookup fp = some m.heap.next ∧
      (m.welcome x).heap = (m.heap.alloc x).modify old Conn.close := by
  have hget : (m.heap.alloc x).get old = m.heap.get old := m.heap.get_alloc_of_lt x hlt
  -- `register` finds `old` under the fingerprint, and `preferNew` compares the session IDs
  have hreg : ({ m with heap := m.heap.alloc x } : Manager).register m.heap.next
      = (({ m with heap := (m.heap.alloc x).modify old Conn.close } : Manager).store m.heap.next,
        true) := by
    simp only [register, lookup_welcome hx hold, Heap.get_alloc_next, hget, hy.announced, preferNew,
      hy.unanswered, hsid]
    simp
  refine ⟨⟨rfl, ?_, fun d => ?_⟩, ?_, ?_⟩
  · simp only [registration, hreg, Bool.not_true]
  · simp only [registration, hreg, store]
    by_cases hd : d = old
    · subst hd
      simp [hget, Conn.close, hy.done]
    · simp [Heap.get_modify_of_ne _ _ hd, Ne.symm hd]
  · simp only [welcome, establish, hreg, store]
    rw [Heap.get_modify_of_ne _ _ hlt.ne', Heap.get_alloc_next, hx.fp, AList.lookup_insert]
  · simp only [welcome, establish, hreg, store]

theorem welcome_larger (hx : x.Fresh fp) (hold : m.conns.lookup fp = some old)
    (hlt : old < m.heap.next) (hy : (m.heap.get old).Fresh fp)
    (hsid : ¬x.sessionID < (m.heap.get old).sessionID) :
    m.Did x true none ∧ (m.welcome x).conns.lookup fp = some old ∧
      (m.welcome x).heap = (m.heap.alloc x).modify m.heap.next Conn.shut := by
  have hget : (m.heap.alloc x).get old = m.heap.get old := m.heap.get_alloc_of_lt x hlt
  -- as above, with the comparison the other way round
  have hreg : ({ m with heap := m.heap.alloc x } : Manager).register m.heap.next
      = ({ m with heap := m.heap.alloc x }, false) := by
    simp only [register, lookup_welcome hx hold, Heap.get_alloc_next, hget, hy.announced, preferNew,
      hy.unanswered, hsid]
    simp
  refine ⟨⟨rfl, ?_, fun d => ?_⟩, ?_, ?_⟩
  · simp only [registration, hreg, Bool.not_false]
  · simp only [registration, hreg]
    simp
  · simp only [welcome, establish, hreg, hold]
  · simp only [welcome, establish, hreg]

end Manager

/-! ## All of them -/

namespace Settling

variable {m : Manager} {fp : GoString} {s : Settling} {x : Conn} {xs : List Conn}

theorem disposed_arrive {refused : Bool} {closed : Option ℕ} (h : s.mgr.Did x refused closed)
    (d : ℕ) : (s.arrive x).disposed d = s.disposed d +
      ((if d = s.mgr.heap.next ∧ refused = true then 1 else 0) + if closed = some d then 1
        else 0) := by
  obtain ⟨hconn, hrefused, hclosed⟩ := h
  simp only [arrive, disposed, List.countP_append, List.countP_singleton, hconn, hrefused, hclosed,
    Bool.and_eq_true, decide_eq_true_eq, eq_comm (a := s.mgr.heap.next)]
  omega

/-- After the connections `xs` have arrived at a manager that had none to the peer: the `i`-th is
in use and as it was, no other one has a smaller session ID, and of every other one `register` has
disposed once. -/
structure Settled (m : Manager) (fp : GoString) (xs : List Conn) (s : Settling) (i : ℕ) (x : Conn) :
    Prop where
  next : s.mgr.heap.next = m.heap.next + xs.length
  mem : xs[i]? = some x
  least : ∀ y ∈ xs, x.sessionID ≤ y.sessionID
  current : s.mgr.conns.lookup fp = some (m.heap.next + i)
  record : s.mgr.heap.get (m.heap.next + i) = x
  kept : s.disposed (m.heap.next + i) = 0
  others : ∀ j < xs.length, j ≠ i → s.disposed (m.heap.next + j) = 1
  later : ∀ d, s.mgr.heap.next ≤ d → s.disposed d = 0

/-- The first one is in use, and `register` has disposed of nothing. -/
theorem Settled.first (hx : x.Fresh fp) (hfree : m.conns.lookup fp = none) :
    Settled m fp [x] (settle m [x]) 0 x := by
  obtain ⟨hdid, hcurrent, hheap⟩ := m.welcome_first hx hfree
  have hdisposed : ∀ d, (settle m [x]).disposed d = 0 := by
    intro d
    show (({ mgr := m } : Settling).arrive x).disposed d = 0
    rw [disposed_arrive hdid]
    simp [disposed]
  refine ⟨?_, rfl, by simp, hcurrent, ?_, hdisposed _, ?_, fun d _ => hdisposed d⟩
  · show (m.welcome x).heap.next = m.heap.next + 1
    rw [hheap]
    rfl
  · show (m.welcome x).heap.get m.heap.next = x
    rw [hheap, Heap.get_alloc_next]
  · intro j hj hne
    simp only [List.length_singleton] at hj
    omega

section Arrive

variable {i : ℕ} {y : Conn}

theorem Settled.bound (h : Settled m fp xs s i y) : m.heap.next + i < s.mgr.heap.next := by
  have hi : i < xs.length := (List.getElem?_eq_some_iff.mp h.mem).1
  have hnext := h.next
  omega

/-- A smaller session ID arrives: the connection in use is closed, for the first time, and the new
one is smaller than all before it. -/
theorem Settled.replaced (h : Settled m fp xs s i y) (hy : y.Fresh fp) (hx : x.Fresh fp)
    (hsid : x.sessionID < y.sessionID) :
    Settled m fp (xs ++ [x]) (s.arrive x) xs.length x := by
  have hlt := h.bound
  have hnext := h.next
  obtain ⟨hdid, hcurrent, hheap⟩ := s.mgr.welcome_smaller hx h.current hlt
    (by rw [h.record]; exact hy) (by rw [h.record]; exact hsid)
  have hdisposed : ∀ d, (s.arrive x).disposed d
      = s.disposed d + if m.heap.next + i = d then 1 else 0 := by
    intro d
    simp [disposed_arrive hdid]
  have hgrown : (s.arrive x).mgr.heap.next = s.mgr.heap.next + 1 := by
    show (s.mgr.welcome x).heap.next = _
    rw [hheap]
    rfl
  refine ⟨?_, by simp, fun z hz => ?_, ?_, ?_, ?_, fun j hj hne => ?_, fun d hd => ?_⟩
  · rw [hgrown, List.length_append, List.length_singleton]
    omega
  · rcases List.mem_append.mp hz with hz | hz
    · exact UInt64.le_trans (UInt64.le_of_lt hsid) (h.least z hz)
    · rw [List.mem_singleton.mp hz]
      exact UInt64.le_refl _
  · show (s.mgr.welcome x).conns.lookup fp = some (m.heap.next + xs.length)
    rw [hcurrent, hnext]
  · show (s.mgr.welcome x).heap.get (m.heap.next + xs.length) = x
    rw [← hnext, hheap, Heap.get_modify_of_ne _ _ hlt.ne', Heap.get_alloc_next]
  · rw [hdisposed, h.later _ hnext.le, if_neg (by omega)]
  · rw [hdisposed]
    simp only [List.length_append, List.length_singleton] at hj
    -- the one that was in use had not been disposed of; all others had, once
    by_cases hji : j = i
    · subst hji
      rw [h.kept, if_pos rfl]
    · rw [h.others j (by omega) hji, if_neg (by omega)]
  · rw [hdisposed, h.later d (by omega), if_neg (by omega)]

/-- Any other one is refused, and that is the first thing that happens to it. -/
theorem Settled.refused (h : Settled m fp xs s i y) (hy : y.Fresh fp) (hx : x.Fresh fp)
    (hsid : ¬x.sessionID < y.sessionID) : Settled m fp (xs ++ [x]) (s.arrive x) i y := by
  have hlt := h.bound
  have hnext := h.next
  obtain ⟨hdid, hcurrent, hheap⟩ := s.mgr.welcome_larger hx h.current hlt
    (by rw [h.record]; exact hy) (by rw [h.record]; exact hsid)
  have hdisposed : ∀ d, (s.arrive x).disposed d
      = s.disposed d + if d = s.mgr.heap.next then 1 else 0 := by
    intro d
    simp [disposed_arrive hdid]
  have hgrown : (s.arrive x).mgr.heap.next = s.mgr.heap.next + 1 := by
    show (s.mgr.welcome x).heap.next = _
    rw [hheap]
    rfl
  refine ⟨?_, ?_, fun z hz => ?_, hcurrent, ?_, ?_, fun j hj hne => ?_, fun d hd => ?_⟩
  · rw [hgrown, List.length_append, List.length_singleton]
    omega
  · rw [List.getElem?_append_left (by omega)]
    exact h.mem
  · rcases List.mem_append.mp hz with hz | hz
    · exact h.least z hz
    · rw [List.mem_singleton.mp hz]
      exact UInt64.not_lt.mp hsid
  · show (s.mgr.welcome x).heap.get (m.heap.next + i) = y
    rw [hheap, Heap.get_modify_of_ne _ _ hlt.ne, Heap.get_alloc_of_lt _ _ hlt, h.record]
  · rw [hdisposed, h.kept, if_neg (by omega)]
  · rw [hdisposed]
    simp only [List.length_append, List.length_singleton] at hj
    -- the new one is disposed of now; the others were before
    by_cases hlast : j = xs.length
    · rw [hlast, h.later _ hnext.le, if_pos hnext.symm]
    · rw [h.others j (by omega) hne, if_neg (by omega)]
  · rw [hdisposed, h.later d (by omega), if_neg (by omega)]

end Arrive

theorem exists_settled (hfree : m.conns.lookup fp = none) (hne : xs ≠ [])
    (hxs : ∀ x ∈ xs, x.Fresh fp) : ∃ i x, Settled m fp xs (settle m xs) i x := by
  induction xs using List.reverseRecOn with
  | nil => exact absurd rfl hne
  | append_singleton xs x ih =>
    have hx : x.Fresh fp := hxs x (by simp)
    by_cases hnil : xs = []
    · subst hnil
      exact ⟨0, x, .first hx hfree⟩
    · obtain ⟨i, y, h⟩ := ih hnil fun z hz => hxs z (by simp [hz])
      have hy : y.Fresh fp := hxs y (by simp [List.mem_of_getElem? h.mem])
      rw [settle, List.foldl_append]
      -- the last arrival meets the smallest of the others
      by_cases hsid : x.sessionID < y.sessionID
      · exact ⟨xs.length, x, h.replaced hy hx hsid⟩
      · exact ⟨i, y, h.refused hy hx hsid⟩

end Settling

/-- **The survivor does not depend on the order of arrival.** Of connections to one peer with
different session IDs, registered one after another at a manager that has no other one to that
peer, the one with the smallest session ID is in use and untouched, and every other one was refused
or closed exactly once. -/
theorem smallest_survives {m : Manager} {fp : GoString} (hfree : m.conns.lookup fp = none)
    {xs : List Conn} (hne : xs ≠ []) (hxs : ∀ x ∈ xs, x.Fresh fp)
    (hsids : (xs.map Conn.sessionID).Nodup) :
    ∃ i x, xs[i]? = some x ∧
      (∀ j y, xs[j]? = some y → j ≠ i → x.sessionID < y.sessionID) ∧
      (settle m xs).mgr.conns.lookup fp = some (m.heap.next + i) ∧
      (settle m xs).mgr.heap.get (m.heap.next + i) = x ∧
      (settle m xs).disposed (m.heap.next + i) = 0 ∧
      ∀ j < xs.length, j ≠ i → (settle m xs).disposed (m.heap.next + j) = 1 := by
  obtain ⟨i, x, h⟩ := Settling.exists_settled hfree hne hxs
  refine ⟨i, x, h.mem, fun j y hy hji => ?_, h.current, h.record, h.kept, h.others⟩
  have hle := h.least y (List.mem_of_getElem? hy)
  refine UInt64.lt_of_le_of_ne hle fun heq => hji ?_
  -- two places with one session ID are one place
  have hj : j < (xs.map Conn.sessionID).length := by
    rw [List.length_map]
    exact (List.getElem?_eq_some_iff.mp hy).1
  refine (List.getElem?_inj hj hsids).mp ?_
  rw [List.getElem?_map, List.getElem?_map, h.mem, hy, Option.map_some, Option.map_some, heq]

def threePaths : List Conn :=
  [newConn [1] [97] 5 .unverified .direct, newConn [1] [97] 3 .unverified .relay,
    newConn [1] [97] 9 .unverified .punched]

theorem fresh_threePaths : ∀ x ∈ threePaths, x.Fresh [1] := by
  intro x hx
  simp only [threePaths, List.mem_cons, List.not_mem_nil, or_false] at hx
  rcases hx with rfl | rfl | rfl <;> exact ⟨rfl, rfl, rfl, rfl, rfl⟩

theorem smallest_survives_three :
    ∃ i x, threePaths[i]? = some x ∧ x.sessionID = 3 ∧
      (settle ({} : Node).mgr threePaths).mgr.conns.lookup [1] = some i ∧
      (settle ({} : Node).mgr threePaths).disposed i = 0 ∧
      ∀ j < 3, j ≠ i → (settle ({} : Node).mgr threePaths).disposed j = 1 := by
  have hfree : ({} : Node).mgr.conns.lookup [1] = none := rfl
  obtain ⟨i, x, hx, hleast, hcurrent, -, hkept, hothers⟩ :=
    smallest_survives hfree (by decide) fresh_threePaths (by decide)
  simp only [Heap.next_empty, zero_add] at hcurrent hkept hothers
  have hi : (settle ({} : Node).mgr threePaths).mgr.conns.lookup [1] = some 1 := by decide +kernel
  obtain rfl := Option.some.inj (hi.symm.trans hcurrent)
  obtain rfl := Option.some.inj (show some (newConn [1] [97] 3 .unverified .relay) = some x from hx)
  exact ⟨1, _, rfl, rfl, hi, hkept, hothers⟩

end Heimdall.Sessions
