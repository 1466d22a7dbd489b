/-
The connections of a manager, `internal/session/manager.go`.

A connection is a record that several goroutines hold a pointer to, so the manager has a heap of
them and two maps into it, by fingerprint and by display name. Each operation below runs under
the manager's mutex, or touches one atomic field, and is one step. A record exists once its
handshake is done; `establish` is the end of `runHandshake`, which registers it or closes it.
-/
import Heimdall.Heap
import Heimdall.Peers

set_option autoImplicit false

namespace Heimdall.Sessions

open Heimdall.Peers

/-- How a connection came about. -/
inductive Path where
  | direct
  | punched
  | relay
  deriving DecidableEq

/-- The fields of `conn` that the operations below read. `done` is the channel that `once`
closes; `closed` says that the session and the transport have been closed. -/
structure Conn where
  fp : GoString
  name : GoString
  sessionID : UInt64
  trust : TrustLevel := .unknown
  path : Path := .direct
  unanswered : ℕ := 0
  announced : Bool := false
  done : Bool := false
  closed : Bool := false

/-- The events about a connection. -/
inductive Event where
  | peerConnected (peer fingerprint : GoString) (trust : TrustLevel) (path : Path)
  | peerDisconnected (peer fingerprint : GoString) (trust : TrustLevel) (path : Path)
  deriving DecidableEq

/-- `Manager`: its connections and what it has handed to `emit`. -/
structure Manager where
  heap : Heap Conn
  conns : AList fun _ : GoString => ℕ := ∅
  byName : AList fun _ : GoString => ℕ := ∅
  events : List Event := []

def Conn.close (c : Conn) : Conn := if c.done then c else { c with done := true, closed := true }

/-- `c.sess.Close()` and `fio.Close()`, without `once`. -/
def Conn.shut (c : Conn) : Conn := { c with closed := true }

/-- `c.announced.CompareAndSwap(false, true)`, when it succeeds. -/
def Conn.setAnnounced (c : Conn) : Conn := { c with announced := true }

def preferNew (old new : Conn) : Bool :=
  if old.unanswered > 0 then true else decide (new.sessionID < old.sessionID)

namespace Manager

def store (m : Manager) (c : ℕ) : Manager :=
  { m with
    conns := m.conns.insert (m.heap.get c).fp c
    byName := m.byName.insert (m.heap.get c).name c }

/-- `register`, with whether `c` was kept. -/
def register (m : Manager) (c : ℕ) : Manager × Bool :=
  match m.conns.lookup (m.heap.get c).fp with
  | none => (m.store c, true)
  | some old =>
    if (m.heap.get old).announced ∧ (m.heap.get old).unanswered = 0 then (m, false)
    else if preferNew (m.heap.get old) (m.heap.get c) = false then (m, false)
    else ({ m with heap := m.heap.modify old Conn.close }.store c, true)

/-- The end of `runHandshake`: a connection that is not kept is closed. -/
def establish (m : Manager) (c : ℕ) : Manager :=
  match m.register c with
  | (m', true) => m'
  | (m', false) => { m' with heap := m'.heap.modify c Conn.shut }

def unregister (m : Manager) (c : ℕ) : Manager :=
  if m.conns.lookup (m.heap.get c).fp = some c then
    { m with
      conns := m.conns.erase (m.heap.get c).fp
      byName := if m.byName.lookup (m.heap.get c).name = some c
        then m.byName.erase (m.heap.get c).name
        else m.byName }
  else m

def emit (m : Manager) (e : Event) : Manager := { m with events := m.events ++ [e] }

def dropConn (m : Manager) (c : ℕ) : Manager :=
  if (m.heap.get c).done then m
  else
    let m' := { m with heap := m.heap.modify c Conn.close }.unregister c
    let x := m'.heap.get c
    if x.announced then m'.emit (.peerDisconnected x.name x.fp x.trust x.path) else m'

def announce (m : Manager) (c : ℕ) : Manager :=
  let x := m.heap.get c
  if x.done then m
  else if m.conns.lookup x.fp = some c ∧ x.announced = false then
    { m with heap := m.heap.modify c Conn.setAnnounced }.emit
      (.peerConnected x.name x.fp x.trust x.path)
  else m

/-! ## What each of them does -/

variable (m : Manager) (c : ℕ)

/-- **`establish`** has three outcomes. The new connection is refused and closed, it is the first
with its fingerprint, or it takes the place of another one, which is closed. -/
theorem establish_cases :
    (∃ old, m.conns.lookup (m.heap.get c).fp = some old ∧
        (((m.heap.get old).announced = true ∧ (m.heap.get old).unanswered = 0) ∨
          preferNew (m.heap.get old) (m.heap.get c) = false) ∧
        m.establish c = { m with heap := m.heap.modify c Conn.shut }) ∨
      (m.conns.lookup (m.heap.get c).fp = none ∧ m.establish c = m.store c) ∨
      ∃ old, m.conns.lookup (m.heap.get c).fp = some old ∧
        ¬ ((m.heap.get old).announced = true ∧ (m.heap.get old).unanswered = 0) ∧
        preferNew (m.heap.get old) (m.heap.get c) = true ∧
        m.establish c = { m with heap := m.heap.modify old Conn.close }.store c := by
  unfold establish register
  rcases hold : m.conns.lookup (m.heap.get c).fp with _ | old
  · exact .inr (.inl ⟨rfl, rfl⟩)
  · dsimp only
    by_cases hann : (m.heap.get old).announced = true ∧ (m.heap.get old).unanswered = 0
    · rw [if_pos hann]
      exact .inl ⟨old, rfl, .inl hann, rfl⟩
    · rw [if_neg hann]
      by_cases hpref : preferNew (m.heap.get old) (m.heap.get c) = false
      · rw [if_pos hpref]
        exact .inl ⟨old, rfl, .inr hpref, rfl⟩
      · rw [if_neg hpref]
        exact .inr (.inr ⟨old, rfl, hann, by simpa using hpref, rfl⟩)

/-- **`announce`** only ever sets the flag, and only for the connection that the map has. The maps
and all other connections stay as they are. -/
theorem announce_cases :
    m.announce c = m ∨ (m.conns.lookup (m.heap.get c).fp = some c ∧
      (m.announce c).conns = m.conns ∧
      (m.announce c).heap = m.heap.modify c Conn.setAnnounced) := by
  unfold announce
  dsimp only
  split_ifs with hdone hcur
  · exact .inl rfl
  · exact .inr ⟨hcur.1, rfl, rfl⟩
  · exact .inl rfl

/-- **`dropConn`** closes the connection, and takes it out of the map only if it is the one there.
A connection that was replaced leaves its successor alone. -/
theorem dropConn_cases (hdone : (m.heap.get c).done = false) :
    (m.dropConn c).heap = m.heap.modify c Conn.close ∧
      (m.dropConn c).conns = if m.conns.lookup (m.heap.get c).fp = some c
        then m.conns.erase (m.heap.get c).fp else m.conns := by
  have hfp : ((m.heap.modify c Conn.close).get c).fp = (m.heap.get c).fp := by
    rw [Heap.get_modify_self, Conn.close]
    split_ifs <;> rfl
  unfold dropConn unregister
  rw [if_neg (by simp [hdone])]
  dsimp only
  rw [hfp]
  split_ifs <;> exact ⟨rfl, rfl⟩

end Manager

end Heimdall.Sessions
