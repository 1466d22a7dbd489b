/-
Names: the second index of a manager, and `Send`.

Connections are kept by fingerprint, and found by display name when a message is sent. The name is
whatever the peer says, and `register` writes `byName` without looking at what is there. So the two
indexes drift apart in two ways. A connection that is replaced by one with another name leaves its
entry behind, closed (`renamed_entry_stale`); and when two peers share a name, the one that came
first has no entry once the other has left. If neither happens the indexes agree
(`indexes_agree`).

`Send` goes wherever `byName` points. As long as nobody else registers under the name, that is
where it pointed before (`send_not_diverted`); another identity that does takes the messages over
(`send_diverted`).
-/
import Heimdall.Manager
import Heimdall.Maps
import Heimdall.Runs

set_option autoImplicit false

namespace Heimdall.Sessions

open Heimdall.Peers Heimdall.Runs

def Conn.ping (c : Conn) : Conn := { c with unanswered := c.unanswered + 1 }

def Conn.pong (c : Conn) : Conn := { c with unanswered := 0 }

namespace Manager

/-! ## Operations of a running manager -/

/-- A handshake has ended with the record `x`, which `runHandshake` registers. -/
def welcome (m : Manager) (x : Conn) : Manager :=
  { m with heap := m.heap.alloc x }.establish m.heap.next

/-- `Send`: the connection whose queue the frame goes to. A closed session does not seal; `room`
says whether the frame can be sealed otherwise and the queue is not full. -/
def send (m : Manager) (name : GoString) (room : Bool) : Option ℕ :=
  match m.byName.lookup name with
  | none => none
  | some c => if (m.heap.get c).closed = false ∧ room = true then some c else none

/-- `register` puts `x` in the place of `old`. -/
def Replaces (old x : Conn) : Prop :=
  ¬ (old.announced = true ∧ old.unanswered = 0) ∧ preferNew old x = true

instance (old x : Conn) : Decidable (Replaces old x) := inferInstanceAs (Decidable (_ ∧ _))

end Manager

/-- A message that `Send` has queued. -/
structure Sent where
  name : GoString
  conn : ℕ
  text : GoString
  deriving DecidableEq

/-- A manager and what `Send` has queued. -/
structure Node where
  mgr : Manager := { heap := Heap.empty { fp := [], name := [], sessionID := 0 } }
  sent : List Sent := []

inductive NodeAct where
  /-- A handshake ends, and `runHandshake` registers the connection. -/
  | welcome (fp name : GoString) (sid : UInt64) (trust : TrustLevel) (path : Path)
  | dropConn (c : ℕ)
  | unregister (c : ℕ)
  | announce (c : ℕ)
  | ping (c : ℕ)
  | pong (c : ℕ)
  | send (name text : GoString) (room : Bool)

def newConn (fp name : GoString) (sid : UInt64) (trust : TrustLevel) (path : Path) : Conn :=
  { fp := fp, name := name, sessionID := sid, trust := trust, path := path }

/-- What an action does to the manager. -/
def Manager.act (m : Manager) : NodeAct → Manager
  | .welcome fp name sid trust path => m.welcome (newConn fp name sid trust path)
  | .dropConn c => m.dropConn c
  | .unregister c => m.unregister c
  | .announce c => m.announce c
  | .ping c => { m with heap := m.heap.modify c Conn.ping }
  | .pong c => { m with heap := m.heap.modify c Conn.pong }
  | .send _ _ _ => m

/-- The connections an action is about exist. -/
def NodeAct.Known (next : ℕ) : NodeAct → Prop
  | .dropConn c | .unregister c | .announce c | .ping c | .pong c => c < next
  | .welcome _ _ _ _ _ | .send _ _ _ => True

instance (next : ℕ) (a : NodeAct) : Decidable (a.Known next) :=
  match a with
  | .dropConn c | .unregister c | .announce c | .ping c | .pong c =>
    inferInstanceAs (Decidable (c < next))
  | .welcome _ _ _ _ _ | .send _ _ _ => inferInstanceAs (Decidable True)

/-- What an action queues. -/
def Manager.queues (m : Manager) : NodeAct → List Sent
  | .send name text room => (m.send name room).toList.map fun c => ⟨name, c, text⟩
  | _ => []

def Node.next (s : Node) (a : NodeAct) : Option Node :=
  if a.Known s.mgr.heap.next then some ⟨s.mgr.act a, s.sent ++ s.mgr.queues a⟩ else none

namespace Manager

/-! ## What holds of both indexes in every run -/

/-- The entries are connections that exist and are filed where they belong; those in `conns` are
open. -/
structure Filed (m : Manager) : Prop where
  conns : ∀ fp c, m.conns.lookup fp = some c → c < m.heap.next ∧ (m.heap.get c).fp = fp ∧
    (m.heap.get c).done = false ∧ (m.heap.get c).closed = false
  byName : ∀ n c, m.byName.lookup n = some c → c < m.heap.next ∧ (m.heap.get c).name = n

section Welcome

variable {m : Manager} {x : Conn}

/-- **`welcome`**: refused, first, or in the place of another connection. The three outcomes of
`register` with what `runHandshake` does around it. -/
theorem welcome_cases (hm : m.Filed) (x : Conn) :
    m.welcome x = { m with heap := (m.heap.alloc x).modify m.heap.next Conn.shut } ∨
      (m.conns.lookup x.fp = none ∧ m.welcome x =
        { m with
          heap := m.heap.alloc x
          conns := m.conns.insert x.fp m.heap.next
          byName := m.byName.insert x.name m.heap.next }) ∨
      ∃ old, m.conns.lookup x.fp = some old ∧ Replaces (m.heap.get old) x ∧ m.welcome x =
        { m with
          heap := (m.heap.alloc x).modify old Conn.close
          conns := m.conns.insert x.fp m.heap.next
          byName := m.byName.insert x.name m.heap.next } := by
  have hnew : (m.heap.alloc x).get m.heap.next = x := m.heap.get_alloc_next x
  -- the new record is not among those that were there
  rcases establish_cases { m with heap := m.heap.alloc x } m.heap.next with
    ⟨_, -, -, heq⟩ | ⟨hnone, heq⟩ | ⟨old, hold, hann, hpref, heq⟩
  · exact .inl heq
  · rw [hnew] at hnone
    refine .inr (.inl ⟨hnone, heq.trans ?_⟩)
    rw [store, hnew]
  · rw [hnew] at hold hpref
    have hlt := (hm.conns x.fp old hold).1
    rw [m.heap.get_alloc_of_lt x hlt] at hann hpref
    refine .inr (.inr ⟨old, hold, ⟨hann, hpref⟩, heq.trans ?_⟩)
    have hsame : ((m.heap.alloc x).modify old Conn.close).get m.heap.next = x := by
      rw [Heap.get_modify_of_ne _ _ hlt.ne', hnew]
    rw [store, hsame]

end Welcome

/-! ## What a step does to the indexes -/

/-- The same connection, up to what it is announced as and how it answers. -/
def Alike (x y : Conn) : Prop :=
  x.fp = y.fp ∧ x.name = y.name ∧ x.done = y.done ∧ x.closed = y.closed

/-- The indexes and the records after an action. -/
inductive Change (m : Manager) : NodeAct → Manager → Prop
  /-- Only flags of a record have changed. -/
  | flags {a : NodeAct} {m' : Manager} (hnext : m'.heap.next = m.heap.next)
      (hsame : ∀ d, Alike (m'.heap.get d) (m.heap.get d)) (hconns : m'.conns = m.conns)
      (hbyName : m'.byName = m.byName) : Change m a m'
  | refuse {a : NodeAct} {x : Conn} :
    Change m a { m with heap := (m.heap.alloc x).modify m.heap.next Conn.shut }
  | first {fp name : GoString} {sid : UInt64} {trust : TrustLevel} {path : Path}
      (hnone : m.conns.lookup fp = none) :
    Change m (.welcome fp name sid trust path)
      { m with
        heap := m.heap.alloc (newConn fp name sid trust path)
        conns := m.conns.insert fp m.heap.next
        byName := m.byName.insert name m.heap.next }
  | replace {fp name : GoString} {sid : UInt64} {trust : TrustLevel} {path : Path} {old : ℕ}
      (hold : m.conns.lookup fp = some old)
      (hrep : Replaces (m.heap.get old) (newConn fp name sid trust path)) :
    Change m (.welcome fp name sid trust path)
      { m with
        heap := (m.heap.alloc (newConn fp name sid trust path)).modify old Conn.close
        conns := m.conns.insert fp m.heap.next
        byName := m.byName.insert name m.heap.next }
  /-- A connection that is not in use is closed. -/
  | close {c : ℕ} {m' : Manager} (hother : m.conns.lookup (m.heap.get c).fp ≠ some c)
      (hheap : m'.heap = m.heap.modify c Conn.close) (hconns : m'.conns = m.conns)
      (hbyName : m'.byName = m.byName) : Change m (.dropConn c) m'
  /-- The connection in use goes; `dropConn` has closed it before. -/
  | remove {a : NodeAct} {c : ℕ} {f : Conn → Conn} {m' : Manager}
      (ha : a = .dropConn c ∨ a = .unregister c) (hf : ∀ y, (f y).fp = y.fp ∧ (f y).name = y.name)
      (hcur : m.conns.lookup (m.heap.get c).fp = some c)
      (hheap : m'.heap = m.heap.modify c f)
      (hconns : m'.conns = m.conns.erase (m.heap.get c).fp)
      (hbyName : m'.byName = if m.byName.lookup (m.heap.get c).name = some c
        then m.byName.erase (m.heap.get c).name else m.byName) : Change m a m'

section Change

variable {m : Manager} {a : NodeAct} {c : ℕ}

theorem close_same (x : Conn) : x.close.fp = x.fp ∧ x.close.name = x.name := by
  unfold Conn.close
  split_ifs <;> exact ⟨rfl, rfl⟩

theorem Change.of_modify {m' : Manager} {f : Conn → Conn} (hf : ∀ y, Alike (f y) y)
    (hheap : m'.heap = m.heap.modify c f) (hconns : m'.conns = m.conns)
    (hbyName : m'.byName = m.byName) : Change m a m' := by
  refine .flags (by rw [hheap]; rfl) (fun d => ?_) hconns hbyName
  rw [hheap]
  by_cases hd : d = c
  · subst hd
    rw [Heap.get_modify_self]
    exact hf _
  · rw [Heap.get_modify_of_ne _ _ hd]
    exact ⟨rfl, rfl, rfl, rfl⟩

theorem Change.refl : Change m a m := .flags rfl (fun _ => ⟨rfl, rfl, rfl, rfl⟩) rfl rfl

theorem Change.of_unregister : Change m (.unregister c) (m.unregister c) := by
  unfold unregister
  by_cases hcur : m.conns.lookup (m.heap.get c).fp = some c
  · rw [if_pos hcur]
    refine .remove (f := id) (.inr rfl) (fun _ => ⟨rfl, rfl⟩) hcur ?_ rfl rfl
    rw [Heap.modify, id, Function.update_eq_self]
  · rw [if_neg hcur]
    exact .refl

theorem Change.of_dropConn : Change m (.dropConn c) (m.dropConn c) := by
  unfold dropConn unregister
  dsimp only
  by_cases hdone : (m.heap.get c).done = true
  · rw [if_pos hdone]
    exact .refl
  · rw [if_neg hdone, Heap.get_modify_self, (close_same _).1, (close_same _).2]
    by_cases hcur : m.conns.lookup (m.heap.get c).fp = some c
    · rw [if_pos hcur]
      split_ifs
      all_goals exact .remove (.inl rfl) close_same hcur rfl rfl (by simp_all [emit])
    · rw [if_neg hcur]
      split_ifs
      all_goals exact .close hcur rfl rfl rfl

/-- **The change of an action**, one case for each of them. What follows is about `Change`, and a
new operation of the manager has to be added here and nowhere else. -/
theorem act_change (hm : m.Filed) (a : NodeAct) : Change m a (m.act a) := by
  -- only `welcome` files a connection
  cases a with
  | welcome fp name sid trust path =>
    dsimp only [act]
    rcases welcome_cases hm (newConn fp name sid trust path) with heq | ⟨hnone, heq⟩ |
      ⟨old, hold, hrep, heq⟩
    · rw [heq]
      exact .refuse
    · rw [heq]
      exact .first hnone
    · rw [heq]
      exact .replace hold hrep
  | dropConn c => exact .of_dropConn
  | unregister c => exact .of_unregister
  | announce c =>
    dsimp only [act]
    unfold announce
    dsimp only
    split_ifs
    · exact .refl
    · exact .of_modify (f := Conn.setAnnounced) (fun _ => ⟨rfl, rfl, rfl, rfl⟩) rfl rfl rfl
    · exact .refl
  | ping c => exact .of_modify (f := Conn.ping) (fun _ => ⟨rfl, rfl, rfl, rfl⟩) rfl rfl rfl
  | pong c => exact .of_modify (f := Conn.pong) (fun _ => ⟨rfl, rfl, rfl, rfl⟩) rfl rfl rfl
  | send => exact .refl

theorem Filed.lookup_fp (hm : m.Filed) {fp : GoString} (hc : m.conns.lookup fp = some c) :
    m.conns.lookup (m.heap.get c).fp = some c := by
  rw [(hm.conns fp c hc).2.1]
  exact hc

theorem get_refuse {x : Conn} {d : ℕ} (hd : d < m.heap.next) :
    ((m.heap.alloc x).modify m.heap.next Conn.shut).get d = m.heap.get d := by
  rw [Heap.get_modify_of_ne _ _ hd.ne, Heap.get_alloc_of_lt _ _ hd]

/-- `x` is filed: of the connections before it, only one with its fingerprint may have changed, and
not in its name. -/
structure Files (m : Manager) (x : Conn) (m' : Manager) : Prop where
  next : m'.heap.next = m.heap.next + 1
  new : m'.heap.get m.heap.next = x
  same : ∀ d < m.heap.next, (m.heap.get d).fp ≠ x.fp → m'.heap.get d = m.heap.get d
  name : ∀ d < m.heap.next, (m'.heap.get d).name = (m.heap.get d).name
  conns : m'.conns = m.conns.insert x.fp m.heap.next
  byName : m'.byName = m.byName.insert x.name m.heap.next

theorem Files.first (x : Conn) :
    Files m x { m with
      heap := m.heap.alloc x
      conns := m.conns.insert x.fp m.heap.next
      byName := m.byName.insert x.name m.heap.next } where
  next := rfl
  new := Heap.get_alloc_next _ _
  same _ hd _ := Heap.get_alloc_of_lt _ _ hd
  name _ hd := congrArg Conn.name (Heap.get_alloc_of_lt _ _ hd)
  conns := rfl
  byName := rfl

theorem Files.replace (hm : m.Filed) {x : Conn} {old : ℕ} (hold : m.conns.lookup x.fp = some old) :
    Files m x { m with
      heap := (m.heap.alloc x).modify old Conn.close
      conns := m.conns.insert x.fp m.heap.next
      byName := m.byName.insert x.name m.heap.next } where
  next := rfl
  new := by
    have hlt := (hm.conns x.fp old hold).1
    dsimp only
    rw [Heap.get_modify_of_ne _ _ hlt.ne', Heap.get_alloc_next]
  same d hd hne := by
    -- the connection that is replaced has the same fingerprint
    have hdo : d ≠ old := by
      rintro rfl
      exact hne (hm.conns x.fp d hold).2.1
    dsimp only
    rw [Heap.get_modify_of_ne _ _ hdo, Heap.get_alloc_of_lt _ _ hd]
  name d hd := by
    dsimp only
    rw [Heap.get_modify_congr _ Conn.close fun y => (close_same y).2, Heap.get_alloc_of_lt _ _ hd]
  conns := rfl
  byName := rfl

theorem Filed.file {m' : Manager} {x : Conn} (hm : m.Filed) (hf : Files m x m')
    (hx : x.done = false ∧ x.closed = false) : m'.Filed := by
  have hnext := hf.next
  constructor
  · intro fp c hc
    rw [hf.conns] at hc
    -- the new entry, and those under other fingerprints
    rcases (Maps.lookup_insert_iff _).mp hc with ⟨rfl, rfl⟩ | ⟨hne, hc⟩
    · rw [hf.new]
      exact ⟨by omega, rfl, hx⟩
    · obtain ⟨hlt, hfp, hrest⟩ := hm.conns fp c hc
      rw [hf.same c hlt fun heq => hne (hfp.symm.trans heq)]
      exact ⟨by omega, hfp, hrest⟩
  · intro n c hc
    rw [hf.byName] at hc
    rcases (Maps.lookup_insert_iff _).mp hc with ⟨rfl, rfl⟩ | ⟨-, hc⟩
    · rw [hf.new]
      exact ⟨by omega, rfl⟩
    · obtain ⟨hlt, hn⟩ := hm.byName n c hc
      exact ⟨by omega, (hf.name c hlt).trans hn⟩

/-- **One step keeps the entries filed.** An entry is a connection that exists, and stands where
its record says. -/
theorem Filed.step {m' : Manager} (hm : m.Filed) (hch : Change m a m') : m'.Filed := by
  cases hch with
  | flags hnext hsame hconns hbyName =>
    constructor
    · intro fp c hc
      obtain ⟨hlt, hfp, hdone, hclosed⟩ := hm.conns fp c (hconns ▸ hc)
      obtain ⟨h₁, -, h₃, h₄⟩ := hsame c
      exact ⟨hnext ▸ hlt, h₁.trans hfp, h₃.trans hdone, h₄.trans hclosed⟩
    · intro n c hc
      obtain ⟨hlt, hname⟩ := hm.byName n c (hbyName ▸ hc)
      exact ⟨hnext ▸ hlt, (hsame c).2.1.trans hname⟩
  | refuse =>
    constructor
    · intro fp c hc
      obtain ⟨hlt, hrest⟩ := hm.conns fp c hc
      exact ⟨hlt.trans (Nat.lt_succ_self _), (get_refuse hlt).symm ▸ hrest⟩
    · intro n c hc
      obtain ⟨hlt, hname⟩ := hm.byName n c hc
      exact ⟨hlt.trans (Nat.lt_succ_self _), (get_refuse hlt).symm ▸ hname⟩
  | first => exact hm.file (.first _) ⟨rfl, rfl⟩
  | replace hold => exact hm.file (.replace hm hold) ⟨rfl, rfl⟩
  -- the connection that is closed is in no entry of `conns`
  | @close c m' hother hheap hconns hbyName =>
    constructor
    · intro fp d hd
      rw [hconns] at hd
      have hdc : d ≠ c := fun heq => hother (heq ▸ hm.lookup_fp hd)
      rw [hheap, Heap.get_modify_of_ne _ _ hdc]
      exact hm.conns fp d hd
    · intro n d hd
      rw [hbyName] at hd
      rw [hheap, Heap.get_modify_congr _ Conn.close fun y => (close_same y).2]
      exact hm.byName n d hd
  -- its entry goes, and that was the only one
  | @remove a c f m' ha hf hcur hheap hconns hbyName =>
    constructor
    · intro fp d hd
      rw [hconns] at hd
      obtain ⟨hd, hne⟩ := Maps.lookup_of_erase _ hd
      have hdc : d ≠ c := fun heq => hne (heq ▸ (hm.conns fp d hd).2.1).symm
      rw [hheap, Heap.get_modify_of_ne _ _ hdc]
      exact hm.conns fp d hd
    · intro n d hd
      have hold : m.byName.lookup n = some d := by
        rw [hbyName] at hd
        split_ifs at hd
        · exact (Maps.lookup_of_erase _ hd).1
        · exact hd
      rw [hheap, Heap.get_modify_congr _ f fun y => (hf y).2]
      exact hm.byName n d hold

/-! ## When the indexes agree -/

/-- **The indexes agree**: an entry of `byName` is open and in use under its name, and every
connection in use has an open entry under its name. -/
structure Agree (m : Manager) : Prop where
  byName : ∀ n c, m.byName.lookup n = some c → (m.heap.get c).name = n ∧
    m.conns.lookup (m.heap.get c).fp = some c ∧ (m.heap.get c).closed = false
  conns : ∀ fp c, m.conns.lookup fp = some c →
    ∃ d, m.byName.lookup (m.heap.get c).name = some d ∧ (m.heap.get d).closed = false

/-- A connection in use that is about to go is not the entry of its name, or nobody else in use
has its name. -/
def Unshared (m : Manager) (c : ℕ) : Prop :=
  m.conns.lookup (m.heap.get c).fp = some c →
    m.byName.lookup (m.heap.get c).name = some c →
    ∀ e ∈ m.conns.entries, e.2 ≠ c → (m.heap.get e.2).name ≠ (m.heap.get c).name

/-- A connection is replaced only by one of the same name, unless it is not the entry of its name;
and one that goes does not take the entry of a name that another one in use shares. -/
def Tidy (m : Manager) : NodeAct → Prop
  | .welcome fp name sid trust path => ∀ old ∈ m.conns.lookup fp,
      Replaces (m.heap.get old) (newConn fp name sid trust path) →
      m.byName.lookup (m.heap.get old).name = some old → (m.heap.get old).name = name
  | .dropConn c | .unregister c => m.Unshared c
  | .announce _ | .ping _ | .pong _ | .send _ _ _ => True

instance (m : Manager) (c : ℕ) : Decidable (m.Unshared c) :=
  inferInstanceAs (Decidable (_ → _ → ∀ e ∈ m.conns.entries, _ → _))

instance (m : Manager) (a : NodeAct) : Decidable (m.Tidy a) :=
  match a with
  | .welcome fp _ _ _ _ => inferInstanceAs (Decidable (∀ old ∈ m.conns.lookup fp, _ → _ → _))
  | .dropConn c | .unregister c => inferInstanceAs (Decidable (m.Unshared c))
  | .announce _ | .ping _ | .pong _ | .send _ _ _ => inferInstanceAs (Decidable True)

/-- A connection is filed, and no other name leads to the one it replaces. -/
theorem Agree.file {m' : Manager} {x : Conn} (hg : m.Agree) (hm : m.Filed) (hf : Files m x m')
    (hx : x.closed = false)
    (hother : ∀ n d, n ≠ x.name → m.byName.lookup n = some d → (m.heap.get d).fp ≠ x.fp) :
    m'.Agree := by
  have hnew : m'.byName.lookup x.name = some m.heap.next ∧
      (m'.heap.get m.heap.next).closed = false := by
    rw [hf.byName, hf.new]
    exact ⟨AList.lookup_insert _, hx⟩
  constructor
  · intro n c hc
    rw [hf.byName] at hc
    rcases (Maps.lookup_insert_iff _).mp hc with ⟨rfl, rfl⟩ | ⟨hn, hc⟩
    · rw [hf.new, hf.conns]
      exact ⟨rfl, AList.lookup_insert _, hx⟩
    · obtain ⟨hname, hcur, hopen⟩ := hg.byName n c hc
      have hfp := hother n c hn hc
      rw [hf.same c (hm.byName n c hc).1 hfp, hf.conns, AList.lookup_insert_ne hfp]
      exact ⟨hname, hcur, hopen⟩
  · intro fp c hc
    rw [hf.conns] at hc
    rcases (Maps.lookup_insert_iff _).mp hc with ⟨rfl, rfl⟩ | ⟨-, hc⟩
    · rw [hf.new]
      exact ⟨_, hnew⟩
    · rw [hf.name c (hm.conns fp c hc).1]
      by_cases hname : (m.heap.get c).name = x.name
      · -- the new connection has taken the name over
        rw [hname]
        exact ⟨_, hnew⟩
      · obtain ⟨d, hd, hopen⟩ := hg.conns fp c hc
        rw [hf.byName, AList.lookup_insert_ne hname]
        refine ⟨d, hd, ?_⟩
        rw [hf.same d (hm.byName _ d hd).1 (hother _ d hname hd)]
        exact hopen

/-- A connection in use goes, and the entry of its name was its own alone. What is left of
`byName` is what leads elsewhere. -/
theorem Agree.remove {m' : Manager} {f : Conn → Conn} (hg : m.Agree) (hm : m.Filed)
    (hcur : m.conns.lookup (m.heap.get c).fp = some c) (hun : m.Unshared c)
    (hheap : m'.heap = m.heap.modify c f) (hconns : m'.conns = m.conns.erase (m.heap.get c).fp)
    (hbyName : m'.byName = if m.byName.lookup (m.heap.get c).name = some c
      then m.byName.erase (m.heap.get c).name else m.byName) : m'.Agree := by
  -- the entries of `byName` that stay are those that lead elsewhere
  have hlookup : ∀ n d, m'.byName.lookup n = some d ↔ m.byName.lookup n = some d ∧ d ≠ c := by
    intro n d
    rw [hbyName]
    constructor
    · intro hd
      have hold : m.byName.lookup n = some d := by
        split_ifs at hd
        · exact (Maps.lookup_of_erase _ hd).1
        · exact hd
      refine ⟨hold, ?_⟩
      rintro rfl
      have hname := (hm.byName n d hold).2
      rw [if_pos (hname.symm ▸ hold)] at hd
      exact (Maps.lookup_of_erase _ hd).2 hname.symm
    · rintro ⟨hd, hdc⟩
      split_ifs with hentry
      · have hn : n ≠ (m.heap.get c).name := by
          rintro rfl
          exact hdc (Option.some.inj (hd.symm.trans hentry))
        rw [AList.lookup_erase_ne hn, hd]
      · exact hd
  constructor
  · intro n d hd
    obtain ⟨hold, hdc⟩ := (hlookup n d).mp hd
    obtain ⟨hname, hcur', hopen⟩ := hg.byName n d hold
    rw [hheap, Heap.get_modify_of_ne _ _ hdc, hconns]
    refine ⟨hname, ?_, hopen⟩
    rw [AList.lookup_erase_ne, hcur']
    intro hfp
    exact hdc (Option.some.inj (hcur'.symm.trans (hfp ▸ hcur)))
  · intro fp d hd
    rw [hconns] at hd
    obtain ⟨hold, hfp⟩ := Maps.lookup_of_erase _ hd
    have hdc : d ≠ c := fun heq => hfp (heq ▸ (hm.conns fp d hold).2.1).symm
    obtain ⟨e, he, hopen⟩ := hg.conns fp d hold
    -- somebody else in use would have the name
    have hec : e ≠ c := by
      rintro rfl
      have hname := (hm.byName _ e he).2
      exact hun hcur (hname.symm ▸ he) ⟨fp, d⟩ ((Maps.lookup_eq_some_iff _).mp hold) hdc hname.symm
    rw [hheap, Heap.get_modify_of_ne _ _ hdc]
    refine ⟨e, (hlookup _ e).mpr ⟨he, hec⟩, ?_⟩
    rw [Heap.get_modify_of_ne _ _ hec]
    exact hopen

/-- **One tidy step keeps the indexes in agreement.** -/
theorem Agree.step {m' : Manager} (hg : m.Agree) (hm : m.Filed) (hch : Change m a m')
    (htidy : m.Tidy a) : m'.Agree := by
  cases hch with
  | flags hnext hsame hconns hbyName =>
    constructor
    · intro n c hc
      obtain ⟨hname, hcur, hopen⟩ := hg.byName n c (hbyName ▸ hc)
      obtain ⟨h₁, h₂, -, h₄⟩ := hsame c
      exact ⟨h₂.trans hname, by rw [h₁, hconns, hcur], h₄.trans hopen⟩
    · intro fp c hc
      obtain ⟨d, hd, hopen⟩ := hg.conns fp c (hconns ▸ hc)
      exact ⟨d, by rw [hbyName, (hsame c).2.1, hd], (hsame d).2.2.2.trans hopen⟩
  | refuse =>
    constructor
    · intro n c hc
      dsimp only
      rw [get_refuse (hm.byName n c hc).1]
      exact hg.byName n c hc
    · intro fp c hc
      dsimp only
      rw [get_refuse (hm.conns fp c hc).1]
      obtain ⟨d, hd, hopen⟩ := hg.conns fp c hc
      exact ⟨d, hd, by rw [get_refuse (hm.byName _ d hd).1, hopen]⟩
  | first hnone =>
    refine hg.file hm (.first _) rfl fun n d _ hd hfp => ?_
    have hcur := (hg.byName n d hd).2.1
    rw [hfp] at hcur
    exact absurd (hnone.symm.trans hcur) (by simp)
  | replace hold hrep =>
    refine hg.file hm (.replace hm hold) rfl fun n d hn hd hfp => ?_
    -- it would be the entry of the connection that goes, which has the name of the new one
    obtain ⟨hname, hcur, -⟩ := hg.byName n d hd
    rw [hfp] at hcur
    obtain rfl := Option.some.inj (hold.symm.trans hcur)
    exact hn (hname.symm.trans (htidy _ hold hrep (hname.symm ▸ hd)))
  | @close c m' hother hheap hconns hbyName =>
    have hentry : ∀ n d, m.byName.lookup n = some d → d ≠ c := by
      rintro n d hd rfl
      exact hother (hg.byName n d hd).2.1
    constructor
    · intro n d hd
      rw [hbyName] at hd
      rw [hheap, Heap.get_modify_of_ne _ _ (hentry n d hd), hconns]
      exact hg.byName n d hd
    · intro fp d hd
      rw [hconns] at hd
      obtain ⟨e, he, hopen⟩ := hg.conns fp d hd
      rw [hheap, Heap.get_modify_congr _ Conn.close fun y => (close_same y).2, hbyName]
      refine ⟨e, he, ?_⟩
      rw [Heap.get_modify_of_ne _ _ (hentry _ e he)]
      exact hopen
  | remove ha _ hcur hheap hconns hbyName =>
    refine hg.remove hm hcur ?_ hheap hconns hbyName
    rcases ha with rfl | rfl <;> exact htidy

end Change

end Manager

/-! ## Runs -/

/-- A step that keeps the names tidy. -/
def StepTidy (s : Node) (a : NodeAct) (s' : Node) : Prop := s.next a = some s' ∧ s.mgr.Tidy a

section Runs

variable {s s' : Node} {a : NodeAct} {as bs : List NodeAct}

theorem Node.next_eq (h : s.next a = some s') :
    s'.mgr = s.mgr.act a ∧ s'.sent = s.sent ++ s.mgr.queues a := by
  unfold Node.next at h
  split_ifs at h
  exact Option.some.inj h ▸ ⟨rfl, rfl⟩

theorem Manager.Filed.next (hm : s.mgr.Filed) (h : s.next a = some s') : s'.mgr.Filed := by
  rw [(Node.next_eq h).1]
  exact hm.step (Manager.act_change hm a)

theorem Manager.Filed.start : ({} : Node).mgr.Filed :=
  ⟨fun _ _ h => absurd h (by simp), fun _ _ h => absurd h (by simp)⟩

/-- **The two indexes agree** in every run in which no connection is replaced under another name
and none that goes takes the entry of a name another one shares. Both conditions are needed, see
`renamed_entry_stale`. -/
theorem indexes_agree (hrun : Run StepTidy {} as s) : s.mgr.Agree := by
  have hinv : s.mgr.Filed ∧ s.mgr.Agree := by
    refine hrun.invariant (fun s => s.mgr.Filed ∧ s.mgr.Agree) ⟨.start, ?_⟩ ?_
    · exact ⟨fun _ _ h => absurd h (by simp), fun _ _ h => absurd h (by simp)⟩
    · rintro t a u ⟨hm, hg⟩ ⟨hnext, htidy⟩
      refine ⟨hm.next hnext, ?_⟩
      rw [(Node.next_eq hnext).1]
      exact hg.step hm (Manager.act_change hm a) htidy
  exact hinv.2

/-- Two peers connect, one of them again under its name, and the other one leaves. -/
def tidyActs : List NodeAct :=
  [.welcome [1] [65] 5 .unverified .direct, .welcome [2] [66] 6 .unverified .relay,
    .welcome [1] [65] 3 .unverified .punched, .dropConn 1, .send [65] [72, 105] true]

theorem indexes_agree_reconnected : ∃ s : Node, Run StepTidy {} tidyActs s ∧
    (s.mgr.conns.lookup [1] = some 2 ∧ s.mgr.byName.lookup [65] = some 2 ∧
      s.mgr.byName.lookup [66] = none ∧ s.sent = [⟨[65], 2, [72, 105]⟩]) ∧ s.mgr.Agree := by
  obtain ⟨s, hrun, hs⟩ : ∃ s, Run StepTidy {} tidyActs s ∧
      (s.mgr.conns.lookup [1] = some 2 ∧ s.mgr.byName.lookup [65] = some 2 ∧
        s.mgr.byName.lookup [66] = none ∧ s.sent = [⟨[65], 2, [72, 105]⟩]) :=
    exists_run_guarded _ (by decide)
  exact ⟨s, hrun, hs, indexes_agree hrun⟩

/-- A peer connects as `A`, and again as `B` with a smaller session ID. -/
def renamedActs : List NodeAct :=
  [.welcome [1] [65] 5 .unverified .direct, .welcome [1] [66] 3 .unverified .punched]

/-- Two peers connect under one name, and the second one leaves. -/
def sharedActs : List NodeAct :=
  [.welcome [1] [65] 5 .unverified .direct, .welcome [2] [65] 6 .unverified .direct, .dropConn 1]

/-- **The indexes drift apart.** After a replacement under another name, the old name still leads
to the connection that was closed; and after the second of two peers with one name has left, the
first is in use and has no entry. -/
theorem renamed_entry_stale :
    (∃ s : Node, Run (ofNext Node.next) {} renamedActs s ∧
      s.mgr.byName.lookup [65] = some 0 ∧ (s.mgr.heap.get 0).closed = true ∧
      s.mgr.conns.lookup [1] = some 1) ∧
    ∃ s : Node, Run (ofNext Node.next) {} sharedActs s ∧
      s.mgr.conns.lookup [1] = some 0 ∧ (s.mgr.heap.get 0).closed = false ∧
      (s.mgr.heap.get 0).name = [65] ∧ s.mgr.byName.lookup [65] = none :=
  ⟨exists_run_of_any (fun s : Node => s.mgr.byName.lookup [65] = some 0 ∧
      (s.mgr.heap.get 0).closed = true ∧ s.mgr.conns.lookup [1] = some 1) (by decide),
    exists_run_of_any (fun s : Node => s.mgr.conns.lookup [1] = some 0 ∧
      (s.mgr.heap.get 0).closed = false ∧ (s.mgr.heap.get 0).name = [65] ∧
      s.mgr.byName.lookup [65] = none) (by decide)⟩

/-! ## Where messages go -/

/-- The peer of a handshake that ends presents the name `n`. -/
def NodeAct.presents (n : GoString) : NodeAct → Bool
  | .welcome _ name _ _ _ => name == n
  | _ => false

/-- A step after which connection `c` is still registered, and in which no connection is
registered under the name `n`: one that presents it is refused. -/
def StepHeld (n : GoString) (c : ℕ) (s : Node) (a : NodeAct) (s' : Node) : Prop :=
  s.next a = some s' ∧ s'.mgr.conns.lookup (s.mgr.heap.get c).fp = some c ∧
    (a.presents n = true → s'.mgr.conns = s.mgr.conns)

/-- `StepHeld` as a function, for steps that do not present the name. -/
def nextHeld (n : GoString) (c : ℕ) (s : Node) (a : NodeAct) : Option Node :=
  if a.presents n = false then
    (s.next a).filter fun s' => decide (s'.mgr.conns.lookup (s.mgr.heap.get c).fp = some c)
  else none

theorem stepHeld_of_next {n : GoString} {c : ℕ} (h : nextHeld n c s a = some s') :
    StepHeld n c s a s' := by
  unfold nextHeld at h
  split_ifs at h with hpres
  obtain ⟨hnext, hheld⟩ := Option.filter_eq_some_iff.mp h
  exact ⟨hnext, by simpa using hheld, fun hp => absurd (hpres.symm.trans hp) (by simp)⟩

theorem Manager.byName_of_queues {m : Manager} {x : Sent} (hx : x ∈ m.queues a) :
    m.byName.lookup x.name = some x.conn := by
  cases a with
  | send name text room =>
    obtain ⟨c, hc, rfl⟩ := List.mem_map.mp hx
    have hsend := Option.mem_toList.mp hc
    unfold send at hsend
    split at hsend
    · exact absurd hsend (by simp)
    · rename_i d hd
      split_ifs at hsend
      exact hd.trans hsend
  | welcome | dropConn | unregister | announce | ping | pong => exact absurd hx (by simp [queues])

/-- `Send` looks up a name and nothing else, so what matters is who may write its entry. While the
connection is in use and nobody registers under the name, nobody does. -/
theorem Manager.Change.byName_held {m m' : Manager} {n : GoString} {c : ℕ}
    (hch : m.Change a m') (hm : m.Filed) (hentry : m.byName.lookup n = some c)
    (hheld : m'.conns.lookup (m.heap.get c).fp = some c)
    (hname : a.presents n = true → m'.conns = m.conns) : m'.byName.lookup n = some c := by
  -- a connection that is registered changes `conns`
  have hnew : ∀ fp, m.conns.insert fp m.heap.next ≠ m.conns := by
    intro fp heq
    have hself : m.conns.lookup fp = some m.heap.next := by
      rw [← heq, AList.lookup_insert]
    exact lt_irrefl _ (hm.conns fp _ hself).1
  cases hch with
  | flags _ _ _ hbyName | close _ _ _ hbyName => rw [hbyName, hentry]
  | refuse => exact hentry
  | @first fp name sid trust path _ | @replace fp name sid trust path _ _ _ =>
    have hne : n ≠ name := by
      rintro rfl
      exact hnew fp (hname (by simp [NodeAct.presents]))
    rw [AList.lookup_insert_ne hne, hentry]
  | @remove _ d f _ _ _ _ hheap hconns hbyName =>
    have hdc : d ≠ c := by
      rintro rfl
      rw [hconns, AList.lookup_erase] at hheld
      exact absurd hheld (by simp)
    rw [hbyName]
    split_ifs with hd
    · have hne : n ≠ (m.heap.get d).name := by
        rintro rfl
        exact hdc (Option.some.inj (hd.symm.trans hentry))
      rw [AList.lookup_erase_ne hne, hentry]
    · exact hentry

/-- **Messages addressed by name are not diverted**, as long as nobody else is registered under
the name: in a run that starts at a reachable state where `n` leads to the live connection `c`,
and in which `c` stays registered, everything that `Send` queues for `n` it queues for `c`. -/
theorem send_not_diverted {t : Node} {n : GoString} {c : ℕ}
    (hreach : Run (ofNext Node.next) {} as s)
    (hentry : s.mgr.byName.lookup n = some c) (hrun : Run (StepHeld n c) s bs t) :
    ∃ new, t.sent = s.sent ++ new ∧ ∀ x ∈ new, x.name = n → x.conn = c := by
  have hfiled : s.mgr.Filed :=
    hreach.invariant (fun s => s.mgr.Filed) .start fun _ _ _ hm hnext => hm.next hnext
  -- along the run the name leads to the connection, so what is queued goes there
  have hinv : (t.mgr.Filed ∧ t.mgr.byName.lookup n = some c) ∧
      ∃ new, t.sent = s.sent ++ new ∧ ∀ x ∈ new, x.name = n → x.conn = c := by
    refine hrun.invariant (fun t => (t.mgr.Filed ∧ t.mgr.byName.lookup n = some c) ∧
      ∃ new, t.sent = s.sent ++ new ∧ ∀ x ∈ new, x.name = n → x.conn = c)
      ⟨⟨hfiled, hentry⟩, [], by simp, nofun⟩ ?_
    rintro t a u ⟨⟨hm, hn⟩, new, hsent, hnew⟩ ⟨hnext, hheld, hname⟩
    obtain ⟨hmgr, hqueue⟩ := Node.next_eq hnext
    refine ⟨⟨hm.next hnext, ?_⟩, new ++ t.mgr.queues a, ?_, ?_⟩
    · have hch := Manager.act_change hm a
      rw [← hmgr] at hch
      exact hch.byName_held hm hn hheld hname
    · rw [hqueue, hsent, List.append_assoc]
    · intro x hx hxn
      rcases List.mem_append.mp hx with hx | hx
      · exact hnew x hx hxn
      · have hlookup := Manager.byName_of_queues hx
        rw [hxn, hn] at hlookup
        exact (Option.some.inj hlookup).symm
  exact hinv.2

/-- A second peer connects under another name, and messages for the first still reach it. -/
def otherNameActs : List NodeAct :=
  [.send [65] [1] true, .welcome [2] [66] 6 .unverified .direct, .send [66] [2] true,
    .send [65] [3] true]

theorem send_not_diverted_other_name : ∃ s t : Node,
    Run (ofNext Node.next) {} [.welcome [1] [65] 5 .unverified .direct] s ∧
    Run (StepHeld [65] 0) s otherNameActs t ∧
    t.sent = [⟨[65], 0, [1]⟩, ⟨[66], 1, [2]⟩, ⟨[65], 0, [3]⟩] ∧
    ∃ new, t.sent = s.sent ++ new ∧ ∀ x ∈ new, x.name = [65] → x.conn = 0 := by
  obtain ⟨s, hreach, hentry, hexec⟩ :
      ∃ s, Run (ofNext Node.next) {} [.welcome [1] [65] 5 .unverified .direct] s ∧
        s.mgr.byName.lookup [65] = some 0 ∧
        (exec (nextHeld [65] 0) s otherNameActs).any (fun t => decide
          (t.sent = [⟨[65], 0, [1]⟩, ⟨[66], 1, [2]⟩, ⟨[65], 0, [3]⟩])) = true :=
    exists_run_of_any (fun s : Node => s.mgr.byName.lookup [65] = some 0 ∧
      (exec (nextHeld [65] 0) s otherNameActs).any (fun t => decide
        (t.sent = [⟨[65], 0, [1]⟩, ⟨[66], 1, [2]⟩, ⟨[65], 0, [3]⟩])) = true) (by decide)
  obtain ⟨t, hrun, ht⟩ := exists_run_of_any _ hexec
  have hheld := hrun.mono fun _ _ _ h => stepHeld_of_next h
  exact ⟨s, t, hreach, hheld, ht, send_not_diverted hreach hentry hheld⟩

/-- **Another identity takes the name over.** The peer with fingerprint `[1]` stays connected, and
the message for its name is queued for the peer with fingerprint `[2]`. -/
theorem send_diverted :
    ∃ s : Node, Run (ofNext Node.next) {}
      [.welcome [1] [65] 5 .verified .direct, .welcome [2] [65] 6 .unverified .direct,
        .send [65] [72, 105] true] s ∧
      s.mgr.conns.lookup [1] = some 0 ∧ (s.mgr.heap.get 0).closed = false ∧
      (s.mgr.heap.get 1).fp = [2] ∧ s.sent = [⟨[65], 1, [72, 105]⟩] :=
  exists_run_of_any (fun s : Node => s.mgr.conns.lookup [1] = some 0 ∧
    (s.mgr.heap.get 0).closed = false ∧ (s.mgr.heap.get 1).fp = [2] ∧
    s.sent = [⟨[65], 1, [72, 105]⟩]) (by decide)

end Runs

end Heimdall.Sessions
