/-
Keepalives, and what the user is told.

Every twenty seconds a connection counts one more unanswered ping, and a pong takes the count back
to zero. `register` reads the count whenever another connection to the peer has been authenticated.
It takes any count but zero for a connection that has stopped answering, so a connection in good
order may be replaced in the moment between a ping and its pong (`answering_replaced`). If none is
replaced with a count of one, then every one that is has missed a ping when the next was sent
(`replaced_after_miss`).

A replaced connection is closed without a word, and its successor is announced: the user is told
twice that the peer has connected (`connected_twice`). If no connection is replaced after it was
announced, connecting and disconnecting alternate (`events_alternate`).
-/
import Heimdall.Names

set_option autoImplicit false

namespace Heimdall.Sessions

open Heimdall.Peers Heimdall.Runs

/-! ## The steps -/

def keepaliveMisses : ℕ := 3

/-- A turn of `keepaliveLoop`; `queued` says whether `enqueue` took the ping. -/
def Manager.tick (m : Manager) (c : ℕ) (queued : Bool) : Manager :=
  let m' := { m with heap := m.heap.modify c Conn.ping }
  if keepaliveMisses < (m'.heap.get c).unanswered then m'.dropConn c
  else if queued = false then m'.dropConn c
  else m'

/-- What can happen to the connections of a manager. Pings and pongs are steps of their own, since
`register` looks at the count of those that are unanswered. -/
inductive LinkAct where
  /-- A handshake ends, and `runHandshake` registers the connection. -/
  | welcome (fp name : GoString) (sid : UInt64) (trust : TrustLevel) (path : Path)
  /-- The settle window is over. -/
  | announce (c : ℕ)
  | tick (c : ℕ) (queued : Bool)
  | pong (c : ℕ)
  | dropConn (c : ℕ)
  deriving DecidableEq

/-- The connection an action is about exists. -/
def LinkAct.Known (next : ℕ) : LinkAct → Prop
  | .announce c | .tick c _ | .pong c | .dropConn c => c < next
  | .welcome _ _ _ _ _ => True

instance (next : ℕ) (a : LinkAct) : Decidable (a.Known next) :=
  match a with
  | .announce c | .tick c _ | .pong c | .dropConn c => inferInstanceAs (Decidable (c < next))
  | .welcome _ _ _ _ _ => inferInstanceAs (Decidable True)

namespace Manager

def advance (m : Manager) : LinkAct → Manager
  | .welcome fp name sid trust path => m.welcome (newConn fp name sid trust path)
  | .announce c => m.announce c
  | .tick c queued => m.tick c queued
  | .pong c => { m with heap := m.heap.modify c Conn.pong }
  | .dropConn c => m.dropConn c

def link (m : Manager) (a : LinkAct) : Option Manager :=
  if a.Known m.heap.next then some (m.advance a) else none

variable {m m' : Manager} {a : LinkAct} {c d : ℕ}

theorem link_eq (h : m.link a = some m') : a.Known m.heap.next ∧ m' = m.advance a := by
  unfold link at h
  split_ifs at h with hknown
  exact ⟨hknown, (Option.some.inj h).symm⟩

theorem Filed.advance (hm : m.Filed) (a : LinkAct) : (m.advance a).Filed := by
  cases a with
  | welcome fp name sid trust path =>
    exact hm.step (act_change hm (.welcome fp name sid trust path))
  | announce c => exact hm.step (act_change hm (.announce c))
  | pong c => exact hm.step (act_change hm (.pong c))
  | dropConn c => exact hm.step (act_change hm (.dropConn c))
  | tick c queued =>
    have hping : ({ m with heap := m.heap.modify c Conn.ping } : Manager).Filed :=
      hm.step (act_change hm (.ping c))
    dsimp only [Manager.advance, tick]
    split_ifs
    · exact hping.step (act_change hping (.dropConn c))
    · exact hping.step (act_change hping (.dropConn c))
    · exact hping

/-! ## Counting pings -/

end Manager

/-- The unanswered pings of `c` after an action. -/
def LinkAct.count (c n : ℕ) : LinkAct → ℕ
  | .tick d _ => if d = c then n + 1 else n
  | .pong d => if d = c then 0 else n
  | .welcome _ _ _ _ _ | .announce _ | .dropConn _ => n

/-- The ticks of `c` since the last pong. -/
def since (acts : List LinkAct) (c : ℕ) : ℕ := acts.foldl (fun n a => a.count c n) 0

/-- A ping sent at a tick of `c` was still unanswered when a later tick of `c` fired. -/
def Missed (acts : List LinkAct) (c : ℕ) : Prop :=
  ∃ pre mid post queued, acts = pre ++ .tick c true :: (mid ++ .tick c queued :: post) ∧
    .pong c ∉ mid

theorem since_snoc (acts : List LinkAct) (a : LinkAct) (c : ℕ) :
    since (acts ++ [a]) c = a.count c (since acts c) := by
  rw [since, List.foldl_append]
  rfl

theorem Missed.snoc {acts : List LinkAct} {c : ℕ} (h : Missed acts c) (a : LinkAct) :
    Missed (acts ++ [a]) c := by
  obtain ⟨pre, mid, post, queued, rfl, hmid⟩ := h
  exact ⟨pre, mid, post ++ [a], queued, by simp, hmid⟩

theorem LinkAct.count_of_other {a : LinkAct} {c n : ℕ} (hpong : a ≠ .pong c)
    (htick : ∀ queued, a ≠ .tick c queued) : a.count c n = n := by
  cases a with
  | tick d queued =>
    exact if_neg fun hd => htick queued (by rw [hd])
  | pong d =>
    exact if_neg fun hd => hpong (by rw [hd])
  | welcome | announce | dropConn => rfl

theorem exists_tick {acts : List LinkAct} {c : ℕ} (hsent : .tick c false ∉ acts)
    (h : 1 ≤ since acts c) : ∃ pre mid, acts = pre ++ .tick c true :: mid ∧ .pong c ∉ mid := by
  induction acts using List.reverseRecOn with
  | nil => simp [since] at h
  | append_singleton acts a ih =>
    rw [since_snoc] at h
    -- the last action is a pong of `c`, a tick of `c`, or does not count
    by_cases hpong : a = .pong c
    · subst hpong
      simp [LinkAct.count] at h
    by_cases htick : ∃ queued, a = .tick c queued
    · obtain ⟨queued, rfl⟩ := htick
      cases queued with
      | false => exact absurd (by simp) hsent
      | true => exact ⟨acts, [], rfl, by simp⟩
    · push Not at htick
      rw [LinkAct.count_of_other hpong htick] at h
      obtain ⟨pre, mid, rfl, hmid⟩ := ih (fun hmem => hsent (List.mem_append_left _ hmem)) h
      refine ⟨pre, mid ++ [a], by simp, fun hmem => ?_⟩
      rcases List.mem_append.mp hmem with hmem | hmem
      · exact hmid hmem
      · exact hpong (List.mem_singleton.mp hmem).symm

/-- A count of two is a miss: the first ping was still unanswered when the second tick fired.
Ticks whose ping was not queued are excluded, as such a ping was not sent. -/
theorem missed_of_since {acts : List LinkAct} {c : ℕ} (hsent : .tick c false ∉ acts)
    (h : 2 ≤ since acts c) : Missed acts c := by
  induction acts using List.reverseRecOn with
  | nil => simp [since] at h
  | append_singleton acts a ih =>
    have hbefore : .tick c false ∉ acts := fun hmem => hsent (List.mem_append_left _ hmem)
    rw [since_snoc] at h
    by_cases hpong : a = .pong c
    · subst hpong
      simp [LinkAct.count] at h
    by_cases htick : ∃ queued, a = .tick c queued
    · -- the second tick is this one
      obtain ⟨queued, rfl⟩ := htick
      simp only [LinkAct.count, if_true] at h
      obtain ⟨pre, mid, rfl, hmid⟩ := exists_tick hbefore (by omega)
      exact ⟨pre, mid, [], queued, by simp, hmid⟩
    · push Not at htick
      rw [LinkAct.count_of_other hpong htick] at h
      exact (ih hbefore h).snoc a

namespace Manager

variable {m m' : Manager} {a : LinkAct} {c d : ℕ}

/-! ## What a step does to a record -/

theorem close_done (x : Conn) : x.close.done = true := by
  unfold Conn.close
  split_ifs with hdone
  · exact hdone
  · rfl

theorem dropConn_open (hopen : ((m.dropConn c).heap.get d).done = false) :
    d ≠ c ∧ (m.dropConn c).heap.get d = m.heap.get d := by
  by_cases hdone : (m.heap.get c).done = true
  · have hsame : m.dropConn c = m := if_pos hdone
    rw [hsame] at hopen ⊢
    refine ⟨?_, rfl⟩
    rintro rfl
    exact absurd (hdone.symm.trans hopen) (by simp)
  · have hheap := (dropConn_cases m c (by simpa using hdone)).1
    rw [hheap] at hopen ⊢
    have hne : d ≠ c := by
      rintro rfl
      rw [Heap.get_modify_self, close_done] at hopen
      cases hopen
    exact ⟨hne, Heap.get_modify_of_ne _ _ hne⟩

theorem announce_get : (m.announce c).heap.get d = m.heap.get d ∨
    (d = c ∧ (m.announce c).heap.get d = (m.heap.get c).setAnnounced) := by
  rcases announce_cases m c with hsame | ⟨-, -, hheap⟩
  · rw [hsame]
    exact .inl rfl
  · rw [hheap]
    by_cases hd : d = c
    · subst hd
      exact .inr ⟨rfl, Heap.get_modify_self _ _⟩
    · exact .inl (Heap.get_modify_of_ne _ _ hd)

theorem welcome_open (hm : m.Filed) {x : Conn} (hd : d < m.heap.next)
    (hopen : ((m.welcome x).heap.get d).done = false) :
    (m.welcome x).heap.get d = m.heap.get d := by
  rcases welcome_cases hm x with heq | ⟨-, heq⟩ | ⟨old, -, -, heq⟩
  · rw [heq]
    exact get_refuse hd
  · rw [heq]
    exact Heap.get_alloc_of_lt _ _ hd
  · rw [heq] at hopen ⊢
    have hne : d ≠ old := by
      rintro rfl
      rw [Heap.get_modify_self, close_done] at hopen
      cases hopen
    dsimp only
    rw [Heap.get_modify_of_ne _ _ hne, Heap.get_alloc_of_lt _ _ hd]

/-- Counts change at a tick and at a pong, and nowhere else. -/
theorem unanswered_of_same (hsame : (m.advance a).heap.get d = m.heap.get d)
    (hopen : ((m.advance a).heap.get d).done = false) (hpong : a ≠ .pong d)
    (htick : ∀ queued, a ≠ .tick d queued) :
    (m.heap.get d).done = false ∧ a ≠ .tick d false ∧
      ((m.advance a).heap.get d).unanswered = a.count d (m.heap.get d).unanswered := by
  rw [hsame] at hopen ⊢
  exact ⟨hopen, htick false, (LinkAct.count_of_other hpong htick).symm⟩

/-- A tick leaves the other connections as they are, whether or not it drops its own. -/
theorem tick_open {queued : Bool} (hopen : ((m.tick c queued).heap.get d).done = false)
    (hdc : d ≠ c) :
    (m.tick c queued).heap.get d = m.heap.get d := by
  have hother : (m.heap.modify c Conn.ping).get d = m.heap.get d := Heap.get_modify_of_ne _ _ hdc
  dsimp only [tick] at hopen ⊢
  split_ifs at hopen ⊢
  · exact (dropConn_open hopen).2.trans hother
  · exact (dropConn_open hopen).2.trans hother
  · exact hother

/-- A tick counts its ping, and a connection whose ping could not be queued is dropped. -/
theorem tick_self {queued : Bool} (hopen : ((m.tick c queued).heap.get c).done = false) :
    queued = true ∧ (m.tick c queued).heap.get c = (m.heap.get c).ping := by
  dsimp only [tick] at hopen ⊢
  split_ifs at hopen ⊢ with hmisses hqueued
  · exact absurd rfl (dropConn_open hopen).1
  · exact absurd rfl (dropConn_open hopen).1
  · exact ⟨by simpa using hqueued, Heap.get_modify_self _ _⟩

/-- **The count after a step**, for a connection that is open after it. It was open before, no
ping of it failed, and its count is what the action makes of the count before. -/
theorem unanswered_advance (hm : m.Filed) (hd : d < m.heap.next)
    (hopen : ((m.advance a).heap.get d).done = false) :
    (m.heap.get d).done = false ∧ a ≠ .tick d false ∧
      ((m.advance a).heap.get d).unanswered = a.count d (m.heap.get d).unanswered := by
  -- a tick and a pong change the count of their own connection, and the others leave all counts
  -- alone
  cases a with
  | welcome fp name sid trust path =>
    exact unanswered_of_same (welcome_open hm hd hopen) hopen (by simp) (by simp)
  | announce c =>
    rcases announce_get (m := m) (c := c) (d := d) with hsame | ⟨rfl, hself⟩
    · exact unanswered_of_same hsame hopen (by simp) (by simp)
    · dsimp only [advance] at hopen ⊢
      rw [hself] at hopen ⊢
      exact ⟨hopen, by simp, rfl⟩
  | dropConn c => exact unanswered_of_same (dropConn_open hopen).2 hopen (by simp) (by simp)
  | pong c =>
    by_cases hdc : d = c
    · subst hdc
      dsimp only [advance] at hopen ⊢
      rw [Heap.get_modify_self] at hopen ⊢
      exact ⟨hopen, by simp, (if_pos rfl).symm⟩
    · exact unanswered_of_same (Heap.get_modify_of_ne _ _ hdc) hopen (by simp [Ne.symm hdc])
        (by simp)
  | tick c queued =>
    by_cases hdc : d = c
    · subst hdc
      obtain ⟨rfl, hself⟩ := tick_self hopen
      dsimp only [advance] at hopen ⊢
      rw [hself] at hopen ⊢
      exact ⟨hopen, by simp, (if_pos rfl).symm⟩
    · exact unanswered_of_same (tick_open hopen hdc) hopen (by simp) (by simp [Ne.symm hdc])

theorem next_dropConn : (m.dropConn c).heap.next = m.heap.next := by
  by_cases hdone : (m.heap.get c).done = true
  · rw [show m.dropConn c = m from if_pos hdone]
  · rw [(dropConn_cases m c (by simpa using hdone)).1]
    rfl

theorem new_advance (hm : m.Filed) (a : LinkAct) :
    (m.advance a).heap.next = m.heap.next ∨
      ((∃ fp name sid trust path, a = .welcome fp name sid trust path) ∧
        (m.advance a).heap.next = m.heap.next + 1 ∧
        ((m.advance a).heap.get m.heap.next).unanswered = 0 ∧
        ((m.advance a).heap.get m.heap.next).announced = false) := by
  cases a with
  | welcome fp name sid trust path =>
    refine .inr ⟨⟨fp, name, sid, trust, path, rfl⟩, ?_⟩
    dsimp only [advance]
    -- refused and closed, filed where there was none, or filed in place of another
    rcases welcome_cases hm (newConn fp name sid trust path) with heq | ⟨-, heq⟩ | ⟨old, hold, -,
      heq⟩
    · rw [heq]
      dsimp only
      rw [Heap.get_modify_self, Heap.get_alloc_next]
      exact ⟨rfl, rfl, rfl⟩
    · rw [heq]
      dsimp only
      rw [Heap.get_alloc_next]
      exact ⟨rfl, rfl, rfl⟩
    · have hlt := (hm.conns _ old hold).1
      rw [heq]
      dsimp only
      rw [Heap.get_modify_of_ne _ _ hlt.ne', Heap.get_alloc_next]
      exact ⟨rfl, rfl, rfl⟩
  | announce c =>
    left
    dsimp only [advance]
    rcases announce_cases m c with hsame | ⟨-, -, hheap⟩
    · rw [hsame]
    · rw [hheap]
      rfl
  | tick c queued =>
    left
    dsimp only [advance, tick]
    split_ifs
    · exact next_dropConn
    · exact next_dropConn
    · rfl
  | pong c => exact .inl rfl
  | dropConn c => exact .inl next_dropConn

end Manager

/-! ## Runs -/

section Runs

variable {m m' : Manager} {a : LinkAct} {acts : List LinkAct} {c : ℕ}

/-- The counts of the connections are those of the history, and a connection that failed to send
a ping is not open. -/
structure Counted (acts : List LinkAct) (m : Manager) : Prop where
  filed : m.Filed
  live : ∀ d < m.heap.next, (m.heap.get d).done = false →
    .tick d false ∉ acts ∧ (m.heap.get d).unanswered = since acts d
  later : ∀ d, m.heap.next ≤ d → .tick d false ∉ acts ∧ since acts d = 0

theorem Counted.start : Counted [] ({} : Node).mgr where
  filed := .start
  live d hd := absurd hd (Nat.not_lt_zero d)
  later _ _ := ⟨by simp, rfl⟩

/-- The invariant is kept: old connections by `unanswered_advance`, and a new one starts with no
pings, and with none in the history either since nobody could act on it before. -/
theorem Counted.step (h : Counted acts m) (hlink : m.link a = some m') :
    Counted (acts ++ [a]) m' := by
  obtain ⟨hknown, rfl⟩ := Manager.link_eq hlink
  -- an action says nothing about connections that do not exist yet
  have hsilent : ∀ d, m.heap.next ≤ d → a ≠ .pong d ∧ ∀ queued, a ≠ .tick d queued := by
    intro d hd
    refine ⟨?_, fun queued => ?_⟩
    · rintro rfl
      exact absurd hknown (not_lt.mpr hd)
    · rintro rfl
      exact absurd hknown (not_lt.mpr hd)
  have hlater : ∀ d, m.heap.next ≤ d →
      .tick d false ∉ acts ++ [a] ∧ since (acts ++ [a]) d = 0 := by
    intro d hd
    obtain ⟨hsent, hzero⟩ := h.later d hd
    obtain ⟨hpong, htick⟩ := hsilent d hd
    refine ⟨?_, ?_⟩
    · simp only [List.mem_append, List.mem_singleton, not_or]
      exact ⟨hsent, (htick false).symm⟩
    · rw [since_snoc, LinkAct.count_of_other hpong htick, hzero]
  refine ⟨h.filed.advance a, fun d hd hopen => ?_, fun d hd => hlater d ?_⟩
  · by_cases hold : d < m.heap.next
    · obtain ⟨hdone, hne, hcount⟩ := Manager.unanswered_advance h.filed hold hopen
      obtain ⟨hsent, hsince⟩ := h.live d hold hdone
      refine ⟨?_, ?_⟩
      · simp only [List.mem_append, List.mem_singleton, not_or]
        exact ⟨hsent, Ne.symm hne⟩
      · rw [hcount, hsince, since_snoc]
    · rcases Manager.new_advance h.filed a with hnext | ⟨-, hnext, hzero, -⟩
      · omega
      · obtain rfl : d = m.heap.next := by omega
        obtain ⟨hsent, hsince⟩ := hlater m.heap.next le_rfl
        exact ⟨hsent, hzero.trans hsince.symm⟩
  · rcases Manager.new_advance h.filed a with hnext | ⟨-, hnext, -⟩ <;> omega

end Runs

namespace Manager

/-- The action is a `register` that closes the announced connection `old`. -/
def Ousts (m : Manager) (a : LinkAct) (old : ℕ) : Prop :=
  (∃ fp name sid trust path, a = .welcome fp name sid trust path) ∧ old < m.heap.next ∧
    (m.heap.get old).announced = true ∧ (m.heap.get old).done = false ∧
    ((m.advance a).heap.get old).done = true

/-- No connection to the peer is registered while an announced one waits for the answer to its
latest ping. -/
def Spaced (m : Manager) : LinkAct → Prop
  | .welcome fp _ _ _ _ => ∀ old ∈ m.conns.lookup fp, (m.heap.get old).announced = true →
      (m.heap.get old).unanswered ≠ 1
  | .announce _ | .tick _ _ | .pong _ | .dropConn _ => True

instance (m : Manager) (a : LinkAct) : Decidable (m.Spaced a) :=
  match a with
  | .welcome fp _ _ _ _ => inferInstanceAs (Decidable (∀ old ∈ m.conns.lookup fp, _ → _))
  | .announce _ | .tick _ _ | .pong _ | .dropConn _ => inferInstanceAs (Decidable True)

def StepSpaced (m : Manager) (a : LinkAct) (m' : Manager) : Prop := m.link a = some m' ∧ m.Spaced a

variable {m : Manager} {a : LinkAct} {old : ℕ}

/-- The connection that is closed was in use, and had a ping unanswered. An announced one without
is kept by `register`, and then it is the new one that is closed. -/
theorem Ousts.current (hm : m.Filed) (h : m.Ousts a old) :
    ∃ fp name sid trust path, a = .welcome fp name sid trust path ∧
      m.conns.lookup fp = some old ∧ 0 < (m.heap.get old).unanswered := by
  obtain ⟨⟨fp, name, sid, trust, path, rfl⟩, hlt, hann, hopen, hdone⟩ := h
  refine ⟨fp, name, sid, trust, path, rfl, ?_⟩
  dsimp only [advance] at hdone
  -- of the three outcomes only a replacement closes a connection that was there before
  rcases welcome_cases hm (newConn fp name sid trust path) with heq | ⟨-, heq⟩ |
    ⟨cur, hcur, hrep, heq⟩
  · rw [heq, get_refuse hlt, hopen] at hdone
    cases hdone
  · rw [heq] at hdone
    dsimp only at hdone
    rw [Heap.get_alloc_of_lt _ _ hlt, hopen] at hdone
    cases hdone
  · have heq' : old = cur := by
      by_contra hne
      rw [heq] at hdone
      dsimp only at hdone
      rw [Heap.get_modify_of_ne _ _ hne, Heap.get_alloc_of_lt _ _ hlt, hopen] at hdone
      cases hdone
    subst heq'
    exact ⟨hcur, Nat.pos_of_ne_zero fun hzero => hrep.1 ⟨hann, hzero⟩⟩

end Manager

/-- **An announced connection that is replaced has missed a ping when the next one was sent**, in
every run in which no connection is registered while an announced one waits for the answer to a
single ping. The count is then two at least, and `missed_of_since` finds the two ticks in the
history. -/
theorem replaced_after_miss {acts : List LinkAct} {m m' : Manager} {a : LinkAct} {old : ℕ}
    (hrun : Run Manager.StepSpaced ({} : Node).mgr acts m) (hstep : m.StepSpaced a m')
    (h : m.Ousts a old) : Missed acts old := by
  have hcounted : Counted acts m :=
    hrun.invariant_trace Counted .start fun _ _ _ _ hc hs => hc.step hs.1
  obtain ⟨fp, name, sid, trust, path, rfl, hcur, hpos⟩ := h.current hcounted.filed
  obtain ⟨-, hlt, hann, hopen, -⟩ := h
  have hne : (m.heap.get old).unanswered ≠ 1 := hstep.2 old hcur hann
  obtain ⟨hsent, hsince⟩ := hcounted.live old hlt hopen
  exact missed_of_since hsent (by omega)

def secondPath : LinkAct := .welcome [1] [65] 9 .unverified .direct

def missedActs : List LinkAct :=
  [.welcome [1] [65] 5 .unverified .relay, .announce 0, .tick 0 true, .tick 0 true]

theorem replaced_after_miss_twice : ∃ m m' : Manager,
    Run Manager.StepSpaced ({} : Node).mgr missedActs m ∧ m.StepSpaced secondPath m' ∧
      m.Ousts secondPath 0 ∧ Missed missedActs 0 := by
  obtain ⟨m, hrun, hspaced, hlt, hann, hopen, hdone⟩ :
      ∃ m, Run Manager.StepSpaced ({} : Node).mgr missedActs m ∧
        (m.Spaced secondPath ∧ 0 < m.heap.next ∧ (m.heap.get 0).announced = true ∧
          (m.heap.get 0).done = false ∧ ((m.advance secondPath).heap.get 0).done = true) :=
    exists_run_guarded _ (by decide +kernel)
  have hstep : m.StepSpaced secondPath (m.advance secondPath) := ⟨if_pos trivial, hspaced⟩
  have hout : m.Ousts secondPath 0 := ⟨⟨_, _, _, _, _, rfl⟩, hlt, hann, hopen, hdone⟩
  exact ⟨m, _, hrun, hstep, hout, replaced_after_miss hrun hstep hout⟩

theorem Missed.two_ticks {acts : List LinkAct} {c : ℕ} (h : Missed acts c) :
    2 ≤ acts.countP fun a => a = .tick c true ∨ a = .tick c false := by
  obtain ⟨pre, mid, post, queued, rfl, -⟩ := h
  rcases queued with _ | _ <;>
    simp only [List.countP_append, List.countP_cons, reduceCtorEq, LinkAct.tick.injEq, true_and,
      or_true, true_or, decide_true, if_true] <;> omega

def pingedActs : List LinkAct :=
  [.welcome [1] [65] 5 .unverified .relay, .announce 0, .tick 0 true]

/-- **A connection that answers every ping is replaced**, because its pong is still on the way.
This is why the condition of `replaced_after_miss` is there: one unanswered ping is enough for
`register`. -/
theorem answering_replaced : ∃ m : Manager,
    Run (ofNext Manager.link) ({} : Node).mgr pingedActs m ∧ m.Ousts secondPath 0 ∧
      ¬Missed pingedActs 0 := by
  obtain ⟨m, hrun, hlt, hann, hopen, hdone⟩ :
      ∃ m, Run (ofNext Manager.link) ({} : Node).mgr pingedActs m ∧
        (0 < m.heap.next ∧ (m.heap.get 0).announced = true ∧
          (m.heap.get 0).done = false ∧ ((m.advance secondPath).heap.get 0).done = true) :=
    exists_run_of_any _ (by decide +kernel)
  refine ⟨m, hrun, ⟨⟨_, _, _, _, _, rfl⟩, hlt, hann, hopen, hdone⟩, fun hmissed => ?_⟩
  exact absurd hmissed.two_ticks (by decide)

/-! ## What the user is told

The user is told when a peer connects, once its connection is announced, and when it disconnects.
Read peer by peer, the two should alternate, and they do as long as no announced connection is
replaced. -/

def Event.connected : Event → Bool
  | .peerConnected _ _ _ _ => true
  | .peerDisconnected _ _ _ _ => false

def Event.fingerprint : Event → GoString
  | .peerConnected _ fp _ _ | .peerDisconnected _ fp _ _ => fp

/-- Whether the peer has connected or disconnected, event by event. -/
def Manager.told (m : Manager) (fp : GoString) : List Bool :=
  (m.events.filter fun e => e.fingerprint = fp).map Event.connected

/-- A peer that was not connected connects, disconnects, connects and so on. -/
def Alternates (l : List Bool) : Prop := (false :: l).IsChain (· ≠ ·)

instance (l : List Bool) : Decidable (Alternates l) :=
  inferInstanceAs (Decidable ((false :: l).IsChain (· ≠ ·)))

theorem alternates_snoc {l : List Bool} {b : Bool} :
    Alternates (l ++ [b]) ↔ Alternates l ∧ b ≠ l.getLastD false := by
  rw [Alternates, Alternates, ← List.cons_append, List.isChain_append, List.getLast?_cons,
    List.getLastD_eq_getLast?]
  simp [eq_comm]

namespace Manager

variable {m m' : Manager} {a : LinkAct} {c d : ℕ} {fp : GoString}

theorem told_of_events (h : m'.events = m.events) (fp : GoString) : m'.told fp = m.told fp := by
  rw [told, told, h]

theorem told_emit {e : Event} (h : m'.events = m.events ++ [e]) (fp : GoString) :
    m'.told fp = if e.fingerprint = fp then m.told fp ++ [e.connected] else m.told fp := by
  rw [told, told, h, List.filter_append, List.map_append]
  split_ifs with hfp
  · simp [hfp]
  · simp [hfp]

/-- The user knows of the connection to the peer that is in use. -/
def Shown (m : Manager) (fp : GoString) : Prop :=
  ∃ c, m.conns.lookup fp = some c ∧ (m.heap.get c).announced = true

/-- What the user is told alternates and is true: the last word is that the peer has connected
exactly while an announced connection to it is in use, and every open announced one is. -/
structure Told (m : Manager) : Prop where
  filed : m.Filed
  live : ∀ c < m.heap.next, (m.heap.get c).announced = true → (m.heap.get c).done = false →
    m.conns.lookup (m.heap.get c).fp = some c
  alternates : ∀ fp, Alternates (m.told fp)
  last : ∀ fp, (m.told fp).getLastD false = true ↔ m.Shown fp

/-- No announced connection is replaced. -/
def Lasting (m : Manager) : LinkAct → Prop
  | .welcome fp _ _ _ _ => ∀ old ∈ m.conns.lookup fp, (m.heap.get old).announced = true →
      (m.heap.get old).unanswered = 0
  | .announce _ | .tick _ _ | .pong _ | .dropConn _ => True

instance (m : Manager) (a : LinkAct) : Decidable (m.Lasting a) :=
  match a with
  | .welcome fp _ _ _ _ => inferInstanceAs (Decidable (∀ old ∈ m.conns.lookup fp, _ → _))
  | .announce _ | .tick _ _ | .pong _ | .dropConn _ => inferInstanceAs (Decidable True)

theorem Told.start : ({} : Node).mgr.Told where
  filed := .start
  live c hc := absurd hc (Nat.not_lt_zero c)
  alternates _ := List.isChain_singleton _
  last fp := by
    refine iff_of_false (by simp [told]) ?_
    rintro ⟨c, hc, -⟩
    exact absurd hc (by simp)

theorem shown_congr (hconns : m'.conns.lookup fp = m.conns.lookup fp)
    (hann : ∀ c, m.conns.lookup fp = some c →
      (m'.heap.get c).announced = (m.heap.get c).announced) : m'.Shown fp ↔ m.Shown fp := by
  rw [Shown, Shown, hconns]
  refine exists_congr fun c => and_congr_right fun hc => ?_
  rw [hann c hc]

theorem shown_of_lookup (hc : m.conns.lookup fp = some c) :
    m.Shown fp ↔ (m.heap.get c).announced = true := by
  rw [Shown, hc]
  simp

theorem Told.quiet (h : m.Told) (hfiled : m'.Filed) (hevents : m'.events = m.events)
    (hshown : ∀ fp, m'.Shown fp ↔ m.Shown fp)
    (hlive : ∀ c < m'.heap.next, (m'.heap.get c).announced = true → (m'.heap.get c).done = false →
      m'.conns.lookup (m'.heap.get c).fp = some c) : m'.Told where
  filed := hfiled
  live := hlive
  alternates fp := by
    rw [told_of_events hevents]
    exact h.alternates fp
  last fp := by
    rw [told_of_events hevents, h.last, hshown]

/-- A step that tells of one peer that it has connected or disconnected, and makes it so. The
event is true after the step and was not before, so it differs from the last one. -/
theorem Told.speak (h : m.Told) (hfiled : m'.Filed) {e : Event}
    (hevents : m'.events = m.events ++ [e])
    (hbefore : m.Shown e.fingerprint ↔ e.connected = false)
    (hafter : m'.Shown e.fingerprint ↔ e.connected = true)
    (hother : ∀ fp, fp ≠ e.fingerprint → (m'.Shown fp ↔ m.Shown fp))
    (hlive : ∀ c < m'.heap.next, (m'.heap.get c).announced = true → (m'.heap.get c).done = false →
      m'.conns.lookup (m'.heap.get c).fp = some c) : m'.Told where
  filed := hfiled
  live := hlive
  alternates fp := by
    rw [told_emit hevents]
    split_ifs with hfp
    · subst hfp
      -- the last word was the opposite, by what was shown before
      refine alternates_snoc.mpr ⟨h.alternates _, fun heq => ?_⟩
      have hlast := h.last e.fingerprint
      rw [← heq, hbefore] at hlast
      revert hlast
      rcases e.connected <;> simp
    · exact h.alternates fp
  last fp := by
    rw [told_emit hevents]
    split_ifs with hfp
    · subst hfp
      rw [List.getLastD_concat, hafter]
    · rw [h.last, hother fp (Ne.symm hfp)]

theorem Told.modify (h : m.Told) {f : Conn → Conn}
    (hf : ∀ x, (f x).fp = x.fp ∧ (f x).announced = x.announced ∧ (f x).done = x.done)
    (hfiled : ({ m with heap := m.heap.modify c f } : Manager).Filed) :
    ({ m with heap := m.heap.modify c f } : Manager).Told := by
  have hfp := m.heap.get_modify_congr (a := c) f fun x => (hf x).1
  have hann := m.heap.get_modify_congr (a := c) f fun x => (hf x).2.1
  have hdone := m.heap.get_modify_congr (a := c) f fun x => (hf x).2.2
  refine h.quiet hfiled rfl (fun fp => ?_) fun d hd ha ho => ?_
  · simp only [Shown, hann]
  · dsimp only at ha ho ⊢
    rw [hann] at ha
    rw [hdone] at ho
    rw [hfp]
    exact h.live d hd ha ho

theorem announce_speaks (m : Manager) (c : ℕ) :
    m.announce c = m ∨
      (m.conns.lookup (m.heap.get c).fp = some c ∧ (m.heap.get c).announced = false ∧
        m.announce c = ({ m with heap := m.heap.modify c Conn.setAnnounced } : Manager).emit
          (.peerConnected (m.heap.get c).name (m.heap.get c).fp (m.heap.get c).trust
            (m.heap.get c).path)) := by
  unfold Manager.announce
  dsimp only
  split_ifs with hdone hcur
  · exact .inl rfl
  · exact .inr ⟨hcur.1, hcur.2, rfl⟩
  · exact .inl rfl

/-- `announce` keeps the invariant: it speaks only of a connection in use that was not shown. -/
theorem Told.announce (h : m.Told) : (m.announce c).Told := by
  have hfiled : (m.announce c).Filed := h.filed.advance (.announce c)
  rcases announce_speaks m c with heq | ⟨hcur, hann, heq⟩
  · rw [heq]
    exact h
  rw [heq] at hfiled ⊢
  have hfp : ∀ d, ((m.heap.modify c Conn.setAnnounced).get d).fp = (m.heap.get d).fp :=
    m.heap.get_modify_congr _ fun _ => rfl
  have hsame : ∀ d, d ≠ c → (m.heap.modify c Conn.setAnnounced).get d = m.heap.get d :=
    fun d => Heap.get_modify_of_ne _ _
  -- not shown before, shown after, and no other peer is affected
  refine h.speak hfiled rfl ?_ ?_ (fun fp hne => ?_) fun d hd ha ho => ?_
  · rw [show Event.fingerprint _ = (m.heap.get c).fp from rfl, shown_of_lookup hcur, hann]
    simp [Event.connected]
  · rw [show Event.fingerprint _ = (m.heap.get c).fp from rfl]
    refine iff_of_true ⟨c, hcur, ?_⟩ rfl
    dsimp only [emit]
    rw [Heap.get_modify_self]
    rfl
  · refine shown_congr rfl fun d hd => ?_
    dsimp only [emit]
    rw [hsame d]
    rintro rfl
    exact hne (h.filed.conns fp d hd).2.1.symm
  · dsimp only [emit] at ha ho ⊢
    rw [hfp]
    by_cases hdc : d = c
    · rw [hdc]
      exact hcur
    · rw [hsame d hdc] at ha ho
      exact h.live d hd ha ho

theorem dropConn_events (hopen : (m.heap.get c).done = false) :
    (m.dropConn c).events = if (m.heap.get c).announced = true then
      m.events ++ [.peerDisconnected (m.heap.get c).name (m.heap.get c).fp (m.heap.get c).trust
        (m.heap.get c).path] else m.events := by
  have hclose : (m.heap.get c).close = { m.heap.get c with done := true, closed := true } :=
    if_neg (by simp [hopen])
  unfold Manager.dropConn unregister
  rw [if_neg (by simp [hopen])]
  dsimp only
  split_ifs <;> simp_all [emit]

theorem lookup_dropConn_of_ne (hopen : (m.heap.get c).done = false) (hd : d ≠ c) :
    (m.dropConn c).conns.lookup fp = some d ↔ m.conns.lookup fp = some d := by
  rw [(dropConn_cases m c hopen).2]
  split_ifs with hcur
  · refine ⟨fun hlookup => (Maps.lookup_of_erase _ hlookup).1, fun hlookup => ?_⟩
    rw [AList.lookup_erase_ne, hlookup]
    rintro rfl
    exact hd (Option.some.inj (hlookup.symm.trans hcur))
  · rfl

theorem shown_dropConn (hfiled : (m.dropConn c).Filed) (hopen : (m.heap.get c).done = false) :
    (m.dropConn c).Shown fp ↔ m.Shown fp ∧ m.conns.lookup fp ≠ some c := by
  constructor
  · rintro ⟨d, hlookup, ha⟩
    -- what the map holds is open, so it is not the one that was dropped
    obtain ⟨hne, hsame⟩ := dropConn_open (hfiled.conns fp d hlookup).2.2.1
    rw [hsame] at ha
    have hbefore := (lookup_dropConn_of_ne hopen hne).mp hlookup
    refine ⟨⟨d, hbefore, ha⟩, fun hcur => hne ?_⟩
    exact Option.some.inj (hbefore.symm.trans hcur)
  · rintro ⟨⟨d, hlookup, ha⟩, hcur⟩
    have hne : d ≠ c := fun hdc => hcur (hdc ▸ hlookup)
    refine ⟨d, (lookup_dropConn_of_ne hopen hne).mpr hlookup, ?_⟩
    rwa [(dropConn_cases m c hopen).1, Heap.get_modify_of_ne _ _ hne]

/-- `dropConn` keeps the invariant. A connection that was closed before is left alone, one that
was not announced goes without a word, and an announced one was shown and is so no more. -/
theorem Told.dropConn (h : m.Told) (hc : c < m.heap.next) : (m.dropConn c).Told := by
  have hfiled : (m.dropConn c).Filed := h.filed.advance (.dropConn c)
  by_cases hdone : (m.heap.get c).done = true
  · rw [show m.dropConn c = m from if_pos hdone]
    exact h
  have hopen : (m.heap.get c).done = false := by simpa using hdone
  have hevents := dropConn_events hopen
  have hlive : ∀ d < (m.dropConn c).heap.next, ((m.dropConn c).heap.get d).announced = true →
      ((m.dropConn c).heap.get d).done = false →
      (m.dropConn c).conns.lookup ((m.dropConn c).heap.get d).fp = some d := by
    intro d hd ha ho
    obtain ⟨hne, hget⟩ := dropConn_open ho
    rw [hget] at ha ho ⊢
    rw [next_dropConn] at hd
    exact (lookup_dropConn_of_ne hopen hne).mpr (h.live d hd ha ho)
  -- the user is told of the loss exactly if they were told of the connection
  by_cases hann : (m.heap.get c).announced = true
  · have hcur := h.live c hc hann hopen
    rw [if_pos hann] at hevents
    refine h.speak hfiled hevents ?_ ?_ (fun fp hne => ?_) hlive
    · exact iff_of_true ⟨c, hcur, hann⟩ rfl
    · refine iff_of_false (fun hshow => ?_) (by simp [Event.connected])
      exact ((shown_dropConn hfiled hopen).mp hshow).2 hcur
    · rw [shown_dropConn hfiled hopen]
      refine and_iff_left fun hlookup => hne ?_
      exact (h.filed.conns fp c hlookup).2.1.symm
  · rw [if_neg hann] at hevents
    refine h.quiet hfiled hevents (fun fp => ?_) hlive
    rw [shown_dropConn hfiled hopen, and_iff_left_iff_imp]
    intro hshow hlookup
    exact hann ((shown_of_lookup hlookup).mp hshow)

theorem Told.file (h : m.Told) {x : Conn} (hf : Files m x m') (hfiled : m'.Filed)
    (hevents : m'.events = m.events) (hx : x.announced = false)
    (hopen : ∀ d < m.heap.next, (m'.heap.get d).done = false → m'.heap.get d = m.heap.get d)
    (hfree : ∀ old, m.conns.lookup x.fp = some old → (m.heap.get old).announced = false) :
    m'.Told := by
  have hnext := hf.next
  have hnew : m'.conns.lookup x.fp = some m.heap.next := by
    rw [hf.conns, AList.lookup_insert]
  refine h.quiet hfiled hevents (fun fp => ?_) fun d hd ha ho => ?_
  · -- the user knew of no connection to this peer, and does not know of the new one yet
    by_cases hfp : fp = x.fp
    · subst hfp
      refine iff_of_false ?_ ?_
      · rw [shown_of_lookup hnew, hf.new, hx]
        simp
      · rintro ⟨old, hold, ha⟩
        exact absurd ((hfree old hold).symm.trans ha) (by simp)
    · refine shown_congr (by rw [hf.conns, AList.lookup_insert_ne hfp]) fun d hd => ?_
      obtain ⟨hlt, hfpd, -⟩ := h.filed.conns fp d hd
      rw [hf.same d hlt (by rwa [hfpd])]
  · by_cases hold : d < m.heap.next
    · have hget := hopen d hold ho
      rw [hget] at ha ho ⊢
      have hcur := h.live d hold ha ho
      have hne : (m.heap.get d).fp ≠ x.fp := by
        intro heq
        rw [heq] at hcur
        exact absurd ((hfree d hcur).symm.trans ha) (by simp)
      rw [hf.conns, AList.lookup_insert_ne hne, hcur]
    · obtain rfl : d = m.heap.next := by omega
      rw [hf.new, hx] at ha
      cases ha

theorem Told.welcome (h : m.Told) {fp name : GoString} {sid : UInt64} {trust : TrustLevel}
    {path : Path} (hlasting : m.Lasting (.welcome fp name sid trust path)) :
    (m.welcome (newConn fp name sid trust path)).Told := by
  have hopen := fun d (hd : d < m.heap.next) =>
    welcome_open (x := newConn fp name sid trust path) h.filed hd
  have hfiled : (m.welcome (newConn fp name sid trust path)).Filed :=
    h.filed.advance (.welcome fp name sid trust path)
  rcases welcome_cases h.filed (newConn fp name sid trust path) with heq | ⟨hnone, heq⟩ |
    ⟨old, hold, hrep, heq⟩
  · rw [heq] at hfiled ⊢
    refine h.quiet hfiled rfl (fun fp => ?_) fun d hd ha ho => ?_
    · refine shown_congr rfl fun d hd => ?_
      dsimp only
      rw [get_refuse (h.filed.conns fp d hd).1]
    · dsimp only at hd ha ho ⊢
      by_cases hold : d < m.heap.next
      · rw [get_refuse hold] at ha ho ⊢
        exact h.live d hold ha ho
      · obtain rfl : d = m.heap.next := by
          rw [Heap.next_modify, Heap.next_alloc] at hd
          omega
        rw [Heap.get_modify_self, Heap.get_alloc_next] at ha
        cases ha
  · rw [heq] at hfiled hopen ⊢
    refine h.file (.first _) hfiled rfl rfl hopen fun old hold => ?_
    exact absurd (hnone.symm.trans hold) (by simp)
  · rw [heq] at hfiled hopen ⊢
    -- replaced, so not announced: an announced one that answers is not replaced
    refine h.file (.replace h.filed hold) hfiled rfl rfl hopen fun cur hcur => ?_
    obtain rfl := Option.some.inj (hold.symm.trans hcur)
    by_contra hann
    have hann' : (m.heap.get old).announced = true := by simpa using hann
    exact hrep.1 ⟨hann', hlasting old hold hann'⟩

/-- **One step keeps what the user is told true**, if it does not replace an announced connection.
A tick is a change to the count, after which the connection may be dropped. -/
theorem Told.step (h : m.Told) (hlink : m.link a = some m') (hlasting : m.Lasting a) : m'.Told := by
  obtain ⟨hknown, rfl⟩ := link_eq hlink
  cases a with
  | welcome fp name sid trust path => exact h.welcome hlasting
  | announce c => exact h.announce
  | dropConn c => exact h.dropConn hknown
  | pong c => exact h.modify (fun _ => ⟨rfl, rfl, rfl⟩) (h.filed.advance (.pong c))
  | tick c queued =>
    have hping : ({ m with heap := m.heap.modify c Conn.ping } : Manager).Told :=
      h.modify (fun _ => ⟨rfl, rfl, rfl⟩) (h.filed.step (act_change h.filed (.ping c)))
    dsimp only [advance, tick]
    split_ifs
    · exact hping.dropConn hknown
    · exact hping.dropConn hknown
    · exact hping

def StepLasting (m : Manager) (a : LinkAct) (m' : Manager) :
    Prop := m.link a = some m' ∧ m.Lasting a

end Manager

/-- **Connecting and disconnecting alternate**, and begin with connecting, in every run in which
no connection is replaced after it was announced. The condition is needed: see `connected_twice`. -/
theorem events_alternate {acts : List LinkAct} {m : Manager}
    (hrun : Run Manager.StepLasting ({} : Node).mgr acts m) (fp : GoString) :
    Alternates (m.told fp) := by
  have htold : m.Told := hrun.invariant Manager.Told .start fun _ _ _ h hs => h.step hs.1 hs.2
  exact htold.alternates fp

/-- A peer connects, goes silent until it is dropped, and connects again. -/
def silentActs : List LinkAct :=
  [.welcome [1] [65] 5 .unverified .relay, .announce 0, .tick 0 true, .pong 0, .tick 0 true,
    .tick 0 true, .tick 0 true, .tick 0 true, .welcome [1] [65] 9 .unverified .direct, .announce 1]

theorem events_alternate_reconnected : ∃ m : Manager,
    Run Manager.StepLasting ({} : Node).mgr silentActs m ∧ m.told [1] = [true, false, true] ∧
      Alternates (m.told [1]) := by
  obtain ⟨m, hrun, htold⟩ : ∃ m, Run Manager.StepLasting ({} : Node).mgr silentActs m ∧
      m.told [1] = [true, false, true] :=
    exists_run_guarded _ (by decide +kernel)
  exact ⟨m, hrun, htold, events_alternate hrun [1]⟩

/-- **The peer connects twice and does not disconnect in between**: its first connection was
replaced while a ping was unanswered. The old one is closed by `register` without an event, and
the new one is announced. -/
theorem connected_twice : ∃ m : Manager,
    Run (ofNext Manager.link) ({} : Node).mgr (pingedActs ++ [secondPath, .announce 1]) m ∧
      m.told [1] = [true, true] ∧ ¬Alternates (m.told [1]) :=
  exists_run_of_any _ (by decide +kernel)

end Heimdall.Sessions
