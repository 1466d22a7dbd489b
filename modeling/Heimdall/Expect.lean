/-
Expected connections, `internal/connect/expect.go`.

While a rendezvous is in flight, a connection from one of the peer's addresses is to be treated
like one this side has dialled. `expect` files the options of the rendezvous under each address
that has no entry yet, and remembers the addresses it has filed; withdrawing deletes those. So an
address that two rendezvous share is filed once, for the first of them, and it goes with the first
of them: the second is in flight and a connection from its peer is taken for a stranger's
(`shared_address_forgotten`). As long as no withdrawal takes an address that another call still
waits for, the registry is right (`expected_exactly`).
-/
import Heimdall.GoNet
import Heimdall.Manager
import Heimdall.Maps
import Heimdall.Runs

set_option autoImplicit false

namespace Heimdall.Connect

open Heimdall.GoNet (splitHostPort)
open Heimdall.Peers (GoString)
open Heimdall.Runs

/-! ## Addresses -/

/-- `peerIPs`: the hosts of the addresses, each once. -/
def peerIPs (observed : GoString) (candidates : List GoString) : List GoString :=
  (observed :: candidates).foldl (fun out addr =>
    let host := match splitHostPort addr with
      | some (host, _) => host
      | none => addr
    if addr = [] ∨ host = [] ∨ host ∈ out then out else out ++ [host]) []

/-! ## The registry -/

/-- `session.AdoptOptions`. The pairing key is a slice, so what is passed on is the buffer, by its
address; `onEstablished` is the race whose callback it is. -/
structure AdoptOptions where
  initiator : Bool := false
  pairingKey : Option ℕ := none
  path : Option Sessions.Path := none
  onEstablished : Option ℕ := none
  deriving DecidableEq

structure Expectations where
  byIP : AList fun _ : GoString => AdoptOptions := ∅

namespace Expectations

def hook (e : Expectations) (remote : Option GoString) : Option AdoptOptions :=
  match remote with
  | none => none
  | some addr =>
    match splitHostPort addr with
    | none => none
    | some (host, _) => e.byIP.lookup host

/-- The loop of `expect` over the addresses, with what it has added. -/
def expectLoop (opts : AdoptOptions) : List GoString → Expectations → List GoString →
    Expectations × List GoString
  | [], e, added => (e, added)
  | ip :: ips, e, added =>
    if ip = [] then expectLoop opts ips e added
    else if (e.byIP.lookup ip).isSome then expectLoop opts ips e added
    else expectLoop opts ips { byIP := e.byIP.insert ip opts } (added ++ [ip])

/-- `expect`; what it has added is what the function it returns will delete. -/
def expect (e : Expectations) (ips : List GoString) (opts : AdoptOptions) :
    Expectations × List GoString :=
  expectLoop opts ips e []

def withdraw (e : Expectations) (added : List GoString) : Expectations :=
  { byIP := added.foldl (fun m ip => m.erase ip) e.byIP }

section Spec

variable {e : Expectations} {ips added : List GoString} {opts o : AdoptOptions} {x : GoString}

theorem mem_expectLoop :
    x ∈ (expectLoop opts ips e added).2 ↔
      x ∈ added ∨ (x ∈ ips ∧ x ≠ [] ∧ e.byIP.lookup x = none) := by
  induction ips generalizing e added with
  | nil => simp [expectLoop]
  | cons ip ips ih =>
    rw [expectLoop]
    -- an empty address, one that has an entry, and one that has none
    split_ifs with hnil hhas
    · rw [ih]
      aesop
    · rw [ih]
      aesop
    · rw [ih]
      by_cases hx : x = ip
      · subst hx
        simp_all
      · simp [hx, AList.lookup_insert_ne hx]

/-- `expect` files options under the addresses that have none yet. -/
theorem lookup_expectLoop :
    (expectLoop opts ips e added).1.byIP.lookup x = some o ↔
      e.byIP.lookup x = some o ∨
        (e.byIP.lookup x = none ∧ x ∈ ips ∧ x ≠ [] ∧ o = opts) := by
  induction ips generalizing e added with
  | nil => simp [expectLoop]
  | cons ip ips ih =>
    rw [expectLoop]
    -- the same cases
    split_ifs with hnil hhas
    · rw [ih]
      aesop
    · rw [ih]
      obtain ⟨o', ho'⟩ := Option.isSome_iff_exists.mp hhas
      by_cases hx : x = ip
      · subst hx
        simp [ho']
      · simp [hx]
    · rw [ih]
      by_cases hx : x = ip
      · subst hx
        have hnone : e.byIP.lookup x = none := by simpa using hhas
        simp [hnone, hnil, eq_comm]
      · simp [hx, AList.lookup_insert_ne hx]

/-- What `expect` returns deletes the addresses that this call has filed, and no others. -/
theorem lookup_withdraw :
    (e.withdraw added).byIP.lookup x = some o ↔ e.byIP.lookup x = some o ∧ x ∉ added := by
  unfold withdraw
  dsimp only
  generalize e.byIP = m
  induction added generalizing m with
  | nil => simp
  | cons ip added ih =>
    rw [List.foldl_cons, ih]
    by_cases hx : x = ip
    · subst hx
      simp
    · simp [AList.lookup_erase_ne hx, hx]

end Spec

end Expectations

/-! ## Calls and their withdrawals -/

/-- A call of `expect`: its arguments, what it has added, and whether it has been withdrawn. -/
structure Call where
  ips : List GoString := []
  opts : AdoptOptions := {}
  added : List GoString := []
  outstanding : Bool := false

def Call.over (c : Call) : Call := { c with outstanding := false }

/-- The registry and the calls so far. -/
structure Registry where
  exps : Expectations := {}
  calls : Heap Call := Heap.empty {}

namespace Registry

def expect (r : Registry) (ips : List GoString) (opts : AdoptOptions) : Registry :=
  let (e, added) := r.exps.expect ips opts
  ⟨e, r.calls.alloc ⟨ips, opts, added, true⟩⟩

def withdraw (r : Registry) (k : ℕ) : Registry :=
  ⟨r.exps.withdraw (r.calls.get k).added, r.calls.modify k Call.over⟩

/-- Call `k` has been made and not withdrawn. -/
def Outstanding (r : Registry) (k : ℕ) : Prop :=
  k < r.calls.next ∧ (r.calls.get k).outstanding = true

instance (r : Registry) (k : ℕ) : Decidable (r.Outstanding k) := inferInstanceAs (Decidable (_ ∧ _))

/-- The addresses that outstanding calls have filed are theirs alone, and nothing else is filed. -/
structure Sound (r : Registry) : Prop where
  ips : ∀ k x, r.Outstanding k → x ∈ (r.calls.get k).added → x ∈ (r.calls.get k).ips ∧ x ≠ []
  filed : ∀ k x, r.Outstanding k → x ∈ (r.calls.get k).added →
    r.exps.byIP.lookup x = some (r.calls.get k).opts
  alone : ∀ k j x, r.Outstanding k → r.Outstanding j → x ∈ (r.calls.get k).added →
    x ∈ (r.calls.get j).added → k = j
  source : ∀ x o, r.exps.byIP.lookup x = some o →
    ∃ k, r.Outstanding k ∧ x ∈ (r.calls.get k).added ∧ o = (r.calls.get k).opts

variable {r : Registry} {ips : List GoString} {opts : AdoptOptions} {k j : ℕ}

/-! ### A new call -/

theorem calls_expect : (r.expect ips opts).calls =
    r.calls.alloc ⟨ips, opts, (r.exps.expect ips opts).2, true⟩ := rfl

theorem get_expect_new : (r.expect ips opts).calls.get r.calls.next =
    ⟨ips, opts, (r.exps.expect ips opts).2, true⟩ := Heap.get_alloc_next _ _

theorem get_expect_of_lt (hk : k < r.calls.next) :
    (r.expect ips opts).calls.get k = r.calls.get k := Heap.get_alloc_of_lt _ _ hk

theorem outstanding_expect :
    (r.expect ips opts).Outstanding k ↔ k = r.calls.next ∨ r.Outstanding k := by
  unfold Outstanding
  rw [calls_expect, Heap.next_alloc]
  by_cases hk : k = r.calls.next
  · subst hk
    rw [Heap.get_alloc_next]
    simp
  · rw [Heap.get_alloc_of_ne _ _ hk]
    simp only [hk, false_or]
    refine and_congr_left fun _ => ?_
    omega

theorem lookup_expect {x : GoString} {o : AdoptOptions} :
    (r.expect ips opts).exps.byIP.lookup x = some o ↔ r.exps.byIP.lookup x = some o ∨
      (r.exps.byIP.lookup x = none ∧ x ∈ ips ∧ x ≠ [] ∧ o = opts) :=
  Expectations.lookup_expectLoop

theorem mem_added_expect {x : GoString} :
    x ∈ (r.exps.expect ips opts).2 ↔ x ∈ ips ∧ x ≠ [] ∧ r.exps.byIP.lookup x = none := by
  rw [Expectations.expect, Expectations.mem_expectLoop]
  simp

/-- A call keeps the registry sound: it adds only addresses that nobody has filed. -/
theorem Sound.expect (hr : r.Sound) : (r.expect ips opts).Sound := by
  -- what outstanding calls have filed is not free
  have hnew : ∀ {k x}, r.Outstanding k → x ∈ (r.calls.get k).added →
      r.exps.byIP.lookup x ≠ none := by
    intro k x hk hx hnone
    exact absurd ((hr.filed k x hk hx).symm.trans hnone) (by simp)
  constructor
  case ips =>
    intro k x hk hx
    rcases outstanding_expect.mp hk with rfl | hk
    · rw [get_expect_new] at hx ⊢
      obtain ⟨hips, hne, -⟩ := mem_added_expect.mp hx
      exact ⟨hips, hne⟩
    · rw [get_expect_of_lt hk.1] at hx ⊢
      exact hr.ips k x hk hx
  case filed =>
    intro k x hk hx
    rw [lookup_expect]
    rcases outstanding_expect.mp hk with rfl | hk
    · rw [get_expect_new] at hx ⊢
      obtain ⟨hips, hne, hnone⟩ := mem_added_expect.mp hx
      exact .inr ⟨hnone, hips, hne, rfl⟩
    · rw [get_expect_of_lt hk.1] at hx ⊢
      exact .inl (hr.filed k x hk hx)
  case alone =>
    intro k j x hk hj hxk hxj
    rcases outstanding_expect.mp hk with rfl | hk <;> rcases outstanding_expect.mp hj with rfl | hj
    · rfl
    · rw [get_expect_new] at hxk
      rw [get_expect_of_lt hj.1] at hxj
      exact absurd (mem_added_expect.mp hxk).2.2 (hnew hj hxj)
    · rw [get_expect_new] at hxj
      rw [get_expect_of_lt hk.1] at hxk
      exact absurd (mem_added_expect.mp hxj).2.2 (hnew hk hxk)
    · rw [get_expect_of_lt hk.1] at hxk
      rw [get_expect_of_lt hj.1] at hxj
      exact hr.alone k j x hk hj hxk hxj
  case source =>
    intro x o hx
    rcases lookup_expect.mp hx with hold | ⟨hnone, hips, hne, rfl⟩
    · obtain ⟨k, hk, hxk, ho⟩ := hr.source x o hold
      refine ⟨k, outstanding_expect.mpr (.inr hk), ?_⟩
      rw [get_expect_of_lt hk.1]
      exact ⟨hxk, ho⟩
    · refine ⟨r.calls.next, outstanding_expect.mpr (.inl rfl), ?_⟩
      rw [get_expect_new]
      exact ⟨mem_added_expect.mpr ⟨hips, hne, hnone⟩, rfl⟩

/-! ### A withdrawal -/

theorem get_withdraw_of_ne (hjk : j ≠ k) : (r.withdraw k).calls.get j = r.calls.get j :=
  Heap.get_modify_of_ne _ _ hjk

theorem outstanding_withdraw : (r.withdraw k).Outstanding j ↔ j ≠ k ∧ r.Outstanding j := by
  unfold Outstanding withdraw
  dsimp only
  rw [Heap.next_modify]
  by_cases hjk : j = k
  · subst hjk
    rw [Heap.get_modify_self]
    simp [Call.over]
  · rw [Heap.get_modify_of_ne _ _ hjk]
    simp [hjk]

theorem lookup_withdraw {x : GoString} {o : AdoptOptions} :
    (r.withdraw k).exps.byIP.lookup x = some o ↔
      r.exps.byIP.lookup x = some o ∧ x ∉ (r.calls.get k).added :=
  Expectations.lookup_withdraw

/-- A withdrawal deletes what this call has filed, and what others have filed stays, since no
address was filed by two. -/
theorem Sound.withdraw (hr : r.Sound) (hk : r.Outstanding k) : (r.withdraw k).Sound := by
  constructor
  case ips =>
    intro j x hj hx
    obtain ⟨hjk, hj⟩ := outstanding_withdraw.mp hj
    rw [get_withdraw_of_ne hjk] at hx ⊢
    exact hr.ips j x hj hx
  case filed =>
    intro j x hj hx
    obtain ⟨hjk, hj⟩ := outstanding_withdraw.mp hj
    rw [get_withdraw_of_ne hjk] at hx ⊢
    rw [lookup_withdraw]
    exact ⟨hr.filed j x hj hx, fun hxk => hjk (hr.alone j k x hj hk hx hxk)⟩
  case alone =>
    intro j i x hj hi hxj hxi
    obtain ⟨hjk, hj⟩ := outstanding_withdraw.mp hj
    obtain ⟨hik, hi⟩ := outstanding_withdraw.mp hi
    rw [get_withdraw_of_ne hjk] at hxj
    rw [get_withdraw_of_ne hik] at hxi
    exact hr.alone j i x hj hi hxj hxi
  case source =>
    intro x o hx
    obtain ⟨hold, hxk⟩ := lookup_withdraw.mp hx
    obtain ⟨j, hj, hxj, ho⟩ := hr.source x o hold
    have hjk : j ≠ k := by
      rintro rfl
      exact hxk hxj
    refine ⟨j, outstanding_withdraw.mpr ⟨hjk, hj⟩, ?_⟩
    rw [get_withdraw_of_ne hjk]
    exact ⟨hxj, ho⟩

theorem Sound.start : ({} : Registry).Sound where
  ips _ _ hk := absurd hk.1 (Nat.not_lt_zero _)
  filed _ _ hk := absurd hk.1 (Nat.not_lt_zero _)
  alone _ _ _ hk := absurd hk.1 (Nat.not_lt_zero _)
  source _ _ hx := absurd hx (by simp)

end Registry

/-! ## Runs -/

inductive RegistryAct where
  | expect (ips : List GoString) (opts : AdoptOptions)
  /-- The function that call `k` returned is invoked. -/
  | withdraw (k : ℕ)

namespace Registry

def next (r : Registry) : RegistryAct → Option Registry
  | .expect ips opts => some (r.expect ips opts)
  | .withdraw k => if r.Outstanding k then some (r.withdraw k) else none

/-- No address that goes with a withdrawal is one that another outstanding call waits for. -/
def Apart (r : Registry) : RegistryAct → Prop
  | .expect _ _ => True
  | .withdraw k => ∀ j < r.calls.next, r.Outstanding j → j ≠ k →
      ∀ x ∈ (r.calls.get k).added, x ∉ (r.calls.get j).ips

instance (r : Registry) (a : RegistryAct) : Decidable (r.Apart a) :=
  match a with
  | .expect _ _ => inferInstanceAs (Decidable True)
  | .withdraw k => inferInstanceAs (Decidable (∀ j < r.calls.next, r.Outstanding j → j ≠ k →
      ∀ x ∈ (r.calls.get k).added, x ∉ (r.calls.get j).ips))

def StepApart (r : Registry) (a : RegistryAct) (r' : Registry) : Prop :=
  r.next a = some r' ∧ r.Apart a

/-- Every address that an outstanding call waits for is filed. -/
def Covered (r : Registry) : Prop :=
  ∀ k x, r.Outstanding k → x ∈ (r.calls.get k).ips → x ≠ [] → (r.exps.byIP.lookup x).isSome

variable {r r' : Registry} {a : RegistryAct} {as : List RegistryAct}

theorem Sound.step (hr : r.Sound) (hnext : r.next a = some r') : r'.Sound := by
  cases a with
  | expect ips opts => exact Option.some.inj hnext ▸ hr.expect
  | withdraw k =>
    simp only [next] at hnext
    split_ifs at hnext with hk
    exact Option.some.inj hnext ▸ hr.withdraw hk

/-- A step that takes no address somebody waits for keeps all of them filed. Without that
condition a second call for an address relies on the entry of the first one, and loses it. -/
theorem Covered.step (hc : r.Covered) (hstep : StepApart r a r') : r'.Covered := by
  obtain ⟨hnext, hapart⟩ := hstep
  cases a with
  | expect ips opts =>
    obtain rfl := Option.some.inj hnext
    intro k x hk hx hne
    have hfiled : ∀ o, r.exps.byIP.lookup x = some o →
        ((r.expect ips opts).exps.byIP.lookup x).isSome :=
      fun o ho => Option.isSome_iff_exists.mpr ⟨o, lookup_expect.mpr (.inl ho)⟩
    rcases outstanding_expect.mp hk with rfl | hk
    · rw [get_expect_new] at hx
      -- filed by this call, or by another one before
      rcases hold : r.exps.byIP.lookup x with _ | o
      · exact Option.isSome_iff_exists.mpr ⟨opts, lookup_expect.mpr (.inr ⟨hold, hx, hne, rfl⟩)⟩
      · exact hfiled o hold
    · rw [get_expect_of_lt hk.1] at hx
      obtain ⟨o, ho⟩ := Option.isSome_iff_exists.mp (hc k x hk hx hne)
      exact hfiled o ho
  | withdraw k =>
    simp only [next] at hnext
    split_ifs at hnext
    obtain rfl := Option.some.inj hnext
    intro j x hj hx hne
    obtain ⟨hjk, hj⟩ := outstanding_withdraw.mp hj
    rw [get_withdraw_of_ne hjk] at hx
    obtain ⟨o, ho⟩ := Option.isSome_iff_exists.mp (hc j x hj hx hne)
    refine Option.isSome_iff_exists.mpr ⟨o, lookup_withdraw.mpr ⟨ho, fun hxk => ?_⟩⟩
    exact hapart j hj.1 hj hjk x hxk hx

/-- **Exactly the connections of rendezvous in flight are expected**, in every run in which no
withdrawal takes an address that another outstanding call waits for: `Hook` has an answer for a
connection from address `x` if and only if some outstanding call waits for `x`, and the options it
returns are those of such a call. -/
theorem expected_exactly (hrun : Run StepApart {} as r) {addr x port : GoString}
    (haddr : splitHostPort addr = some (x, port)) (hx : x ≠ []) :
    ((r.exps.hook (some addr)).isSome ↔ ∃ k, r.Outstanding k ∧ x ∈ (r.calls.get k).ips) ∧
    ∀ o, r.exps.hook (some addr) = some o →
      ∃ k, r.Outstanding k ∧ x ∈ (r.calls.get k).ips ∧ o = (r.calls.get k).opts := by
  have hinv : r.Sound ∧ r.Covered := by
    refine hrun.invariant (fun r => r.Sound ∧ r.Covered)
      ⟨.start, fun _ _ hk => absurd hk.1 (Nat.not_lt_zero _)⟩ ?_
    rintro t a u ⟨hs, hc⟩ hstep
    exact ⟨hs.step hstep.1, hc.step hstep⟩
  have hhook : r.exps.hook (some addr) = r.exps.byIP.lookup x := by
    rw [Expectations.hook, haddr]
  have hsource : ∀ o, r.exps.hook (some addr) = some o →
      ∃ k, r.Outstanding k ∧ x ∈ (r.calls.get k).ips ∧ o = (r.calls.get k).opts := by
    intro o ho
    obtain ⟨k, hk, hxk, ho⟩ := hinv.1.source x o (hhook ▸ ho)
    exact ⟨k, hk, (hinv.1.ips k x hk hxk).1, ho⟩
  refine ⟨⟨fun hsome => ?_, ?_⟩, hsource⟩
  · obtain ⟨o, ho⟩ := Option.isSome_iff_exists.mp hsome
    obtain ⟨k, hk, hxk, -⟩ := hsource o ho
    exact ⟨k, hk, hxk⟩
  · rintro ⟨k, hk, hxk⟩
    rw [hhook]
    exact hinv.2 k x hk hxk hx

/-- Two rendezvous share an address, and the one that came second is withdrawn first. -/
def sharedActs : List RegistryAct :=
  [.expect [[49], [50]] { pairingKey := some 0 }, .expect [[50]] { pairingKey := some 1 },
    .withdraw 1]

def fromTwo : GoString := [50, 58, 56, 48]

theorem expected_exactly_shared : ∃ r : Registry, Run StepApart {} sharedActs r ∧
    r.exps.hook (some fromTwo) = some { pairingKey := some 0 } ∧
    ((r.exps.hook (some fromTwo)).isSome ↔ ∃ k, r.Outstanding k ∧ [50] ∈ (r.calls.get k).ips) := by
  obtain ⟨r, hrun, hhook⟩ : ∃ r, Run StepApart {} sharedActs r ∧
      r.exps.hook (some fromTwo) = some { pairingKey := some 0 } := exists_run_guarded _ (by decide)
  have haddr : splitHostPort fromTwo = some ([50], [56, 48]) := by decide
  exact ⟨r, hrun, hhook, (expected_exactly hrun haddr (by decide)).1⟩

/-- **A shared address is forgotten.** The rendezvous that came first is withdrawn; the second is
outstanding and waits for the address, and `Hook` knows nothing of it. -/
theorem shared_address_forgotten : ∃ r : Registry, Run (ofNext next) {}
      [.expect [[50]] { pairingKey := some 0 }, .expect [[50]] { pairingKey := some 1 },
        .withdraw 0] r ∧
    r.Outstanding 1 ∧ [50] ∈ (r.calls.get 1).ips ∧ splitHostPort fromTwo = some ([50], [56, 48]) ∧
    r.exps.hook (some fromTwo) = none :=
  exists_run_of_any (fun r : Registry => r.Outstanding 1 ∧ [50] ∈ (r.calls.get 1).ips ∧
    splitHostPort fromTwo = some ([50], [56, 48]) ∧ r.exps.hook (some fromTwo) = none) (by decide)

end Registry

end Heimdall.Connect
