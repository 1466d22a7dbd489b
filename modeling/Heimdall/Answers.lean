/-
What the trust store answers.

`Verify`, `Reject`, `Get` and `Observe` of a new key take the first record that the scan of the map
meets under a name, and the order of the scan is not specified. So they are well defined exactly as
long as no two records have one name. A new record never takes a name that is in use, but a record
that is known by its key takes whatever name it is presented with, and after that the user who
compares fingerprints and calls `Verify` may verify another record (`verify_picks_either`). Names
stay apart as long as no `Observe` does that (`lookups_unambiguous`).

`Observe`, `Verify` and `Reject` change the record first and save then, and nothing is undone when
saving fails. After an error the store answers as before exactly if the call had nothing to change
(`failed_unchanged_iff`).
-/
import Heimdall.Trust

set_option autoImplicit false

namespace Heimdall.Peers

open Heimdall.Runs

variable {sha256 : List UInt8 → List UInt8} {s s' : Store} {name n : GoString} {a b : ℕ}

namespace Store

def get (s : Store) (order : List GoString) (name : GoString) : Option Peer :=
  (s.findByNameLocked order name).map s.heap.get

/-- `List`: the records, sorted by name. The sort is not stable, but the order of the scan is
arbitrary already. -/
def list (s : Store) (order : List GoString) : List Peer :=
  ((order.filterMap s.peers.lookup).map s.heap.get).mergeSort fun p q => !(q.name < p.name)

/-! ## Which record a scan meets -/

/-- The map leads to the record, and the record has the name. -/
def Named (s : Store) (name : GoString) (a : ℕ) : Prop :=
  (∃ k, s.peers.lookup k = some a) ∧ (s.heap.get a).name = name

/-- At most one record has the name. -/
def UniqueName (s : Store) (name : GoString) :
    Prop := ∀ a b, s.Named name a → s.Named name b → a = b

variable (sha256) in
/-- In either of two orders the operations take the same record for the name: the record that
`Verify` returns, the one that `Reject` changes, the one that `Get` copies and the one that
`Observe` returns. -/
structure SameRecord (s : Store) (name : GoString) (o₁ o₂ : List GoString) : Prop where
  verify : ∀ saved, (s.verify sha256 o₁ name saved).2.1 = (s.verify sha256 o₂ name saved).2.1
  reject : ∀ saved, s.reject o₁ name saved = s.reject o₂ name saved
  get : s.get o₁ name = s.get o₂ name
  observe : ∀ now address pub saved, (s.observe sha256 o₁ now name address pub saved).2.1 =
    (s.observe sha256 o₂ now name address pub saved).2.1

variable (sha256) in
/-- Names lead to one record whatever the order of the scan. -/
def Unambiguous (s : Store) : Prop :=
  ∀ name o₁ o₂, o₁.Perm s.peers.keys → o₂.Perm s.peers.keys → SameRecord sha256 s name o₁ o₂

theorem named_of_find {order : List GoString} (h : s.findByNameLocked order name = some a) :
    s.Named name a :=
  findByNameLocked_eq_some h

theorem not_named_of_find {order : List GoString} (hord : order.Perm s.peers.keys)
    (h : s.findByNameLocked order name = none) : ¬s.Named name a := by
  rintro ⟨⟨k, hk⟩, hname⟩
  exact (findByNameLocked_eq_none hord).mp h k a hk hname

/-- The order of a scan differs from call to call, and every record of the name comes first in
one. -/
theorem exists_order (h : s.Named name a) :
    ∃ order, order.Perm s.peers.keys ∧ s.findByNameLocked order name = some a := by
  obtain ⟨⟨k, hk⟩, hname⟩ := h
  have hmem : k ∈ s.peers.keys := by
    rw [← AList.mem_keys, ← AList.lookup_isSome, hk]
    rfl
  refine ⟨k :: s.peers.keys.erase k, (List.perm_cons_erase hmem).symm, ?_⟩
  rw [findByNameLocked, List.findSome?_cons, hk]
  simp [Option.filter, hname]

/-- If one record at most has the name, all scans meet the same one. -/
theorem UniqueName.find_eq (h : s.UniqueName name) {o₁ o₂ : List GoString}
    (h₁ : o₁.Perm s.peers.keys) (h₂ : o₂.Perm s.peers.keys) :
    s.findByNameLocked o₁ name = s.findByNameLocked o₂ name := by
  rcases hf₁ : s.findByNameLocked o₁ name with _ | a
  · rcases hf₂ : s.findByNameLocked o₂ name with _ | b
    · rfl
    · exact absurd (named_of_find hf₂) (not_named_of_find h₁ hf₁)
  · rcases hf₂ : s.findByNameLocked o₂ name with _ | b
    · exact absurd (named_of_find hf₁) (not_named_of_find h₂ hf₂)
    · rw [h a b (named_of_find hf₁) (named_of_find hf₂)]

theorem verify_record (order : List GoString) (saved : Bool) :
    (s.verify sha256 order name saved).2.1 = s.findByNameLocked order name := by
  unfold verify
  rcases s.findByNameLocked order name with _ | a
  · rfl
  · rfl

/-- **The operations agree in every two orders exactly if every name belongs to one record.** -/
theorem unambiguous_iff : s.Unambiguous sha256 ↔ ∀ name, s.UniqueName name := by
  constructor
  · intro h name a b ha hb
    -- each of two records is met by some order, and `Verify` tells them apart
    obtain ⟨o₁, hperm₁, hfind₁⟩ := exists_order ha
    obtain ⟨o₂, hperm₂, hfind₂⟩ := exists_order hb
    have hsame := (h name o₁ o₂ hperm₁ hperm₂).verify true
    rw [verify_record, verify_record, hfind₁, hfind₂] at hsame
    exact Option.some.inj hsame
  · intro h name o₁ o₂ h₁ h₂
    have hfind := (h name).find_eq h₁ h₂
    refine ⟨fun saved => ?_, fun saved => ?_, ?_, fun now address pub saved => ?_⟩
    · rw [verify_record, verify_record, hfind]
    · rw [reject, reject, hfind]
    · rw [get, get, hfind]
    · rw [observe, observe, hfind]

/-! ## Names along a run -/

/-- The call gives no record that is known by its key the name of another record. -/
def NamesApart (sha256 : List UInt8 → List UInt8) (s : Store) : Event → Prop
  | .observe _ _ name _ pub _ =>
    ∀ a, s.peers.lookup (fingerprintOf sha256 pub) = some a → ∀ b, s.Named name b → b = a
  | .verify _ _ _ _ | .reject _ _ _ | .trustOf _ _ _ => True

theorem UniqueName.of_subset (h : ∀ n, s.UniqueName n)
    (hsub : ∀ n a, s'.Named n a → s.Named n a) (n : GoString) : s'.UniqueName n :=
  fun a b ha hb => h n a b (hsub n a ha) (hsub n b hb)

theorem named_of_modify {f : Peer → Peer} (hf : ∀ p, (f p).name = p.name)
    {m : AList fun _ : GoString => ℕ} (h : Named { heap := s.heap.modify a f, peers := m } n b)
    (hm : ∀ k, m.lookup k = some b → ∃ k', s.peers.lookup k' = some b) : s.Named n b := by
  obtain ⟨⟨k, hk⟩, hname⟩ := h
  exact ⟨hm k hk, (s.heap.get_modify_congr f hf b).symm.trans hname⟩

theorem named_modify {f : Peer → Peer} (hf : ∀ p, (f p).name = p.name)
    (h : Named { s with heap := s.heap.modify a f } n b) : s.Named n b :=
  named_of_modify hf h fun k hk => ⟨k, hk⟩

theorem uniqueName_renamed {f : Peer → Peer} (hf : ∀ p, (f p).name = name)
    (ha : ∃ k, s.peers.lookup k = some a) (h : ∀ n, s.UniqueName n) :
    (∀ n, UniqueName { s with heap := s.heap.modify a f } n) ↔ ∀ b, s.Named name b → b = a := by
  have hself : Named { s with heap := s.heap.modify a f } name a :=
    ⟨ha, by rw [Heap.get_modify_self, hf]⟩
  have hother : ∀ {n b}, b ≠ a → (Named { s with heap := s.heap.modify a f } n b ↔
      s.Named n b) := by
    intro n b hb
    unfold Named
    dsimp only
    rw [Heap.get_modify_of_ne _ _ hb]
  constructor
  · intro hall b hb
    by_contra hne
    exact hne (hall name b a ((hother hne).mpr hb) hself)
  · intro hfree
    -- the record itself now has the name, and of the others only those that had it
    have hown : ∀ n b, Named { s with heap := s.heap.modify a f } n a →
        Named { s with heap := s.heap.modify a f } n b → b = a := by
      intro n b hna hnb
      by_contra hne
      have hn : n = name := by
        rw [← hna.2]
        dsimp only
        rw [Heap.get_modify_self, hf]
      subst hn
      exact hne (hfree b ((hother hne).mp hnb))
    intro n x y hx hy
    by_cases hxa : x = a
    · subst hxa
      exact (hown n y hx hy).symm
    · by_cases hya : y = a
      · subst hya
        exact hown n x hy hx
      · exact h n x y ((hother hxa).mp hx) ((hother hya).mp hy)

theorem named_verify {order : List GoString} {saved : Bool}
    (h : (s.verify sha256 order name saved).1.Named n b) : s.Named n b := by
  rcases hfind : s.findByNameLocked order name with _ | a
  · simpa only [verify, hfind] using h
  · have ha := (named_of_find hfind).1
    simp only [verify, hfind] at h
    have hflag := named_modify (fun p => by rfl) h
    split_ifs at hflag with hpending
    · refine named_of_modify (fun p => by rfl) hflag fun k hk => ?_
      rcases (Maps.lookup_insert_iff _).mp hk with ⟨-, rfl⟩ | ⟨-, hold⟩
      · exact ha
      · exact ⟨k, (Maps.lookup_of_erase _ hold).1⟩
    · exact hflag

theorem Wf.named_new (hwf : s.Wf sha256) {k : GoString} {p : Peer}
    (h : Named { heap := s.heap.alloc p, peers := s.peers.insert k s.heap.next } n b) :
    (b = s.heap.next ∧ p.name = n) ∨ s.Named n b := by
  obtain ⟨⟨k', hk'⟩, hname⟩ := h
  rcases (Maps.lookup_insert_iff _).mp hk' with ⟨-, rfl⟩ | ⟨-, hold⟩
  · exact .inl ⟨rfl, by simpa using hname⟩
  · refine .inr ⟨⟨k', hold⟩, ?_⟩
    rwa [← Heap.get_alloc_of_lt _ p (hwf.bound k' b hold)]

theorem Wf.uniqueName_new (hwf : s.Wf sha256) (h : ∀ n, s.UniqueName n) {k : GoString} {p : Peer}
    (hfree : ∀ b, ¬s.Named p.name b) (n : GoString) :
    UniqueName { heap := s.heap.alloc p, peers := s.peers.insert k s.heap.next } n := by
  intro x y hx hy
  rcases hwf.named_new hx with ⟨hxa, rfl⟩ | hx
  · rcases hwf.named_new hy with ⟨hya, -⟩ | hy
    · rw [hxa, hya]
    · exact absurd hy (hfree y)
  · rcases hwf.named_new hy with ⟨-, rfl⟩ | hy
    · exact absurd hx (hfree x)
    · exact h n x y hx hy

/-- **One call**, from a store whose names are apart: they are apart afterwards exactly if the
call keeps them apart. Only `Observe` of a known key can give a record another name. -/
theorem Wf.uniqueNames_step (hwf : s.Wf sha256) (h : ∀ n, s.UniqueName n) {ev : Event}
    (hstep : s.Step sha256 ev s') : (∀ n, s'.UniqueName n) ↔ s.NamesApart sha256 ev := by
  obtain ⟨hord, hstep⟩ := hstep
  cases ev with
  | observe order now name address pub saved =>
    replace hstep : s' = (s.observe sha256 order now name address pub saved).1 := hstep
    subst hstep
    -- a new key is filed or kept as pending; a known one may be renamed
    rcases hid : s.peers.lookup (fingerprintOf sha256 pub) with _ | a
    · refine iff_of_true ?_ (fun a ha => absurd (hid.symm.trans ha) (by simp))
      rcases hfind : s.findByNameLocked order name with _ | a
      · simp only [observe, hid, hfind]
        exact hwf.uniqueName_new h fun b => not_named_of_find hord hfind
      · simp only [observe, hid, hfind]
        exact UniqueName.of_subset h fun _ _ => named_modify fun _ => rfl
    · simp only [observe, hid, NamesApart, Option.some.injEq, forall_eq']
      exact uniqueName_renamed (fun _ => rfl) ⟨_, hid⟩ h
  | verify order name saved ret =>
    replace hstep := hstep.1
    subst hstep
    exact iff_of_true (UniqueName.of_subset h fun _ _ => named_verify) trivial
  | reject order name saved =>
    replace hstep : s' = (s.reject order name saved).1 := hstep
    subst hstep
    refine iff_of_true ?_ trivial
    rcases hfind : s.findByNameLocked order name with _ | a
    · simp only [reject, hfind]
      exact h
    · simp only [reject, hfind]
      exact UniqueName.of_subset h fun _ _ => named_modify fun _ => rfl
  | trustOf order name pub =>
    replace hstep : s' = s := hstep
    subst hstep
    exact iff_of_true h trivial

/-- A call that keeps names apart. -/
def StepApart (sha256 : List UInt8 → List UInt8) (s : Store) (ev : Event) (s' : Store) : Prop :=
  s.Step sha256 ev s' ∧ s.NamesApart sha256 ev

/-- Names are unique in the empty store, and every call but one kind keeps them so: an `Observe`
that gives a known record a name which another record has. -/
theorem namesApart_run {evs : List Event} (hrun : Run (StepApart sha256) {} evs s) :
    Inv sha256 evs s ∧ ∀ n, s.UniqueName n := by
  refine hrun.invariant_trace (fun evs s => Inv sha256 evs s ∧ ∀ n, s.UniqueName n)
    ⟨Inv.of_run .nil, ?_⟩ ?_
  · rintro n a b ⟨⟨k, hk⟩, -⟩
    exact absurd hk (by simp)
  · rintro evs t ev u ⟨hinv, hunique⟩ ⟨hstep, hapart⟩
    exact ⟨hinv.step hstep, (hinv.toWf.uniqueNames_step hunique hstep).mpr hapart⟩

end Store

/-- **As long as no known record takes the name of another one, name lookups are unambiguous**,
and the first call that does not keep to this makes them ambiguous. -/
theorem lookups_unambiguous {evs : List Event} (hrun : Run (Store.StepApart sha256) {} evs s) :
    s.Unambiguous sha256 ∧ ∀ ev s', s.Step sha256 ev s' →
      (s'.Unambiguous sha256 ↔ s.NamesApart sha256 ev) := by
  obtain ⟨hinv, hunique⟩ := Store.namesApart_run hrun
  refine ⟨Store.unambiguous_iff.mpr hunique, fun ev s' hstep => ?_⟩
  rw [Store.unambiguous_iff]
  exact hinv.toWf.uniqueNames_step hunique hstep

/-- Alice is known under the first key and Bob under the second. -/
def apartStore : Store :=
  let s := (Store.observe sha256Keys {} [] 0 [97] [] keyOne true).1
  (s.observe sha256Keys s.peers.keys 1 [98] [] keyTwo true).1

theorem apartStore_run : ∃ evs, Run (Store.StepApart sha256Keys) {} evs apartStore := by
  have h₁ : Store.StepApart sha256Keys {} (.observe [] 0 [97] [] keyOne true) _ :=
    ⟨⟨List.Perm.refl _, rfl⟩, fun a ha => absurd ha (by simp)⟩
  have h₂ : Store.StepApart sha256Keys (Store.observe sha256Keys {} [] 0 [97] [] keyOne true).1
      (.observe _ 1 [98] [] keyTwo true) apartStore :=
    ⟨⟨List.Perm.refl _, rfl⟩, fun a ha => absurd ha (by
      rw [show (Store.observe sha256Keys {} [] 0 [97] [] keyOne true).1.peers.lookup
        (fingerprintOf sha256Keys keyTwo) = none from by decide +kernel]
      simp)⟩
  exact ⟨_, .snoc (.snoc .nil h₁) h₂⟩

theorem lookups_unambiguous_apart :
    (∃ evs, Run (Store.StepApart sha256Keys) {} evs apartStore) ∧
      apartStore.get apartStore.peers.keys.reverse [97]
        = apartStore.get apartStore.peers.keys [97] := by
  obtain ⟨evs, hrun⟩ := apartStore_run
  exact ⟨⟨evs, hrun⟩,
    ((lookups_unambiguous hrun).1 [97] _ _ (List.reverse_perm _) (List.Perm.refl _)).get⟩

def namesakeStore : Store :=
  (apartStore.observe sha256Keys apartStore.peers.keys 2 [97] [] keyTwo true).1

/-- **Two records have one name**, and the order of the scan decides which of them `Verify` marks,
whichever of them `Get` has shown. -/
theorem verify_picks_either :
    (∃ evs, Run (Store.Step sha256Keys) {} evs namesakeStore) ∧
      namesakeStore.peers.keys.reverse.Perm namesakeStore.peers.keys ∧
      (namesakeStore.verify sha256Keys namesakeStore.peers.keys [97] true).2 = (some 1, none) ∧
      (namesakeStore.verify sha256Keys namesakeStore.peers.keys.reverse [97] true).2
        = (some 0, none) ∧
      (namesakeStore.get namesakeStore.peers.keys [97]).map Peer.publicKey = some keyTwo ∧
      (namesakeStore.get namesakeStore.peers.keys.reverse [97]).map Peer.publicKey
        = some keyOne := by
  obtain ⟨evs, hrun⟩ := apartStore_run
  have hlast : Store.Step sha256Keys apartStore (.observe _ 2 [97] [] keyTwo true) namesakeStore :=
    ⟨List.Perm.refl _, rfl⟩
  refine ⟨⟨_, .snoc (hrun.mono fun _ _ _ h => h.1) hlast⟩, List.reverse_perm _, ?_, ?_, ?_, ?_⟩
  all_goals decide +kernel

/-! ## What a failed call leaves behind -/

namespace Store

/-- The calls that change the store. -/
inductive Mutation where
  | observe (order : List GoString) (now : ℕ) (name address : GoString) (pub : List UInt8)
  | verify (order : List GoString) (name : GoString)
  | reject (order : List GoString) (name : GoString)

/-- The store after a call, and the error it returned. -/
def apply (sha256 : List UInt8 → List UInt8) (s : Store) (m : Mutation) (saved : Bool) :
    Store × Option StoreErr :=
  match m with
  | .observe order now name address pub =>
    ((s.observe sha256 order now name address pub saved).1,
      (s.observe sha256 order now name address pub saved).2.2.2)
  | .verify order name =>
    ((s.verify sha256 order name saved).1, (s.verify sha256 order name saved).2.2)
  | .reject order name => s.reject order name saved

/-- `r` is what a query may answer, for some order of the scan. -/
def Possible {β : Type} (s : Store) (query : List GoString → β) (r : β) : Prop :=
  ∃ order, order.Perm s.peers.keys ∧ query order = r

/-- Two stores give the same answers. -/
structure SameAnswers (sha256 : List UInt8 → List UInt8) (s s' : Store) : Prop where
  trustOf : ∀ name pub r, s.Possible (fun order => s.trustOf sha256 order name pub) r ↔
    s'.Possible (fun order => s'.trustOf sha256 order name pub) r
  get : ∀ name r, s.Possible (fun order => s.get order name) r ↔
    s'.Possible (fun order => s'.get order name) r
  list : ∀ r, s.Possible s.list r ↔ s'.Possible s'.list r

theorem SameAnswers.refl (s : Store) : SameAnswers sha256 s s :=
  ⟨fun _ _ _ => Iff.rfl, fun _ _ => Iff.rfl, fun _ => Iff.rfl⟩

/-- The call has something to change: a record is new, a known record is presented with another
name, address or time or has a pending key, a new key is presented, a record is not verified or has
a pending key, or there is a pending key to discard. -/
def Touches (sha256 : List UInt8 → List UInt8) (s : Store) : Mutation → Prop
  | .observe order now name address pub =>
    match s.peers.lookup (fingerprintOf sha256 pub), s.findByNameLocked order name with
    | some a, _ =>
      ¬((s.heap.get a).name = name ∧ (address = [] ∨ (s.heap.get a).address = address) ∧
        (s.heap.get a).lastSeen = now ∧ (s.heap.get a).pendingKey = [])
    | none, some a => ¬((s.heap.get a).pendingKey = pub ∧ (s.heap.get a).lastSeen = now)
    | none, none => True
  | .verify order name => ∃ a, s.findByNameLocked order name = some a ∧
      ((s.heap.get a).pendingKey ≠ [] ∨ (s.heap.get a).verified = false)
  | .reject order name =>
    ∃ a, s.findByNameLocked order name = some a ∧ (s.heap.get a).pendingKey ≠ []

/-- The records that the map leads to. -/
def records (s : Store) : List Peer := s.peers.entries.map fun e => s.heap.get e.2

theorem list_perm {order : List GoString} (hord : order.Perm s.peers.keys) :
    (s.list order).Perm s.records := by
  have hvalues : s.peers.keys.filterMap s.peers.lookup = s.peers.entries.map Sigma.snd := by
    rw [AList.keys, List.keys, List.filterMap_map, ← List.filterMap_eq_map]
    refine List.filterMap_congr fun e he => ?_
    exact (Maps.lookup_eq_some_iff _).mpr he
  refine (List.mergeSort_perm _ _).trans ?_
  have hperm := ((hord.filterMap s.peers.lookup).map s.heap.get)
  rw [hvalues, List.map_map] at hperm
  exact hperm

theorem SameAnswers.perm (h : SameAnswers sha256 s s') : s.records.Perm s'.records := by
  obtain ⟨order, hord, hlist⟩ := (h.list (s.list s.peers.keys)).mp ⟨_, List.Perm.refl _, rfl⟩
  have hs := list_perm (s := s) (List.Perm.refl s.peers.keys)
  rw [← hlist] at hs
  exact hs.symm.trans (list_perm hord)

/-- Where a record has changed, there is one less of what it was: the entries that lead elsewhere
are old ones, and those records are as they were. -/
theorem not_sameAnswers_of_changed (ha : ∃ k, s.peers.lookup k = some a)
    (hne : s'.heap.get a ≠ s.heap.get a) (hframe : ∀ b, b ≠ a → s'.heap.get b = s.heap.get b)
    (hsub : (s'.peers.entries.filter fun e => e.2 ≠ a).Sublist s.peers.entries) :
    ¬SameAnswers sha256 s s' := by
  intro h
  have hcount := h.perm.count_eq (s.heap.get a)
  -- no entry of the new map leads to the old record at `a`
  have hafter : s'.records.count (s.heap.get a)
      = (s'.peers.entries.filter fun e => e.2 ≠ a).countP fun e =>
        s.heap.get e.2 == s.heap.get a := by
    rw [records, List.count_eq_countP, List.countP_map, List.countP_filter]
    refine List.countP_congr fun e _ => ?_
    by_cases hea : e.2 = a
    · simp [hea, hne]
    · simp [hframe _ hea, hea]
  have hle : s'.records.count (s.heap.get a)
      ≤ (s.peers.entries.filter fun e => e.2 ≠ a).countP fun e =>
        s.heap.get e.2 == s.heap.get a := by
    rw [hafter]
    have hsub' := hsub.filter fun e => e.2 ≠ a
    rw [List.filter_filter] at hsub'
    simp only [Bool.and_self] at hsub'
    exact hsub'.countP_le
  have hbefore : s.records.count (s.heap.get a)
      = s.peers.entries.countP fun e => s.heap.get e.2 == s.heap.get a := by
    rw [records, List.count_eq_countP, List.countP_map]
    rfl
  have hpos : 0 < (s.peers.entries.filter fun e => !decide (e.2 ≠ a)).countP
      fun e => s.heap.get e.2 == s.heap.get a := by
    obtain ⟨k, hk⟩ := ha
    refine List.countP_pos_iff.mpr ⟨⟨k, a⟩, List.mem_filter.mpr ⟨?_, by simp⟩, by simp⟩
    exact (Maps.lookup_eq_some_iff _).mp hk
  rw [List.countP_eq_countP_filter_add _ _ fun e => e.2 ≠ a] at hbefore
  omega

theorem not_sameAnswers_modify (ha : ∃ k, s.peers.lookup k = some a) {f : Peer → Peer}
    (hf : f (s.heap.get a) ≠ s.heap.get a) :
    ¬SameAnswers sha256 s { s with heap := s.heap.modify a f } :=
  not_sameAnswers_of_changed ha (by rwa [Heap.get_modify_self])
    (fun _ hb => Heap.get_modify_of_ne _ _ hb) List.filter_sublist

theorem observe_touches {order : List GoString} {now : ℕ} {address : GoString} {pub : List UInt8}
    (saved : Bool) (h : s.Touches sha256 (.observe order now name address pub)) :
    ¬SameAnswers sha256 s (s.observe sha256 order now name address pub saved).1 := by
  unfold Touches at h
  rcases hid : s.peers.lookup (fingerprintOf sha256 pub) with _ | a
  · rcases hfind : s.findByNameLocked order name with _ | a
    · -- a record more
      intro hsame
      have hlength := hsame.perm.length_eq
      have hnew : fingerprintOf sha256 pub ∉ s.peers := AList.lookup_eq_none.mp hid
      simp only [observe, hid, hfind, records, List.length_map,
        AList.entries_insert_of_notMem hnew, List.length_cons] at hlength
      omega
    · simp only [hid, hfind] at h
      simp only [observe, hid, hfind]
      refine not_sameAnswers_modify (named_of_find hfind).1 fun heq => h ?_
      exact ⟨(congrArg Peer.pendingKey heq).symm, (congrArg Peer.lastSeen heq).symm⟩
  · simp only [hid] at h
    simp only [observe, hid]
    refine not_sameAnswers_modify ⟨_, hid⟩ fun heq => h ?_
    refine ⟨(congrArg Peer.name heq).symm, ?_, (congrArg Peer.lastSeen heq).symm,
      (congrArg Peer.pendingKey heq).symm⟩
    have haddress := congrArg Peer.address heq
    by_cases hnil : address = []
    · exact .inl hnil
    · exact .inr (haddress.symm.trans (if_pos hnil))

theorem verify_touches {order : List GoString} (saved : Bool)
    (h : s.Touches sha256 (.verify order name)) :
    ¬SameAnswers sha256 s (s.verify sha256 order name saved).1 := by
  obtain ⟨a, hfind, htouch⟩ := h
  have ha := (named_of_find hfind).1
  simp only [verify, hfind]
  by_cases hpending : (s.heap.get a).pendingKey ≠ []
  · rw [if_pos hpending]
    refine not_sameAnswers_of_changed ha ?_ (fun b hb => ?_) ?_
    · intro heq
      have hkey := congrArg Peer.pendingKey heq
      simp only [adopt, Heap.get_modify_self] at hkey
      exact hpending hkey.symm
    · simp only [adopt, Heap.get_modify_of_ne _ _ hb]
    · -- the record moves; every other entry is an old one
      have hentries : (s.adopt sha256 a).peers.entries
          = ⟨fingerprintOf sha256 (s.heap.get a).pendingKey, a⟩ ::
            (s.peers.entries.kerase (fingerprintOf sha256 (s.heap.get a).publicKey)).kerase
              (fingerprintOf sha256 (s.heap.get a).pendingKey) := rfl
      dsimp only
      rw [hentries, List.filter_cons_of_neg (by simp)]
      refine List.filter_sublist.trans ?_
      exact (List.kerase_sublist _ _).trans (List.kerase_sublist _ _)
  · rw [if_neg hpending]
    refine not_sameAnswers_modify ha fun heq => ?_
    rcases htouch with hp | hverified
    · exact hpending hp
    · exact absurd ((congrArg Peer.verified heq).trans hverified) (by simp)

theorem reject_touches {order : List GoString} (saved : Bool)
    (h : s.Touches sha256 (.reject order name)) :
    ¬SameAnswers sha256 s (s.reject order name saved).1 := by
  obtain ⟨a, hfind, hpending⟩ := h
  simp only [reject, hfind]
  refine not_sameAnswers_modify (named_of_find hfind).1 fun heq => ?_
  exact hpending (congrArg Peer.pendingKey heq).symm

theorem apply_eq_self {m : Mutation} (saved : Bool) (h : ¬s.Touches sha256 m) :
    (s.apply sha256 m saved).1 = s := by
  -- a record that is written back as it was
  have hsame : ∀ {a : ℕ} {f : Peer → Peer}, f (s.heap.get a) = s.heap.get a →
      ({ s with heap := s.heap.modify a f } : Store) = s := by
    intro a f hf
    rw [Heap.modify_eq_self _ _ hf]
  cases m with
  | observe order now name address pub =>
    unfold Touches at h
    rcases hid : s.peers.lookup (fingerprintOf sha256 pub) with _ | a
    · rcases hfind : s.findByNameLocked order name with _ | a
      · simp only [hid, hfind, not_true_eq_false] at h
      · simp only [hid, hfind, not_not] at h
        simp only [apply, observe, hid, hfind]
        exact hsame (by rw [← h.1, ← h.2])
    · simp only [hid, not_not] at h
      obtain ⟨hname, haddress, hseen, hpending⟩ := h
      simp only [apply, observe, hid]
      refine hsame ?_
      have hkept : (if address ≠ [] then address else (s.heap.get a).address)
          = (s.heap.get a).address := by
        rcases haddress with hnil | hold
        · rw [if_neg (by simpa using hnil)]
        · rw [hold, ite_self]
      rw [hkept, ← hname, ← hseen, ← hpending]
  | verify order name =>
    rcases hfind : s.findByNameLocked order name with _ | a
    · simp only [apply, verify, hfind]
    · have hno : (s.heap.get a).pendingKey = [] ∧ (s.heap.get a).verified = true := by
        simpa [Touches, hfind] using h
      simp only [apply, verify, hfind, hno.1, ne_eq, not_true_eq_false, if_false]
      exact hsame (by rw [← hno.2])
  | reject order name =>
    rcases hfind : s.findByNameLocked order name with _ | a
    · simp only [apply, reject, hfind]
    · have hno : (s.heap.get a).pendingKey = [] := by
        simpa [Touches, hfind] using h
      simp only [apply, reject, hfind]
      exact hsame (by rw [← hno])

/-- A failed call is one whose change is in memory and not on disk. If there was a change, some
query can tell, whether the call has failed or not. -/
theorem not_sameAnswers_of_touches {m : Mutation} (saved : Bool) (h : s.Touches sha256 m) :
    ¬SameAnswers sha256 s (s.apply sha256 m saved).1 := by
  cases m with
  | observe order now name address pub => exact observe_touches saved h
  | verify order name => exact verify_touches saved h
  | reject order name => exact reject_touches saved h

theorem apply_saved {m : Mutation} (h : (s.apply sha256 m true).2 ≠ none) :
    (s.apply sha256 m true).1 = s := by
  cases m with
  | observe order now name address pub =>
    refine absurd ?_ h
    simp only [apply, observe]
    rcases s.peers.lookup (fingerprintOf sha256 pub) with _ | a
    · rcases s.findByNameLocked order name with _ | a
      · rfl
      · rfl
    · rfl
  | verify order name =>
    rcases hfind : s.findByNameLocked order name with _ | a
    · simp only [apply, verify, hfind]
    · simp [apply, verify, hfind, saveLocked] at h
  | reject order name =>
    rcases hfind : s.findByNameLocked order name with _ | a
    · simp only [apply, reject, hfind]
    · simp [apply, reject, hfind, saveLocked] at h

theorem apply_not_saved (m : Mutation) : (s.apply sha256 m false).2 ≠ none := by
  cases m with
  | observe order now name address pub =>
    simp only [apply, observe]
    rcases s.peers.lookup (fingerprintOf sha256 pub) with _ | a
    · rcases s.findByNameLocked order name with _ | a
      · simp [saveLocked]
      · simp [saveLocked]
    · simp [saveLocked]
  | verify order name =>
    rcases hfind : s.findByNameLocked order name with _ | a
    · simp [apply, verify, hfind]
    · simp [apply, verify, hfind, saveLocked]
  | reject order name =>
    rcases hfind : s.findByNameLocked order name with _ | a
    · simp [apply, reject, hfind]
    · simp [apply, reject, hfind, saveLocked]

end Store

/-- **After a call that has failed the store answers as before exactly if the save did not fail, or
there was nothing to change.** -/
theorem failed_unchanged_iff (s : Store) (m : Store.Mutation) (saved : Bool) :
    ((s.apply sha256 m saved).2 ≠ none → Store.SameAnswers sha256 s (s.apply sha256 m saved).1) ↔
      (saved = true ∨ ¬s.Touches sha256 m) := by
  constructor
  · intro h
    by_contra! hno
    obtain ⟨hsaved, htouch⟩ := hno
    have hfalse : saved = false := by simpa using hsaved
    subst hfalse
    exact Store.not_sameAnswers_of_touches false htouch (h (Store.apply_not_saved m))
  · rintro (rfl | hno) herr
    · rw [Store.apply_saved herr]
      exact Store.SameAnswers.refl s
    · rw [Store.apply_eq_self saved hno]
      exact Store.SameAnswers.refl s

/-- Bob's record has no pending key: rejecting it again fails and changes nothing. -/
theorem failed_unchanged_reject : (apartStore.apply sha256Keys (.reject apartStore.peers.keys [98])
      false).2 = some .save ∧
    Store.SameAnswers sha256Keys apartStore
      (apartStore.apply sha256Keys (.reject apartStore.peers.keys [98]) false).1 := by
  refine ⟨by decide +kernel, (failed_unchanged_iff _ _ _).mpr (.inr ?_) (by decide +kernel)⟩
  rintro ⟨a, hfind, hpending⟩
  rw [show apartStore.findByNameLocked apartStore.peers.keys [98]
    = some 1 from by decide +kernel] at hfind
  obtain rfl := Option.some.inj hfind
  exact hpending (by decide +kernel)

/-- **A verification that could not be saved holds all the same**: the user is told that it has
failed, and the peer is trusted. -/
theorem failed_verify_trusted :
    apartStore.trustOf sha256Keys apartStore.peers.keys [98] keyTwo = .unverified ∧
    (apartStore.verify sha256Keys apartStore.peers.keys [98] false).2.2 = some .save ∧
    (apartStore.verify sha256Keys apartStore.peers.keys [98] false).1.trustOf sha256Keys
      apartStore.peers.keys [98] keyTwo = .verified := by
  decide +kernel

end Heimdall.Peers
