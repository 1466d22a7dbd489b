/-
The trust store after a restart, `internal/peers/peers.go`.

`saveLocked` flattens the map into a list, sorted by name, and `OpenStore` files every record of
the list under the fingerprint of its key again; a record whose key has the wrong length is skipped.
Both are what they should be: every record of a store that was saved is found again under its
fingerprint (`openStore_find`), with the verification and the pending key it had.

Its name may be another one, though. Names come off the network as they are, and a name that is
not UTF-8 is saved as something else. After a restart the store does not know it any more, and a
new key under that name is no longer reported as changed. So trust survives a restart exactly if
the names of all records are UTF-8 (`trust_survives_iff`).
-/
import Heimdall.Answers
import Heimdall.PeerFile

set_option autoImplicit false

namespace Heimdall.Peers

open Heimdall.Runs

/-! ## `saveLocked` and `OpenStore` -/

/-- What `os.ReadFile` returns. -/
inductive FileRead where
  | notExist
  | failed
  | content (buf : GoString)

/-- Why a store does not open: the file cannot be read, it is not JSON of the right form, or it has
a `null` among the records, which the loop dereferences. -/
inductive OpenErr where
  | read
  | corrupt
  | nilPeer
  deriving DecidableEq

def publicKeySize : ℕ := 32

variable {sha256 : List UInt8 → List UInt8} {s s' : Store} {T : TimeCodec} {order : List GoString}

namespace Store

/-- The contents of the file that `saveLocked` writes. -/
def file (T : TimeCodec) (s : Store) (order : List GoString) :
    GoString := marshalPeers T (s.list order)

section Open

variable (sha256 : List UInt8 → List UInt8)

def load (s : Store) : Option Peer → Except OpenErr Store
  | none => .error .nilPeer
  | some p =>
    if p.publicKey.length ≠ publicKeySize then .ok s
    else .ok { heap := s.heap.alloc p
               peers := s.peers.insert (fingerprintOf sha256 p.publicKey) s.heap.next }

def openStore (T : TimeCodec) : FileRead → Except OpenErr Store
  | .notExist => .ok {}
  | .failed => .error .read
  | .content buf =>
    match unmarshalPeers T buf with
    | none => .error .corrupt
    | some list => list.foldlM (load sha256) {}

end Open

/-! ## Records by fingerprint -/

def find (s : Store) (k : GoString) : Option Peer := (s.peers.lookup k).map s.heap.get

theorem named_iff {name : GoString} :
    (∃ a, s.Named name a) ↔ ∃ k p, s.find k = some p ∧ p.name = name := by
  constructor
  · rintro ⟨a, ⟨k, hk⟩, hname⟩
    exact ⟨k, _, by rw [find, hk]; rfl, hname⟩
  · rintro ⟨k, p, hk, hname⟩
    obtain ⟨a, ha, rfl⟩ := Option.map_eq_some_iff.mp hk
    exact ⟨a, ⟨k, ha⟩, hname⟩

theorem trustOf_of_find {name : GoString} {pub : List UInt8} {p : Peer}
    (h : s.find (fingerprintOf sha256 pub) = some p) :
      s.trustOf sha256 order name pub = levelOf p := by
  obtain ⟨a, ha, rfl⟩ := Option.map_eq_some_iff.mp h
  simp only [trustOf, ha]

theorem trustOf_of_not_find {pub : List UInt8} (hord : order.Perm s.peers.keys)
    (h : s.find (fingerprintOf sha256 pub) = none) (name : GoString) :
    (s.trustOf sha256 order name pub = .changed ∧ ∃ a, s.Named name a) ∨
      (s.trustOf sha256 order name pub = .unknown ∧ ¬∃ a, s.Named name a) := by
  have hlookup : s.peers.lookup (fingerprintOf sha256 pub) = none := Option.map_eq_none_iff.mp h
  simp only [trustOf, hlookup]
  rcases hfind : s.findByNameLocked order name with _ | a
  · exact .inr ⟨rfl, fun ⟨a, ha⟩ => not_named_of_find hord hfind ha⟩
  · exact .inl ⟨rfl, a, named_of_find hfind⟩

/-! ## Loading -/

theorem find_insert (hbound : ∀ k a, s.peers.lookup k = some a → a < s.heap.next) (q : Peer)
    (j k : GoString) :
    find { heap := s.heap.alloc q, peers := s.peers.insert j s.heap.next } k
      = if k = j then some q else s.find k := by
  unfold find
  dsimp only
  split_ifs with hkj
  · rw [hkj, AList.lookup_insert, Option.map_some, Heap.get_alloc_next]
  · rw [AList.lookup_insert_ne hkj]
    rcases hk : s.peers.lookup k with _ | a
    · rfl
    · rw [Option.map_some, Option.map_some, Heap.get_alloc_of_lt _ _ (hbound k a hk)]

/-- Loading records with keys of the right length and different fingerprints gives a store of
exactly these. The induction is from the end of the list, as the loop adds one record after the
other. -/
theorem load_spec {ps : List Peer} (hsize : ∀ p ∈ ps, p.publicKey.length = publicKeySize)
    (hnodup : (ps.map fun p => fingerprintOf sha256 p.publicKey).Nodup) :
    ∃ s, (ps.map some).foldlM (load sha256) {} = .ok s ∧
      (∀ k a, s.peers.lookup k = some a → a < s.heap.next) ∧
      ∀ k p, s.find k = some p ↔ p ∈ ps ∧ fingerprintOf sha256 p.publicKey = k := by
  induction ps using List.reverseRecOn with
  | nil => exact ⟨{}, rfl, fun k a hk => absurd hk (by simp), fun k p => by simp [find]⟩
  | append_singleton ps q ih =>
    rw [List.map_append, List.map_singleton, List.nodup_append] at hnodup
    obtain ⟨hps, -, hnew⟩ := hnodup
    obtain ⟨s, hload, hbound, hfind⟩ := ih (fun p hp => hsize p (List.mem_append_left _ hp)) hps
    have hq : q.publicKey.length = publicKeySize := hsize q (by simp)
    refine ⟨{
      heap := s.heap.alloc q
      peers := s.peers.insert (fingerprintOf sha256 q.publicKey) s.heap.next },
      ?_, fun k a hk => ?_, fun k p => ?_⟩
    · rw [List.map_append, List.foldlM_append, hload]
      show load sha256 s (some q) >>= pure = _
      rw [load, if_neg (not_not_intro hq)]
      rfl
    · rcases (Maps.lookup_insert_iff _).mp hk with ⟨-, rfl⟩ | ⟨-, hold⟩
      · exact Nat.lt_succ_self _
      · exact (hbound k a hold).trans (Nat.lt_succ_self _)
    · rw [find_insert hbound, List.mem_append, List.mem_singleton]
      -- the fingerprint of `q` is new, so filing it hides none of the others
      have hother : ∀ p ∈ ps, fingerprintOf sha256 p.publicKey ≠ fingerprintOf sha256 q.publicKey :=
        fun p hp => hnew _ (List.mem_map_of_mem hp) _ (List.mem_singleton_self _)
      split_ifs with hkq
      · constructor
        · intro hp
          obtain rfl := Option.some.inj hp
          exact ⟨.inr rfl, hkq.symm⟩
        · rintro ⟨hp | rfl, hk⟩
          · exact absurd (hk.trans hkq) (hother p hp)
          · rfl
      · rw [hfind]
        constructor
        · rintro ⟨hp, hk⟩
          exact ⟨.inl hp, hk⟩
        · rintro ⟨hp | rfl, hk⟩
          · exact ⟨hp, hk⟩
          · exact absurd hk.symm hkq

theorem mem_list_iff (hord : order.Perm s.peers.keys) {p : Peer} :
    p ∈ s.list order ↔ ∃ k, s.find k = some p := by
  rw [(list_perm hord).mem_iff, records, List.mem_map]
  constructor
  · rintro ⟨⟨k, a⟩, hmem, rfl⟩
    exact ⟨k, by rw [find, (Maps.lookup_eq_some_iff _).mpr hmem]; rfl⟩
  · rintro ⟨k, hk⟩
    obtain ⟨a, ha, rfl⟩ := Option.map_eq_some_iff.mp hk
    exact ⟨⟨k, a⟩, (Maps.lookup_eq_some_iff _).mp ha, rfl⟩

theorem Wf.find_keyed (hwf : s.Wf sha256) {k : GoString} {p : Peer} (h : s.find k = some p) :
    fingerprintOf sha256 p.publicKey = k := by
  obtain ⟨a, ha, rfl⟩ := Option.map_eq_some_iff.mp h
  exact (hwf.keyed k a ha).1.symm

theorem Wf.nodup_fingerprints (hwf : s.Wf sha256) (hord : order.Perm s.peers.keys) :
    ((s.list order).map fun p => fingerprintOf sha256 p.publicKey).Nodup := by
  have hkeys : (s.records.map fun p => fingerprintOf sha256 p.publicKey) = s.peers.keys := by
    rw [records, List.map_map, AList.keys, List.keys]
    refine List.map_congr_left fun e he => ?_
    exact (hwf.keyed e.1 e.2 ((Maps.lookup_eq_some_iff _).mpr he)).1.symm
  rw [((list_perm hord).map _).nodup_iff, hkeys]
  exact s.peers.keys_nodup

/-- **Every record is found again** after a restart, as it was but for its strings, and there are
no others. -/
theorem openStore_find (hwf : s.Wf sha256) (hsize : ∀ k p, s.find k = some p →
    p.publicKey.length = publicKeySize) (hord : order.Perm s.peers.keys) :
    ∃ s', openStore sha256 T (.content (s.file T order)) = .ok s' ∧
      ∀ k, s'.find k = (s.find k).map (reread T) := by
  have hsize' : ∀ q ∈ (s.list order).map (reread T), q.publicKey.length = publicKeySize := by
    intro q hq
    obtain ⟨p, hp, rfl⟩ := List.mem_map.mp hq
    obtain ⟨k, hk⟩ := (mem_list_iff hord).mp hp
    exact hsize k p hk
  have hnodup :
      (((s.list order).map (reread T)).map fun p => fingerprintOf sha256 p.publicKey).Nodup := by
    rw [List.map_map]
    exact hwf.nodup_fingerprints hord
  obtain ⟨s', hload, -, hfind⟩ := load_spec hsize' hnodup
  refine ⟨s', ?_, fun k => ?_⟩
  · rw [List.map_map] at hload
    rw [openStore, file, unmarshalPeers_marshalPeers]
    exact hload
  · ext q
    rw [hfind, List.mem_map, Option.map_eq_some_iff]
    constructor
    · rintro ⟨⟨p, hp, rfl⟩, hk⟩
      obtain ⟨k', hk'⟩ := (mem_list_iff hord).mp hp
      -- reading back keeps the key, so the record stands where it stood
      obtain rfl : k' = k := (hwf.find_keyed hk').symm.trans hk
      exact ⟨p, hk', rfl⟩
    · rintro ⟨p, hp, rfl⟩
      have hkey := hwf.find_keyed hp
      exact ⟨⟨p, (mem_list_iff hord).mpr ⟨k, hp⟩, rfl⟩, hkey⟩

/-! ## Runs -/

end Store

/-- What `parseAuthPlain` lets through: a name of 1 to 64 bytes and a key of 32. -/
def Event.Admitted : Event → Prop
  | .observe _ _ name _ pub _ => 1 ≤ name.length ∧ name.length ≤ 64 ∧ pub.length = publicKeySize
  | .verify _ _ _ _ | .reject _ _ _ | .trustOf _ _ _ => True

namespace Store

/-- A call with an admitted name and key. -/
def StepAdmitted (sha256 : List UInt8 → List UInt8) (s : Store) (ev : Event) (s' : Store) : Prop :=
  s.Step sha256 ev s' ∧ ev.Admitted

def Sized (p : Peer) : Prop :=
  p.publicKey.length = publicKeySize ∧ (p.pendingKey = [] ∨ p.pendingKey.length = publicKeySize)

/-- Every record has keys of the right length. -/
def AllSized (s : Store) : Prop := ∀ a, a < s.heap.next → Sized (s.heap.get a)

theorem AllSized.modify (h : s.AllSized) {a : ℕ} {f : Peer → Peer} (hf : ∀ p, Sized p → Sized (f p))
    (m : AList fun _ : GoString => ℕ) : AllSized { heap := s.heap.modify a f, peers := m } := by
  intro b hb
  dsimp only
  by_cases hba : b = a
  · subst hba
    rw [Heap.get_modify_self]
    exact hf _ (h b hb)
  · rw [Heap.get_modify_of_ne _ _ hba]
    exact h b hb

theorem AllSized.observe (h : s.AllSized) {name address : GoString} {pub : List UInt8} {now : ℕ}
    {saved : Bool} (hpub : pub.length = publicKeySize) :
    (s.observe sha256 order now name address pub saved).1.AllSized := by
  unfold Store.observe
  -- a new record, a pending key on a known name, or a known key
  rcases s.peers.lookup (fingerprintOf sha256 pub) with _ | a
  · rcases s.findByNameLocked order name with _ | a
    · intro b hb
      dsimp only at hb ⊢
      rcases Nat.lt_succ_iff_lt_or_eq.mp hb with hlt | rfl
      · rw [Heap.get_alloc_of_lt _ _ hlt]
        exact h b hlt
      · rw [Heap.get_alloc_next]
        exact ⟨hpub, .inl rfl⟩
    · apply h.modify
      intro p hp
      exact ⟨hp.1, .inr hpub⟩
  · apply h.modify
    intro p hp
    exact ⟨hp.1, .inl rfl⟩

theorem AllSized.verify (h : s.AllSized) {name : GoString} {saved : Bool} :
    (s.verify sha256 order name saved).1.AllSized := by
  unfold Store.verify
  rcases s.findByNameLocked order name with _ | a
  · exact h
  · dsimp only
    -- setting the flag touches no key
    refine AllSized.modify ?_ ?_ _
    swap
    · intro p hp
      exact hp
    split_ifs with hpending
    · -- the pending key that is adopted is a key
      intro b hb
      simp only [Store.adopt]
      by_cases hba : b = a
      · subst hba
        rw [Heap.get_modify_self]
        exact ⟨(h b hb).2.resolve_left hpending, .inl rfl⟩
      · rw [Heap.get_modify_of_ne _ _ hba]
        exact h b hb
    · exact h

theorem AllSized.reject (h : s.AllSized) {name : GoString} {saved : Bool} :
    (s.reject order name saved).1.AllSized := by
  unfold Store.reject
  rcases s.findByNameLocked order name with _ | a
  · exact h
  · apply h.modify
    intro p hp
    exact ⟨hp.1, .inl rfl⟩

theorem AllSized.step (h : s.AllSized) {ev : Event} (hstep : s.StepAdmitted sha256 ev s') :
    s'.AllSized := by
  obtain ⟨⟨-, hstep⟩, hadm⟩ := hstep
  cases ev with
  | observe order now name address pub saved =>
    obtain rfl := hstep
    exact h.observe hadm.2.2
  | verify order name saved ret =>
    obtain ⟨rfl, -⟩ := hstep
    exact h.verify
  | reject order name saved =>
    obtain rfl := hstep
    exact h.reject
  | trustOf order name pub =>
    obtain rfl := hstep
    exact h

theorem allSized_run {evs : List Event} (hrun : Run (StepAdmitted sha256) {} evs s) : s.AllSized :=
  hrun.invariant AllSized (fun a ha => absurd ha (Nat.not_lt_zero a)) fun _ _ _ h hs => h.step hs

/-! ## Trust after a restart -/

/-- A store that is saved and opened again gives every key under every name the level it had. -/
def SurvivesRestart (sha256 : List UInt8 → List UInt8) (T : TimeCodec) (s : Store) : Prop :=
  ∀ order, order.Perm s.peers.keys →
    ∃ s', openStore sha256 T (.content (s.file T order)) = .ok s' ∧
      ∀ o o', o.Perm s.peers.keys → o'.Perm s'.peers.keys →
        ∀ name pub, pub.length = publicKeySize →
          s'.trustOf sha256 o' name pub = s.trustOf sha256 o name pub

theorem named_reread (hfind : ∀ k, s'.find k = (s.find k).map (reread T)) {name : GoString} :
    (∃ a, s'.Named name a) ↔ ∃ k a, s.peers.lookup k = some a ∧
      Utf8.sanitize (s.heap.get a).name = name := by
  rw [named_iff]
  constructor
  · rintro ⟨k, q, hk, hname⟩
    rw [hfind] at hk
    obtain ⟨p, hp, rfl⟩ := Option.map_eq_some_iff.mp hk
    obtain ⟨a, ha, rfl⟩ := Option.map_eq_some_iff.mp hp
    exact ⟨k, a, ha, hname⟩
  · rintro ⟨k, a, ha, hname⟩
    exact ⟨k, reread T (s.heap.get a), by rw [hfind, find, ha]; rfl, hname⟩

theorem levelOf_reread (p : Peer) : levelOf (reread T p) = levelOf p := rfl

theorem trustOf_reread (hfind : ∀ k, s'.find k = (s.find k).map (reread T))
    (hvalid : ∀ k a, s.peers.lookup k = some a → Utf8.valid (s.heap.get a).name = true)
    {o o' : List GoString} (ho : o.Perm s.peers.keys) (ho' : o'.Perm s'.peers.keys)
    (name : GoString)
    (pub : List UInt8) : s'.trustOf sha256 o' name pub = s.trustOf sha256 o name pub := by
  rcases hpub : s.find (fingerprintOf sha256 pub) with _ | p
  · have hpub' : s'.find (fingerprintOf sha256 pub) = none := by rw [hfind, hpub]; rfl
    -- the same names are known
    have hnames : (∃ a, s'.Named name a) ↔ ∃ a, s.Named name a := by
      rw [named_reread hfind]
      constructor
      · rintro ⟨k, a, ha, hname⟩
        rw [Utf8.sanitize_of_valid (hvalid k a ha)] at hname
        exact ⟨a, ⟨k, ha⟩, hname⟩
      · rintro ⟨a, ⟨k, ha⟩, hname⟩
        exact ⟨k, a, ha, by rw [Utf8.sanitize_of_valid (hvalid k a ha), hname]⟩
    rcases trustOf_of_not_find ho hpub name with ⟨hlevel, hknown⟩ | ⟨hlevel, hunknown⟩
    · rcases trustOf_of_not_find ho' hpub' name with ⟨hlevel', -⟩ | ⟨-, hunknown'⟩
      · rw [hlevel, hlevel']
      · exact absurd (hnames.mpr hknown) hunknown'
    · rcases trustOf_of_not_find ho' hpub' name with ⟨-, hknown'⟩ | ⟨hlevel', -⟩
      · exact absurd (hnames.mp hknown') hunknown
      · rw [hlevel, hlevel']
  · have hpub' : s'.find (fingerprintOf sha256 pub) = some (reread T p) := by rw [hfind, hpub]; rfl
    rw [trustOf_of_find hpub', trustOf_of_find hpub, levelOf_reread]

end Store

/-- **Trust survives a restart exactly if the name of every record is UTF-8.** That it survives
then holds of any store; the converse needs a key that the store does not know, since no answer
depends on a name without one. -/
theorem trust_survives_iff {evs : List Event} (hrun : Run (Store.StepAdmitted sha256) {} evs s)
    (T : TimeCodec) :
    ((∀ k a, s.peers.lookup k = some a → Utf8.valid (s.heap.get a).name = true) →
        s.SurvivesRestart sha256 T) ∧
      ∀ fresh : List UInt8, fresh.length = publicKeySize →
        s.peers.lookup (fingerprintOf sha256 fresh) = none →
        (s.SurvivesRestart sha256 T ↔
          ∀ k a, s.peers.lookup k = some a → Utf8.valid (s.heap.get a).name = true) := by
  have hwf : s.Wf sha256 := (Store.Inv.of_run (hrun.mono fun _ _ _ h => h.1)).toWf
  have hsizes : ∀ k p, s.find k = some p → p.publicKey.length = publicKeySize := by
    intro k p hk
    obtain ⟨a, ha, rfl⟩ := Option.map_eq_some_iff.mp hk
    exact (Store.allSized_run hrun a (hwf.bound k a ha)).1
  have hsurvives : (∀ k a, s.peers.lookup k = some a → Utf8.valid (s.heap.get a).name = true) →
      s.SurvivesRestart sha256 T := by
    intro hvalid order hord
    obtain ⟨s', hopen, hfind⟩ := Store.openStore_find hwf hsizes hord
    exact ⟨s', hopen, fun o o' ho ho' name pub _ =>
      Store.trustOf_reread hfind hvalid ho ho' name pub⟩
  refine ⟨hsurvives, fun fresh hsize hfresh => ⟨?_, hsurvives⟩⟩
  intro h k a ha
  obtain ⟨s', hopen, htrust⟩ := h _ (List.Perm.refl _)
  obtain ⟨s'', hopen', hfind⟩ := Store.openStore_find (T := T) hwf hsizes (List.Perm.refl _)
  obtain rfl : s' = s'' := Except.ok.inj (hopen.symm.trans hopen')
  -- a new key under the name of the record was reported, and still is
  have hnone : s.find (fingerprintOf sha256 fresh) = none := Option.map_eq_none_iff.mpr hfresh
  have hnone' : s'.find (fingerprintOf sha256 fresh) = none := by rw [hfind, hnone]; rfl
  have hsame := htrust _ _ (List.Perm.refl _) (List.Perm.refl _) (s.heap.get a).name fresh hsize
  rcases Store.trustOf_of_not_find (List.Perm.refl _) hnone (s.heap.get a).name
    with ⟨hchanged, -⟩ | ⟨-, hunknown⟩
  · rcases Store.trustOf_of_not_find (List.Perm.refl _) hnone' (s.heap.get a).name
      with ⟨-, hknown⟩ | ⟨hunknown', -⟩
    · obtain ⟨k', b, -, hname⟩ := (Store.named_reread hfind).mp hknown
      rw [← hname]
      exact Utf8.valid_sanitize _
    · rw [hchanged, hunknown'] at hsame
      exact absurd hsame (by simp)
  · exact absurd ⟨a, ⟨k, ha⟩, rfl⟩ hunknown

/-! ## Two stores -/

/-- `1970-01-01T00:00:00Z` -/
def epochText : List UInt8 :=
  [49, 57, 55, 48, 45, 48, 49, 45, 48, 49, 84, 48, 48, 58, 48, 48, 58, 48, 48, 90]

theorem epochText_literal : Json.Literal epochText :=
  Json.Literal.of_plain (List.all_eq_true.mp rfl)

def epochCodec : TimeCodec where
  text _ := epochText
  parse raw := if raw = epochText then some 0 else none
  literal _ := epochText_literal
  parses _ := by decide

/-- The store after a peer of that name has presented the first key. -/
def seenStore (name : GoString) : Store :=
  (Store.observe sha256Keys {} [] 0 name [] keyOne true).1

theorem seenStore_step (name : GoString) (hpos : 1 ≤ name.length) (hmax : name.length ≤ 64) :
    Store.StepAdmitted sha256Keys {} (.observe [] 0 name [] keyOne true) (seenStore name) :=
  ⟨⟨List.Perm.refl _, rfl⟩, hpos, hmax, by decide⟩

def aliceText : GoString := [97, 108, 105, 99, 101]

def aliceStore : Store :=
  ((seenStore aliceText).verify sha256Keys (seenStore aliceText).peers.keys aliceText true).1

theorem aliceStore_run : ∃ evs, Run (Store.StepAdmitted sha256Keys) {} evs aliceStore := by
  have hseen := seenStore_step aliceText (by decide) (by decide)
  have hverify : Store.StepAdmitted sha256Keys (seenStore aliceText)
      (.verify (seenStore aliceText).peers.keys aliceText true _) aliceStore :=
    ⟨⟨List.Perm.refl _, rfl, rfl⟩, trivial⟩
  exact ⟨_, .snoc (.snoc .nil hseen) hverify⟩

theorem trust_survives_alice :
    (∃ evs, Run (Store.StepAdmitted sha256Keys) {} evs aliceStore) ∧
      aliceStore.trustOf sha256Keys aliceStore.peers.keys aliceText keyOne = .verified ∧
      aliceStore.SurvivesRestart sha256Keys epochCodec := by
  obtain ⟨evs, hrun⟩ := aliceStore_run
  have hentries : aliceStore.peers.entries = [⟨fingerprintOf sha256Keys keyOne, 0⟩] := by
    decide +kernel
  have hname : Utf8.valid (aliceStore.heap.get 0).name = true := by decide +kernel
  refine ⟨⟨evs, hrun⟩, by decide +kernel,
    ((trust_survives_iff hrun epochCodec).2 keyTwo (by decide) (by decide +kernel)).mpr
      fun k a ha => ?_⟩
  have hmem := (Maps.lookup_eq_some_iff _).mp ha
  rw [hentries, List.mem_singleton] at hmem
  obtain rfl : a = 0 := by simpa using congrArg Sigma.snd hmem
  exact hname

/-- **A changed key that is not noticed.** A peer is known under a name of one byte that is not
UTF-8. A second key under that name is reported before the restart, and not after it: the name has
become another one. -/
theorem changed_key_unnoticed :
    (∃ evs, Run (Store.StepAdmitted sha256Keys) {} evs (seenStore [0xFF])) ∧
      (seenStore [0xFF]).trustOf sha256Keys (seenStore [0xFF]).peers.keys [0xFF] keyTwo = .changed ∧
      (Store.openStore sha256Keys epochCodec
          (.content ((seenStore [0xFF]).file epochCodec
            (seenStore [0xFF]).peers.keys))).toOption.map
        (fun s' => s'.trustOf sha256Keys s'.peers.keys [0xFF] keyTwo) = some .unknown := by
  refine ⟨⟨_, .snoc .nil (seenStore_step [0xFF] (by decide) (by decide))⟩, ?_, ?_⟩
  · decide +kernel
  · decide +kernel

end Heimdall.Peers
