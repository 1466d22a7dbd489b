/-
What the trust store promises.

A map entry always stands under the fingerprint of the key its record holds (`Wf`). `Observe` and
`Reject` may change names, addresses and pending keys, but no key, no verification and no entry
(`Keeps`); only `Verify` does that, to the one record it returns (`Verifies`). So a verified key
is one that `Verify` returned.

`Verify` may do more than that, though: the key it adopts may be the key of another record, whose
place in the map is then taken over (`verify_keeps_others_iff`).
-/
import Heimdall.Maps
import Heimdall.Peers

set_option autoImplicit false

namespace Heimdall.Peers

open Heimdall.Runs

variable {sha256 : List UInt8 → List UInt8} {s s' : Store}

namespace Store

/-- Every entry points to an allocated record and stands under its fingerprint. -/
structure Wf (sha256 : List UInt8 → List UInt8) (s : Store) : Prop where
  bound : ∀ k a, s.peers.lookup k = some a → a < s.heap.next
  keyed : ∀ k a, s.peers.lookup k = some a →
    k = fingerprintOf sha256 (s.heap.get a).publicKey ∧ k = (s.heap.get a).fingerprint

theorem Wf.empty : Wf sha256 {} where
  bound k a hk := absurd hk (by simp)
  keyed k a hk := absurd hk (by simp)

/-- No entry is lost and no record changes its key or its verification. -/
structure Keeps (s s' : Store) : Prop where
  entry : ∀ k a, s.peers.lookup k = some a → s'.peers.lookup k = some a
  next : s.heap.next ≤ s'.heap.next
  record : ∀ a, a < s.heap.next → (s'.heap.get a).publicKey = (s.heap.get a).publicKey ∧
    (s'.heap.get a).fingerprint = (s.heap.get a).fingerprint ∧
    (s'.heap.get a).verified = (s.heap.get a).verified

/-- A change to a record that leaves key, fingerprint and verification alone. Everything that
`Observe` and `Reject` do to a record that exists is of this kind. -/
theorem keeps_modify (s : Store) (a : ℕ) {f : Peer → Peer}
    (hkey : ∀ p, (f p).publicKey = p.publicKey)
    (hfp : ∀ p, (f p).fingerprint = p.fingerprint) (hver : ∀ p, (f p).verified = p.verified) :
    s.Keeps { s with heap := s.heap.modify a f } where
  entry _ _ hk := hk
  next := le_rfl
  record b _ := ⟨s.heap.get_modify_congr f hkey b, s.heap.get_modify_congr f hfp b,
    s.heap.get_modify_congr f hver b⟩

variable (sha256) in
/-- **`Observe`** keeps everything; a new entry is for a new record of the presented key, which is
not verified. This is so whether or not the file could be written. -/
theorem observe_spec (s : Store) (order : List GoString) (now : ℕ) (name address : GoString)
    (pub : List UInt8) (saved : Bool) :
    s.Keeps (s.observe sha256 order now name address pub saved).1 ∧
      ∀ k a, (s.observe sha256 order now name address pub saved).1.peers.lookup k = some a →
        s.peers.lookup k = some a ∨
        a < (s.observe sha256 order now name address pub saved).1.heap.next ∧
          k = fingerprintOf sha256 pub ∧
          (((s.observe sha256 order now name address pub saved).1.heap.get a).publicKey = pub ∧
            ((s.observe sha256 order now name address pub saved).1.heap.get a).fingerprint = k ∧
            ((s.observe sha256 order now name address pub saved).1.heap.get a).verified
              = false) := by
  unfold observe
  rcases hid : s.peers.lookup (fingerprintOf sha256 pub) with _ | a
  · rcases hname : s.findByNameLocked order name with _ | a
    · refine ⟨⟨fun k a hk => ?_, Nat.le_succ _, fun a ha => ?_⟩, fun k a hk => ?_⟩
      · -- the new entry cannot shadow an old one
        have hne : k ≠ fingerprintOf sha256 pub := by
          rintro rfl
          exact absurd (hid.symm.trans hk) (by simp)
        exact (AList.lookup_insert_ne hne).trans hk
      · dsimp only
        rw [Heap.get_alloc_of_lt _ _ ha]
        exact ⟨rfl, rfl, rfl⟩
      · by_cases hne : k = fingerprintOf sha256 pub
        · subst hne
          obtain rfl : s.heap.next = a := by simpa using hk
          dsimp only
          rw [Heap.get_alloc_next]
          exact .inr ⟨Nat.lt_succ_self _, rfl, rfl, rfl, rfl⟩
        · exact .inl ((AList.lookup_insert_ne hne).symm.trans hk)
    · exact ⟨s.keeps_modify a (fun _ => rfl) (fun _ => rfl) (fun _ => rfl), fun k a hk => .inl hk⟩
  · exact ⟨s.keeps_modify a (fun _ => rfl) (fun _ => rfl) (fun _ => rfl), fun k a hk => .inl hk⟩

/-- **`Reject`** keeps everything and adds nothing. It drops the pending key of a record at most. -/
theorem reject_spec (s : Store) (order : List GoString) (name : GoString) (saved : Bool) :
    s.Keeps (s.reject order name saved).1 ∧ (s.reject order name saved).1.peers = s.peers := by
  unfold reject
  rcases s.findByNameLocked order name with _ | a
  · exact ⟨⟨fun _ _ hk => hk, le_rfl, fun _ _ => ⟨rfl, rfl, rfl⟩⟩, rfl⟩
  · exact ⟨s.keeps_modify a (fun _ => rfl) (fun _ => rfl) (fun _ => rfl), rfl⟩

/-- What `Verify` does when it returns the record `a`: the record is verified and stands under
its own key, every other entry is an old one, and no other record changes. -/
structure Verifies (sha256 : List UInt8 → List UInt8) (s : Store) (a : ℕ) (s' : Store) : Prop where
  bound : a < s.heap.next
  next : s'.heap.next = s.heap.next
  own : ∀ k, s'.peers.lookup k = some a →
    k = fingerprintOf sha256 (s'.heap.get a).publicKey ∧ k = (s'.heap.get a).fingerprint
  other : ∀ k b, b ≠ a → s'.peers.lookup k = some b → s.peers.lookup k = some b
  frame : ∀ b, b ≠ a → s'.heap.get b = s.heap.get b

theorem Wf.adopt (h : s.Wf sha256) {k : GoString} {a : ℕ} (hk : s.peers.lookup k = some a) :
    Verifies sha256 s a (s.adopt sha256 a) := by
  refine ⟨h.bound k a hk, rfl, fun k' hk' => ?_, fun k' b hb hk' => ?_, fun b hb => ?_⟩
  · simp only [Store.adopt, Heap.get_modify_self]
    by_cases hnew : k' = fingerprintOf sha256 (s.heap.get a).pendingKey
    · exact ⟨hnew, hnew⟩
    · -- the record stands nowhere else: its old entry is gone
      rw [Store.adopt, AList.lookup_insert_ne hnew] at hk'
      by_cases hold : k' = fingerprintOf sha256 (s.heap.get a).publicKey
      · rw [hold, AList.lookup_erase] at hk'
        exact absurd hk' (by simp)
      · rw [AList.lookup_erase_ne hold] at hk'
        exact absurd (h.keyed k' a hk').1 hold
  · have hnew : k' ≠ fingerprintOf sha256 (s.heap.get a).pendingKey := by
      rintro rfl
      simp only [Store.adopt, AList.lookup_insert, Option.some.injEq] at hk'
      exact hb hk'.symm
    rw [Store.adopt, AList.lookup_insert_ne hnew] at hk'
    by_cases hold : k' = fingerprintOf sha256 (s.heap.get a).publicKey
    · rw [hold, AList.lookup_erase] at hk'
      exact absurd hk' (by simp)
    · rwa [AList.lookup_erase_ne hold] at hk'
  · rw [Store.adopt]
    dsimp only
    rw [Heap.get_modify_of_ne _ _ hb]

/-- **`Verify`** finds no record and does nothing, or verifies the record it returns. A record
without a pending key stays where it is, and one with a pending key is moved. -/
theorem Wf.verify (h : s.Wf sha256) (order : List GoString) (name : GoString) (saved : Bool) :
    ((s.verify sha256 order name saved).1 = s ∧ (s.verify sha256 order name saved).2.1 = none) ∨
      ∃ a, (s.verify sha256 order name saved).2.1 = some a ∧
        Verifies sha256 s a (s.verify sha256 order name saved).1 := by
  unfold Store.verify
  rcases hfind : s.findByNameLocked order name with _ | a
  · exact .inl ⟨rfl, rfl⟩
  · obtain ⟨⟨k, hk⟩, -⟩ := findByNameLocked_eq_some hfind
    refine .inr ⟨a, rfl, ?_⟩
    -- setting the flag touches neither keys nor entries
    have hflag : ∀ t : Store, Verifies sha256 s a t →
        Verifies sha256 s a { t with heap := t.heap.modify a fun p =>
          { p with verified := true } } := by
      intro t ht
      refine ⟨ht.bound, ht.next, fun k' hk' => ?_, ht.other, fun b hb => ?_⟩
      · dsimp only
        rw [Heap.get_modify_self]
        exact ht.own k' hk'
      · dsimp only
        rw [Heap.get_modify_of_ne _ _ hb]
        exact ht.frame b hb
    dsimp only
    by_cases hpending : (s.heap.get a).pendingKey ≠ []
    · rw [if_pos hpending]
      exact hflag _ (h.adopt hk)
    · rw [if_neg hpending]
      exact hflag _ ⟨h.bound k a hk, rfl, fun k' hk' => h.keyed k' a hk', fun _ _ _ hk' => hk',
        fun _ _ => rfl⟩

/-! ## Whole runs -/

/-- A call to `Verify` in the history returned a record with this key. -/
def VerifyReturned (evs : List Event) (key : List UInt8) : Prop :=
  ∃ order name saved p, Event.verify order name saved (some p) ∈ evs ∧ p.publicKey = key

theorem VerifyReturned.snoc {evs : List Event} {key : List UInt8} (h : VerifyReturned evs key)
    (ev : Event) : VerifyReturned (evs ++ [ev]) key := by
  obtain ⟨order, name, saved, p, hmem, hp⟩ := h
  exact ⟨order, name, saved, p, List.mem_append_left _ hmem, hp⟩

/-- Well-formed, and every verified record was returned by `Verify` with the key it holds. -/
structure Inv (sha256 : List UInt8 → List UInt8) (evs : List Event) (s : Store) : Prop extends
    Wf sha256 s where
  vouched : ∀ k a, s.peers.lookup k = some a → (s.heap.get a).verified = true →
    VerifyReturned evs (s.heap.get a).publicKey

/-- What only keeps and adds unverified records of their own key keeps the invariant: a verified
record is an old one, and was verified with the key it still holds. -/
theorem Inv.keeps {evs : List Event} (h : Inv sha256 evs s) (hk : s.Keeps s')
    (hnew : ∀ k a, s'.peers.lookup k = some a → s.peers.lookup k = some a ∨
      a < s'.heap.next ∧ k = fingerprintOf sha256 (s'.heap.get a).publicKey ∧
        k = (s'.heap.get a).fingerprint ∧ (s'.heap.get a).verified = false) (ev : Event) :
    Inv sha256 (evs ++ [ev]) s' := by
  refine ⟨⟨fun k a hka => ?_, fun k a hka => ?_⟩, fun k a hka hver => ?_⟩ <;>
    rcases hnew k a hka with hold | ⟨hlt, hkey, hfp, hunv⟩
  · exact (h.bound k a hold).trans_le hk.next
  · exact hlt
  · obtain ⟨hpub, hfp, -⟩ := hk.record a (h.bound k a hold)
    rw [hpub, hfp]
    exact h.keyed k a hold
  · exact ⟨hkey, hfp⟩
  · obtain ⟨hpub, -, hflag⟩ := hk.record a (h.bound k a hold)
    rw [hpub]
    exact (h.vouched k a hold (hflag ▸ hver)).snoc ev
  · exact absurd (hunv.symm.trans hver) (by simp)

/-- `Verify` keeps the invariant once its return value is on record: the record it verified is the
one it returned, and every other one is as it was. -/
theorem Inv.verifies {evs : List Event} (h : Inv sha256 evs s) {a : ℕ} (hv : Verifies sha256 s a s')
    (order : List GoString) (name : GoString) (saved : Bool) :
    Inv sha256 (evs ++ [.verify order name saved (some (s'.heap.get a))]) s' := by
  refine ⟨⟨fun k b hkb => ?_, fun k b hkb => ?_⟩, fun k b hkb hver => ?_⟩ <;> by_cases hb : b = a
  · rw [hb, hv.next]
    exact hv.bound
  · rw [hv.next]
    exact h.bound k b (hv.other k b hb hkb)
  · subst hb
    exact hv.own k hkb
  · rw [hv.frame b hb]
    exact h.keyed k b (hv.other k b hb hkb)
  · rw [hb]
    exact ⟨order, name, saved, _, List.mem_append_right _ (List.mem_singleton_self _), rfl⟩
  · rw [hv.frame b hb] at hver ⊢
    exact (h.vouched k b (hv.other k b hb hkb) hver).snoc _

/-- Step lemma, by the four calls. `TrustOf` changes nothing, and so does a `Verify` that finds
nobody. -/
theorem Inv.step {evs : List Event} (h : Inv sha256 evs s) {ev : Event} (hs : s.Step sha256 ev s') :
    Inv sha256 (evs ++ [ev]) s' := by
  have hsame : ∀ ev, Inv sha256 (evs ++ [ev]) s :=
    h.keeps ⟨fun _ _ hk => hk, le_rfl, fun _ _ => ⟨rfl, rfl, rfl⟩⟩ fun _ _ hk => .inl hk
  rcases ev with ⟨order, now, name, address, pub, saved⟩ | ⟨order, name, saved, ret⟩ |
    ⟨order, name, saved⟩ | ⟨order, name, pub⟩
  · obtain rfl := hs.2
    obtain ⟨hkeeps, hnew⟩ := s.observe_spec sha256 order now name address pub saved
    refine h.keeps hkeeps (fun k a hk => ?_) _
    refine (hnew k a hk).imp_right ?_
    rintro ⟨hlt, hkey, hpub, hfp, hunv⟩
    exact ⟨hlt, hkey.trans (by rw [hpub]), hfp.symm, hunv⟩
  · obtain ⟨rfl, rfl⟩ := hs.2
    rcases h.toWf.verify order name saved with ⟨hstay, hret⟩ | ⟨a, hret, hv⟩
    · rw [hret, hstay]
      exact hsame _
    · rw [hret]
      exact h.verifies hv order name saved
  · obtain rfl := hs.2
    obtain ⟨hkeeps, hpeers⟩ := s.reject_spec order name saved
    exact h.keeps hkeeps (fun k a hk => .inl (hpeers ▸ hk)) _
  · obtain rfl := hs.2
    exact hsame _

theorem Inv.of_run {evs : List Event} (hrun : Run (Step sha256) {} evs s) : Inv sha256 evs s :=
  hrun.invariant_trace (Inv sha256) ⟨Wf.empty, fun _ _ hk => absurd hk (by simp)⟩
    fun _ _ _ _ h hs => h.step hs

/-- `TrustOf` answers verified only for a record that stands under the fingerprint of the key. The
name it is asked about plays no part in it. -/
theorem trustOf_eq_verified {order : List GoString} {name : GoString} {pub : List UInt8}
    (h : s.trustOf sha256 order name pub = .verified) :
    ∃ a, s.peers.lookup (fingerprintOf sha256 pub) = some a ∧ (s.heap.get a).verified = true := by
  unfold trustOf at h
  rcases hid : s.peers.lookup (fingerprintOf sha256 pub) with _ | a
  · rw [hid] at h
    dsimp only at h
    split_ifs at h
  · rw [hid] at h
    refine ⟨a, rfl, ?_⟩
    by_contra hver
    exact absurd h (by simp [levelOf, hver])

end Store

/-! ## Sample keys -/

def keyOne : List UInt8 := List.replicate 32 1
def keyTwo : List UInt8 := List.replicate 32 2
def keyThree : List UInt8 := List.replicate 32 3

def sha256Keys (key : List UInt8) : List UInt8 :=
  if key = keyOne then
    [114, 205, 110, 132, 34, 196, 7, 251, 109, 9, 134, 144, 241, 19, 11, 125,
      237, 126, 194, 247, 245, 225, 211, 11, 217, 213, 33, 240, 21, 54, 55, 147]
  else if key = keyTwo then
    [117, 135, 123, 180, 29, 57, 59, 95, 184, 69, 92, 230, 14, 205, 141, 218,
      0, 29, 6, 49, 100, 150, 177, 77, 250, 127, 137, 86, 86, 238, 202, 74]
  else if key = keyThree then
    [100, 138, 165, 197, 121, 251, 48, 243, 138, 247, 68, 217, 125, 110, 200, 64,
      199, 169, 18, 119, 164, 153, 160, 215, 128, 243, 231, 49, 78, 202, 9, 11]
  else []

theorem fingerprintOf_keyOne_inj {key : List UInt8}
    (h : fingerprintOf sha256Keys key = fingerprintOf sha256Keys keyOne) : key = keyOne := by
  have hdigest : sha256Keys key = sha256Keys keyOne := fingerprintOf_inj.mp h
  by_contra hne
  rw [sha256Keys, if_neg hne] at hdigest
  split_ifs at hdigest <;> exact absurd hdigest (by decide)

/-! ## Who is trusted

The fingerprint shows the whole digest (`fingerprintOf_inj`), so two keys share one only if SHA-256
collides on them. Where a statement needs that it does not, it says so for the keys it is about. -/

def Event.Harmless : Event → Prop
  | .observe _ _ _ _ _ _ | .reject _ _ _ => True
  | .verify _ _ _ _ | .trustOf _ _ _ => False

/-- **Trust is never granted or replaced silently.** In every state of every run, each entry
stands under the fingerprint of its record; `Observe` and `Reject` remove no entry and change no
record's key or verification; and `TrustOf` answers verified only for a key that a call to
`Verify` has returned. Only the last part needs fingerprints to be injective, and only between
the key that is asked for and those that were returned. -/
theorem trust_never_silent {evs : List Event} (hrun : Run (Store.Step sha256) {} evs s) :
    (∀ k a, s.peers.lookup k = some a →
      k = fingerprintOf sha256 (s.heap.get a).publicKey ∧ k = (s.heap.get a).fingerprint) ∧
    (∀ ev s', ev.Harmless → s.Step sha256 ev s' →
      (∀ k a, s.peers.lookup k = some a → s'.peers.lookup k = some a) ∧
      ∀ a, a < s.heap.next → (s'.heap.get a).publicKey = (s.heap.get a).publicKey ∧
        (s'.heap.get a).verified = (s.heap.get a).verified) ∧
    ∀ order name key,
      (∀ key', Store.VerifyReturned evs key' →
        fingerprintOf sha256 key' = fingerprintOf sha256 key → key' = key) →
      s.trustOf sha256 order name key = .verified → Store.VerifyReturned evs key := by
  have h := Store.Inv.of_run hrun
  refine ⟨h.keyed, fun ev s' hev hs => ?_, fun order name key hinj htrust => ?_⟩
  · have hkeeps : s.Keeps s' := by
      rcases ev with ⟨order, now, name, address, pub, saved⟩ | _ | ⟨order, name, saved⟩ | _
      · rw [hs.2]
        exact (s.observe_spec sha256 order now name address pub saved).1
      · exact hev.elim
      · rw [hs.2]
        exact (s.reject_spec order name saved).1
      · exact hev.elim
    exact ⟨hkeeps.entry, fun a ha => ⟨(hkeeps.record a ha).1, (hkeeps.record a ha).2.2⟩⟩
  · -- the record under the fingerprint holds some key that was returned, and by `hinj` it is this
    -- one
    obtain ⟨a, hk, hver⟩ := Store.trustOf_eq_verified htrust
    have hreturned := h.vouched _ a hk hver
    rwa [hinj _ hreturned (h.keyed _ a hk).1.symm] at hreturned

/-- The theorem at a run that ends with a verified key. -/
theorem trust_never_silent_verified :
    ∃ (evs : List Event) (s : Store), Run (Store.Step sha256Keys) {} evs s ∧
      s.trustOf sha256Keys [] [97] keyOne = .verified ∧ Store.VerifyReturned evs keyOne := by
  obtain ⟨s₁, hs₁⟩ : ∃ s₁, s₁ = (Store.observe sha256Keys {} [] 0 [97] [] keyOne true).1 := ⟨_, rfl⟩
  obtain ⟨s₂, hs₂⟩ : ∃ s₂, s₂ = (s₁.verify sha256Keys s₁.peers.keys [97] true).1 := ⟨_, rfl⟩
  have h₁ : Store.Step sha256Keys {} (.observe [] 0 [97] [] keyOne true) s₁ :=
    ⟨List.Perm.refl _, hs₁⟩
  have h₂ : Store.Step sha256Keys s₁ (.verify s₁.peers.keys [97] true _) s₂ :=
    ⟨List.Perm.refl _, hs₂, rfl⟩
  have hrun := (Run.single h₁).snoc h₂
  have htrust : s₂.trustOf sha256Keys [] [97] keyOne = .verified := by
    rw [hs₂, hs₁]
    decide +kernel
  exact ⟨_, s₂, hrun, htrust, (trust_never_silent hrun).2.2 [] [97] keyOne
    (fun _ _ => fingerprintOf_keyOne_inj) htrust⟩

/-! ## Key changes -/

/-- **When `Observe` reports a changed key.** For a name the store knows, it does so exactly if
no record stands under the fingerprint of the presented key. Otherwise it answers with the level
of the record that does, whatever that record was called so far. -/
theorem observe_changed_iff {evs : List Event} (hrun : Run (Store.Step sha256) {} evs s)
    {order : List GoString} (hord : order.Perm s.peers.keys) {k name : GoString} {a : ℕ}
    (hk : s.peers.lookup k = some a) (hname : (s.heap.get a).name = name) (now : ℕ)
    (address : GoString) (pub : List UInt8) (saved : Bool) :
    ((s.observe sha256 order now name address pub saved).2.2.1 = .changed ↔
      ∀ k' b, s.peers.lookup k' = some b →
        fingerprintOf sha256 (s.heap.get b).publicKey ≠ fingerprintOf sha256 pub) ∧
    ∀ k' b, s.peers.lookup k' = some b →
      fingerprintOf sha256 (s.heap.get b).publicKey = fingerprintOf sha256 pub →
      (s.observe sha256 order now name address pub saved).2.2.1 = Store.levelOf (s.heap.get b) := by
  have h := (Store.Inv.of_run hrun).toWf
  -- the record under the fingerprint, if there is one, decides
  have hlevel : ∀ k' b, s.peers.lookup k' = some b →
      fingerprintOf sha256 (s.heap.get b).publicKey = fingerprintOf sha256 pub →
      (s.observe sha256 order now name address pub saved).2.2.1 = Store.levelOf (s.heap.get b) := by
    intro k' b hb hfp
    rw [(h.keyed k' b hb).1, hfp] at hb
    simp only [Store.observe, hb]
  refine ⟨⟨fun hch k' b hb hfp => ?_, fun hnone => ?_⟩, hlevel⟩
  · have hlvl := (hlevel k' b hb hfp).symm.trans hch
    unfold Store.levelOf at hlvl
    split_ifs at hlvl
  · have hid : s.peers.lookup (fingerprintOf sha256 pub) = none := by
      rcases hid : s.peers.lookup (fingerprintOf sha256 pub) with _ | b
      · rfl
      · exact absurd (h.keyed _ b hid).1.symm (hnone _ b hid)
    rcases hfind : s.findByNameLocked order name with _ | b
    · exact absurd hname ((Store.findByNameLocked_eq_none hord).mp hfind k a hk)
    · simp only [Store.observe, hid, hfind]

def twoPeers : Store :=
  let s := (Store.observe sha256Keys {} [] 0 [97] [] keyOne true).1
  (s.observe sha256Keys s.peers.keys 1 [98] [] keyTwo true).1

theorem twoPeers_run : ∃ evs, Run (Store.Step sha256Keys) {} evs twoPeers := by
  have h₁ : Store.Step sha256Keys {} (.observe [] 0 [97] [] keyOne true) _ :=
    ⟨List.Perm.refl _, rfl⟩
  have h₂ : Store.Step sha256Keys (Store.observe sha256Keys {} [] 0 [97] [] keyOne true).1
      (.observe _ 1 [98] [] keyTwo true) twoPeers := ⟨List.Perm.refl _, rfl⟩
  exact ⟨_, (Run.single h₁).snoc h₂⟩

theorem twoPeers_alice : twoPeers.peers.lookup (fingerprintOf sha256Keys keyOne) = some 0 ∧
    (twoPeers.heap.get 0).name = [97] ∧ (twoPeers.heap.get 0).publicKey ≠ keyTwo := by
  decide +kernel

/-- **A known key under a known name.** Alice is recorded with the first key; when the second
arrives under alice's name, nothing is reported, because it is recorded as bob's. -/
theorem known_key_not_reported :
    ∃ evs, Run (Store.Step sha256Keys) {} evs twoPeers ∧
      twoPeers.peers.lookup (fingerprintOf sha256Keys keyOne) = some 0 ∧
      (twoPeers.heap.get 0).name = [97] ∧ (twoPeers.heap.get 0).publicKey ≠ keyTwo ∧
      (twoPeers.observe sha256Keys twoPeers.peers.keys 2 [97] [] keyTwo true).2.2.1 =
        .unverified := by
  obtain ⟨evs, hrun⟩ := twoPeers_run
  obtain ⟨hlookup, hname, hkey⟩ := twoPeers_alice
  exact ⟨evs, hrun, hlookup, hname, hkey, by decide +kernel⟩

/-- The theorem where a key is new to the store: it is presented under alice's name, and
reported. -/
theorem observe_changed_iff_new_key :
    twoPeers.peers.lookup (fingerprintOf sha256Keys keyOne) = some 0 ∧
      (twoPeers.heap.get 0).name = [97] ∧
      ((twoPeers.observe sha256Keys twoPeers.peers.keys 2 [97] [] keyThree true).2.2.1 = .changed ↔
        ∀ k b, twoPeers.peers.lookup k = some b →
          fingerprintOf sha256Keys (twoPeers.heap.get b).publicKey ≠
            fingerprintOf sha256Keys keyThree) ∧
      (twoPeers.observe sha256Keys twoPeers.peers.keys 2 [97] [] keyThree true).2.2.1 =
        .changed := by
  obtain ⟨evs, hrun⟩ := twoPeers_run
  obtain ⟨hlookup, hname, -⟩ := twoPeers_alice
  exact ⟨hlookup, hname,
    (observe_changed_iff hrun (List.Perm.refl _) hlookup hname 2 [] keyThree true).1,
    by decide +kernel⟩

/-! ## What `Verify` does to the other records -/

namespace Store

/-- The record that is found under the name has a pending key, and another record stands under
the fingerprint of that key. -/
def PendingTaken (sha256 : List UInt8 → List UInt8) (s : Store) (order : List GoString)
    (name : GoString) : Prop :=
  ∃ a b, s.findByNameLocked order name = some a ∧ (s.heap.get a).pendingKey ≠ [] ∧
    s.peers.lookup (fingerprintOf sha256 (s.heap.get a).pendingKey) = some b ∧ b ≠ a

/-- Every record but `a` is where it was and as it was, and there are as many as before. -/
structure OthersKept (s : Store) (a : ℕ) (s' : Store) : Prop where
  record : ∀ k b, s.peers.lookup k = some b → b ≠ a →
    s'.peers.lookup k = some b ∧ s'.heap.get b = s.heap.get b
  size : s'.peers.keys.length = s.peers.keys.length

/-- `Verify` in closed form: the record moves in the map if it has a pending key, and the map is
left alone if it has none. The error is that of writing the file. -/
theorem verify_peers {order : List GoString} {name : GoString} {saved : Bool} {a : ℕ}
    {err : Option StoreErr} (h : s.verify sha256 order name saved = (s', some a, err)) :
    s.findByNameLocked order name = some a ∧ err = saveLocked saved ∧
      s'.peers = if (s.heap.get a).pendingKey ≠ [] then (s.adopt sha256 a).peers else s.peers := by
  unfold verify at h
  rcases hfind : s.findByNameLocked order name with _ | b
  · rw [hfind] at h
    simp only [Prod.mk.injEq, reduceCtorEq, false_and, and_false] at h
  · rw [hfind] at h
    simp only [Prod.mk.injEq, Option.some.injEq] at h
    obtain ⟨rfl, rfl, rfl⟩ := h
    refine ⟨rfl, rfl, ?_⟩
    split_ifs <;> rfl

/-- Adopting a key that no other record has leaves the other records alone. The entry that goes is
that of the record itself, and the entry that comes takes nobody's place. -/
theorem Wf.othersKept_adopt (h : s.Wf sha256) {k₀ : GoString} {a : ℕ}
    (hk₀ : s.peers.lookup k₀ = some a)
    (hfree : ∀ b, s.peers.lookup (fingerprintOf sha256 (s.heap.get a).pendingKey) = some b →
      b = a) :
    (∀ k b, s.peers.lookup k = some b → b ≠ a → (s.adopt sha256 a).peers.lookup k = some b) ∧
      (s.adopt sha256 a).peers.keys.length = s.peers.keys.length := by
  have hold := (h.keyed k₀ a hk₀).1
  constructor
  · intro k b hk hb
    have hnew : k ≠ fingerprintOf sha256 (s.heap.get a).pendingKey := by
      rintro rfl
      exact hb (hfree b hk)
    have hne : k ≠ fingerprintOf sha256 (s.heap.get a).publicKey := by
      rintro rfl
      rw [← hold, hk₀] at hk
      exact hb (Option.some.inj hk).symm
    rw [Store.adopt, Maps.lookup_move, if_neg hnew, if_neg hne]
    exact hk
  · rw [Store.adopt]
    apply Maps.length_keys_move
    · rw [← hold, ← AList.lookup_isSome, hk₀]
      rfl
    · -- the new key is free, or it is the key the record has already
      rcases hk : s.peers.lookup (fingerprintOf sha256 (s.heap.get a).pendingKey) with _ | b
      · exact .inr (AList.lookup_eq_none.mp hk)
      · obtain rfl := hfree b hk
        exact .inl (h.keyed _ b hk).1

end Store

/-- **Verifying a peer keeps the other records, unless its pending key is one of theirs.** In
every state a store can reach and for every name, a `Verify` that succeeds leaves all records but
the one it returns present and unchanged, and their number the same, exactly if no other record
stands under the pending key of the record that is found. -/
theorem verify_keeps_others_iff {evs : List Event} (hrun : Run (Store.Step sha256) {} evs s)
    (order : List GoString) (name : GoString) (saved : Bool) :
    (∀ s' a, s.verify sha256 order name saved = (s', some a, none) → s.OthersKept a s') ↔
      ¬ (saved = true ∧ s.PendingTaken sha256 order name) := by
  have hwf := (Store.Inv.of_run hrun).toWf
  constructor
  · rintro hkept ⟨rfl, a, b, hfind, hpending, htaken, hb⟩
    -- the entry of `b` is overwritten
    have hverify : s.verify sha256 order name true
        = ((s.verify sha256 order name true).1, some a, none) := by
      simp only [Store.verify, hfind, saveLocked, if_true]
    have hlost := ((hkept _ a hverify).record _ b htaken hb).1
    rw [(Store.verify_peers hverify).2.2, if_pos hpending, Store.adopt,
      AList.lookup_insert] at hlost
    exact hb (Option.some.inj hlost).symm
  · intro hfree s' a hverify
    obtain ⟨hfind, herr, hpeers⟩ := Store.verify_peers hverify
    have hsaved : saved = true := by
      rcases saved
      · exact absurd herr (by simp [saveLocked])
      · rfl
    obtain ⟨⟨k₀, hk₀⟩, -⟩ := Store.findByNameLocked_eq_some hfind
    have hframe : ∀ b, b ≠ a → s'.heap.get b = s.heap.get b := by
      rcases hwf.verify order name saved with ⟨-, hnone⟩ | ⟨a', hsome, hv⟩
      · rw [hverify] at hnone
        exact absurd hnone (by simp)
      · rw [hverify] at hsome hv
        obtain rfl := Option.some.inj hsome
        exact hv.frame
    by_cases hpending : (s.heap.get a).pendingKey ≠ []
    · have hown : ∀ b, s.peers.lookup (fingerprintOf sha256 (s.heap.get a).pendingKey) = some b →
          b = a := by
        intro b hb
        by_contra hne
        exact hfree ⟨hsaved, a, b, hfind, hpending, hb, hne⟩
      obtain ⟨hentry, hsize⟩ := hwf.othersKept_adopt hk₀ hown
      rw [if_pos hpending] at hpeers
      rw [← hpeers] at hentry hsize
      exact ⟨fun k b hk hb => ⟨hentry k b hk hb, hframe b hb⟩, hsize⟩
    · rw [if_neg hpending] at hpeers
      refine ⟨fun k b hk hb => ⟨?_, hframe b hb⟩, by rw [hpeers]⟩
      rw [hpeers]
      exact hk

/-- Alice is known under the first key, and the second one has been presented under that name. -/
def changedStore : Store :=
  let s := (Store.observe sha256Keys {} [] 0 [97] [] keyOne true).1
  (s.observe sha256Keys s.peers.keys 1 [97] [] keyTwo true).1

def sharedStore : Store :=
  (changedStore.observe sha256Keys changedStore.peers.keys 2 [98] [] keyTwo true).1

theorem changedStore_run : ∃ evs, Run (Store.Step sha256Keys) {} evs changedStore := by
  have h₁ : Store.Step sha256Keys {} (.observe [] 0 [97] [] keyOne true) _ :=
    ⟨List.Perm.refl _, rfl⟩
  have h₂ : Store.Step sha256Keys (Store.observe sha256Keys {} [] 0 [97] [] keyOne true).1
      (.observe _ 1 [97] [] keyTwo true) changedStore := ⟨List.Perm.refl _, rfl⟩
  exact ⟨_, (Run.single h₁).snoc h₂⟩

theorem sharedStore_run : ∃ evs, Run (Store.Step sha256Keys) {} evs sharedStore := by
  obtain ⟨evs, hrun⟩ := changedStore_run
  have h₃ : Store.Step sha256Keys changedStore (.observe _ 2 [98] [] keyTwo true) sharedStore :=
    ⟨List.Perm.refl _, rfl⟩
  exact ⟨_, hrun.snoc h₃⟩

/-- **A record is lost.** Verifying alice in the second store puts alice's record in the place of
bob's: there were two records, and there is one. -/
theorem verify_takes_over_record :
    (∃ evs, Run (Store.Step sha256Keys) {} evs sharedStore) ∧
      sharedStore.peers.lookup (fingerprintOf sha256Keys keyTwo) = some 1 ∧
      (sharedStore.heap.get 1).name = [98] ∧ sharedStore.peers.keys.length = 2 ∧
      (sharedStore.verify sha256Keys sharedStore.peers.keys [97] true).2 = (some 0, none) ∧
      (sharedStore.verify sha256Keys sharedStore.peers.keys [97] true).1.peers.lookup
        (fingerprintOf sha256Keys keyTwo) = some 0 ∧
      (sharedStore.verify sha256Keys sharedStore.peers.keys [97] true).1.peers.keys.length = 1 :=
  ⟨sharedStore_run, by decide +kernel, by decide +kernel, by decide +kernel, by decide +kernel,
    by decide +kernel, by decide +kernel⟩

/-- In the first store, where nobody else has the second key, verifying alice keeps what there
is. -/
theorem verify_keeps_others_changed :
    ∃ s', changedStore.verify sha256Keys changedStore.peers.keys [97] true = (s', some 0, none) ∧
      changedStore.OthersKept 0 s' := by
  obtain ⟨evs, hrun⟩ := changedStore_run
  have hverify : changedStore.verify sha256Keys changedStore.peers.keys [97] true
      = ((changedStore.verify sha256Keys changedStore.peers.keys [97] true).1, some 0, none) := rfl
  refine ⟨_, hverify, (verify_keeps_others_iff hrun _ [97] true).mpr ?_ _ 0 hverify⟩
  rintro ⟨-, a, b, hfind, -, htaken, -⟩
  obtain rfl : 0 = a := Option.some.inj ((show changedStore.findByNameLocked
    changedStore.peers.keys [97] = some 0 by decide +kernel).symm.trans hfind)
  exact absurd htaken (by simp [show changedStore.peers.lookup (fingerprintOf sha256Keys
    (changedStore.heap.get 0).pendingKey) = none by decide +kernel])

end Heimdall.Peers
