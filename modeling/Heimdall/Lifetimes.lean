/-
The trust store over the lives of the program, `internal/peers/peers.go`.

Every call that changes the store replaces `peers.json`, and the next start reads it. A save can
fail, which the calls report and the store in memory ignores, and the process can die anywhere, in a
save as well as outside of one. So the store in memory and the one on disk part ways, and a restart
goes back to an earlier one.

None of this grants trust: whatever is on disk can be opened, and a key is verified in it, or in
memory, only if `Verify` returned it in one of the lives, or the process died in such a call behind
the rename (`trust_across_lives`). And none of it loses trust that was saved: once `Verify` has
returned without an error, the key stays verified in all lives to come, until another key is adopted
in its place (`verified_across_lives`).
-/
import Heimdall.Durable
import Heimdall.Saved

set_option autoImplicit false

namespace Heimdall.Peers

open Heimdall.Runs Heimdall.Durable Heimdall.Utf8

variable {sha256 : List UInt8 → List UInt8} {s s' : Store} {T : TimeCodec} {order : List GoString}

/-! ## The program -/

/-- `s.path + ".tmp"` -/
def tmpPath (path : GoString) : GoString := path ++ [46, 116, 109, 112]

theorem tmpPath_ne (path : GoString) : tmpPath path ≠ path := by
  simp [tmpPath]

def readFile : Option GoString → FileRead
  | none => .notExist
  | some buf => .content buf

/-- Whether a call comes to `saveLocked`, and whether that worked. A name that is not found is
reported before. -/
def Event.saving (s : Store) : Event → Option Bool
  | .observe _ _ _ _ _ saved => some saved
  | .verify order name saved _ | .reject order name saved =>
    if (s.findByNameLocked order name).isSome then some saved else none
  | .trustOf _ _ _ => none

namespace Store

/-- A call, with what `saveLocked` writes: the store as the call leaves it. -/
structure Called (sha256 : List UInt8 → List UInt8) (T : TimeCodec) (s : Store) (ev : Event)
    (w : Option (GoString × Bool)) (s' : Store) : Prop where
  step : s.StepAdmitted sha256 ev s'
  saving : w.map Prod.snd = ev.saving s
  image : ∀ buf ok, w = some (buf, ok) → ∃ order, order.Perm s'.peers.keys ∧ buf = s'.file T order

/-- The store as a program: `OpenStore` at the start, then calls. -/
def program (sha256 : List UInt8 → List UInt8) (T : TimeCodec) (path : GoString) :
    Program GoString UInt8 Store Event where
  path := path
  tmp := tmpPath path
  apart := tmpPath_ne path
  Call := Called sha256 T
  load file := (openStore sha256 T (readFile file)).toOption

theorem openStore_of_load {file : Option GoString} {u : Store}
    (h : (openStore sha256 T (readFile file)).toOption = some u) :
    openStore sha256 T (readFile file) = .ok u := by
  rcases hopen : openStore sha256 T (readFile file) with e | v
  · rw [hopen] at h
    exact absurd h (by simp [Except.toOption])
  · rw [hopen] at h
    exact congrArg Except.ok (Option.some.inj h)

/-- The calls of all lives that left something behind. A call whose process died before the
rename is not one of them. -/
def calls (acts : List (LifeAct UInt8 Event)) : List Event :=
  acts.filterMap fun
    | .call ev saving alive => if Program.lasts saving alive then some ev else none
    | .start _ | .kill => none

theorem calls_call (acts : List (LifeAct UInt8 Event)) (ev : Event)
    (saving : Option (GoString × Stop)) (alive : Bool) :
    calls (acts ++ [.call ev saving alive]) =
      if Program.lasts saving alive then calls acts ++ [ev] else calls acts := by
  by_cases h : Program.lasts saving alive = true <;> simp [calls, h]

/-- `Verify` returned a record with this key, in one of the lives. -/
def Returned (acts : List (LifeAct UInt8 Event)) (key : List UInt8) : Prop :=
  ∃ order name saved p saving,
    LifeAct.call (.verify order name saved (some p)) saving true ∈ acts ∧ p.publicKey = key

/-- The process died in a `Verify` of this key, after the file had been replaced. -/
def CutShort (acts : List (LifeAct UInt8 Event)) (key : List UInt8) : Prop :=
  ∃ order name saved p buf,
    LifeAct.call (.verify order name saved (some p)) (some (buf, .never)) false ∈ acts ∧
      p.publicKey = key

theorem VerifyReturned.returned_or {acts : List (LifeAct UInt8 Event)} {key : List UInt8}
    (h : VerifyReturned (calls acts) key) : Returned acts key ∨ CutShort acts key := by
  obtain ⟨order, name, saved, p, hmem, hkey⟩ := h
  obtain ⟨act, hact, heq⟩ := List.mem_filterMap.mp hmem
  cases act with
  | start readable => exact absurd heq (by simp)
  | kill => exact absurd heq (by simp)
  | call ev saving alive =>
    dsimp only at heq
    split_ifs at heq with hlasts
    obtain rfl := Option.some.inj heq
    cases alive with
    | true => exact .inl ⟨order, name, saved, p, saving, hact, hkey⟩
    | false =>
      -- the process is dead, so what lasts is the file
      rcases Program.lasts_iff.mp hlasts with hc | ⟨buf, rfl⟩
      · exact absurd hc (by simp)
      · exact .inr ⟨order, name, saved, p, buf, hact, hkey⟩

/-! ## What is on disk can be opened -/

section Reload

theorem load_cells {Q : Peer → Prop} {ps : List Peer} (hps : ∀ p ∈ ps, Q p)
    (hload : (ps.map some).foldlM (load sha256) s = .ok s')
    (hbound : ∀ k a, s.peers.lookup k = some a → a < s.heap.next)
    (hcells : ∀ a, a < s.heap.next → Q (s.heap.get a)) :
    (∀ k a, s'.peers.lookup k = some a → a < s'.heap.next) ∧
      ∀ a, a < s'.heap.next → Q (s'.heap.get a) := by
  induction ps generalizing s with
  | nil =>
    obtain rfl : s = s' := Except.ok.inj hload
    exact ⟨hbound, hcells⟩
  | cons p ps ih =>
    have hrest : ∀ q ∈ ps, Q q := fun q hq => hps q (List.mem_cons_of_mem _ hq)
    have hp : Q p := hps p List.mem_cons_self
    rw [List.map_cons, List.foldlM_cons, load] at hload
    split_ifs at hload with hsize
    · -- a record with a key of another length is skipped
      exact ih hrest hload hbound hcells
    · refine ih hrest hload ?_ ?_
      · intro k a hk
        rcases (Maps.lookup_insert_iff _).mp hk with ⟨-, rfl⟩ | ⟨-, hold⟩
        · exact Nat.lt_succ_self _
        · exact (hbound k a hold).trans (Nat.lt_succ_self _)
      · intro a ha
        dsimp only at ha ⊢
        rcases Nat.lt_succ_iff_lt_or_eq.mp ha with hlt | rfl
        · rw [Heap.get_alloc_of_lt _ _ hlt]
          exact hcells a hlt
        · rw [Heap.get_alloc_next]
          exact hp

theorem joinColon_forall {p : UInt8 → Prop} (hcolon : p 58) :
    ∀ {parts : List GoString}, (∀ part ∈ parts, ∀ b ∈ part, p b) → ∀ b ∈ joinColon parts, p b
  | [], _, b, hb => absurd hb (by simp [joinColon])
  | [part], h, b, hb => h part (by simp) b hb
  | part :: part' :: parts, h, b, hb => by
    rw [joinColon, List.mem_append, List.mem_cons] at hb
    rcases hb with hb | rfl | hb
    · exact h part (by simp) b hb
    · exact hcolon
    · exact joinColon_forall hcolon (fun q hq => h q (List.mem_cons_of_mem _ hq)) b hb

theorem sanitize_fingerprintOf (pub : List UInt8) :
    sanitize (fingerprintOf sha256 pub) = fingerprintOf sha256 pub := by
  have hdigit : ∀ n : Fin 16, (hexDigit n).toNat < 0x80 := by decide
  apply sanitize_ascii
  intro b hb
  -- the label, and then hex digits with colons
  rcases List.mem_append.mp hb with hb | hb
  · have hhead : ∀ c ∈ ([83, 72, 65, 50, 53, 54, 58, 32] : GoString), c.toNat < 0x80 := by
      decide +kernel
    exact hhead b hb
  · refine joinColon_forall (p := fun c => c.toNat < 0x80) (by decide) ?_ b hb
    intro part hpart c hc
    obtain ⟨x, -, rfl⟩ := List.mem_map.mp hpart
    have hx := x.toNat_lt
    simp only [hexByte, List.mem_cons, List.not_mem_nil, or_false] at hc
    rcases hc with rfl | rfl
    · exact hdigit ⟨x.toNat / 16, by omega⟩
    · exact hdigit ⟨x.toNat % 16, by omega⟩

theorem sized_reread {p : Peer} : Sized (reread T p) ↔ Sized p := Iff.rfl

/-- **A store that was saved can be opened**, and what is opened is a store in good order with the
same records, up to what JSON does to their names and times. -/
theorem openStore_spec (hwf : s.Wf sha256) (hsized : s.AllSized) (hord : order.Perm s.peers.keys) :
    ∃ s', openStore sha256 T (.content (s.file T order)) = .ok s' ∧ s'.Wf sha256 ∧ s'.AllSized ∧
      ∀ k, s'.find k = (s.find k).map (reread T) := by
  have hrecord : ∀ k p, s.find k = some p → Sized p := by
    intro k p hk
    obtain ⟨a, ha, rfl⟩ := Option.map_eq_some_iff.mp hk
    exact hsized a (hwf.bound k a ha)
  obtain ⟨s', hopen, hfind⟩ :=
    openStore_find (T := T) hwf (fun k p hk => (hrecord k p hk).1) hord
  -- the fold of `OpenStore` over the records that were written
  have hload : (((s.list order).map (reread T)).map some).foldlM (load sha256) {} = .ok s' := by
    rw [openStore, file, unmarshalPeers_marshalPeers] at hopen
    rw [List.map_map]
    exact hopen
  have hlist : ∀ q ∈ (s.list order).map (reread T), Sized q := by
    intro q hq
    obtain ⟨p, hp, rfl⟩ := List.mem_map.mp hq
    obtain ⟨k, hk⟩ := (mem_list_iff hord).mp hp
    exact sized_reread.mpr (hrecord k p hk)
  obtain ⟨hbound, hcells⟩ := load_cells hlist hload (fun k a hk => absurd hk (by simp))
    fun a ha => absurd ha (Nat.not_lt_zero a)
  refine ⟨s', hopen, ⟨hbound, ?_⟩, hcells, hfind⟩
  -- a record stands under the fingerprint of its key, as it did before
  intro k a hk
  have hcell : s'.find k = some (s'.heap.get a) := by rw [find, hk, Option.map_some]
  rw [hfind] at hcell
  obtain ⟨p, hp, hget⟩ := Option.map_eq_some_iff.mp hcell
  obtain ⟨b, hb, rfl⟩ := Option.map_eq_some_iff.mp hp
  obtain ⟨hkey, hfp⟩ := hwf.keyed k b hb
  rw [← hget]
  refine ⟨hkey, ?_⟩
  show k = sanitize (s.heap.get b).fingerprint
  rw [← hfp, hkey, sanitize_fingerprintOf]

end Reload

/-! ## Trust comes from `Verify` -/

/-- The store is one that the calls so far can have led to. -/
def Lived (sha256 : List UInt8 → List UInt8) (acts : List (LifeAct UInt8 Event)) (s : Store) :
    Prop :=
  Inv sha256 (calls acts) s ∧ s.AllSized

theorem Inv.later {evs : List Event} (h : Inv sha256 evs s) (ev : Event) :
    Inv sha256 (evs ++ [ev]) s :=
  h.keeps ⟨fun _ _ hk => hk, le_rfl, fun _ _ => ⟨rfl, rfl, rfl⟩⟩ (fun _ _ hk => .inl hk) ev

/-- Writing and loading keep the invariant, as what is loaded has the same keys and marks. -/
theorem Inv.reload {evs : List Event} (h : Inv sha256 evs s) (hwf : s'.Wf sha256)
    (hfind : ∀ k, s'.find k = (s.find k).map (reread T)) : Inv sha256 evs s' := by
  refine ⟨hwf, ?_⟩
  intro k a hk hver
  have hcell : s'.find k = some (s'.heap.get a) := by rw [find, hk, Option.map_some]
  rw [hfind] at hcell
  obtain ⟨p, hp, hget⟩ := Option.map_eq_some_iff.mp hcell
  obtain ⟨b, hb, rfl⟩ := Option.map_eq_some_iff.mp hp
  -- neither the flag nor the key is touched by reading the record back
  rw [← hget] at hver ⊢
  exact h.vouched k b hb hver

theorem Called.image_opens {ev : Event} {buf : GoString} {ok : Bool}
    (h : Called sha256 T s ev (some (buf, ok)) s') (hwf : s'.Wf sha256) (hsized : s'.AllSized)
    (path : GoString) :
    ∃ u, (program sha256 T path).load (some buf) = some u ∧ u.Wf sha256 ∧ u.AllSized ∧
      ∀ k, u.find k = (s'.find k).map (reread T) := by
  obtain ⟨order, hord, rfl⟩ := h.image buf ok rfl
  obtain ⟨u, hopen, hspec⟩ := openStore_spec (T := T) hwf hsized hord
  refine ⟨u, ?_, hspec⟩
  show (openStore sha256 T (.content _)).toOption = some u
  rw [hopen]
  rfl

/-- **The invariant over all lives**, from its three cases: time goes by, a call is made, the file
it has written is read again. -/
theorem keeps_lived (path : GoString) : (program sha256 T path).Keeps (Lived sha256) where
  later acts act s := by
    rintro ⟨hinv, hsized⟩
    refine ⟨?_, hsized⟩
    cases act with
    | call ev saving alive =>
      rw [calls_call]
      split_ifs
      · exact hinv.later ev
      · exact hinv
    | start readable => simpa [calls] using hinv
    | kill => simpa [calls] using hinv
  call acts ev saving alive s t := by
    rintro ⟨hinv, hsized⟩ hcall hlasts
    rw [Lived, calls_call, if_pos hlasts]
    exact ⟨hinv.step hcall.step.1, hsized.step hcall.step⟩
  reload acts ev s buf ok t := by
    rintro hcall ⟨hinv, hsized⟩
    obtain ⟨u, hload, hwf, husized, hfind⟩ := hcall.image_opens hinv.toWf hsized path
    exact ⟨u, hload, hinv.reload hwf hfind, husized⟩

/-- The invariant relates the records of the store to the calls of all lives. It holds at the
start, with no file and no calls. -/
theorem lived_start {path : GoString} {d : Disk GoString UInt8} (hd : d path = none) :
    (program sha256 T path).Holds (Lived sha256) [] ⟨d, none⟩ := by
  refine ⟨fun s hs => absurd hs (by simp), {}, ?_, ⟨Wf.empty, ?_⟩, ?_⟩
  · show (openStore sha256 T (readFile (d path))).toOption = _
    rw [hd]
    rfl
  · intro k a hk
    exact absurd hk (by simp)
  · intro a ha
    exact absurd ha (Nat.not_lt_zero a)

end Store

/-- **Trust comes from `Verify`, in all lives.** Whatever fails and whenever the program dies:
what is on disk can be opened, and a key is reported as verified, by the store in memory or by
the one that the next start will open, only if a call to `Verify` returned it, in this life or an
earlier one, or if the process died in a `Verify` of this key between the rename of the file and
the return. The fingerprint of the key must not be that of another such key. -/
theorem trust_across_lives {path : GoString} {d : Disk GoString UInt8} (hd : d path = none)
    {acts : List (LifeAct UInt8 Event)} {l : Life GoString UInt8 Store}
    (hrun : Run (Store.program sha256 T path).Step ⟨d, none⟩ acts l) :
    (∃ s, Store.openStore sha256 T (readFile (l.disk path)) = .ok s) ∧
      ∀ s, (l.mem = some s ∨ Store.openStore sha256 T (readFile (l.disk path)) = .ok s) →
        ∀ order name key,
          (∀ key', Store.Returned acts key' ∨ Store.CutShort acts key' →
            fingerprintOf sha256 key' = fingerprintOf sha256 key → key' = key) →
          s.trustOf sha256 order name key = .verified →
            Store.Returned acts key ∨ Store.CutShort acts key := by
  have hlived : (Store.program sha256 T path).Holds (Store.Lived sha256) acts l :=
    (Store.lived_start hd).run (Store.keeps_lived path) hrun
  obtain ⟨u, hload, hu⟩ := hlived.disk
  have hopen : Store.openStore sha256 T (readFile (l.disk path)) = .ok u :=
    Store.openStore_of_load hload
  refine ⟨⟨u, hopen⟩, ?_⟩
  intro s hs order name key hinj htrust
  -- in memory and on disk alike, the invariant holds of the store
  have hinv : Store.Inv sha256 (Store.calls acts) s := by
    rcases hs with hmem | hdisk
    · exact (hlived.mem s hmem).1
    · obtain rfl : u = s := Except.ok.inj (hopen.symm.trans hdisk)
      exact hu.1
  obtain ⟨a, hk, hver⟩ := Store.trustOf_eq_verified htrust
  have hvouched := Store.VerifyReturned.returned_or (hinv.vouched _ a hk hver)
  rwa [hinj _ hvouched (hinv.keyed _ a hk).1.symm] at hvouched

/-! ### A life with a verification -/

/-- `peers.json` -/
def peersJson : GoString := [112, 101, 101, 114, 115, 46, 106, 115, 111, 110]

/-- Alice is seen, and then verified. -/
def aliceSeen : Store := (Store.observe sha256Keys {} [] 0 aliceText [] keyOne true).1

def aliceVerified : Store := (aliceSeen.verify sha256Keys aliceSeen.peers.keys aliceText true).1

def aliceFile : GoString := aliceVerified.file epochCodec aliceVerified.peers.keys

def seenLife : Life GoString UInt8 Store :=
  ⟨replace (fun _ => none) peersJson (tmpPath peersJson)
    (aliceSeen.file epochCodec aliceSeen.peers.keys)
    .never, some aliceSeen⟩

def seenActs : List (LifeAct UInt8 Event) :=
  [.start true, .call (.observe [] 0 aliceText [] keyOne true)
    (some (aliceSeen.file epochCodec aliceSeen.peers.keys, .never)) true]

theorem seenLife_run :
    Run (Store.program sha256Keys epochCodec peersJson).Step ⟨fun _ => none, none⟩ seenActs
      seenLife := by
  have hobserve : Store.Called sha256Keys epochCodec {} (.observe [] 0 aliceText [] keyOne true)
      (some (aliceSeen.file epochCodec aliceSeen.peers.keys, true)) aliceSeen := by
    refine ⟨⟨⟨List.Perm.refl _, rfl⟩, by decide, by decide, by decide⟩, rfl, ?_⟩
    intro buf ok hw
    obtain ⟨rfl, rfl⟩ := Prod.mk.inj (Option.some.inj hw)
    exact ⟨_, List.Perm.refl _, rfl⟩
  exact (Run.single (Program.step_start _ _)).snoc (Program.step_call _ _ hobserve true)

def verifyAct (alive : Bool) : LifeAct UInt8 Event :=
  .call (.verify aliceSeen.peers.keys aliceText true (some (aliceVerified.heap.get 0)))
    (some (aliceFile, .never)) alive

theorem verifyAct_step (alive : Bool) :
    (Store.program sha256Keys epochCodec peersJson).Step seenLife (verifyAct alive)
      ⟨replace seenLife.disk peersJson (tmpPath peersJson) aliceFile .never,
        if alive then some aliceVerified else none⟩ := by
  have hverify : Store.Called sha256Keys epochCodec aliceSeen
      (.verify aliceSeen.peers.keys aliceText true (some (aliceVerified.heap.get 0)))
      (some (aliceFile, true)) aliceVerified := by
    refine ⟨⟨⟨List.Perm.refl _, rfl, rfl⟩, trivial⟩, rfl, ?_⟩
    intro buf ok hw
    obtain ⟨rfl, rfl⟩ := Prod.mk.inj (Option.some.inj hw)
    exact ⟨_, List.Perm.refl _, rfl⟩
  exact Program.step_call _ _ hverify alive

/-- The process dies behind the rename. After the next start she is verified, though no `Verify`
ever returned. -/
theorem trust_across_lives_cut :
    ∃ l s, Run (Store.program sha256Keys epochCodec peersJson).Step ⟨fun _ => none, none⟩
        (seenActs ++ [verifyAct false] ++ [.start true]) l ∧
      l.mem = some s ∧ s.trustOf sha256Keys s.peers.keys aliceText keyOne = .verified ∧
      (∀ key, ¬Store.Returned (seenActs ++ [verifyAct false] ++ [.start true]) key) ∧
      (Store.Returned (seenActs ++ [verifyAct false] ++ [.start true]) keyOne ∨
        Store.CutShort (seenActs ++ [verifyAct false] ++ [.start true]) keyOne) := by
  have hrun := (seenLife_run.snoc (verifyAct_step false)).snoc (Program.step_start _ _)
  have hopen : ((Store.openStore sha256Keys epochCodec (.content aliceFile)).toOption.map fun s =>
      s.trustOf sha256Keys s.peers.keys aliceText keyOne) = some .verified := by decide +kernel
  obtain ⟨s, hload, htrust⟩ := Option.map_eq_some_iff.mp hopen
  have hmem : (Store.program sha256Keys epochCodec peersJson).load
      (replace seenLife.disk peersJson (tmpPath peersJson) aliceFile .never peersJson)
        = some s := by
    rw [replace_path (tmpPath_ne peersJson), if_pos rfl]
    exact hload
  refine ⟨_, s, hrun, hmem, htrust, ?_,
    (trust_across_lives rfl hrun).2 s (.inl hmem) _ _ _ (fun _ _ => fingerprintOf_keyOne_inj)
      htrust⟩
  rintro key ⟨order, name, saved, p, saving, hmem, -⟩
  simp [seenActs, verifyAct] at hmem

/-! ## Trust stays -/

/-- A call that puts another key in the place of this one: `Verify`, when the record of the key
is found under the name and has a pending key. -/
def Event.Replaces (sha256 : List UInt8 → List UInt8) (s : Store) (key : List UInt8) : Event → Prop
  | .verify order name _ _ => ∃ a, s.findByNameLocked order name = some a ∧
      s.peers.lookup (fingerprintOf sha256 key) = some a ∧ (s.heap.get a).pendingKey ≠ []
  | .observe _ _ _ _ _ _ | .reject _ _ _ | .trustOf _ _ _ => False

namespace Store

/-- The program without such calls. -/
def programKeeping (sha256 : List UInt8 → List UInt8) (T : TimeCodec) (path : GoString)
    (key : List UInt8) : Program GoString UInt8 Store Event :=
  { program sha256 T path with
    Call := fun s ev w s' => Called sha256 T s ev w s' ∧ ¬ev.Replaces sha256 s key }

/-- The key is verified. -/
def Trusts (sha256 : List UInt8 → List UInt8) (s : Store) (key : List UInt8) : Prop :=
  ∃ p, s.find (fingerprintOf sha256 key) = some p ∧ p.verified = true

/-- A verified key is reported under every name, as `TrustOf` looks for the key first. -/
theorem Trusts.trustOf {key : List UInt8} (h : s.Trusts sha256 key) (order : List GoString)
    (name : GoString) : s.trustOf sha256 order name key = .verified := by
  obtain ⟨p, hfind, hver⟩ := h
  rw [trustOf_of_find hfind, levelOf, if_pos hver]

theorem Trusts.keeps {key : List UInt8} (h : s.Trusts sha256 key) (hwf : s.Wf sha256)
    (hk : s.Keeps s') : s'.Trusts sha256 key := by
  obtain ⟨p, hfind, hver⟩ := h
  obtain ⟨a, ha, rfl⟩ := Option.map_eq_some_iff.mp hfind
  refine ⟨s'.heap.get a, ?_, ?_⟩
  · rw [find, hk.entry _ a ha, Option.map_some]
  · rw [(hk.record a (hwf.bound _ a ha)).2.2]
    exact hver

/-- What `Verify` makes of the record it finds: it is verified, with the pending key if there is
one, and stands under the fingerprint of that key; nothing else moves but what stood there. -/
structure Confirms (sha256 : List UInt8 → List UInt8) (s : Store) (a : ℕ) (s' : Store) : Prop where
  verified : (s'.heap.get a).verified = true
  own : s'.peers.lookup (fingerprintOf sha256 (s'.heap.get a).publicKey) = some a
  frame : ∀ b, b ≠ a → s'.heap.get b = s.heap.get b
  entry : ∀ k b, s.peers.lookup k = some b → (b = a → (s.heap.get a).pendingKey = []) →
    s'.peers.lookup k = some b ∨ s'.peers.lookup k = some a

theorem Confirms.of_flag {t : Store} {a : ℕ}
    (hown : t.peers.lookup (fingerprintOf sha256 (t.heap.get a).publicKey) = some a)
    (hframe : ∀ b, b ≠ a → t.heap.get b = s.heap.get b)
    (hentry : ∀ k b, s.peers.lookup k = some b → (b = a → (s.heap.get a).pendingKey = []) →
      t.peers.lookup k = some b ∨ t.peers.lookup k = some a) :
    s.Confirms sha256 a { t with heap := t.heap.modify a fun p =>
      { p with verified := true } } := by
  refine ⟨?_, ?_, ?_, hentry⟩
  · rw [Heap.get_modify_self]
  · rw [Heap.get_modify_self]
    exact hown
  · intro b hb
    rw [Heap.get_modify_of_ne _ _ hb]
    exact hframe b hb

/-- `Verify` finds a record and confirms it. With a pending key the record moves to the
fingerprint of that key, and without one it stays where it is. -/
theorem Wf.confirms (hwf : s.Wf sha256) {name : GoString} {saved : Bool} {a : ℕ}
    (hname : s.findByNameLocked order name = some a) :
    s.Confirms sha256 a (s.verify sha256 order name saved).1 := by
  obtain ⟨⟨k₀, hk₀⟩, -⟩ := findByNameLocked_eq_some hname
  have hkey := (hwf.keyed k₀ a hk₀).1
  simp only [Store.verify, hname]
  split_ifs with hpending
  swap
  · exact .of_flag (hkey ▸ hk₀) (fun _ _ => rfl) fun k b hk _ => .inl hk
  · refine .of_flag ?_ ?_ ?_
    · rw [Store.adopt]
      dsimp only
      rw [Heap.get_modify_self, AList.lookup_insert]
    · intro b hb
      rw [Store.adopt]
      dsimp only
      rw [Heap.get_modify_of_ne _ _ hb]
    · intro k b hk hb
      -- the entry of another record stays, unless the adopted key has its fingerprint
      rw [Store.adopt, Maps.lookup_move]
      split_ifs with hnew hold
      · exact .inr rfl
      · rw [hold, ← hkey, hk₀] at hk
        exact absurd (hb (Option.some.inj hk).symm) hpending
      · exact .inl hk

theorem Confirms.trusts {a : ℕ} (h : s.Confirms sha256 a s') :
    s'.Trusts sha256 (s'.heap.get a).publicKey :=
  ⟨s'.heap.get a, by rw [find, h.own, Option.map_some], h.verified⟩

/-- A key that is not replaced stays verified. Its entry leads to its own record, or to the one
that was confirmed, and both are. -/
theorem Confirms.keeps {a : ℕ} (h : s.Confirms sha256 a s') {key : List UInt8}
    (htrusts : s.Trusts sha256 key)
    (hstays : s.peers.lookup (fingerprintOf sha256 key) = some a → (s.heap.get a).pendingKey = []) :
    s'.Trusts sha256 key := by
  obtain ⟨p, hfind, hver⟩ := htrusts
  obtain ⟨b, hb, rfl⟩ := Option.map_eq_some_iff.mp hfind
  have hentry : s'.peers.lookup (fingerprintOf sha256 key) = some b ∨
      s'.peers.lookup (fingerprintOf sha256 key) = some a := by
    refine h.entry _ b hb ?_
    rintro rfl
    exact hstays hb
  have htrusts_of : ∀ c, s'.peers.lookup (fingerprintOf sha256 key) = some c →
      (s'.heap.get c).verified = true → s'.Trusts sha256 key := by
    intro c hc hflag
    exact ⟨s'.heap.get c, by rw [find, hc, Option.map_some], hflag⟩
  -- its own record, which may be the confirmed one, or that one in its place
  rcases hentry with hb' | ha
  · apply htrusts_of b hb'
    by_cases hba : b = a
    · rw [hba]
      exact h.verified
    · rw [h.frame b hba]
      exact hver
  · exact htrusts_of a ha h.verified

/-- A key that is verified stays so. Only a `Verify` can take that back, when it accepts another
key for the same record. -/
theorem Trusts.step {key : List UInt8} (h : s.Trusts sha256 key) (hwf : s.Wf sha256) {ev : Event}
    (hstep : s.Step sha256 ev s') (hstays : ¬ev.Replaces sha256 s key) : s'.Trusts sha256 key := by
  cases ev with
  | observe order now name address pub saved =>
    obtain rfl := hstep.2
    exact h.keeps hwf (s.observe_spec sha256 order now name address pub saved).1
  | verify order name saved ret =>
    obtain ⟨rfl, -⟩ := hstep.2
    rcases hname : s.findByNameLocked order name with _ | a
    · simpa only [Store.verify, hname] using h
    · refine (hwf.confirms hname).keeps h ?_
      intro hk
      by_contra hpending
      exact hstays ⟨a, hname, hk, hpending⟩
  | reject order name saved =>
    obtain rfl := hstep.2
    exact h.keeps hwf (s.reject_spec order name saved).1
  | trustOf order name pub =>
    obtain rfl := hstep.2
    exact h

theorem Trusts.reload {key : List UInt8} (h : s.Trusts sha256 key)
    (hfind : ∀ k, s'.find k = (s.find k).map (reread T)) : s'.Trusts sha256 key := by
  obtain ⟨p, hp, hver⟩ := h
  exact ⟨reread T p, by rw [hfind, hp, Option.map_some], hver⟩

/-- The store is one that some calls can have led to, and the key is verified in it. -/
def Confirmed (sha256 : List UInt8 → List UInt8) (key : List UInt8)
    (_ : List (LifeAct UInt8 Event)) (s : Store) : Prop :=
  (∃ evs, Inv sha256 evs s) ∧ s.AllSized ∧ s.Trusts sha256 key

theorem Called.reload_confirmed {key : List UInt8} {ev : Event} {buf : GoString} {ok : Bool}
    (h : Called sha256 T s ev (some (buf, ok)) s') (path : GoString)
    {acts : List (LifeAct UInt8 Event)} (hs : Confirmed sha256 key acts s') :
    ∃ u, (program sha256 T path).load (some buf) = some u ∧ Confirmed sha256 key acts u := by
  obtain ⟨⟨evs, hinv⟩, hsized, htrusts⟩ := hs
  obtain ⟨u, hload, hwf, husized, hfind⟩ := h.image_opens hinv.toWf hsized path
  exact ⟨u, hload, ⟨evs, hinv.reload hwf hfind⟩, husized, htrusts.reload hfind⟩

/-- **The second invariant over all lives**, for programs that do not replace the key. -/
theorem keeps_confirmed (path : GoString) (key : List UInt8) :
    (programKeeping sha256 T path key).Keeps (Confirmed sha256 key) where
  later _ _ _ h := h
  call acts ev saving alive s t := by
    rintro ⟨⟨evs, hinv⟩, hsized, htrusts⟩ ⟨hcall, hstays⟩ -
    exact ⟨⟨_, hinv.step hcall.step.1⟩, hsized.step hcall.step,
      htrusts.step hinv.toWf hcall.step.1 hstays⟩
  reload acts ev s buf ok t := by
    rintro ⟨hcall, -⟩ ht
    exact hcall.reload_confirmed path ht

end Store

/-- **A verification that was saved stays.** Once `Verify` has returned a record without an
error, its key is reported as verified under every name, by the store in memory and by the one
the next start will open, whatever is called, fails or dies after that, until a `Verify` replaces
the key by another. -/
theorem verified_across_lives {path : GoString} {d : Disk GoString UInt8} (hd : d path = none)
    {acts later : List (LifeAct UInt8 Event)} {l l₁ l' : Life GoString UInt8 Store}
    (hrun : Run (Store.program sha256 T path).Step ⟨d, none⟩ acts l) {name buf : GoString}
    {p : Peer}
    {alive : Bool}
    (hverify : (Store.program sha256 T path).Step l
      (.call (.verify order name true (some p)) (some (buf, .never)) alive) l₁)
    (hlater : Run (Store.programKeeping sha256 T path p.publicKey).Step l₁ later l') :
    (∀ s, l'.mem = some s → ∀ o n, s.trustOf sha256 o n p.publicKey = .verified) ∧
      ∃ s, Store.openStore sha256 T (readFile (l'.disk path)) = .ok s ∧
        ∀ o n, s.trustOf sha256 o n p.publicKey = .verified := by
  have hlived : (Store.program sha256 T path).Holds (Store.Lived sha256) acts l :=
    (Store.lived_start hd).run (Store.keeps_lived path) hrun
  obtain ⟨s, t, hmem, hcall, rfl⟩ := hverify
  obtain ⟨hinv, hsized⟩ := hlived.mem s hmem
  -- the call leaves the key verified in memory, and what it wrote can be loaded
  have ht : Store.Confirmed sha256 p.publicKey [] t := by
    refine ⟨⟨_, hinv.step hcall.step.1⟩, hsized.step hcall.step, ?_⟩
    obtain ⟨⟨-, rfl, hret⟩, -⟩ := hcall.step
    obtain ⟨a, ha, hp⟩ := Option.map_eq_some_iff.mp hret.symm
    rw [← hp]
    apply Store.Confirms.trusts (s := s)
    apply hinv.toWf.confirms
    exact (Store.verify_peers (show s.verify sha256 order name true = (_, some a, _) from by
      rw [← ha])).1
  have hstart : (Store.programKeeping sha256 T path p.publicKey).Holds
      (Store.Confirmed sha256 p.publicKey) [] ⟨(Store.program sha256 T path).saved l.disk
        (some (buf, .never)), if alive then some t else none⟩ := by
    refine ⟨?_, ?_⟩
    · intro u hu
      cases alive with
      | false => exact absurd hu (by simp)
      | true => exact Option.some.inj hu ▸ ht
    · show ∃ u, (Store.program sha256 T path).load
        (replace l.disk path (tmpPath path) buf .never path)
        = some u ∧ _
      rw [replace_path (tmpPath_ne path), if_pos rfl]
      exact Store.Called.reload_confirmed hcall path ht
  have hend := hstart.run (Store.keeps_confirmed path p.publicKey) hlater
  refine ⟨?_, ?_⟩
  · intro u hu
    exact (hend.mem u hu).2.2.trustOf
  · obtain ⟨u, hload, -, -, htrusts⟩ := hend.disk
    exact ⟨u, Store.openStore_of_load hload, htrusts.trustOf⟩

/-- The program dies while it saves that alice was seen once more, three bytes into the file. -/
theorem verified_across_lives_death :
    ∃ buf l, Run (Store.programKeeping sha256Keys epochCodec peersJson keyOne).Step
        ⟨replace seenLife.disk peersJson (tmpPath peersJson) aliceFile .never, some aliceVerified⟩
        ([.call (.observe aliceVerified.peers.keys 1 aliceText [] keyOne false)
          (some (buf, .writing 3)) false] ++ [.start true]) l ∧
      l.disk (tmpPath peersJson) = some (buf.take 3) ∧
      ∃ s, Store.openStore sha256Keys epochCodec (readFile (l.disk peersJson)) = .ok s ∧
        ∀ o n, s.trustOf sha256Keys o n keyOne = .verified := by
  obtain ⟨t, ht⟩ : ∃ t, t = (aliceVerified.observe sha256Keys aliceVerified.peers.keys 1 aliceText
    [] keyOne false).1 := ⟨_, rfl⟩
  -- alice is seen once more
  have hcall : Store.Called sha256Keys epochCodec aliceVerified
      (.observe aliceVerified.peers.keys 1 aliceText [] keyOne false)
      (some (t.file epochCodec t.peers.keys, false)) t := by
    refine ⟨⟨⟨List.Perm.refl _, ht⟩, by decide, by decide, by decide⟩, rfl, ?_⟩
    intro buf ok hw
    obtain ⟨rfl, rfl⟩ := Prod.mk.inj (Option.some.inj hw)
    exact ⟨_, List.Perm.refl _, rfl⟩
  have hcut : (Store.programKeeping sha256Keys epochCodec peersJson keyOne).Call aliceVerified
      (.observe aliceVerified.peers.keys 1 aliceText [] keyOne false)
      (Program.outcome (some (t.file epochCodec t.peers.keys, .writing 3))) t := ⟨hcall, not_false⟩
  -- the third byte is the last one that is written
  have hdeath := (Run.single (Program.step_call _
    (replace seenLife.disk peersJson (tmpPath peersJson) aliceFile .never) hcut false)).snoc
    (Program.step_start _ _)
  have hkey : (aliceVerified.heap.get 0).publicKey = keyOne := by decide +kernel
  refine ⟨_, _, hdeath, ?_, ?_⟩
  · exact Function.update_self (tmpPath peersJson) _
      (replace seenLife.disk peersJson (tmpPath peersJson) aliceFile .never)
  · rw [← hkey] at hdeath ⊢
    exact (verified_across_lives rfl seenLife_run (verifyAct_step true) hdeath).2

end Heimdall.Peers
