/-
The two sessions of one handshake, with a ledger of what each of them has sealed.

Either end may be called with anything at any time: a label is an end and a call on it, and a
forged frame is an `Open` like any other. The ledger keeps, for each `Seal` that succeeded, the
sequence number and the epoch it was sealed with and the message key it was encrypted under.

Two results are read off it:

* no message key is used twice, by one end or by both, and none is a key of another level of
  the derivation (`message_keys_separate`). The epoch takes no part in the argument: the counter
  is not reset at a rotation, so the sequence number alone tells two frames of one end apart;
* a frame is opened exactly when it is at most one epoch away from its receiver and its number
  is fresh (`honest_acceptance`). This needs the chains of the receiver to be those of its
  epoch and of the one before, however the epoch got there (`Aligned`).
-/
import Heimdall.Rotation

set_option autoImplicit false

namespace Heimdall.Proto

open Heimdall.BigEndian Heimdall.Octets Heimdall.Crypto Heimdall.Runs

/-! ## The ledger -/

/-- A `Seal` that succeeded. -/
structure Sealing where
  typ : UInt8
  plaintext : Bytes
  sequence : UInt64
  epoch : UInt32
  key : Bytes
  wire : Bytes

def Session.sealings (s : Session) : SessionAct → List Sealing
  | .sealing typ pt rand =>
    match (s.sealFrame typ pt rand).2, s.sealKey with
    | .ok wire, .ok key => [⟨typ, pt, s.sendSeq, (s.sealFrame typ pt rand).1.epoch, key, wire⟩]
    | _, _ => []
  | _ => []

/-- The two ends, `true` being the initiator, and the ledger of each. -/
structure Pair where
  side : Bool → Session
  log : Bool → List Sealing := fun _ => []

namespace Pair

def start (a b : Session) : Pair := { side := fun who => if who then a else b }

def next (p : Pair) (a : Bool × SessionAct) : Pair :=
  { side := Function.update p.side a.1 ((p.side a.1).after a.2)
    log := Function.update p.log a.1 (p.log a.1 ++ (p.side a.1).sealings a.2) }

def Call (p : Pair) (a : Bool × SessionAct) (p' : Pair) : Prop := p.next a = p'

/-- A call during which no epoch counter wraps around. -/
def Step (p : Pair) (a : Bool × SessionAct) (p' : Pair) : Prop :=
  p.Call a p' ∧ ∀ w, (p.side w).epoch ≤ (p'.side w).epoch

/-- What is kept for each end separately need only be checked at the end that was called: a call
leaves the other session and the other ledger alone. The invariants of this file are all of this
form. -/
theorem next_cases {p : Pair} {a : Bool × SessionAct} {P : Bool → Session → List Sealing → Prop}
    (h : ∀ w, P w (p.side w) (p.log w))
    (hcall : P a.1 ((p.side a.1).after a.2) (p.log a.1 ++ (p.side a.1).sealings a.2)) (w : Bool) :
    P w ((p.next a).side w) ((p.next a).log w) := by
  dsimp only [next]
  by_cases hw : w = a.1
  · subst hw
    rw [Function.update_self, Function.update_self]
    exact hcall
  · rw [Function.update_of_ne hw, Function.update_of_ne hw]
    exact h w

end Pair

/-- An entry of the ledger of direction `d`: the key is the message key of its epoch and number,
and the frame is encrypted under it. -/
structure Sealing.Sound (root : Bytes) (d : Dir) (r : Sealing) : Prop where
  key : r.key = messageKeyOf root d r.epoch r.sequence
  wire : ∃ n, r.wire = marshalFrame (sealedFrame root d r.typ r.sequence r.epoch n r.plaintext)
  size : r.plaintext.length ≤ maxPlaintext

/-- **What a call adds to the ledger**: nothing, with the counter left alone, or one sound entry
with the number the counter had. A session that was closed adds nothing, and so do `Open` and
`Close`. -/
theorem Session.Valid.sealings_cases {root : Bytes} {i : Bool} {s : Session} (h : s.Valid root i)
    (a : SessionAct) :
    (s.sealings a = [] ∧ (s.after a).sendSeq = s.sendSeq) ∨
      ∃ r, s.sealings a = [r] ∧ r.Sound root (sendDir i) ∧ r.sequence = s.sendSeq ∧
        (s.after a).sendSeq = s.sendSeq + 1 := by
  rcases a with ⟨typ, pt, rand⟩ | buf | _
  · rcases h with hclosed | hlive
    · have hseal := sealFrame_closed hclosed typ pt rand
      refine .inl ⟨?_, ?_⟩
      · rw [Session.sealings, hseal]
      · rw [Session.after, hseal]
    obtain ⟨-, -, ⟨e, hres, hseq, -⟩ | ⟨n, -, hpt, hres, hseq, hepoch⟩⟩ :=
      sealFrame_spec hlive typ pt rand
    · -- a `Seal` that failed, before or after the rotation
      refine .inl ⟨?_, hseq⟩
      rw [Session.sealings, hres]
    · refine .inr ⟨⟨typ, pt, s.sendSeq, s.sealEpoch,
        messageKeyOf root (sendDir i) s.sealEpoch s.sendSeq,
        marshalFrame (sealedFrame root (sendDir i) typ s.sendSeq s.sealEpoch n pt)⟩, ?_,
        ⟨rfl, ⟨n, rfl⟩, hpt⟩, rfl, hseq⟩
      rw [Session.sealings, hres, Logged.sealKey_eq hlive, hepoch]
  · rcases h with hclosed | hlive
    · refine .inl ⟨rfl, ?_⟩
      rw [Session.after, openFrame_closed hclosed]
    · exact .inl ⟨rfl, (openFrame_spec hlive buf).2.1⟩
  · exact .inl ⟨rfl, rfl⟩

/-! ## Key separation

HKDF separates the levels by the label alone, so the labels are all there is to compare. Within one
level the message keys differ by direction, epoch and sequence number. -/

/-- The keys of the handshake and of the session that are no message keys. -/
inductive OtherKey (shared transcript : Bytes) : Bytes → Prop
  | root {k : Bytes} : deriveKey shared transcript infoRoot keySize = .ok k →
      OtherKey shared transcript k
  | hs2 {k : Bytes} : deriveKey shared transcript infoHS2 keySize = .ok k →
      OtherKey shared transcript k
  | hs3 {k : Bytes} : deriveKey shared transcript infoHS3 keySize = .ok k →
      OtherKey shared transcript k
  | seed {root k : Bytes} (epoch : UInt32) :
    deriveKey shared transcript infoRoot keySize = .ok root →
      deriveKey root [] (infoRotate ++ " " ++ itoa epoch) keySize = .ok k →
      OtherKey shared transcript k
  | chain {root seed k : Bytes} (epoch : UInt32) (d : Dir) :
      deriveKey shared transcript infoRoot keySize = .ok root →
      deriveKey root [] (infoRotate ++ " " ++ itoa epoch) keySize = .ok seed →
      deriveKey seed [] d.info keySize = .ok k → OtherKey shared transcript k

/-- Whatever the epoch, its label is not that of the message keys. The label has the epoch at its
end and so has no fixed length: the two are told apart by the text they begin with. -/
theorem rotateLabel_ne_infoMsg (epoch : UInt32) : infoRotate ++ " " ++ itoa epoch ≠ infoMsg := by
  intro h
  have hlist := congrArg (fun s : String => s.toList.take 13) h
  simp only [String.toList_append, List.append_assoc] at hlist
  rw [List.take_append_of_le_length (by decide)] at hlist
  exact absurd hlist (by decide)

theorem Dir.info_ne_infoMsg (d : Dir) : d.info ≠ infoMsg := by
  rcases d <;> decide

/-- Only the message keys carry the message label. A key derived with it is none of the others,
whatever secret and salt it was derived from. -/
theorem OtherKey.not_messageKey {shared transcript k secret salt : Bytes}
    (h : OtherKey shared transcript k) (hk : deriveKey secret salt infoMsg keySize = .ok k) :
    False := by
  have hlabel : ∀ {secret' salt' : Bytes} {info : String},
      deriveKey secret' salt' info keySize = .ok k → info = infoMsg := by
    intro secret' salt' info hk'
    exact (deriveKey_inj (by norm_num [keySize]) hk' hk).2.2.1
  rcases h with h | h | h | ⟨epoch, -, h⟩ | ⟨epoch, d, -, -, h⟩
  · exact absurd (hlabel h) (by decide)
  · exact absurd (hlabel h) (by decide)
  · exact absurd (hlabel h) (by decide)
  · exact rotateLabel_ne_infoMsg epoch (hlabel h)
  · exact d.info_ne_infoMsg (hlabel h)

/-- One end: its entries are sound, and they are numbered from zero on. -/
structure Numbered (root : Bytes) (w : Bool) (s : Session) (log : List Sealing) : Prop where
  valid : s.Valid root w
  counter : s.sendSeq = UInt64.ofNat log.length
  sound : ∀ r ∈ log, r.Sound root (sendDir w)
  numbers : log.map Sealing.sequence = (List.range log.length).map UInt64.ofNat

section Numbered

variable {root : Bytes} {w : Bool} {s : Session} {log : List Sealing}

/-- Step lemma: a call at this end keeps the numbering. Only a `Seal` that succeeded adds an
entry, with the number of the counter, which is the length of the ledger before it. -/
theorem Numbered.after (h : Numbered root w s log) (a : SessionAct) :
    Numbered root w (s.after a) (log ++ s.sealings a) := by
  have hvalid : (s.after a).Valid root w := h.valid.step rfl
  rcases h.valid.sealings_cases a with ⟨hnil, hseq⟩ | ⟨r, hr, hsound, hnumber, hseq⟩
  · rw [hnil, List.append_nil]
    exact ⟨hvalid, hseq.trans h.counter, h.sound, h.numbers⟩
  · rw [hr]
    refine ⟨hvalid, ?_, ?_, ?_⟩
    · rw [hseq, h.counter, List.length_append, List.length_singleton, UInt64.ofNat_add]
      rfl
    · -- the new entry is the last one; the others were sound before
      intro r' hr'
      rcases List.mem_append.mp hr' with hold | hnew
      · exact h.sound r' hold
      · rw [List.mem_singleton.mp hnew]
        exact hsound
    · rw [List.map_append, List.map_singleton, h.numbers, hnumber, h.counter, List.length_append,
        List.length_singleton, List.range_succ, List.map_append, List.map_singleton]

theorem Numbered.start (hroot : root.length = keySize) (w : Bool) :
    Numbered root w (freshSession root w) [] :=
  ⟨.inr (freshSession_live hroot w), rfl, fun _ hr => absurd hr List.not_mem_nil, rfl⟩

/-- Below 2^64 the numbers of one end are all different, and so are its keys: two equal message
keys are derived from equal salts, and those contain the number. -/
theorem Numbered.keys_nodup (h : Numbered root w s log) (hlen : log.length < 2 ^ 64) :
    (log.map Sealing.key).Nodup := by
  have hnumbers : (log.map Sealing.sequence).Nodup := by
    rw [h.numbers]
    refine List.Nodup.map_on (fun x hx y hy heq => ?_) List.nodup_range
    have hsize : UInt64.size = 2 ^ 64 := rfl
    have hnat := congrArg UInt64.toNat heq
    rw [List.mem_range] at hx hy
    rwa [UInt64.toNat_ofNat_of_lt' (by omega), UInt64.toNat_ofNat_of_lt' (by omega)] at hnat
  rw [List.Nodup, List.pairwise_map] at hnumbers ⊢
  refine hnumbers.imp_of_mem fun hx hy hne heq => hne ?_
  rw [(h.sound _ hx).key, (h.sound _ hy).key] at heq
  exact (messageKeyOf_inj heq).2.2.2

end Numbered

/-- Run lemma: after any calls at the two ends both are numbered, whatever came in between. -/
theorem Pair.run_numbered {root : Bytes} (hroot : root.length = keySize)
    {acts : List (Bool × SessionAct)} {p : Pair}
    (hrun : Run Pair.Call (Pair.start (freshSession root true) (freshSession root false)) acts p)
    (w : Bool) : Numbered root w (p.side w) (p.log w) := by
  revert w
  refine hrun.invariant (fun p => ∀ w, Numbered root w (p.side w) (p.log w)) (fun w => ?_) ?_
  · rcases w
    · exact .start hroot false
    · exact .start hroot true
  · rintro p a _ h rfl
    exact Pair.next_cases h ((h a.1).after a.2)

/-- The two ends seal in different directions, so their chains have different labels. -/
theorem sendDir_inj {w w' : Bool} (h : sendDir w = sendDir w') : w = w' := by
  revert h
  rcases w <;> rcases w' <;> decide

/-- **Key separation and no key reuse.** In every run of the two sessions of one handshake, with
any calls in any order and with fewer than 2^64 frames sealed at each end, no two frames are
encrypted under the same key, and no key of a frame is a key of another level. -/
theorem message_keys_separate {shared transcript : Bytes} {a b : Session}
    (ha : newSession shared transcript true = .ok a)
    (hb : newSession shared transcript false = .ok b)
    {acts : List (Bool × SessionAct)} {p : Pair} (hrun : Run Pair.Call (Pair.start a b) acts p)
    (hlen : ∀ w, (p.log w).length < 2 ^ 64) :
    ((p.log true ++ p.log false).map Sealing.key).Nodup ∧
      ∀ w, ∀ r ∈ p.log w, ¬ OtherKey shared transcript r.key ∧
        ∃ f, r.wire = marshalFrame f ∧
          openBlob r.key (marshalHeaderOnly f) f.blob = .ok r.plaintext := by
  obtain ⟨-, rfl⟩ := newSession_eq_ok ha
  obtain ⟨-, rfl⟩ := newSession_eq_ok hb
  have h := Pair.run_numbered (length_rootOf shared transcript) hrun
  refine ⟨?_, fun w r hr => ?_⟩
  · rw [List.map_append, List.nodup_append]
    refine ⟨(h true).keys_nodup (hlen true), (h false).keys_nodup (hlen false), ?_⟩
    intro k hk k' hk' heq
    obtain ⟨r, hr, rfl⟩ := List.mem_map.mp hk
    obtain ⟨r', hr', rfl⟩ := List.mem_map.mp hk'
    rw [((h true).sound r hr).key, ((h false).sound r' hr').key] at heq
    -- the two ends send in different directions
    exact absurd (sendDir_inj (messageKeyOf_inj heq).2.1) (by simp)
  · have hsound := (h w).sound r hr
    obtain ⟨n, hwire⟩ := hsound.wire
    refine ⟨fun hother => ?_, _, hwire, ?_⟩
    · have hchain : chainKey (rootOf shared transcript) (sendDir w) r.epoch ≠ [] :=
        ne_nil_of_length (length_chainKey _ _ _)
      refine hother.not_messageKey
        (deriveKey_ok hchain (putUint64 r.sequence) infoMsg keySize |>.trans ?_)
      rw [hsound.key]
      rfl
    · rw [hsound.key]
      exact openBlob_sealedFrame _ _ _ _ _ _ _

def demoPair : Pair := .start demoSession (freshSession (rootOf (lits [7]) []) false)

/-- Each end seals one frame, the second one after a forged announcement has taken it to the next
epoch. -/
theorem message_keys_separate_crossing :
    ∃ p, Run Pair.Call demoPair
        [(true, .sealing typeChat [] (some ⟨List.replicate 12 0, rfl⟩)),
          (false, .opening (marshalFrame (forgedFrame demoSession.root 1))),
          (false, .sealing typeChat [] (some ⟨List.replicate 12 0, rfl⟩))] p ∧
      (p.log true).length = 1 ∧ (p.log false).length = 1 ∧
      ((p.log true ++ p.log false).map Sealing.key).Nodup := by
  have hrun : Run Pair.Call demoPair
      [(true, .sealing typeChat [] (some ⟨List.replicate 12 0, rfl⟩)),
        (false, .opening (marshalFrame (forgedFrame demoSession.root 1))),
        (false, .sealing typeChat [] (some ⟨List.replicate 12 0, rfl⟩))] _ :=
    ((Run.single rfl).snoc rfl).snoc rfl
  refine ⟨_, hrun, by decide +kernel, by decide +kernel, ?_⟩
  refine (message_keys_separate newSession_demo (newSession_eq (by simp) _ _) hrun fun w => ?_).1
  rcases w
  · decide +kernel
  · decide +kernel

/-! ## Acceptance -/

/-- An end whose epoch has not wrapped. Only in the first epoch is there no retired chain. -/
structure Aligned (root : Bytes) (i : Bool) (s : Session) : Prop where
  ready : Ready root i s
  first : s.epoch = 0 → s.recvOld = none

section Aligned

variable {root : Bytes} {i : Bool} {s : Session}

/-- The retired chain is there whenever there was an epoch before, and it is the chain of that
one. -/
theorem Aligned.recvOld_eq (h : Aligned root i s) :
    s.recvOld = if s.epoch = 0 then none
      else some ⟨chainKey root (recvDir i) (s.epoch - 1)⟩ := by
  by_cases h0 : s.epoch = 0
  · rw [if_pos h0]
    exact h.first h0
  · rw [if_neg h0]
    obtain ⟨c, hc⟩ := Option.isSome_iff_exists.mp (h.ready.old.resolve_left h0)
    rw [hc, h.ready.live.recvOld c hc]

/-- Unless accepting it would wrap the counter, a frame is in range exactly when it is at most one
epoch away. The code compares for equality with the epoch, the next and the one before, modulo
2^32; here the distance is one of natural numbers. -/
theorem Aligned.inRange_iff (h : Aligned root i s) {e : UInt32}
    (hwrap : e = s.epoch + 1 → s.epoch ≤ e) :
    s.inRange e ↔ s.epoch.toNat ≤ e.toNat + 1 ∧ e.toNat ≤ s.epoch.toNat + 1 := by
  by_cases he : e.toNat ≤ s.epoch.toNat + 1
  · rw [h.ready.inRange_iff he hwrap]
    exact ⟨fun hle => ⟨hle, he⟩, fun hc => hc.1⟩
  · refine ⟨fun hr => ?_, fun hc => absurd hc.2 he⟩
    have hlt := e.toNat_lt
    rcases hr with rfl | hnext | ⟨hprev, hold⟩
    · exact absurd he (by omega)
    · have hle := hwrap hnext
      rw [hnext] at hle he
      rw [toNat_add_one_of_le hle] at he
      exact absurd he (by omega)
    · -- only the wrapped predecessor of epoch 0 is left, and there is no chain for it
      have hnat := congrArg UInt32.toNat hprev
      rw [UInt32.toNat_add, UInt32.toNat_one] at hnat
      have h0 : s.epoch = 0 := UInt32.toNat_inj.mp (show s.epoch.toNat = 0 by omega)
      rw [h.first h0] at hold
      exact absurd hold (by simp)

theorem Aligned.start (hroot : root.length = keySize) (i : Bool) :
    Aligned root i (freshSession root i) :=
  ⟨freshSession_ready hroot i, fun _ => rfl⟩

theorem Aligned.first_installed {e : UInt32} (hnext : e = s.epoch + 1) (hle : s.epoch ≤ e) :
    (s.installed e).epoch = 0 → (s.installed e).recvOld = none := by
  intro h0
  have hlt := UInt32.lt_iff_toNat_lt.mp (lt_of_le_succ hle hnext)
  have he : e = 0 := h0
  rw [he] at hlt
  exact absurd hlt (Nat.not_lt_zero _)

theorem Aligned.rotated (h : Aligned root i s) (hle : s.epoch ≤ s.rotated.epoch) :
    Aligned root i s.rotated := by
  unfold Session.rotated at hle ⊢
  split_ifs at hle ⊢ with hdue
  · refine ⟨⟨h.ready.live.installed, .inr (h.ready.live.installed_recvOld _), ?_⟩,
      first_installed rfl hle⟩
    have hpaced := h.ready.paced
    have hle' := UInt32.le_iff_toNat_le.mp hle
    unfold Session.Paced at hpaced ⊢
    exact hpaced.trans (by omega)
  · exact h

/-- Counting the frame after such a rotation keeps them aligned too: `Aligned` looks at the epoch
and at the receiving chain, and a `Seal` advances neither. -/
theorem Aligned.sealed (h : Aligned root i s) (hle : s.epoch ≤ s.rotated.epoch) :
    Aligned root i { s.rotated with sendSeq := s.sendSeq + 1 } := by
  have hfirst := (h.rotated hle).first
  rw [s.rotated_epoch] at hle
  exact ⟨h.ready.sealed hle, hfirst⟩

/-- Entering the next epoch because of a frame keeps the chains aligned, whatever window is left. -/
theorem Aligned.rolledTo (h : Aligned root i s) {e : UInt32} (win : ReplayWindow)
    (hle : s.epoch ≤ (s.rolledTo e).epoch) :
    Aligned root i { s.rolledTo e with recvWin := win } := by
  refine ⟨h.ready.rolledTo win (UInt32.le_iff_toNat_le.mp hle), ?_⟩
  unfold Session.rolledTo at hle ⊢
  split_ifs at hle ⊢ with hnext
  · exact first_installed hnext.1 hle
  · exact h.first

/-- What an `Open` leaves behind, whatever it was given: the session in the epoch of the frame, if
that was the next one, with some window. A frame that does not get as far counts as one of the
present epoch. -/
theorem Live.openFrame_state (h : Live root i s) (buf : Bytes) :
    ∃ e win, (s.openFrame buf).1 = { s.rolledTo e with recvWin := win } := by
  have hstay : s = { s.rolledTo s.epoch with recvWin := s.recvWin } := by
    rw [(s.rolledTo_eq_self_iff s.epoch).mpr (epoch_succ_ne s.epoch).symm]
  rcases hp : parseFrame buf with err | f
  · rw [openFrame_malformed h hp]
    exact ⟨_, _, hstay⟩
  by_cases hs : f.session = sessionIDOf root
  · rw [openFrame_eq h hp hs]
    by_cases hr : s.inRange f.rotation
    · rw [if_pos hr]
      -- the epoch is entered before the frame is authenticated, so it stays when that fails
      rcases openBlob (messageKeyOf root (recvDir i) f.rotation f.sequence)
        (marshalHeaderOnly f) f.blob with err | pt
      · exact ⟨f.rotation, (s.rolledTo f.rotation).recvWin, rfl⟩
      · exact ⟨f.rotation, _, rfl⟩
    · rw [if_neg hr]
      exact ⟨_, _, hstay⟩
  · rw [openFrame_otherSession h hp hs]
    exact ⟨_, _, hstay⟩

/-- **Every call keeps the chains aligned with the epoch**, unless it closes the session. That the
epoch has not wrapped is a hypothesis on this call only. -/
theorem Aligned.after (h : Aligned root i s) (a : SessionAct)
    (hle : s.epoch ≤ (s.after a).epoch) :
    (s.after a).closed = true ∨ Aligned root i (s.after a) := by
  rcases a with ⟨typ, pt, rand⟩ | buf | _
  · right
    dsimp only [Session.after] at hle ⊢
    obtain ⟨-, -, ⟨e, -, -, hs | hs⟩ | ⟨n, rfl, hpt, -⟩⟩ := sealFrame_spec h.ready.live typ pt rand
    · -- a `Seal` that failed before the rotation, one that failed after it, and one that
      -- succeeded
      rw [hs]
      exact h
    · rw [hs] at hle ⊢
      exact h.rotated hle
    · rw [sealFrame_eq h.ready.live typ hpt n] at hle ⊢
      exact h.sealed hle
  · right
    dsimp only [Session.after] at hle ⊢
    obtain ⟨e, win, hs⟩ := h.ready.live.openFrame_state buf
    rw [hs] at hle ⊢
    exact h.rolledTo win hle
  · exact .inl rfl

/-- A frame that the other end sealed is refused for one of two reasons, its epoch or its number. -/
theorem Live.openFrame_sealed (h : Live root i s) {r : Sealing} (hr : r.Sound root (recvDir i))
    (htyp : r.typ ∈ frameTypes) :
    s.openFrame r.wire
      = if s.inRange r.epoch then
          ({ s.rolledTo r.epoch with recvWin := (check s.recvWin r.sequence).1 },
            if (check s.recvWin r.sequence).2 then .ok (r.typ, r.plaintext) else .error .errReplay)
        else (s, .error .errBadEpoch) := by
  obtain ⟨n, hwire⟩ := hr.wire
  rw [hwire, openFrame_eq h (parseFrame_sealedFrame root _ _ _ n htyp hr.size) rfl]
  simp only [sealedFrame_rotation, sealedFrame_sequence, openBlob_sealedFrame, sealedFrame_typ]
  rfl

/-- **Acceptance at one end**: `honest_acceptance` for an entry of a ledger that is known to be
sound, and with the epoch after the call as the later of the two. -/
theorem Aligned.open_iff (h : Aligned root i s) {r : Sealing} (hr : r.Sound root (recvDir i))
    (htyp : r.typ ∈ frameTypes) (hle : s.epoch ≤ (s.openFrame r.wire).1.epoch) :
    ((∃ res, (s.openFrame r.wire).2 = .ok res) ↔
        (s.epoch.toNat ≤ r.epoch.toNat + 1 ∧ r.epoch.toNat ≤ s.epoch.toNat + 1) ∧
          (check s.recvWin r.sequence).2 = true) ∧
      ∀ res, (s.openFrame r.wire).2 = .ok res → res = (r.typ, r.plaintext) ∧
        (s.openFrame r.wire).1.epoch.toNat = max s.epoch.toNat r.epoch.toNat := by
  have hopen := h.ready.live.openFrame_sealed hr htyp
  have hwrap : r.epoch = s.epoch + 1 → s.epoch ≤ r.epoch := by
    -- a frame of the next epoch is in range, so the receiver enters that epoch
    intro hnext
    rw [hopen, if_pos (.inr (.inl hnext))] at hle
    simpa only [Session.rolledTo_epoch, if_pos hnext] using hle
  have hrange := h.inRange_iff hwrap
  rw [← hrange, hopen]
  by_cases hin : s.inRange r.epoch
  · rw [if_pos hin]
    dsimp only
    by_cases hfresh : (check s.recvWin r.sequence).2 = true
    · rw [if_pos hfresh]
      refine ⟨⟨fun _ => ⟨hin, hfresh⟩, fun _ => ⟨_, rfl⟩⟩, fun res hres => ⟨?_, ?_⟩⟩
      · exact (Except.ok.inj hres).symm
      · exact toNat_rolledTo (hrange.mp hin).2 hwrap
    · rw [if_neg hfresh]
      exact ⟨⟨fun ⟨_, hres⟩ => absurd hres (by simp), fun hc => absurd hc.2 hfresh⟩,
        fun _ hres => absurd hres (by simp)⟩
  · rw [if_neg hin]
    exact ⟨⟨fun ⟨_, hres⟩ => absurd hres (by simp), fun hc => absurd hc.1 hin⟩,
      fun _ hres => absurd hres (by simp)⟩

end Aligned

/-- Run lemma: before an epoch counter wraps, each end is closed or has its chains aligned. -/
theorem Pair.run_aligned {root : Bytes} (hroot : root.length = keySize)
    {acts : List (Bool × SessionAct)} {p : Pair}
    (hrun : Run Pair.Step (Pair.start (freshSession root true) (freshSession root false)) acts p)
    (w : Bool) : (p.side w).closed = true ∨ Aligned root w (p.side w) := by
  revert w
  refine hrun.invariant (fun p => ∀ w, (p.side w).closed = true ∨ Aligned root w (p.side w))
    (fun w => ?_) ?_
  · rcases w
    · exact .inr (.start hroot false)
    · exact .inr (.start hroot true)
  · rintro p a _ h ⟨rfl, hle⟩
    refine Pair.next_cases (P := fun w s _ => s.closed = true ∨ Aligned root w s) h ?_
    have hside : ((p.next a).side a.1) = (p.side a.1).after a.2 := Function.update_self _ _ _
    have hcalled := hle a.1
    rw [hside] at hcalled
    rcases h a.1 with hclosed | haligned
    · -- no call opens a session that is closed
      left
      rcases ha : a.2 with ⟨typ, pt, rand⟩ | buf | _
      · rw [Session.after, sealFrame_closed hclosed]
        exact hclosed
      · rw [Session.after, openFrame_closed hclosed]
        exact hclosed
      · rfl
    · exact haligned.after a.2 hcalled

theorem recvDir_eq_sendDir_not (w : Bool) : sendDir (!w) = recvDir w := by
  rcases w <;> rfl

/-- **Exact acceptance of honest frames.** In every run of the two sessions of one handshake
before an epoch counter wraps, when an open end is given a frame that the other end sealed, in
whatever order and however often, `Open` succeeds exactly when the frame is at most one epoch
away and the window accepts its number. It then returns what was sealed, and the receiver is in
the later of the two epochs, with the chains of that epoch and of the one before. -/
theorem honest_acceptance {shared transcript : Bytes} {a b : Session}
    (ha : newSession shared transcript true = .ok a)
    (hb : newSession shared transcript false = .ok b)
    {acts : List (Bool × SessionAct)} {p p' : Pair} (hrun : Run Pair.Step (Pair.start a b) acts p)
    {w : Bool} (hopen : (p.side w).closed = false) {r : Sealing} (hr : r ∈ p.log (!w))
    (htyp : r.typ ∈ frameTypes) (hstep : p.Step (w, .opening r.wire) p') :
    ((∃ res, ((p.side w).openFrame r.wire).2 = .ok res) ↔
        ((p.side w).epoch.toNat ≤ r.epoch.toNat + 1 ∧ r.epoch.toNat ≤ (p.side w).epoch.toNat + 1) ∧
          (check (p.side w).recvWin r.sequence).2 = true) ∧
      ∀ res, ((p.side w).openFrame r.wire).2 = .ok res → res = (r.typ, r.plaintext) ∧
        (p'.side w).epoch.toNat = max (p.side w).epoch.toNat r.epoch.toNat ∧
        (p'.side w).recv
          = some ⟨chainKey (rootOf shared transcript) (recvDir w) (p'.side w).epoch⟩ ∧
        (p'.side w).recvOld = if (p'.side w).epoch = 0 then none
          else some ⟨chainKey (rootOf shared transcript) (recvDir w) ((p'.side w).epoch - 1)⟩ := by
  obtain ⟨-, rfl⟩ := newSession_eq_ok ha
  obtain ⟨-, rfl⟩ := newSession_eq_ok hb
  have hroot := length_rootOf shared transcript
  -- the receiver is aligned because it is open, and the frame is sound because it is in the
  -- ledger of the other end
  have haligned : Aligned (rootOf shared transcript) w (p.side w) :=
    (Pair.run_aligned hroot hrun w).resolve_left (by simp [hopen])
  have hsound : r.Sound (rootOf shared transcript) (recvDir w) := by
    rw [← recvDir_eq_sendDir_not]
    exact (Pair.run_numbered hroot (hrun.mono fun _ _ _ hs => hs.1) (!w)).sound r hr
  obtain ⟨rfl, hle⟩ := hstep
  have hside : (p.next (w, .opening r.wire)).side w = ((p.side w).openFrame r.wire).1 :=
    Function.update_self _ _ _
  have hle' := hle w
  rw [hside] at hle' ⊢
  obtain ⟨hiff, hres⟩ := haligned.open_iff hsound htyp hle'
  refine ⟨hiff, fun res hok => ?_⟩
  obtain ⟨hval, hmax⟩ := hres res hok
  obtain ⟨e, win, hs⟩ := haligned.ready.live.openFrame_state r.wire
  have hafter : Aligned (rootOf shared transcript) w ((p.side w).openFrame r.wire).1 := by
    rw [hs] at hle' ⊢
    exact haligned.rolledTo win hle'
  exact ⟨hval, hmax, hafter.ready.live.recv, hafter.recvOld_eq⟩

def demoNonce : Option Nonce := some ⟨List.replicate 12 0, rfl⟩

/-- The responder is made to enter epoch 1 by a forged announcement, and seals two texts there. -/
def aheadActs : List (Bool × SessionAct) :=
  [(false, .opening (marshalFrame (forgedFrame demoSession.root 1))),
    (false, .sealing typeChat (lits [104, 105]) demoNonce),
    (false, .sealing typeChat (lits [121, 111]) demoNonce)]

def aheadPair : Pair := aheadActs.foldl Pair.next demoPair

theorem aheadPair_run : Run Pair.Step demoPair aheadActs aheadPair :=
  ((Run.single ⟨rfl, by decide +kernel⟩).snoc ⟨rfl, by decide +kernel⟩).snoc
    ⟨rfl, by decide +kernel⟩

def aheadSealing : Sealing where
  typ := typeChat
  plaintext := lits [121, 111]
  sequence := 1
  epoch := 1
  key := messageKeyOf demoSession.root .ba 1 1
  wire := marshalFrame (sealedFrame demoSession.root .ba typeChat 1 1 ⟨List.replicate 12 0, rfl⟩
    (lits [121, 111]))

/-- The theorem at that frame: it overtakes the first one, and takes the initiator to epoch 1. -/
theorem honest_acceptance_ahead :
    Run Pair.Step demoPair aheadActs aheadPair ∧ aheadSealing ∈ aheadPair.log false ∧
      (aheadPair.side true).epoch = 0 ∧
      ∃ p' res, aheadPair.Step (true, .opening aheadSealing.wire) p' ∧
        ((aheadPair.side true).openFrame aheadSealing.wire).2 = .ok res ∧
        res = (typeChat, lits [121, 111]) ∧ (p'.side true).epoch.toNat = 1 := by
  have hlog : aheadSealing ∈ aheadPair.log (!true) := List.mem_cons_of_mem _ List.mem_cons_self
  have hstep : aheadPair.Step (true, .opening aheadSealing.wire) _ := ⟨rfl, by decide +kernel⟩
  obtain ⟨hiff, hres⟩ := honest_acceptance newSession_demo (newSession_eq (by simp) _ _)
    aheadPair_run (w := true) (by decide +kernel) hlog (by decide +kernel) hstep
  obtain ⟨res, hok⟩ := hiff.mpr (by decide +kernel)
  obtain ⟨hval, hepoch, -⟩ := hres res hok
  exact ⟨aheadPair_run, hlog, by decide +kernel, _, res, hstep, hok, hval, hepoch⟩

end Heimdall.Proto
