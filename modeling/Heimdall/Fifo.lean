/-
Two sessions of one handshake on a reliable transport, without an attacker.

Each direction is a lossless first-in first-out queue. Both ends advance one epoch counter
each, at their own thousandth frame and on an announcement by the other end, and
`chainForEpochLocked` accepts only the epoch before, the current and the next one. Two facts
about the queues decide what happens:

* a frame is never more than one epoch ahead of its receiver, because the receiver has seen
  every earlier frame and because an end only takes over an epoch the other end is already in
  (`Pending`);
* a frame may be any number of epochs behind, because the receiver's own sending goes on
  while the frame is in flight.

So a delivered frame is opened as what was sealed exactly when the receiver is at most one
epoch ahead of it (`delivery_opens_iff_recent`), and two thousand and one frames sent the
other way are enough to lose one (`crossing_frame_lost`).
-/
import Heimdall.Channel

set_option autoImplicit false

namespace Heimdall.Proto

open Heimdall.Octets Heimdall.Crypto Heimdall.Runs

/-! ## The transport -/

/-- The two ends and, for each of them, its frames that are still in flight, oldest first. -/
structure Duplex where
  side : Bool → Session
  queue : Bool → List Call := fun _ => []

inductive DuplexAct where
  | sealing (who : Bool) (typ : UInt8) (plaintext : Bytes) (n : Nonce)
  | delivery (who : Bool)

namespace Duplex

def start (a b : Session) : Duplex := { side := fun who => if who then a else b }

/-- `Seal` with a valid type and size puts its frame into the sender's queue; a delivery takes
the oldest frame of the other end's queue to `Open`. -/
def next (d : Duplex) : DuplexAct → Option Duplex
  | .sealing who typ pt n =>
    if typ ∈ frameTypes ∧ pt.length ≤ maxPlaintext then
      match (d.side who).sealFrame typ pt (some n) with
      | (s, .ok wire) => some
          { side := Function.update d.side who s
            queue := Function.update d.queue who (d.queue who ++ [⟨typ, pt, wire⟩]) }
      | (s, .error _) => some { d with side := Function.update d.side who s }
    else none
  | .delivery who =>
    match d.queue (!who) with
    | [] => none
    | r :: rest => some
        { side := Function.update d.side who ((d.side who).openFrame r.wire).1
          queue := Function.update d.queue (!who) rest }

/-- A step during which no epoch counter wraps around. -/
def Step (d : Duplex) (a : DuplexAct) (d' : Duplex) : Prop :=
  d.next a = some d' ∧ ∀ w, (d.side w).epoch ≤ (d'.side w).epoch

end Duplex

/-! ## The frames in flight -/

/-- The frames of `root` in direction `d` that wait for a receiver in epoch `R`, numbered from
`m` to the sender's counter `n`; `E` is the sender's epoch. Each is at most one epoch ahead of
what the receiver will have seen by then, and so is the sender at the end. -/
def Pending (root : Bytes) (d : Dir) (n E : ℕ) : ℕ → ℕ → List Call → Prop
  | R, m, [] => m = n ∧ E ≤ R
  | R, m, r :: rest =>
    (∃ q e nonce, r.wire = marshalFrame (sealedFrame root d r.typ q e nonce r.plaintext) ∧
      r.typ ∈ frameTypes ∧ r.plaintext.length ≤ maxPlaintext ∧ q.toNat = m ∧ e.toNat ≤ R + 1 ∧
      e.toNat ≤ E ∧ Pending root d n E (max R e.toNat) (m + 1) rest)

section Pending

variable {root : Bytes} {d : Dir} {n E R m : ℕ} {l : List Call}

theorem Pending.mono {R' : ℕ} (h : Pending root d n E R m l) (hR : R ≤ R') :
    Pending root d n E R' m l := by
  induction l generalizing R R' m with
  | nil => exact ⟨h.1, h.2.trans hR⟩
  | cons r rest ih =>
    obtain ⟨q, e, nonce, hw, ht, hpt, hq, heR, heE, hrest⟩ := h
    exact ⟨q, e, nonce, hw, ht, hpt, hq, by omega, heE, ih hrest (by omega)⟩

/-- The sender may take over an epoch the receiver is already in. This is what happens when the
sender opens a frame of the other direction that announces it. -/
theorem Pending.raise {E' : ℕ} (h : Pending root d n E R m l) (hE : E ≤ E') (hR : E' ≤ R) :
    Pending root d n E' R m l := by
  induction l generalizing R m with
  | nil => exact ⟨h.1, hR⟩
  | cons r rest ih =>
    obtain ⟨q, e, nonce, hw, ht, hpt, hq, heR, heE, hrest⟩ := h
    exact ⟨q, e, nonce, hw, ht, hpt, hq, heR, heE.trans hE, ih hrest (by omega)⟩

/-- The sender may send one more frame, in its epoch or in the next one. The new frame is the
last, so it is compared with the epoch the receiver will have after all the others. -/
theorem Pending.snoc {typ : UInt8} {pt : Bytes} {q : UInt64} {e : UInt32}
    (h : Pending root d n E R m l) (nonce : Nonce) (htyp : typ ∈ frameTypes)
    (hpt : pt.length ≤ maxPlaintext) (hq : q.toNat = n) (hle : E ≤ e.toNat)
    (hE : e.toNat ≤ E + 1) :
    Pending root d (n + 1) e.toNat R m
      (l ++ [⟨typ, pt, marshalFrame (sealedFrame root d typ q e nonce pt)⟩]) := by
  induction l generalizing R m with
  | nil =>
    obtain ⟨rfl, hR⟩ := h
    exact ⟨q, e, nonce, rfl, htyp, hpt, hq, by omega, le_rfl, rfl, le_max_right _ _⟩
  | cons r rest ih =>
    obtain ⟨q', e', nonce', hw, ht, hpt', hq', heR, heE, hrest⟩ := h
    exact ⟨q', e', nonce', hw, ht, hpt', hq', heR, heE.trans hle, ih hrest⟩

end Pending

/-! ## Epochs and counters as numbers -/

theorem toNat_add_one_of_le {e : UInt32} (h : e ≤ e + 1) : (e + 1).toNat = e.toNat + 1 := by
  have hle := UInt32.le_iff_toNat_le.mp h
  have hlt := e.toNat_lt
  rw [UInt32.toNat_add] at hle ⊢
  simp only [UInt32.toNat_one] at hle ⊢
  omega

theorem rotationDue_iff (s : Session) :
    s.rotationDue ↔ 0 < s.sendSeq.toNat ∧ s.sendSeq.toNat % 1000 = 0 := by
  unfold Session.rotationDue
  rw [gt_iff_lt, UInt64.lt_iff_toNat_lt, ← UInt64.toNat_inj, UInt64.toNat_mod]
  rfl

/-- The counter stays within the frames its epochs have room for. -/
def Session.Paced (s : Session) : Prop := s.sendSeq.toNat ≤ 1000 * (s.epoch.toNat + 1)

/-- As long as the counter keeps pace with the epoch it does not wrap: an epoch has room for a
thousand frames. So both can be compared as natural numbers. -/
theorem Session.Paced.toNat_succ {s : Session} (h : s.Paced) :
    (s.sendSeq + 1).toNat = s.sendSeq.toNat + 1 := by
  have hE := s.epoch.toNat_lt
  unfold Session.Paced at h
  rw [UInt64.toNat_add]
  simp only [UInt64.toNat_one]
  omega

theorem Session.Paced.sealed {s : Session} (h : s.Paced) (hwrap : s.epoch ≤ s.sealEpoch) :
    s.sendSeq.toNat + 1 ≤ 1000 * (s.sealEpoch.toNat + 1) ∧ s.epoch.toNat ≤ s.sealEpoch.toNat ∧
      s.sealEpoch.toNat ≤ s.epoch.toNat + 1 := by
  unfold Session.Paced at h
  by_cases hd : s.rotationDue
  · have he : s.sealEpoch = s.epoch + 1 := if_pos hd
    rw [he] at hwrap ⊢
    rw [toNat_add_one_of_le hwrap]
    omega
  · have he : s.sealEpoch = s.epoch := if_neg hd
    rw [rotationDue_iff] at hd
    rw [he]
    omega

/-! ## One end -/

/-- What holds of an end whose epoch has not wrapped. -/
structure Ready (root : Bytes) (i : Bool) (s : Session) : Prop where
  live : Live root i s
  old : s.epoch = 0 ∨ s.recvOld.isSome
  paced : s.Paced

section Ready

variable {root : Bytes} {i : Bool} {s : Session}

theorem freshSession_ready (h : root.length = keySize) (i : Bool) :
    Ready root i (freshSession root i) :=
  ⟨freshSession_live h i, .inl rfl, Nat.zero_le _⟩

/-- Installing an epoch always leaves a retired chain, namely the receiving chain there was. -/
theorem Live.installed_recvOld (h : Live root i s) (e : UInt32) :
    (s.installed e).recvOld.isSome := by
  simp only [Session.installed, h.recv, Option.isSome_some, if_true]

theorem Ready.sealed (h : Ready root i s) (hwrap : s.epoch ≤ s.sealEpoch) :
    Ready root i { s.rotated with sendSeq := s.sendSeq + 1 } where
  live := h.live.rotated.update _ s.rotated.recvWin
  old := by
    by_cases hd : s.rotationDue
    · have hrot : s.rotated = s.installed (s.epoch + 1) := if_pos hd
      rw [hrot]
      exact .inr (h.live.installed_recvOld (s.epoch + 1))
    · have hrot : s.rotated = s := if_neg hd
      rw [hrot]
      exact h.old
  paced := by
    have hseal := (h.paced.sealed hwrap).1
    rw [← h.paced.toNat_succ, ← s.rotated_epoch] at hseal
    exact hseal

/-- For a frame at most one epoch ahead, and unless accepting it would wrap the counter, being in
range means being at most one epoch behind. The retired chain is there whenever there was an epoch
before. -/
theorem Ready.inRange_iff (h : Ready root i s) {e : UInt32} (he : e.toNat ≤ s.epoch.toNat + 1)
    (hwrap : e = s.epoch + 1 → s.epoch ≤ e) :
    s.inRange e ↔ s.epoch.toNat ≤ e.toNat + 1 := by
  have hlt := e.toNat_lt
  have hlt' := s.epoch.toNat_lt
  constructor
  · rintro (rfl | hnext | ⟨hprev, -⟩)
    · omega
    · have hle := UInt32.le_iff_toNat_le.mp (hwrap hnext)
      omega
    · rw [← hprev, UInt32.toNat_add, UInt32.toNat_one]
      exact Nat.mod_le _ _
  · intro hle
    -- within one either way leaves three cases, which are those of `chainForEpochLocked`
    rcases Nat.lt_trichotomy e.toNat s.epoch.toNat with hprev | hsame | hnext
    · refine .inr (.inr ⟨?_, ?_⟩)
      · apply UInt32.toNat_inj.mp
        rw [UInt32.toNat_add, UInt32.toNat_one]
        omega
      · refine h.old.resolve_left fun h0 => ?_
        rw [h0] at hprev
        exact absurd hprev (Nat.not_lt_zero _)
    · exact .inl (UInt32.toNat_inj.mp hsame)
    · refine .inr (.inl (UInt32.toNat_inj.mp ?_))
      rw [UInt32.toNat_add, UInt32.toNat_one]
      omega

theorem toNat_rolledTo {e : UInt32} (he : e.toNat ≤ s.epoch.toNat + 1)
    (hwrap : e = s.epoch + 1 → s.epoch ≤ e) :
    (s.rolledTo e).epoch.toNat = max s.epoch.toNat e.toNat := by
  rw [Session.rolledTo_epoch]
  by_cases hnext : e = s.epoch + 1
  · have hle := UInt32.le_iff_toNat_le.mp (hwrap hnext)
    rw [if_pos hnext]
    omega
  · have hne : e.toNat ≠ s.epoch.toNat + 1 := by
      intro heq
      refine hnext (UInt32.toNat_inj.mp ?_)
      have hlt := e.toNat_lt
      rw [UInt32.toNat_add, UInt32.toNat_one]
      omega
    rw [if_neg hnext]
    omega

theorem Ready.rolledTo (h : Ready root i s) {e : UInt32} (win : ReplayWindow)
    (hle : s.epoch.toNat ≤ (s.rolledTo e).epoch.toNat) :
    Ready root i { s.rolledTo e with recvWin := win } where
  live := (h.live.rolledTo e).update (s.rolledTo e).sendSeq win
  old := by
    unfold Session.rolledTo
    split_ifs
    · exact .inr (h.live.installed_recvOld e)
    · exact h.old
  paced := by
    have hpaced := h.paced
    unfold Session.Paced at hpaced ⊢
    simp only [Session.rolledTo_sendSeq]
    omega

theorem check_above {w : ReplayWindow} {S : Finset ℕ} (h : Tracks w S) {q : UInt64}
    (hS : ∀ x ∈ S, x < q.toNat) :
    (check w q).2 = true ∧ Tracks (check w q).1 (insert q.toNat S) := by
  have hacc : accepts S q.toNat := by
    refine ⟨fun hmem => (hS _ hmem).false, ?_⟩
    rcases S.eq_empty_or_nonempty with hnil | ⟨x, hx⟩
    · exact .inl hnil
    · refine .inr (.inl ((Finset.sup_lt_iff ?_).mpr hS))
      exact lt_of_le_of_lt (Nat.zero_le x) (hS x hx)
  obtain ⟨hcheck, htracks⟩ := check_spec h q
  rw [record, if_pos hacc] at htracks
  exact ⟨by rw [hcheck, decide_eq_true hacc], htracks⟩

/-- **A delivery, from the receiver's side.** The oldest frame in flight is opened as what was
sealed if the receiver is at most one epoch ahead of it, and refused as `ErrBadEpoch`
otherwise; either way the receiver ends in the later of the two epochs. -/
theorem Ready.open_head (h : Ready root i s) {n E m : ℕ} {r : Call} {rest : List Call}
    {S : Finset ℕ} (hpend : Pending root (recvDir i) n E s.epoch.toNat m (r :: rest))
    (hwin : Tracks s.recvWin S) (hS : ∀ x ∈ S, x < m)
    (hwrap : s.epoch ≤ (s.openFrame r.wire).1.epoch) :
    ∃ f, parseFrame r.wire = .ok f ∧ f.rotation.toNat ≤ s.epoch.toNat + 1 ∧ f.rotation.toNat ≤ E ∧
      (s.openFrame r.wire).2 = (if s.epoch.toNat ≤ f.rotation.toNat + 1
        then .ok (r.typ, r.plaintext) else .error .errBadEpoch) ∧
      Ready root i (s.openFrame r.wire).1 ∧ (s.openFrame r.wire).1.sendSeq = s.sendSeq ∧
      (s.openFrame r.wire).1.epoch.toNat = max s.epoch.toNat f.rotation.toNat ∧
      (∃ S', Tracks (s.openFrame r.wire).1.recvWin S' ∧ ∀ x ∈ S', x < m + 1) ∧
      Pending root (recvDir i) n E (max s.epoch.toNat f.rotation.toNat) (m + 1) rest := by
  obtain ⟨q, e, nonce, hwire, htyp, hpt, rfl, heR, heE, hrest⟩ := hpend
  have hparse := parseFrame_sealedFrame root (recvDir i) q e nonce htyp hpt
  rw [hwire] at hwrap ⊢
  refine ⟨_, hparse, heR, heE, ?_⟩
  simp only [sealedFrame_rotation]
  -- in range, the number is fresh and the frame is opened; out of range, the session is left
  -- alone
  by_cases hr : s.inRange e
  · obtain ⟨hfresh, htracks⟩ := check_above hwin hS
    rw [openFrame_sealedFrame h.live nonce htyp hpt hr hfresh] at hwrap ⊢
    have hwrap' : e = s.epoch + 1 → s.epoch ≤ e := by
      intro hnext
      simpa only [Session.rolledTo_epoch, if_pos hnext] using hwrap
    have hmax := toNat_rolledTo heR hwrap'
    refine ⟨(if_pos ((h.inRange_iff heR hwrap').mp hr)).symm, h.rolledTo _ (by omega),
      s.rolledTo_sendSeq e, hmax, ⟨_, htracks, fun x hx => ?_⟩, hrest⟩
    rcases Finset.mem_insert.mp hx with rfl | hx
    · exact Nat.lt_succ_self _
    · exact Nat.lt_succ_of_lt (hS x hx)
  · have hnext : e ≠ s.epoch + 1 := fun hc => hr (.inr (.inl hc))
    have hold : ¬ s.epoch.toNat ≤ e.toNat + 1 :=
      fun hle => hr ((h.inRange_iff heR fun hc => absurd hc hnext).mpr hle)
    have hopen : s.openFrame
      (marshalFrame (sealedFrame root (recvDir i) r.typ q e nonce r.plaintext))
        = (s, .error .errBadEpoch) := by
      rw [openFrame_eq h.live hparse rfl, sealedFrame_rotation, if_neg hr]
    rw [hopen]
    exact ⟨(if_neg hold).symm, h, rfl, by simp only; omega,
      ⟨S, hwin, fun x hx => Nat.lt_succ_of_lt (hS x hx)⟩, hrest⟩

end Ready

/-! ## Both ends and both queues -/

/-- One direction: the queue from `s` to `r`, and the numbers `r` has recorded, which are all
below that of the oldest frame in flight. -/
def Flow (root : Bytes) (w : Bool) (s r : Session) (queue : List Call) : Prop :=
  ∃ m S, Pending root (sendDir w) s.sendSeq.toNat s.epoch.toNat r.epoch.toNat m queue ∧
    Tracks r.recvWin S ∧ ∀ x ∈ S, x < m

namespace Duplex

structure Inv (root : Bytes) (d : Duplex) : Prop where
  ready : ∀ w, Ready root w (d.side w)
  flow : ∀ w, Flow root w (d.side w) (d.side (!w)) (d.queue w)

variable {root : Bytes} {d d' : Duplex} {w : Bool}

theorem Inv.start (h : root.length = keySize) :
    (start (freshSession root true) (freshSession root false)).Inv root where
  ready w := by rcases w <;> exact freshSession_ready h _
  flow w := by
    refine ⟨0, ∅, ⟨?_, ?_⟩, ?_, fun x hx => absurd hx (Finset.notMem_empty x)⟩
    all_goals rcases w <;> first | rfl | exact tracks_zero

/-- The state after a `Seal` with a valid type and size. It cannot fail, as a nonce is given. -/
theorem next_sealing (h : Live root w (d.side w)) {typ : UInt8} {pt : Bytes} (n : Nonce)
    (htyp : typ ∈ frameTypes) (hpt : pt.length ≤ maxPlaintext) :
    d.next (.sealing w typ pt n) = some
      { side := Function.update d.side w
          { (d.side w).rotated with sendSeq := (d.side w).sendSeq + 1 }
        queue := Function.update d.queue w (d.queue w ++ [⟨typ, pt, marshalFrame
          (sealedFrame root (sendDir w) typ (d.side w).sendSeq (d.side w).sealEpoch n pt)⟩]) } := by
  rw [next, if_pos ⟨htyp, hpt⟩, sealFrame_eq h typ hpt n]

theorem Inv.sealing (h : d.Inv root) {typ : UInt8} {pt : Bytes} {n : Nonce}
    (hs : d.Step (.sealing w typ pt n) d') : d'.Inv root := by
  obtain ⟨hnext, hwrap⟩ := hs
  by_cases hg : typ ∈ frameTypes ∧ pt.length ≤ maxPlaintext
  swap
  · rw [next, if_neg hg] at hnext
    exact absurd hnext (by simp)
  rw [next_sealing (h.ready w).live n hg.1 hg.2] at hnext
  obtain rfl := Option.some.inj hnext
  have hle : (d.side w).epoch ≤ (d.side w).sealEpoch := by
    have := hwrap w
    simpa only [Function.update_self, Session.rotated_epoch] using this
  obtain ⟨-, hmono, hsucc⟩ := (h.ready w).paced.sealed hle
  have hne : (!w) ≠ w := by rcases w <;> decide
  refine ⟨?_, fun w' => ?_⟩
  · exact (Function.forall_update_iff _ (p := fun w s => Ready root w s)).mpr
      ⟨(h.ready w).sealed hle, fun w' _ => h.ready w'⟩
  rcases Bool.eq_or_eq_not w' w with rfl | rfl
  · -- the sealer's own queue grows by one frame
    obtain ⟨m, S, hpend, hwin, hS⟩ := h.flow w'
    refine ⟨m, S, ?_, ?_, hS⟩
    · simp only [Function.update_self, Function.update_of_ne hne, (h.ready w').paced.toNat_succ,
        Session.rotated_epoch]
      exact hpend.snoc n hg.1 hg.2 rfl hmono hsucc
    · simpa only [Function.update_of_ne hne] using hwin
  · -- for the other queue the sealer is the receiver, which may have moved ahead
    obtain ⟨m, S, hpend, hwin, hS⟩ := h.flow (!w)
    rw [Bool.not_not] at hpend hwin
    refine ⟨m, S, ?_, ?_, hS⟩
    · simp only [Bool.not_not, Function.update_self, Function.update_of_ne hne,
        Session.rotated_epoch]
      exact hpend.mono hmono
    · simpa only [Bool.not_not, Function.update_self, Session.rotated_recvWin] using hwin

theorem next_delivery (hs : d.Step (.delivery w) d') :
    ∃ r rest, d.queue (!w) = r :: rest ∧
      d' = { side := Function.update d.side w ((d.side w).openFrame r.wire).1
             queue := Function.update d.queue (!w) rest } ∧
      (d.side w).epoch ≤ ((d.side w).openFrame r.wire).1.epoch := by
  obtain ⟨hnext, hwrap⟩ := hs
  rw [next] at hnext
  rcases hq : d.queue (!w) with _ | ⟨r, rest⟩
  · rw [hq] at hnext
    exact absurd hnext (by simp)
  · rw [hq] at hnext
    obtain rfl := Option.some.inj hnext
    have hle := hwrap w
    simp only [Function.update_self] at hle
    exact ⟨r, rest, rfl, rfl, hle⟩

theorem step_delivery {r : Call} {rest : List Call} (hq : d.queue (!w) = r :: rest)
    (hle : (d.side w).epoch ≤ ((d.side w).openFrame r.wire).1.epoch) :
    d.Step (.delivery w)
      { side := Function.update d.side w ((d.side w).openFrame r.wire).1
        queue := Function.update d.queue (!w) rest } :=
  ⟨by rw [next, hq],
    (Function.forall_update_iff _ (p := fun w (s : Session) => (d.side w).epoch ≤ s.epoch)).mpr
      ⟨hle, fun _ _ => UInt32.le_refl _⟩⟩

/-- A delivery shortens the queue, and may take the receiver to the next epoch. As a sender it has
then taken over an epoch its own receiver is already in, or was in it before. -/
theorem Inv.delivery (h : d.Inv root) (hs : d.Step (.delivery w) d') : d'.Inv root := by
  obtain ⟨r, rest, hq, rfl, hle⟩ := next_delivery hs
  have hne : (!w) ≠ w := by rcases w <;> decide
  obtain ⟨m, S, hpend, hwin, hS⟩ := h.flow (!w)
  rw [Bool.not_not, hq] at hpend
  rw [Bool.not_not] at hwin
  obtain ⟨f, -, -, hE, -, hready, hseq, hmax, ⟨S', hwin', hS'⟩, hrest⟩ :=
    (h.ready w).open_head hpend hwin hS hle
  refine ⟨?_, fun w' => ?_⟩
  · exact (Function.forall_update_iff _ (p := fun w s => Ready root w s)).mpr
      ⟨hready, fun w' _ => h.ready w'⟩
  rcases Bool.eq_or_eq_not w' w with rfl | rfl
  · -- the receiver's own queue: it may have taken over an epoch the other end is in
    obtain ⟨m₂, S₂, hpend₂, hwin₂, hS₂⟩ := h.flow w'
    refine ⟨m₂, S₂, ?_, ?_, hS₂⟩
    · simp only [Function.update_self, Function.update_of_ne hne, Function.update_of_ne hne.symm,
        hseq, hmax]
      rcases le_total f.rotation.toNat (d.side w').epoch.toNat with hcase | hcase
      · rwa [max_eq_left hcase]
      · rw [max_eq_right hcase]
        exact hpend₂.raise hcase hE
    · simpa only [Function.update_of_ne hne] using hwin₂
  · -- the queue the frame came from
    refine ⟨m + 1, S', ?_, ?_, hS'⟩
    · simp only [Bool.not_not, Function.update_self, Function.update_of_ne hne, hmax]
      exact hrest
    · simpa only [Bool.not_not, Function.update_self] using hwin'

theorem Inv.step (h : d.Inv root) {a : DuplexAct} (hs : d.Step a d') : d'.Inv root := by
  rcases a with ⟨w, typ, pt, n⟩ | w
  · exact h.sealing hs
  · exact h.delivery hs

/-- What becomes of the oldest frame in flight, read off `Ready.open_head`. -/
theorem Inv.opens (h : d.Inv root) (hstep : d.Step (.delivery w) d') {r : Call} {rest : List Call}
    (hq : d.queue (!w) = r :: rest) :
    ∃ f, parseFrame r.wire = .ok f ∧ f.rotation.toNat ≤ (d.side w).epoch.toNat + 1 ∧
      ((d.side w).openFrame r.wire).2 = (if (d.side w).epoch.toNat ≤ f.rotation.toNat + 1
        then .ok (r.typ, r.plaintext) else .error .errBadEpoch) := by
  obtain ⟨r', rest', hq', -, hle⟩ := next_delivery hstep
  obtain ⟨rfl, rfl⟩ := List.cons.inj (hq.symm.trans hq')
  obtain ⟨m, S, hpend, hwin, hS⟩ := h.flow (!w)
  rw [Bool.not_not, hq] at hpend
  rw [Bool.not_not] at hwin
  obtain ⟨f, hp, hahead, -, hres, -⟩ := (h.ready w).open_head hpend hwin hS hle
  exact ⟨f, hp, hahead, hres⟩

end Duplex

/-! ## The result -/

/-- **Delivery on a reliable transport.** In every run during which no epoch counter wraps, the
frame a delivery hands to an end is never more than one epoch ahead of that end. If that end
is at most one epoch ahead of the frame, `Open` returns the type and the plaintext that were
sealed; otherwise it returns `ErrBadEpoch` and the frame is lost. -/
theorem delivery_opens_iff_recent {shared transcript : Bytes} {a b : Session}
    (ha : newSession shared transcript true = .ok a)
    (hb : newSession shared transcript false = .ok b)
    {acts : List DuplexAct} {d d' : Duplex} {w : Bool} {r : Call} {rest : List Call}
    (hrun : Run Duplex.Step (Duplex.start a b) acts d) (hstep : d.Step (.delivery w) d')
    (hq : d.queue (!w) = r :: rest) :
    ∃ f, parseFrame r.wire = .ok f ∧ f.rotation.toNat ≤ (d.side w).epoch.toNat + 1 ∧
      ((d.side w).openFrame r.wire).2 = (if (d.side w).epoch.toNat ≤ f.rotation.toNat + 1
        then .ok (r.typ, r.plaintext) else .error .errBadEpoch) := by
  obtain ⟨-, rfl⟩ := newSession_eq_ok ha
  obtain ⟨-, rfl⟩ := newSession_eq_ok hb
  have hinv : d.Inv (rootOf shared transcript) :=
    hrun.invariant _ (Duplex.Inv.start (length_rootOf _ _)) fun _ _ _ h hs => h.step hs
  exact hinv.opens hstep hq

/-! ## A frame that is lost -/

namespace Duplex

variable {root : Bytes}

/-- The initiator's epoch after it has sealed `n` frames and opened none: by induction on `n`, one
more whenever a thousand are full. The bound on `n` keeps the counters far from wrapping. -/
theorem exists_seals (hroot : root.length = keySize) (n : ℕ) (hn : n ≤ 3000) :
    ∃ acts d, Run Step (start (freshSession root true) (freshSession root false)) acts d ∧
      Live root true (d.side true) ∧ (d.side true).sendSeq.toNat = n ∧
      (d.side true).epoch.toNat = (n - 1) / 1000 ∧ d.side false = freshSession root false ∧
      (d.queue true).length = n ∧ d.queue false = [] := by
  induction n with
  | zero => exact ⟨[], _, .nil, freshSession_live hroot true, rfl, rfl, rfl, rfl, rfl⟩
  | succ n ih =>
    obtain ⟨acts, d, hrun, hlive, hseq, hepoch, hother, hlen, hnil⟩ := ih (by omega)
    have hpt : ([] : Bytes).length ≤ maxPlaintext := Nat.zero_le _
    have hnext :=
      next_sealing hlive ⟨List.replicate 12 0, rfl⟩ (show typeChat ∈ frameTypes by decide) hpt
    -- the epoch the frame is sealed in, before anything is known about wrapping
    have hseal : (d.side true).sealEpoch.toNat = n / 1000 := by
      unfold Session.sealEpoch
      by_cases hd : (d.side true).rotationDue
      · have hpos := (rotationDue_iff _).mp hd
        rw [hseq] at hpos
        rw [if_pos hd, UInt32.toNat_add, hepoch, UInt32.toNat_one]
        omega
      · have hneg := (rotationDue_iff _).not.mp hd
        rw [hseq] at hneg
        rw [if_neg hd, hepoch]
        omega
    refine ⟨_, _, hrun.snoc ⟨hnext, fun w => ?_⟩, ?_, ?_, ?_, ?_, ?_, ?_⟩
    · rcases w with _ | _
      · exact UInt32.le_refl _
      · simp only [Function.update_self, Session.rotated_epoch, UInt32.le_iff_toNat_le, hseal,
          hepoch]
        omega
    · exact hlive.rotated.update _ (d.side true).rotated.recvWin
    · simp only [Function.update_self, UInt64.toNat_add, UInt64.toNat_one, hseq]
      omega
    · simp only [Function.update_self, Session.rotated_epoch, hseal, Nat.add_sub_cancel]
    · exact hother
    · simp only [Function.update_self, List.length_append, hlen, List.length_singleton]
    · exact hnil

/-- An end that sends much and receives nothing runs ahead of the other, and what the other one
has sent by then is too old when it arrives. -/
theorem exists_crossing (hroot : root.length = keySize) :
    ∃ acts d r, Run Step (start (freshSession root true) (freshSession root false)) acts d ∧
      d.queue false = [r] ∧
        (d.side true).openFrame r.wire = (d.side true, .error .errBadEpoch) := by
  obtain ⟨acts, d, hrun, hlive, -, hepoch, hother, -, hnil⟩ := exists_seals hroot 2001 (by norm_num)
  have hpt : ([] : Bytes).length ≤ maxPlaintext := Nat.zero_le _
  have hlive' : Live root false (d.side false) := by
    rw [hother]
    exact freshSession_live hroot false
  let n : Nonce := ⟨List.replicate 12 0, rfl⟩
  have hnext := next_sealing hlive' n (show typeChat ∈ frameTypes by decide) hpt
  have hparse := parseFrame_sealedFrame root (sendDir false) (d.side false).sendSeq
    (d.side false).sealEpoch n (show typeChat ∈ frameTypes by decide) hpt
  have hzero : (d.side false).sealEpoch = 0 := by
    rw [hother]
    rfl
  -- 0 is not 2, nor 3, nor 1
  have hout : ¬ (d.side true).inRange (d.side false).sealEpoch := by
    rw [hzero]
    rintro (hc | hc | ⟨hc, -⟩)
    all_goals
      have := congrArg UInt32.toNat hc
      simp [UInt32.toNat_add, hepoch] at this
  have hopen := openFrame_eq hlive hparse rfl
  rw [sealedFrame_rotation, if_neg hout] at hopen
  refine ⟨_, _, ⟨typeChat, [], marshalFrame (sealedFrame root (sendDir false) typeChat
    (d.side false).sendSeq (d.side false).sealEpoch n [])⟩, hrun.snoc ⟨hnext, ?_⟩, ?_, hopen⟩
  · -- the `Seal` of the responder is its first, so its epoch stays
    refine (Function.forall_update_iff _ (p := fun w (s : Session) => (d.side w).epoch
      ≤ s.epoch)).mpr
      ⟨?_, fun _ _ => UInt32.le_refl _⟩
    simp only [Session.rotated_epoch, hother]
    exact UInt32.le_refl _
  · simp only [Function.update_self, hnil, List.nil_append]

end Duplex

/-- **A crossing frame is lost.** The initiator seals 2001 frames, which puts it into epoch 2;
the responder, having received none of them, seals one in epoch 0. Delivering that frame
does not wrap anything, and `Open` refuses it. -/
theorem crossing_frame_lost :
    ∃ acts d d' r,
      Run Duplex.Step (Duplex.start (freshSession (rootOf (lits [7]) []) true)
        (freshSession (rootOf (lits [7]) []) false)) acts d ∧
      d.Step (.delivery true) d' ∧ d.queue false = [r] ∧
      ((d.side true).openFrame r.wire).2 = .error .errBadEpoch := by
  obtain ⟨acts, d, r, hrun, hq, hopen⟩ := Duplex.exists_crossing (length_rootOf (lits [7]) [])
  refine ⟨acts, d, _, r, hrun, Duplex.step_delivery (w := true) hq ?_, hq, by rw [hopen]⟩
  rw [hopen]
  exact UInt32.le_refl _

/-- The same delivery, read by the general result. -/
theorem delivery_opens_iff_recent_crossing :
    ∃ (d : Duplex) (r : Call) (f : Frame), d.queue false = [r] ∧ parseFrame r.wire = .ok f ∧
      f.rotation.toNat ≤ (d.side true).epoch.toNat + 1 ∧
      ((d.side true).openFrame r.wire).2 = (if (d.side true).epoch.toNat ≤ f.rotation.toNat + 1
        then .ok (r.typ, r.plaintext) else .error .errBadEpoch) := by
  have hne : (lits [7] : Bytes) ≠ [] := by simp
  obtain ⟨acts, d, r, hrun, hq, hopen⟩ := Duplex.exists_crossing (length_rootOf (lits [7]) [])
  have hle : (d.side true).epoch ≤ ((d.side true).openFrame r.wire).1.epoch := by
    rw [hopen]
    exact UInt32.le_refl _
  obtain ⟨f, hp, hahead, hres⟩ := delivery_opens_iff_recent (newSession_eq hne _ _)
    (newSession_eq hne _ _) hrun (Duplex.step_delivery (w := true) hq hle) hq
  exact ⟨d, r, f, hq, hp, hahead, hres⟩

end Heimdall.Proto
