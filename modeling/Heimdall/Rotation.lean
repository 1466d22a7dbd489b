/-
Key rotation, against whatever a session is asked to seal and to open.

The epoch of a session moves for two reasons: `Seal` installs the next one at every thousandth
frame, and `Open` installs the next one when a frame announces it, which is before the tag of
that frame is verified. Two results say what comes of it:

* a frame that is refused leaves the session as it was, unless it announces the next epoch
  (`rejected_unchanged_iff`);
* however the epoch is pushed, at most a thousand sealed frames carry the same one
  (`epoch_use_bounded`).

The awkward thing is that the counter of sent frames is not reset at a rotation, and that the
epoch may run ahead of it. The second result therefore counts the frames of the current epoch
against the distance to the last multiple of a thousand (`sinceBoundary`), which an epoch that
is pushed from outside can only make generous.
-/
import Heimdall.Fifo
import Heimdall.Secrecy

set_option autoImplicit false

namespace Heimdall.Proto

open Heimdall.BigEndian Heimdall.Octets Heimdall.Crypto Heimdall.Runs

/-! ## Refused frames -/

def Session.after (s : Session) : SessionAct → Session
  | .sealing typ pt rand => (s.sealFrame typ pt rand).1
  | .opening buf => (s.openFrame buf).1
  | .closing => s.close

def Session.Step (s : Session) (a : SessionAct) (s' : Session) : Prop := s.after a = s'

/-- The frame is for this open session and announces its next epoch, but it is none that the
session accepts: it does not authenticate under the key of that epoch, or its number is not
fresh. -/
def Session.FalselyAnnounced (s : Session) (buf : Bytes) : Prop :=
  s.closed = false ∧ ∃ f, parseFrame buf = .ok f ∧ f.session = s.sessionID ∧
    f.rotation = s.epoch + 1 ∧
    ((∀ pt, openBlob (messageKeyOf s.root (recvDir s.initiator) f.rotation f.sequence)
        (marshalHeaderOnly f) f.blob ≠ .ok pt) ∨ (check s.recvWin f.sequence).2 = false)

section Refused

variable {root : Bytes} {i : Bool} {s : Session}

theorem epoch_succ_ne (e : UInt32) : e + 1 ≠ e := by
  intro h
  have hnat := congrArg UInt32.toNat h
  have hlt := e.toNat_lt
  rw [UInt32.toNat_add, UInt32.toNat_one] at hnat
  omega

/-- `Open` derives the chains of the next epoch as soon as a frame announces it, before the frame
is authenticated. So the header decides whether anything changes. -/
theorem Session.rolledTo_eq_self_iff (s : Session) (e : UInt32) :
    s.rolledTo e = s ↔ e ≠ s.epoch + 1 := by
  constructor
  · intro heq hnext
    have hepoch := s.rolledTo_epoch e
    rw [heq, if_pos hnext, hnext] at hepoch
    exact epoch_succ_ne s.epoch hepoch.symm
  · intro hne
    rw [Session.rolledTo, if_neg fun hc => hne hc.1]

/-- A frame of this session that is not accepted: what it leaves behind is decided by its epoch
alone. It is refused whatever the epoch, and only the next one is installed. -/
theorem Live.refused_iff (h : Live root i s) {buf : Bytes} {f : Frame}
    (hp : parseFrame buf = .ok f) (hs : f.session = sessionIDOf root)
    (hrefused : (∀ pt, openBlob (messageKeyOf root (recvDir i) f.rotation f.sequence)
      (marshalHeaderOnly f) f.blob ≠ .ok pt) ∨ (check s.recvWin f.sequence).2 = false) :
    (∃ e, (s.openFrame buf).2 = .error e) ∧
      ((s.openFrame buf).1 = s ↔ f.rotation ≠ s.epoch + 1) := by
  rw [openFrame_eq h hp hs]
  by_cases hr : s.inRange f.rotation
  · rw [if_pos hr]
    rcases ho : openBlob (messageKeyOf root (recvDir i) f.rotation f.sequence)
      (marshalHeaderOnly f) f.blob with e | pt
    · exact ⟨⟨_, rfl⟩, s.rolledTo_eq_self_iff f.rotation⟩
    · have hstale := hrefused.resolve_left fun hno => hno pt ho
      -- the window refuses, and writes itself back unchanged
      have hwin : (check s.recvWin f.sequence).1 = (s.rolledTo f.rotation).recvWin := by
        rw [check_refused hstale, Session.rolledTo_recvWin]
      dsimp only
      rw [hwin]
      exact ⟨⟨_, if_neg (by simp [hstale])⟩, s.rolledTo_eq_self_iff f.rotation⟩
  · rw [if_neg hr]
    have hne : f.rotation ≠ s.epoch + 1 := fun hc => hr (.inr (.inl hc))
    exact ⟨⟨_, rfl⟩, fun _ => hne, fun _ => rfl⟩

/-- **A refused frame, from any state**: `rejected_unchanged_iff` for a session that is known to
be valid. The cases are those of `Open`, in its order: closed, malformed, of another session, out
of range, not authentic, not fresh, accepted. -/
theorem Session.Valid.rejected_iff (h : s.Valid root i) (buf : Bytes) :
    ((∃ e, (s.openFrame buf).2 = .error e) → (s.openFrame buf).1 = s) ↔
      ¬ s.FalselyAnnounced buf := by
  -- an `Open` that leaves the session as it was is no matter, if the frame announces nothing
  have hstay : (s.openFrame buf).1 = s → ¬ s.FalselyAnnounced buf →
      (((∃ e, (s.openFrame buf).2 = .error e) → (s.openFrame buf).1 = s) ↔
        ¬ s.FalselyAnnounced buf) := fun heq hno => ⟨fun _ => hno, fun _ _ => heq⟩
  rcases h with hclosed | hlive
  · apply hstay
    · rw [openFrame_closed hclosed]
    · rintro ⟨hopen, -⟩
      rw [hclosed] at hopen
      exact absurd hopen (by simp)
  rcases hp : parseFrame buf with e | f
  · apply hstay
    · rw [openFrame_malformed hlive hp]
    · rintro ⟨-, f, hf, -⟩
      rw [hp] at hf
      exact absurd hf (by simp)
  by_cases hs : f.session = sessionIDOf root
  · have hthis : s.FalselyAnnounced buf ↔ f.rotation = s.epoch + 1 ∧
        ((∀ pt, openBlob (messageKeyOf root (recvDir i) f.rotation f.sequence)
          (marshalHeaderOnly f) f.blob ≠ .ok pt) ∨ (check s.recvWin f.sequence).2 = false) := by
      unfold Session.FalselyAnnounced
      rw [hp, hlive.root_eq, hlive.role, hlive.sessionID]
      constructor
      · rintro ⟨-, g, hg, -, hnext, hrefused⟩
        obtain rfl := Except.ok.inj hg
        exact ⟨hnext, hrefused⟩
      · rintro ⟨hnext, hrefused⟩
        exact ⟨hlive.closed, f, rfl, hs, hnext, hrefused⟩
    rw [hthis]
    by_cases hrefused : (∀ pt, openBlob (messageKeyOf root (recvDir i) f.rotation f.sequence)
        (marshalHeaderOnly f) f.blob ≠ .ok pt) ∨ (check s.recvWin f.sequence).2 = false
    · obtain ⟨herr, hiff⟩ := hlive.refused_iff hp hs hrefused
      rw [forall_prop_of_true herr, hiff]
      simp only [hrefused, and_true, ne_eq]
    · -- it authenticates and is fresh: in range it is accepted, out of range nothing moves
      refine ⟨fun _ hc => hrefused hc.2, fun _ herr => ?_⟩
      obtain ⟨hopen, hfresh⟩ := not_or.mp hrefused
      obtain ⟨pt, hpt⟩ := not_forall.mp hopen
      have hpt' := not_not.mp hpt
      have hfresh' : (check s.recvWin f.sequence).2 = true := by simpa using hfresh
      rw [openFrame_eq hlive hp hs] at herr ⊢
      by_cases hr : s.inRange f.rotation
      · rw [if_pos hr, hpt'] at herr
        dsimp only at herr
        rw [if_pos hfresh'] at herr
        obtain ⟨e, he⟩ := herr
        exact absurd he (by simp)
      · rw [if_neg hr]
  · apply hstay
    · rw [openFrame_otherSession hlive hp hs]
    · rintro ⟨-, g, hg, hsession, -⟩
      rw [hp] at hg
      obtain rfl := Except.ok.inj hg
      rw [hlive.sessionID] at hsession
      exact hs hsession

theorem Session.Valid.step {s' : Session} {a : SessionAct} (h : s.Valid root i)
    (hstep : s.Step a s') : s'.Valid root i := by
  obtain rfl := hstep
  rcases a with ⟨typ, pt, rand⟩ | buf | _
  · exact h.sealed typ pt rand
  · exact h.opened buf
  · exact .inl rfl

end Refused

/-- **A rejected frame changes nothing, unless it announces the next epoch.** In every state a
session can reach, an `Open` that returns an error leaves every field as it was exactly when
the frame does not announce the next epoch of this session without being acceptable. -/
theorem rejected_unchanged_iff {shared transcript : Bytes} {i : Bool} {s₀ s : Session}
    (hs : newSession shared transcript i = .ok s₀) {acts : List SessionAct}
    (hrun : Run Session.Step s₀ acts s) (buf : Bytes) :
    ((∃ e, (s.openFrame buf).2 = .error e) → (s.openFrame buf).1 = s) ↔
      ¬ s.FalselyAnnounced buf := by
  obtain ⟨-, rfl⟩ := newSession_eq_ok hs
  have hvalid : s.Valid (rootOf shared transcript) i :=
    hrun.invariant _ (.inr (freshSession_live (length_rootOf _ _) i)) fun _ _ _ h hs => h.step hs
  exact hvalid.rejected_iff buf

/-- A chat frame for the session of `root` with the given epoch and 28 zero bytes for a blob. -/
def forgedFrame (root : Bytes) (epoch : UInt32) : Frame :=
  { typ := typeChat, session := sessionIDOf root, sequence := 0, rotation := epoch
    blob := lits (List.replicate 28 0) }

theorem parseFrame_forgedFrame (root : Bytes) (epoch : UInt32) :
    parseFrame (marshalFrame (forgedFrame root epoch)) = .ok (forgedFrame root epoch) := by
  refine parseFrame_eq_ok.mpr ⟨rfl, length_sessionIDOf root, by simp [forgedFrame, frameTypes], ?_⟩
  rw [marshalFrame_eq, List.length_append, length_marshalHeaderOnly _ (length_sessionIDOf root)]
  simp [forgedFrame, headerSize, maxFrame]

theorem openBlob_forgedFrame (root key aad : Bytes) (epoch : UInt32) (pt : Bytes) :
    openBlob key aad (forgedFrame root epoch).blob ≠ .ok pt := by
  intro h
  obtain ⟨-, nonce, hlen, hblob⟩ := openBlob_eq_ok.mp h
  have hsplit : (forgedFrame root epoch).blob
      = lits (List.replicate 12 0) ++ lits (List.replicate 16 0) := rfl
  rw [hsplit] at hblob
  obtain ⟨-, hgcm⟩ := List.append_inj hblob (by rw [length_lits, hlen]; rfl)
  exact block_ne_lits (by simp [tagSize]) hgcm.symm

/-- One forged frame, refused as `ErrAuth`, has taken a new session to epoch 1. Whoever makes it
needs to know the session identifier, which is in the header of every frame, and no key. -/
theorem forged_frame_installs_epoch :
    newSession (lits [7]) [] true = .ok demoSession ∧
      (demoSession.openFrame (marshalFrame (forgedFrame demoSession.root 1))).2 = .error .errAuth ∧
      (demoSession.openFrame (marshalFrame (forgedFrame demoSession.root 1))).1.epoch = 1 ∧
      demoSession.epoch = 0 := by
  have hlive : Live (rootOf (lits [7]) []) true demoSession :=
    freshSession_live (length_rootOf _ _) true
  have hr : demoSession.inRange (forgedFrame demoSession.root 1).rotation := .inr (.inl rfl)
  have hopen := openFrame_eq hlive (parseFrame_forgedFrame demoSession.root 1) rfl
  rw [if_pos hr] at hopen
  -- the blob does not open, so the frame is refused after the epoch has been entered
  rcases ho : openBlob (messageKeyOf (rootOf (lits [7]) []) (recvDir true)
      (forgedFrame demoSession.root 1).rotation (forgedFrame demoSession.root 1).sequence)
      (marshalHeaderOnly (forgedFrame demoSession.root 1)) (forgedFrame demoSession.root 1).blob
    with e | pt
  · rw [ho] at hopen
    rw [hopen]
    refine ⟨newSession_demo, rfl, ?_, rfl⟩
    rw [Session.rolledTo_epoch]
    rfl
  · exact absurd ho (openBlob_forgedFrame _ _ _ _ _)

/-- The same frame with the current epoch in its header changes nothing. -/
theorem rejected_unchanged_at_start :
    (demoSession.openFrame (marshalFrame (forgedFrame demoSession.root 0))).1 = demoSession ∧
      ¬ demoSession.FalselyAnnounced (marshalFrame (forgedFrame demoSession.root 0)) := by
  have hlive : Live (rootOf (lits [7]) []) true demoSession :=
    freshSession_live (length_rootOf _ _) true
  have hno : ¬ demoSession.FalselyAnnounced (marshalFrame (forgedFrame demoSession.root 0)) := by
    rintro ⟨-, f, hf, -, hnext, -⟩
    rw [parseFrame_forgedFrame] at hf
    obtain rfl := Except.ok.inj hf
    exact absurd hnext (by decide)
  have herr : ∃ e, (demoSession.openFrame (marshalFrame (forgedFrame demoSession.root 0))).2
      = .error e :=
    (hlive.refused_iff (parseFrame_forgedFrame demoSession.root 0) rfl
      (.inl fun pt => openBlob_forgedFrame _ _ _ _ pt)).1
  exact ⟨(rejected_unchanged_iff newSession_demo .nil _).mpr hno herr, hno⟩

/-! ## How many frames carry one epoch -/

/-- The rotation field of a frame on the wire. -/
def headerEpoch (wire : Bytes) : Option UInt32 :=
  (vals? (slice wire 18 22)).map fun bs => UInt32.ofNat (beNat bs)

theorem headerEpoch_sealedFrame (root : Bytes) (d : Dir) (typ : UInt8) (q : UInt64) (e : UInt32)
    (n : Nonce) (pt : Bytes) :
    headerEpoch (marshalFrame (sealedFrame root d typ q e n pt)) = some e := by
  have hslice : slice (marshalFrame (sealedFrame root d typ q e n pt)) 18 22 = putUint32 e :=
    slice_rotation (length_sessionIDOf root)
  rw [headerEpoch, hslice, putUint32, vals?_lits, Option.map_some, beNat_beBytes,
    Nat.mod_eq_of_lt (by simpa using e.toNat_lt), UInt32.ofNat_toNat]

/-- The frame a call puts out, if it is a `Seal` that succeeds. -/
def Session.sent (s : Session) : SessionAct → List Bytes
  | .sealing typ pt rand => (s.sealFrame typ pt rand).2.toOption.toList
  | _ => []

/-- A session beside the frames it has sealed, oldest first. -/
structure Metered where
  session : Session
  wires : List Bytes := []

namespace Metered

def next (m : Metered) (a : SessionAct) : Metered :=
  { session := m.session.after a, wires := m.wires ++ m.session.sent a }

/-- A call during which the epoch counter does not wrap around. -/
def Step (m : Metered) (a : SessionAct) (m' : Metered) : Prop :=
  m.next a = m' ∧ m.session.epoch ≤ m'.session.epoch

end Metered

/-- **What a call does to the counter and the epoch.** A call that puts out no frame leaves the
counter alone and takes the epoch one further at most; one that does carries the epoch it leaves
behind in the header. -/
theorem Session.Valid.after_cases {root : Bytes} {i : Bool} {s : Session} (h : s.Valid root i)
    (a : SessionAct) :
    (s.sent a = [] ∧ (s.after a).sendSeq = s.sendSeq ∧
        ((s.after a).epoch = s.epoch ∨ (s.after a).epoch = s.epoch + 1)) ∨
      ∃ wire, s.sent a = [wire] ∧ headerEpoch wire = some s.sealEpoch ∧
        (s.after a).sendSeq = s.sendSeq + 1 ∧ (s.after a).epoch = s.sealEpoch := by
  rcases a with ⟨typ, pt, rand⟩ | buf | _
  · rcases h with hclosed | hlive
    · have hseal := sealFrame_closed hclosed typ pt rand
      refine .inl ⟨?_, ?_, .inl ?_⟩
      · rw [Session.sent, hseal]
        rfl
      · rw [Session.after, hseal]
      · rw [Session.after, hseal]
    obtain ⟨-, -, ⟨e, hres, hseq, hs⟩ | ⟨n, -, -, hres, hseq, hepoch⟩⟩ :=
      sealFrame_spec hlive typ pt rand
    · -- a `Seal` that fails may have rotated already
      refine .inl ⟨?_, hseq, ?_⟩
      · simp only [Session.sent, hres]
        rfl
      · rcases hs with hs | hs
        · exact .inl (congrArg Session.epoch hs)
        · simp only [Session.after, hs, Session.rotated_epoch, Session.sealEpoch]
          split_ifs
          · exact .inr rfl
          · exact .inl rfl
    · refine .inr ⟨_, ?_, headerEpoch_sealedFrame root (sendDir i) typ s.sendSeq s.sealEpoch n pt,
        hseq, hepoch⟩
      simp only [Session.sent, hres]
      rfl
  · rcases h with hclosed | hlive
    · refine .inl ⟨rfl, ?_, .inl ?_⟩
      · rw [Session.after, openFrame_closed hclosed]
      · rw [Session.after, openFrame_closed hclosed]
    · obtain ⟨-, hseq, hepoch, -⟩ := openFrame_spec hlive buf
      exact .inl ⟨rfl, hseq, hepoch⟩
  · exact .inl ⟨rfl, rfl, .inl rfl⟩

/-- How many of the first `n` frames come from the last multiple of a thousand on. -/
def sinceBoundary (n : ℕ) : ℕ := if n = 0 then 0 else (n - 1) % 1000 + 1

theorem sinceBoundary_le (n : ℕ) : sinceBoundary n ≤ 1000 := by
  unfold sinceBoundary
  split_ifs <;> omega

theorem sinceBoundary_succ {n : ℕ} (h : ¬ (0 < n ∧ n % 1000 = 0)) :
    sinceBoundary (n + 1) = sinceBoundary n + 1 := by
  unfold sinceBoundary
  split_ifs <;> omega

theorem sinceBoundary_succ_pos (n : ℕ) : 1 ≤ sinceBoundary (n + 1) := by
  rw [sinceBoundary, if_neg (Nat.succ_ne_zero n)]
  omega

/-- The epochs in the headers of the sealed frames, in order. -/
structure Metered.Inv (root : Bytes) (i : Bool) (epochs : List UInt32) (m : Metered) : Prop where
  valid : m.session.Valid root i
  paced : m.session.Paced
  headers : m.wires.map headerEpoch = epochs.map some
  sorted : epochs.Pairwise (· ≤ ·)
  past : ∀ e ∈ epochs, e ≤ m.session.epoch
  bound : ∀ e, epochs.count e ≤ 1000
  current : epochs.count m.session.epoch ≤ sinceBoundary m.session.sendSeq.toNat

section Metered

variable {root : Bytes} {i : Bool} {epochs : List UInt32} {m m' : Metered}

theorem Metered.Inv.count_eq_zero (h : m.Inv root i epochs) {e : UInt32}
    (he : m.session.epoch < e) :
    epochs.count e = 0 := by
  rw [List.count_eq_zero]
  intro hmem
  exact absurd (h.past e hmem) (UInt32.not_le.mpr he)

theorem lt_of_le_succ {e e' : UInt32} (hle : e ≤ e') (hnext : e' = e + 1) : e < e' := by
  rcases UInt32.lt_or_eq_of_le hle with hlt | heq
  · exact hlt
  · rw [hnext] at heq
    exact absurd heq.symm (epoch_succ_ne e)

/-- A call that puts out no frame. If it moves the epoch, no frame has the new one yet; the
counter need not be at a boundary for this, as a frame of the other end can move it at any time. -/
theorem Metered.Inv.quiet (h : m.Inv root i epochs) {s : Session} (hs : s.Valid root i)
    (hseq : s.sendSeq = m.session.sendSeq) (hle : m.session.epoch ≤ s.epoch)
    (hepoch : s.epoch = m.session.epoch ∨ s.epoch = m.session.epoch + 1) :
    Metered.Inv root i epochs { m with session := s } where
  valid := hs
  paced := by
    have hpaced := h.paced
    have hle' := UInt32.le_iff_toNat_le.mp hle
    unfold Session.Paced at hpaced ⊢
    dsimp only
    rw [hseq]
    omega
  headers := h.headers
  sorted := h.sorted
  past e he := UInt32.le_trans (h.past e he) hle
  bound := h.bound
  current := by
    rcases hepoch with heq | hnext
    · simpa only [heq, hseq] using h.current
    · -- the epoch is new, so there is nothing to count
      rw [h.count_eq_zero (lt_of_le_succ hle hnext)]
      exact Nat.zero_le _

/-- A call that puts out a frame. At a boundary the epoch moves on, and the frame is the first of
the new epoch; elsewhere it is one more of the present one, and the distance to the boundary grows
with it. -/
theorem Metered.Inv.sealed (h : m.Inv root i epochs) {s : Session} {wire : Bytes}
    (hs : s.Valid root i) (hheader : headerEpoch wire = some m.session.sealEpoch)
    (hseq : s.sendSeq = m.session.sendSeq + 1) (hepoch : s.epoch = m.session.sealEpoch)
    (hle : m.session.epoch ≤ s.epoch) :
    Metered.Inv root i (epochs ++ [m.session.sealEpoch]) ⟨s, m.wires ++ [wire]⟩ := by
  rw [hepoch] at hle
  have hseq' : s.sendSeq.toNat = m.session.sendSeq.toNat + 1 := by
    rw [hseq, h.paced.toNat_succ]
  -- the frames of the epoch of the new frame, this one included
  have hcurrent : epochs.count m.session.sealEpoch + 1
      ≤ sinceBoundary (m.session.sendSeq.toNat + 1) := by
    by_cases hdue : m.session.rotationDue
    · have hnext : m.session.sealEpoch = m.session.epoch + 1 := if_pos hdue
      rw [h.count_eq_zero (lt_of_le_succ hle hnext)]
      exact sinceBoundary_succ_pos _
    · have hsame : m.session.sealEpoch = m.session.epoch := if_neg hdue
      have hcount := h.current
      rw [rotationDue_iff] at hdue
      rw [sinceBoundary_succ hdue, hsame]
      omega
  have hcount : ∀ e, (epochs ++ [m.session.sealEpoch]).count e
      = epochs.count e + if m.session.sealEpoch = e then 1 else 0 := by
    intro e
    rw [List.count_append, List.count_singleton]
    simp only [beq_iff_eq]
  refine ⟨hs, ?_, ?_, ?_, ?_, ?_, ?_⟩
  · have hpaced := (h.paced.sealed hle).1
    unfold Session.Paced
    rw [hepoch, hseq']
    exact hpaced
  · rw [List.map_append, List.map_append, h.headers, List.map_singleton, List.map_singleton,
      hheader]
  · rw [List.pairwise_append]
    refine ⟨h.sorted, List.pairwise_singleton _ _, fun e he e' he' => ?_⟩
    rw [List.mem_singleton.mp he']
    exact UInt32.le_trans (h.past e he) hle
  · intro e he
    rw [hepoch]
    rcases List.mem_append.mp he with hold | hnew
    · exact UInt32.le_trans (h.past e hold) hle
    · rw [List.mem_singleton.mp hnew]
      exact UInt32.le_refl _
  · intro e
    rw [hcount]
    split_ifs with heq
    · rw [← heq]
      exact hcurrent.trans (sinceBoundary_le _)
    · exact h.bound e
  · rw [hcount, hepoch, if_pos rfl, hseq']
    exact hcurrent

/-- The epoch in a header tells the chain, so it is the headers that are counted, over all the
frames a session puts out. A call adds one header at most. -/
theorem Metered.Inv.step (h : m.Inv root i epochs) {a : SessionAct} (hstep : m.Step a m') :
    ∃ epochs', m'.Inv root i epochs' := by
  obtain ⟨rfl, hle⟩ := hstep
  have hvalid : (m.session.after a).Valid root i := h.valid.step rfl
  unfold Metered.next at hle ⊢
  rcases h.valid.after_cases a with ⟨hsent, hseq, hepoch⟩ | ⟨wire, hsent, hheader, hseq, hepoch⟩
  · rw [hsent, List.append_nil]
    exact ⟨epochs, h.quiet hvalid hseq hle hepoch⟩
  · rw [hsent]
    exact ⟨_, h.sealed hvalid hheader hseq hepoch hle⟩

theorem Metered.Inv.start (hroot : root.length = keySize) :
    Metered.Inv root i [] { session := freshSession root i } where
  valid := .inr (freshSession_live hroot i)
  paced := Nat.zero_le _
  headers := rfl
  sorted := List.Pairwise.nil
  past _ he := absurd he List.not_mem_nil
  bound _ := Nat.zero_le _
  current := Nat.zero_le _

end Metered

/-- **Rotation bounds the use of a chain.** In every run of a session in which the epoch counter
does not wrap, whatever is sealed, refused, opened or forged, the headers of the sealed frames
carry epochs that never decrease, and each epoch at most `rotationInterval` times. -/
theorem epoch_use_bounded {shared transcript : Bytes} {i : Bool} {s : Session}
    (hs : newSession shared transcript i = .ok s) {acts : List SessionAct} {m : Metered}
    (hrun : Run Metered.Step { session := s } acts m) :
    ∃ epochs : List UInt32, m.wires.map headerEpoch = epochs.map some ∧
      epochs.Pairwise (· ≤ ·) ∧ ∀ e, epochs.count e ≤ rotationInterval.toNat := by
  obtain ⟨-, rfl⟩ := newSession_eq_ok hs
  obtain ⟨epochs, h⟩ :=
    hrun.invariant (fun m => ∃ epochs, m.Inv (rootOf shared transcript) i epochs)
    ⟨[], .start (length_rootOf _ _)⟩ fun _ _ _ ⟨_, h⟩ hstep => h.step hstep
  exact ⟨epochs, h.headers, h.sorted, h.bound⟩

/-- The theorem at a forged announcement between two frames: they carry the epochs 0 and 1. -/
theorem epoch_use_bounded_forged :
    ∃ m, Run Metered.Step { session := demoSession }
        [.sealing typeChat [] (some ⟨List.replicate 12 0, rfl⟩),
          .opening (marshalFrame (forgedFrame demoSession.root 1)),
          .sealing typeChat [] (some ⟨List.replicate 12 0, rfl⟩)] m ∧
      m.wires.map headerEpoch = [some 0, some 1] ∧
      ∃ epochs : List UInt32, m.wires.map headerEpoch = epochs.map some ∧
        epochs.Pairwise (· ≤ ·) ∧ ∀ e, epochs.count e ≤ rotationInterval.toNat := by
  have h₁ : Run Metered.Step { session := demoSession }
      [.sealing typeChat [] (some ⟨List.replicate 12 0, rfl⟩)] _ := .single ⟨rfl, by decide +kernel⟩
  have h₂ := h₁.snoc (a := .opening (marshalFrame (forgedFrame demoSession.root 1)))
    ⟨rfl, by decide +kernel⟩
  have h₃ := h₂.snoc (a := .sealing typeChat [] (some ⟨List.replicate 12 0, rfl⟩))
    ⟨rfl, by decide +kernel⟩
  exact ⟨_, h₃, by decide +kernel, epoch_use_bounded newSession_demo h₃⟩

end Heimdall.Proto
