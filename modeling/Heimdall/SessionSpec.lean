/-
What one operation of a session does, stated over the closed-form derivations.

`Live root initiator s` is the invariant of an open session. The three spec lemmas
(`newSession_spec`, `sealFrame_spec`, `openFrame_spec`) keep it and say everything a caller
needs: which message key a sealed frame was encrypted under, which one an opened frame was
decrypted under, and how the counter, the epoch and the replay window move. Nothing above
this file unfolds `sealFrame` or `openFrame`.
-/
import Heimdall.Session

set_option autoImplicit false

namespace Heimdall.Proto

open Heimdall.BigEndian Heimdall.Octets Heimdall.Crypto

/-! ## The decimal rendering of an epoch -/

/-- The number a list of digit characters denotes, with `a` already read. -/
def digitsValue (a : ℕ) (cs : List Char) : ℕ :=
  cs.foldl (fun a c => 10 * a + (c.toNat - '0'.toNat)) a

theorem digit_toNat (d : ℕ) (hd : d < 10) :
    (Char.ofNat ('0'.toNat + d)).toNat - '0'.toNat = d := by
  interval_cases d <;> rfl

/-- The loop prepends the digits of `v`: reading its result is reading `v` and then `acc`. The
induction is on the places that are left in the buffer, and `v` has no more digits than that. -/
theorem digitsValue_itoaLoop (n v : ℕ) (acc : List Char) (hv : v < 10 ^ n) :
    digitsValue 0 (itoaLoop n v acc) = digitsValue v acc := by
  induction n generalizing v acc with
  | zero =>
    have h0 : v = 0 := by simpa using hv
    rw [itoaLoop, h0]
  | succ n ih =>
    rw [itoaLoop]
    by_cases h0 : v = 0
    · rw [if_pos h0, h0]
    · -- one place for the last digit, and the rest of the number in the others
      have hlt : v / 10 < 10 ^ n := by
        rw [pow_succ] at hv
        exact Nat.div_lt_of_lt_mul (by omega)
      rw [if_neg h0, ih _ _ hlt]
      show digitsValue (10 * (v / 10) + _) acc = _
      rw [digit_toNat _ (Nat.mod_lt _ (by norm_num)), Nat.div_add_mod]

/-- The label of an epoch seed ends with the epoch in decimal. That two epochs never share a seed
rests on this loop, which the source has written itself. -/
theorem digitsValue_itoa (v : UInt32) : digitsValue 0 (itoa v).toList = v.toNat := by
  unfold itoa
  by_cases h0 : v = 0
  · rw [if_pos h0, h0]
    rfl
  · have hlt : v.toNat < 10 ^ 10 := lt_trans v.toNat_lt (by norm_num)
    rw [if_neg h0, String.toList_ofList, digitsValue_itoaLoop _ _ _ hlt]
    rfl

/-- Different epochs have different renderings, since the number can be read back. -/
theorem itoa_inj {v w : UInt32} (h : itoa v = itoa w) : v = w := by
  apply UInt32.toNat_inj.mp
  rw [← digitsValue_itoa v, ← digitsValue_itoa w, h]

/-! ## Injectivity of the derivations -/

theorem seedOf_inj {r r' : Bytes} {e e' : UInt32} (h : seedOf r e = seedOf r' e') :
    r = r' ∧ e = e' := by
  obtain ⟨hf, hargs, -⟩ := block_inj (by norm_num [keySize]) h
  simp only [Prim.hkdf.injEq, and_true] at hf
  have hlist := congrArg String.toList hf
  simp only [String.toList_append] at hlist
  have hitoa : (itoa e).toList = (itoa e').toList := List.append_cancel_left hlist
  exact ⟨(List.cons.inj hargs).1, itoa_inj (String.toList_inj.mp hitoa)⟩

theorem Dir.info_inj {d d' : Dir} (h : d.info = d'.info) : d = d' := by
  rcases d <;> rcases d' <;> first | rfl | exact absurd h (by decide)

/-- Every key is a block of the symbol HKDF with its label, so equal keys have equal inputs, level
by level. -/
theorem chainKey_inj {r r' : Bytes} {d d' : Dir} {e e' : UInt32}
    (h : chainKey r d e = chainKey r' d' e') : r = r' ∧ d = d' ∧ e = e' := by
  obtain ⟨hf, hargs, -⟩ := block_inj (by norm_num [keySize]) h
  simp only [Prim.hkdf.injEq, and_true] at hf
  obtain ⟨hr, he⟩ := seedOf_inj (List.cons.inj hargs).1
  exact ⟨hr, Dir.info_inj hf, he⟩

/-- **Key separation.** A message key determines the root, the direction, the epoch and the
sequence number. So no key is used for two messages as long as no number is used twice in one
direction. -/
theorem messageKeyOf_inj {r r' : Bytes} {d d' : Dir} {e e' : UInt32} {q q' : UInt64}
    (h : messageKeyOf r d e q = messageKeyOf r' d' e' q') :
    r = r' ∧ d = d' ∧ e = e' ∧ q = q' := by
  obtain ⟨-, hargs, -⟩ := block_inj (by norm_num [keySize]) h
  simp only [List.cons.injEq, and_true] at hargs
  obtain ⟨hr, hd, he⟩ := chainKey_inj hargs.1
  exact ⟨hr, hd, he, putUint64_inj hargs.2⟩

theorem recvDir_ne_sendDir (i : Bool) : recvDir i ≠ sendDir i := by
  rcases i <;> decide

/-! ## `installEpochLocked` and `newSession` -/

/-- Deriving a key fails only for an empty secret, and the root is not empty. So installing an
epoch is total. -/
theorem liftCrypto_deriveKey {secret : Bytes} (h : secret ≠ []) (salt : Bytes) (info : String)
    (n : ℕ) :
    liftCrypto (deriveKey secret salt info n) = .ok (block (.hkdf info n) [secret, salt] n) := by
  rw [deriveKey_ok h]
  rfl

/-- The session after an epoch has been installed. -/
def Session.installed (s : Session) (epoch : UInt32) : Session :=
  { s with
    send := some ⟨chainKey s.root (sendDir s.initiator) epoch⟩
    recv := some ⟨chainKey s.root (recvDir s.initiator) epoch⟩
    recvOld := if s.recv.isSome then s.recv
      else s.recvOld.map fun c => { c with key := zeroise c.key }
    epoch := epoch }

/-- Installing an epoch cannot fail while the session holds its root: the three derivations have a
secret that is not empty. A closed session has no root, but nobody asks it. -/
theorem installEpochLocked_eq {s : Session} (h : s.root ≠ []) (epoch : UInt32) :
    s.installEpochLocked epoch = .ok (s.installed epoch) := by
  have hseed : seedOf s.root epoch ≠ [] := ne_nil_of_length (length_seedOf _ _)
  rw [Session.installEpochLocked, Session.epochSeed, liftCrypto_deriveKey h]
  show (do
    let ab ← liftCrypto (deriveKey (seedOf s.root epoch) [] infoSendAB keySize)
    let ba ← liftCrypto (deriveKey (seedOf s.root epoch) [] infoSendBA keySize)
    _ : Except ProtoErr Session) = _
  rw [liftCrypto_deriveKey hseed, liftCrypto_deriveKey hseed]
  by_cases hi : s.initiator = true
  · simp only [Session.installed, hi, sendDir, recvDir]
    rfl
  · simp only [Session.installed, hi, sendDir, recvDir]
    rfl

def freshSession (root : Bytes) (initiator : Bool) : Session :=
  { sessionID := sessionIDOf root
    send := some ⟨chainKey root (sendDir initiator) 0⟩
    recv := some ⟨chainKey root (recvDir initiator) 0⟩
    initiator := initiator
    root := root }

theorem newSession_eq {shared : Bytes} (h : shared ≠ []) (transcript : Bytes) (initiator : Bool) :
    newSession shared transcript initiator
      = .ok (freshSession (rootOf shared transcript) initiator) := by
  have hroot : rootOf shared transcript ≠ [] := ne_nil_of_length (length_rootOf _ _)
  rw [newSession, liftCrypto_deriveKey h]
  show (do
    let sid ← liftCrypto (deriveKey (rootOf shared transcript) [] infoSession 8)
    Session.installEpochLocked
      { sessionID := sid, initiator := initiator, root := rootOf shared transcript } 0) = _
  rw [liftCrypto_deriveKey hroot]
  exact installEpochLocked_eq (s := { sessionID := _, initiator := initiator, root := _ }) hroot 0

theorem newSession_eq_ok {shared transcript : Bytes} {initiator : Bool} {s : Session}
    (h : newSession shared transcript initiator = .ok s) :
    shared ≠ [] ∧ s = freshSession (rootOf shared transcript) initiator := by
  by_cases hnil : shared = []
  · subst hnil
    exact absurd h (by simp [newSession, deriveKey, liftCrypto, bind, Except.bind])
  · rw [newSession_eq hnil] at h
    exact ⟨hnil, (Except.ok.inj h).symm⟩

/-! ## The invariant of an open session -/

/-- An open session over `root` in the role `initiator`: its chains are those of its epoch,
and a retired chain is that of the epoch before. -/
structure Live (root : Bytes) (initiator : Bool) (s : Session) : Prop where
  root_length : root.length = keySize
  closed : s.closed = false
  sessionID : s.sessionID = sessionIDOf root
  root_eq : s.root = root
  role : s.initiator = initiator
  send : s.send = some ⟨chainKey root (sendDir initiator) s.epoch⟩
  recv : s.recv = some ⟨chainKey root (recvDir initiator) s.epoch⟩
  recvOld : ∀ c, s.recvOld = some c → c = ⟨chainKey root (recvDir initiator) (s.epoch - 1)⟩

theorem freshSession_live {root : Bytes} (h : root.length = keySize) (initiator : Bool) :
    Live root initiator (freshSession root initiator) :=
  ⟨h, rfl, rfl, rfl, rfl, rfl, rfl, fun c hc => by cases hc⟩

section Ops

variable {root : Bytes} {i : Bool} {s : Session}

theorem Live.root_ne_nil (h : Live root i s) : s.root ≠ [] := by
  rw [h.root_eq]
  exact ne_nil_of_length h.root_length

/-- Rolling to the next epoch keeps the invariant: the receive chain of the epoch that ends
becomes the retired one, which is then the chain of the epoch before. -/
theorem Live.installed (h : Live root i s) : Live root i (s.installed (s.epoch + 1)) where
  root_length := h.root_length
  closed := h.closed
  sessionID := h.sessionID
  root_eq := h.root_eq
  role := h.role
  send := by simp only [Session.installed, h.root_eq, h.role]
  recv := by simp only [Session.installed, h.root_eq, h.role]
  recvOld c hc := by
    simp only [Session.installed, h.recv, Option.isSome_some, if_true, Option.some.injEq] at hc ⊢
    rw [← hc, UInt32.add_sub_cancel]

theorem Live.update (h : Live root i s) (seq : UInt64) (win : ReplayWindow) :
    Live root i { s with sendSeq := seq, recvWin := win } :=
  ⟨h.root_length, h.closed, h.sessionID, h.root_eq, h.role, h.send, h.recv, h.recvOld⟩

/-! ## `Seal` -/

/-- The rotation is due before the next frame. -/
def Session.rotationDue (s : Session) : Prop := s.sendSeq > 0 ∧ s.sendSeq % rotationInterval = 0

instance (s : Session) : Decidable s.rotationDue :=
  inferInstanceAs (Decidable (_ ∧ _))

/-- The session `Seal` encrypts with: rotated when a rotation is due. -/
def Session.rotated (s : Session) : Session :=
  if s.rotationDue then s.installed (s.epoch + 1) else s

/-- The epoch the next sealed frame carries. -/
def Session.sealEpoch (s : Session) : UInt32 := if s.rotationDue then s.epoch + 1 else s.epoch

/-- The frame a session over `root` sends in direction `d`. -/
def sealedFrame (root : Bytes) (d : Dir) (typ : UInt8) (seq : UInt64) (epoch : UInt32) (n : Nonce)
    (pt : Bytes) : Frame :=
  let hdr : Frame :=
    { typ := typ, session := sessionIDOf root, sequence := seq, rotation := epoch, blob := [] }
  { hdr with
    blob := lits n.bytes ++ block .gcm
      [messageKeyOf root d epoch seq, lits n.bytes, marshalHeaderOnly hdr,
        pt] (pt.length + tagSize) }

theorem Session.rotated_epoch (s : Session) : s.rotated.epoch = s.sealEpoch := by
  unfold Session.rotated Session.sealEpoch
  split_ifs <;> rfl

theorem Session.rotated_sendSeq (s : Session) : s.rotated.sendSeq = s.sendSeq := by
  unfold Session.rotated
  split_ifs <;> rfl

theorem Session.rotated_recvWin (s : Session) : s.rotated.recvWin = s.recvWin := by
  unfold Session.rotated
  split_ifs <;> rfl

theorem Live.rotated (h : Live root i s) : Live root i s.rotated := by
  unfold Session.rotated
  split_ifs
  · exact h.installed
  · exact h

/-- Sealing rotates first if it is due. The frame has the epoch after that and the next sequence
number. -/
theorem rotateIfDue_eq (h : Live root i s) : s.rotateIfDue = .ok s.rotated := by
  have hdef : s.rotateIfDue
      = if s.rotationDue then s.installEpochLocked (s.epoch + 1) else .ok s := rfl
  rw [hdef, Session.rotated]
  split_ifs
  · exact installEpochLocked_eq h.root_ne_nil _
  · rfl

/-- A payload within the bound and a nonce: `Seal` succeeds with this state and this frame. The
number of the frame is the counter before the call, and its epoch the one after the rotation. -/
theorem sealFrame_eq (h : Live root i s) (typ : UInt8) {pt : Bytes} (hpt : pt.length ≤ maxPlaintext)
    (n : Nonce) :
    s.sealFrame typ pt (some n)
      = ({ s.rotated with sendSeq := s.sendSeq + 1 },
          .ok (marshalFrame (sealedFrame root (sendDir i) typ s.sendSeq s.sealEpoch n pt))) := by
  have hr := h.rotated
  have hkey : chainKey root (sendDir i) s.rotated.epoch ≠ [] :=
    ne_nil_of_length (length_chainKey _ _ _)
  rw [Session.sealFrame, if_neg (by simp [h.closed]), if_neg (by omega), rotateIfDue_eq h]
  simp only [hr.send, Session.sealUnder, Chain.messageKey, liftCrypto_deriveKey hkey]
  rw [sealBlob_ok (length_block _ _ _)]
  simp only [Session.nextFrame, hr.sessionID, Session.rotated_sendSeq, Session.rotated_epoch,
    sealedFrame, messageKeyOf]

/-- **`Seal`**, every outcome. A refusal may have rotated the session but sends nothing and does
not advance the counter; the next call then finds the same number, and rotates once more if that
is a multiple of the interval. -/
theorem sealFrame_spec (h : Live root i s) (typ : UInt8) (pt : Bytes) (rand : Option Nonce) :
    Live root i (s.sealFrame typ pt rand).1 ∧ (s.sealFrame typ pt rand).1.recvWin = s.recvWin ∧
      ((∃ e, (s.sealFrame typ pt rand).2 = .error e ∧
          (s.sealFrame typ pt rand).1.sendSeq = s.sendSeq ∧
          ((s.sealFrame typ pt rand).1 = s ∨ (s.sealFrame typ pt rand).1 = s.rotated)) ∨
        ∃ n, rand = some n ∧ pt.length ≤ maxPlaintext ∧
          (s.sealFrame typ pt rand).2
            = .ok (marshalFrame (sealedFrame root (sendDir i) typ s.sendSeq s.sealEpoch n pt)) ∧
          (s.sealFrame typ pt rand).1.sendSeq = s.sendSeq + 1 ∧
          (s.sealFrame typ pt rand).1.epoch = s.sealEpoch) := by
  by_cases hpt : pt.length ≤ maxPlaintext
  · rcases rand with _ | n
    · -- the CSPRNG failed after the rotation
      have hr := h.rotated
      have hkey : chainKey root (sendDir i) s.rotated.epoch ≠ [] :=
        ne_nil_of_length (length_chainKey _ _ _)
      have heq : s.sealFrame typ pt none = (s.rotated, .error (.crypto .csprngFailure)) := by
        rw [Session.sealFrame, if_neg (by simp [h.closed]), if_neg (by omega), rotateIfDue_eq h]
        simp only [hr.send, Session.sealUnder, Chain.messageKey, liftCrypto_deriveKey hkey]
        rw [sealBlob, if_neg (by simp)]
      rw [heq]
      exact ⟨hr, s.rotated_recvWin, .inl ⟨_, rfl, s.rotated_sendSeq, .inr rfl⟩⟩
    · rw [sealFrame_eq h typ hpt n]
      exact ⟨h.rotated.update _ s.rotated.recvWin, s.rotated_recvWin,
        .inr ⟨n, rfl, hpt, rfl, rfl, s.rotated_epoch⟩⟩
  · have heq : s.sealFrame typ pt rand = (s, .error (.payloadTooLarge pt.length)) := by
      rw [Session.sealFrame, if_neg (by simp [h.closed]), if_pos (by omega)]
    rw [heq]
    exact ⟨h, rfl, .inl ⟨_, rfl, rfl, .inl rfl⟩⟩

/-! ## `Open` -/

/-- The epochs `chainForEpochLocked` has a chain for. -/
def Session.inRange (s : Session) (epoch : UInt32) : Prop :=
  epoch = s.epoch ∨ epoch = s.epoch + 1 ∨ (epoch + 1 = s.epoch ∧ s.recvOld.isSome)

instance (s : Session) (epoch : UInt32) : Decidable (s.inRange epoch) :=
  inferInstanceAs (Decidable (_ ∨ _))

/-- The session after a frame of the given epoch has been looked at. -/
def Session.rolledTo (s : Session) (epoch : UInt32) : Session :=
  if epoch = s.epoch + 1 ∧ epoch ≠ s.epoch then s.installed epoch else s

theorem Live.rolledTo (h : Live root i s) (epoch : UInt32) : Live root i (s.rolledTo epoch) := by
  unfold Session.rolledTo
  split_ifs with he
  · rw [he.1]
    exact h.installed
  · exact h

theorem Session.rolledTo_sendSeq (s : Session) (epoch : UInt32) :
    (s.rolledTo epoch).sendSeq = s.sendSeq := by
  unfold Session.rolledTo
  split_ifs <;> rfl

theorem Session.rolledTo_recvWin (s : Session) (epoch : UInt32) :
    (s.rolledTo epoch).recvWin = s.recvWin := by
  unfold Session.rolledTo
  split_ifs <;> rfl

theorem Session.rolledTo_epoch (s : Session) (epoch : UInt32) :
    (s.rolledTo epoch).epoch = if epoch = s.epoch + 1 then epoch else s.epoch := by
  unfold Session.rolledTo
  by_cases h1 : epoch = s.epoch + 1
  · by_cases h2 : epoch = s.epoch
    · rw [if_neg (by simp [h2]), if_pos h1, h2]
    · rw [if_pos ⟨h1, h2⟩, if_pos h1]
      rfl
  · rw [if_neg (by simp [h1]), if_neg h1]

/-- **`chainForEpochLocked`**: in range it returns the receive chain of the frame's own epoch,
whichever of the three cases it was; out of range it refuses and changes nothing. -/
theorem chainForEpochLocked_spec (h : Live root i s) (epoch : UInt32) :
    s.chainForEpochLocked epoch
      = (s.rolledTo epoch, if s.inRange epoch then .ok (some ⟨chainKey root (recvDir i) epoch⟩)
          else .error .errBadEpoch) := by
  unfold Session.chainForEpochLocked Session.rolledTo
  -- the current epoch, then the next one, which is installed, then the one before
  by_cases h1 : epoch = s.epoch
  · have hin : s.inRange epoch := .inl h1
    rw [if_pos h1, if_neg (by simp [h1]), if_pos hin, h.recv, h1]
  · rw [if_neg h1]
    by_cases h2 : epoch = s.epoch + 1
    · have hin : s.inRange epoch := .inr (.inl h2)
      rw [if_pos h2, if_pos ⟨h2, h1⟩, if_pos hin, installEpochLocked_eq h.root_ne_nil]
      simp only [Session.installed, h.root_eq, h.role]
    · have hstay : ¬ (epoch = s.epoch + 1 ∧ epoch ≠ s.epoch) := fun hc => h2 hc.1
      rw [if_neg h2, if_neg hstay]
      by_cases h3 : epoch + 1 = s.epoch ∧ s.recvOld.isSome
      · have hin : s.inRange epoch := .inr (.inr h3)
        obtain ⟨c, hc⟩ := Option.isSome_iff_exists.mp h3.2
        rw [if_pos h3, if_pos hin, hc, h.recvOld c hc, ← h3.1, UInt32.add_sub_cancel]
      · have hout : ¬ s.inRange epoch := fun hc => hc.elim h1 fun hc => hc.elim h2 h3
        rw [if_neg h3, if_neg hout]

theorem check_refused {w : ReplayWindow} {seq : UInt64} (h : (check w seq).2 = false) :
    (check w seq).1 = w := by
  unfold check at h ⊢
  split_ifs at h ⊢ <;> rfl

/-- The outcome of `Open` once the frame has parsed and belongs to this session. The epoch is
installed before the tag is verified, so a frame that does not authenticate may still have moved
the session. -/
theorem openFrame_eq (h : Live root i s) {buf : Bytes} {f : Frame} (hp : parseFrame buf = .ok f)
    (hs : f.session = sessionIDOf root) :
    s.openFrame buf
      = if s.inRange f.rotation then
          match openBlob (messageKeyOf root (recvDir i) f.rotation f.sequence) (marshalHeaderOnly f)
              f.blob with
          | .error _ => (s.rolledTo f.rotation, .error .errAuth)
          | .ok pt =>
            ({ s.rolledTo f.rotation with recvWin := (check s.recvWin f.sequence).1 },
              if (check s.recvWin f.sequence).2 then .ok (f.typ, pt) else .error .errReplay)
        else (s, .error .errBadEpoch) := by
  have hkey : chainKey root (recvDir i) f.rotation ≠ [] := ne_nil_of_length (length_chainKey _ _ _)
  rw [Session.openFrame, if_neg (by simp [h.closed]), hp]
  simp only [hs, h.sessionID, ne_eq, not_true_eq_false, if_false, chainForEpochLocked_spec h]
  by_cases hr : s.inRange f.rotation
  · simp only [if_pos hr, Session.openUnder, Chain.messageKey, liftCrypto_deriveKey hkey]
    show (match openBlob (messageKeyOf root (recvDir i) f.rotation f.sequence)
      (marshalHeaderOnly f) f.blob with
      | .error _ => _
      | .ok pt => _) = _
    rcases openBlob (messageKeyOf root (recvDir i) f.rotation f.sequence)
      (marshalHeaderOnly f) f.blob with e | pt
    · rfl
    · simp only [Session.rolledTo_recvWin]
      split_ifs <;> rfl
  · -- out of range nothing is installed
    have hroll : s.rolledTo f.rotation = s := by
      unfold Session.rolledTo
      rw [if_neg fun hc => hr (.inr (.inl hc.1))]
    simp only [if_neg hr, hroll]

/-- Opening looks at the header, derives the key, opens the blob and asks the replay window, in
this order. What does not parse changes nothing. -/
theorem openFrame_malformed (h : Live root i s) {buf : Bytes} {e : ProtoErr}
    (hp : parseFrame buf = .error e) : s.openFrame buf = (s, .error e) := by
  rw [Session.openFrame, if_neg (by simp [h.closed]), hp]

theorem openFrame_otherSession (h : Live root i s) {buf : Bytes} {f : Frame}
    (hp : parseFrame buf = .ok f) (hs : f.session ≠ sessionIDOf root) :
    s.openFrame buf = (s, .error .errBadSession) := by
  rw [Session.openFrame, if_neg (by simp [h.closed]), hp]
  simp only [h.sessionID, ne_eq, hs, not_false_eq_true, if_true]

/-- **`Open`**, every outcome. The invariant, the counter and the window survive a refusal; an
acceptance names the frame, the key it opened under and the fresh sequence number. -/
theorem openFrame_spec (h : Live root i s) (buf : Bytes) :
    Live root i (s.openFrame buf).1 ∧ (s.openFrame buf).1.sendSeq = s.sendSeq ∧
      ((s.openFrame buf).1.epoch = s.epoch ∨ (s.openFrame buf).1.epoch = s.epoch + 1) ∧
      ((∃ e, (s.openFrame buf).2 = .error e ∧ (s.openFrame buf).1.recvWin = s.recvWin) ∨
        ∃ f pt, parseFrame buf = .ok f ∧ f.session = sessionIDOf root ∧ s.inRange f.rotation ∧
          openBlob (messageKeyOf root (recvDir i) f.rotation f.sequence)
            (marshalHeaderOnly f) f.blob
            = .ok pt ∧
          (check s.recvWin f.sequence).2 = true ∧
          (s.openFrame buf).1.recvWin = (check s.recvWin f.sequence).1 ∧
          (s.openFrame buf).2 = .ok (f.typ, pt)) := by
  have hepoch : ∀ e : UInt32, (s.rolledTo e).epoch = s.epoch ∨
      (s.rolledTo e).epoch = s.epoch + 1 := by
    intro e
    rw [Session.rolledTo_epoch]
    split_ifs with he
    · exact .inr he
    · exact .inl rfl
  -- the checks in the order of the source: the format, the session, the epoch, the tag, the
  -- number
  rcases hp : parseFrame buf with e | f
  · rw [openFrame_malformed h hp]
    exact ⟨h, rfl, .inl rfl, .inl ⟨e, rfl, rfl⟩⟩
  · by_cases hs : f.session = sessionIDOf root
    · rw [openFrame_eq h hp hs]
      by_cases hr : s.inRange f.rotation
      · rw [if_pos hr]
        rcases ho : openBlob (messageKeyOf root (recvDir i) f.rotation f.sequence)
          (marshalHeaderOnly f) f.blob with e | pt
        · exact ⟨h.rolledTo _, s.rolledTo_sendSeq _, hepoch _, .inl ⟨_, rfl, s.rolledTo_recvWin _⟩⟩
        · refine ⟨(h.rolledTo _).update _ _, s.rolledTo_sendSeq _, hepoch _, ?_⟩
          by_cases hf : (check s.recvWin f.sequence).2 = true
          · exact .inr ⟨f, pt, rfl, hs, hr, ho, hf, rfl, if_pos hf⟩
          · exact .inl ⟨_, if_neg hf, check_refused (by simpa using hf)⟩
      · rw [if_neg hr]
        exact ⟨h, rfl, .inl rfl, .inl ⟨_, rfl, rfl⟩⟩
    · rw [openFrame_otherSession h hp hs]
      exact ⟨h, rfl, .inl rfl, .inl ⟨_, rfl, rfl⟩⟩

/-! ## `Close` -/

/-- A closed session refuses both operations and does not change. `Close` has wiped its keys by
then, and neither operation gets as far as using them. -/
theorem sealFrame_closed (h : s.closed = true) (typ : UInt8) (pt : Bytes) (rand : Option Nonce) :
    s.sealFrame typ pt rand = (s, .error .sessionClosed) := by
  rw [Session.sealFrame, if_pos h]

theorem openFrame_closed (h : s.closed = true) (buf : Bytes) :
    s.openFrame buf = (s, .error .sessionClosed) := by
  rw [Session.openFrame, if_pos h]

/-- What every call keeps: the session is closed, or open over `root`. -/
def Session.Valid (root : Bytes) (i : Bool) (s : Session) : Prop :=
  s.closed = true ∨ Live root i s

/-- Whatever is asked to be sealed, the session stays closed, or open over its root. -/
theorem Session.Valid.sealed (h : s.Valid root i) (typ : UInt8) (pt : Bytes) (rand : Option Nonce) :
    (s.sealFrame typ pt rand).1.Valid root i := by
  rcases h with hclosed | hlive
  · rw [sealFrame_closed hclosed]
    exact .inl hclosed
  · exact .inr (sealFrame_spec hlive typ pt rand).1

theorem Session.Valid.opened (h : s.Valid root i) (buf : Bytes) :
    (s.openFrame buf).1.Valid root i := by
  rcases h with hclosed | hlive
  · rw [openFrame_closed hclosed]
    exact .inl hclosed
  · exact .inr (openFrame_spec hlive buf).1

end Ops

/-! ## Frames on the wire -/

@[simp] theorem sealedFrame_typ (root : Bytes) (d : Dir) (typ : UInt8) (q : UInt64) (e : UInt32)
    (n : Nonce) (pt : Bytes) : (sealedFrame root d typ q e n pt).typ = typ := rfl

@[simp] theorem sealedFrame_sequence (root : Bytes) (d : Dir) (typ : UInt8) (q : UInt64)
    (e : UInt32) (n : Nonce) (pt : Bytes) : (sealedFrame root d typ q e n pt).sequence = q := rfl

@[simp] theorem sealedFrame_rotation (root : Bytes) (d : Dir) (typ : UInt8) (q : UInt64)
    (e : UInt32) (n : Nonce) (pt : Bytes) : (sealedFrame root d typ q e n pt).rotation = e := rfl

theorem openBlob_sealedFrame (root : Bytes) (d : Dir) (typ : UInt8) (q : UInt64) (e : UInt32)
    (n : Nonce) (pt : Bytes) :
    openBlob (messageKeyOf root d e q) (marshalHeaderOnly (sealedFrame root d typ q e n pt))
      (sealedFrame root d typ q e n pt).blob = .ok pt :=
  openBlob_eq_ok.mpr ⟨length_messageKeyOf _ _ _ _, lits n.bytes,
    by rw [length_lits, n.length_bytes], rfl⟩

/-- A sealed frame of a known type, with a payload within the bound, passes `parseFrame`. `Seal`
does not look at the type, so that is a hypothesis. -/
theorem parseFrame_sealedFrame (root : Bytes) (d : Dir) {typ : UInt8} (q : UInt64) (e : UInt32)
    (n : Nonce) {pt : Bytes} (htyp : typ ∈ frameTypes) (hpt : pt.length ≤ maxPlaintext) :
    parseFrame (marshalFrame (sealedFrame root d typ q e n pt))
      = .ok (sealedFrame root d typ q e n pt) := by
  refine parseFrame_eq_ok.mpr ⟨rfl, length_sessionIDOf root, htyp, ?_⟩
  rw [marshalFrame_eq, List.length_append, length_marshalHeaderOnly _ (length_sessionIDOf root)]
  simp only [sealedFrame, List.length_append, length_lits, n.length_bytes, length_block, maxFrame,
    nonceSize, tagSize]
  omega

/-- **Honest delivery.** A frame the other end sealed is opened as what was sealed, provided its
epoch is in range and its number fresh. The two provisos are all that stands between sealing and
opening. -/
theorem openFrame_sealedFrame {root : Bytes} {i : Bool} {s : Session} (h : Live root i s)
    {typ : UInt8} {q : UInt64} {e : UInt32} {pt : Bytes} (n : Nonce) (htyp : typ ∈ frameTypes)
    (hpt : pt.length ≤ maxPlaintext) (hr : s.inRange e) (hfresh : (check s.recvWin q).2 = true) :
    s.openFrame (marshalFrame (sealedFrame root (recvDir i) typ q e n pt))
      = ({ s.rolledTo e with recvWin := (check s.recvWin q).1 }, .ok (typ, pt)) := by
  rw [openFrame_eq h (parseFrame_sealedFrame root _ q e n htyp hpt) rfl]
  simp only [sealedFrame_rotation, sealedFrame_sequence, openBlob_sealedFrame, if_pos hr, hfresh,
    if_true, sealedFrame_typ]

end Heimdall.Proto
