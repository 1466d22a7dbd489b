/-
`internal/proto/frame.go`: the session frame and its 22-byte header.

`parseFrame` is structural only, as in the source: it looks at the two length bounds, the
version byte and the type byte, and slices the rest. What it accepts is exactly what
`marshalFrame` writes (`parseFrame_eq_ok`), so the header `Session.Open` recomputes for the
AEAD is the header that was received, byte for byte.

The session identifier is eight bytes of key material read as a `uint64` and written back
with `PutUint64`; the model keeps the eight bytes. The sequence and rotation fields are
numbers the code computes with, so they are read as numbers: a field that holds key-material
octets has no numeric value in this model and the frame is rejected as malformed.
-/
import Heimdall.Crypto

set_option autoImplicit false

namespace Heimdall.Proto

open Heimdall.BigEndian Heimdall.Octets Heimdall.Crypto

/-! ## Constants and errors -/

def protocolVersion : UInt8 := 1
def typeChat : UInt8 := 1
def typePing : UInt8 := 2
def typePong : UInt8 := 3
def typeClose : UInt8 := 4
def typePairConfirm : UInt8 := 5

/-- The type bytes `parseFrame` lets through. -/
def frameTypes : List UInt8 := [typeChat, typePing, typePong, typeClose, typePairConfirm]

/-- `headerSize` = version(1) + type(1) + sessionID(8) + sequence(8) + rotation(4) -/
def headerSize : ℕ := 22
def maxPlaintext : ℕ := 4096
def maxFrame : ℕ := headerSize + maxPlaintext + 64

/-- Why a buffer is not a frame. -/
inductive Malformed where
  | tooShort
  | tooLarge
  | badVersion
  | badType
  | opaqueHeader
  deriving DecidableEq

/-- The errors of `internal/proto` on the session side. -/
inductive ProtoErr where
  | malformed (why : Malformed)
  | errAuth
  | errReplay
  | errBadSession
  | errBadEpoch
  | sessionClosed
  | payloadTooLarge (n : ℕ)
  | crypto (e : CryptoErr)
  | nilChain
  | emptyPairingKey
  | emptyTranscript
  deriving DecidableEq

def Malformed.message : Malformed → String
  | .tooShort => "proto: malformed frame: too short"
  | .tooLarge => "proto: malformed frame: too large"
  | .badVersion => "proto: malformed frame: bad version"
  | .badType => "proto: malformed frame: bad type"
  | .opaqueHeader => "proto: malformed frame: header field without a numeric value"

def ProtoErr.message : ProtoErr → String
  | .malformed why => why.message
  | .errAuth => "proto: frame authentication failed"
  | .errReplay => "proto: replayed or out-of-window frame"
  | .errBadSession => "proto: frame for wrong session"
  | .errBadEpoch => "proto: unsupported rotation epoch"
  | .sessionClosed => "proto: session closed"
  | .payloadTooLarge n => s!"proto: payload too large ({n} > {maxPlaintext})"
  | .crypto e => e.message
  | .nilChain => "nil pointer dereference"
  | .emptyPairingKey => "proto: empty pairing key"
  | .emptyTranscript => "proto: empty transcript"

/-! ## The frame -/

/-- `frame`: the parsed view of a session frame. -/
structure Frame where
  typ : UInt8
  session : Bytes
  sequence : UInt64
  rotation : UInt32
  blob : Bytes

def putUint64 (v : UInt64) : Bytes := lits (beBytes 8 v.toNat)

def putUint32 (v : UInt32) : Bytes := lits (beBytes 4 v.toNat)

/-- `marshalHeaderOnly`: the 22-byte authenticated header. -/
def marshalHeaderOnly (f : Frame) : Bytes :=
  .lit protocolVersion :: .lit f.typ :: (f.session ++ putUint64 f.sequence ++ putUint32 f.rotation)

def marshalFrame (f : Frame) : Bytes :=
  .lit protocolVersion :: .lit f.typ ::
    (f.session ++ putUint64 f.sequence ++ putUint32 f.rotation ++ f.blob)

/-- `buf[i:j]` -/
def slice (buf : Bytes) (i j : ℕ) : Bytes := (buf.drop i).take (j - i)

def parseFrame (buf : Bytes) : Except ProtoErr Frame :=
  if buf.length < headerSize then .error (.malformed .tooShort)
  else if buf.length > maxFrame then .error (.malformed .tooLarge)
  else if (buf[0]?).bind Octet.val? ≠ some protocolVersion then .error (.malformed .badVersion)
  else
    match (buf[1]?).bind Octet.val? with
    | none => .error (.malformed .badType)
    | some typ =>
      if typ ∉ frameTypes then .error (.malformed .badType)
      else
        match vals? (slice buf 10 18), vals? (slice buf 18 22) with
        | some seq, some rot =>
          .ok { typ := typ
                session := slice buf 2 10
                sequence := UInt64.ofNat (beNat seq)
                rotation := UInt32.ofNat (beNat rot)
                blob := buf.drop headerSize }
        | _, _ => .error (.malformed .opaqueHeader)

/-! ## The codec facts -/

@[simp] theorem length_putUint64 (v : UInt64) : (putUint64 v).length = 8 := by simp [putUint64]

@[simp] theorem length_putUint32 (v : UInt32) : (putUint32 v).length = 4 := by simp [putUint32]

theorem putUint64_inj {v w : UInt64} (h : putUint64 v = putUint64 w) : v = w := by
  have h' := beBytes_inj (by simpa using v.toNat_lt) (by simpa using w.toNat_lt) (lits_inj.mp h)
  exact UInt64.toNat_inj.mp h'

theorem putUint32_inj {v w : UInt32} (h : putUint32 v = putUint32 w) : v = w := by
  have h' := beBytes_inj (by simpa using v.toNat_lt) (by simpa using w.toNat_lt) (lits_inj.mp h)
  exact UInt32.toNat_inj.mp h'

theorem putUint64_of_vals {bs : List UInt8} (h : bs.length = 8) :
    putUint64 (UInt64.ofNat (beNat bs)) = lits bs := by
  have hlt : beNat bs < 2 ^ 64 := by simpa [h] using beNat_lt bs
  rw [putUint64, UInt64.toNat_ofNat_of_lt' (by simpa using hlt), ← h, beBytes_beNat]

theorem putUint32_of_vals {bs : List UInt8} (h : bs.length = 4) :
    putUint32 (UInt32.ofNat (beNat bs)) = lits bs := by
  have hlt : beNat bs < 2 ^ 32 := by simpa [h] using beNat_lt bs
  rw [putUint32, UInt32.toNat_ofNat_of_lt' (by simpa using hlt), ← h, beBytes_beNat]

theorem marshalFrame_eq (f : Frame) : marshalFrame f = marshalHeaderOnly f ++ f.blob := rfl

@[simp] theorem length_marshalHeaderOnly (f : Frame) (h : f.session.length = 8) :
    (marshalHeaderOnly f).length = headerSize := by
  simp [marshalHeaderOnly, h, headerSize]

theorem marshalHeaderOnly_inj {f g : Frame} (hf : f.session.length = 8) (hg : g.session.length = 8)
    (h : marshalHeaderOnly f = marshalHeaderOnly g) :
    f.typ = g.typ ∧ f.session = g.session ∧ f.sequence = g.sequence ∧ f.rotation = g.rotation := by
  simp only [marshalHeaderOnly, List.cons.injEq, Octet.lit.injEq, true_and, List.append_assoc] at h
  obtain ⟨htyp, hrest⟩ := h
  obtain ⟨hsess, hrest⟩ := List.append_inj hrest (by rw [hf, hg])
  obtain ⟨hseq, hrot⟩ := List.append_inj hrest (by simp)
  exact ⟨htyp, hsess, putUint64_inj hseq, putUint32_inj hrot⟩

/-! ### Slices -/

theorem slice_append_drop (buf : Bytes) {i j : ℕ} (h : i ≤ j) :
    slice buf i j ++ buf.drop j = buf.drop i := by
  have hdrop : buf.drop j = (buf.drop i).drop (j - i) := by
    rw [List.drop_drop]
    congr 1
    omega
  rw [hdrop, slice, List.take_append_drop]

theorem length_slice {buf : Bytes} {i j : ℕ} (h : j ≤ buf.length) :
    (slice buf i j).length = j - i := by
  rw [slice, List.length_take, List.length_drop]
  omega

theorem slice_mid {a m : Bytes} (r : Bytes) {i j : ℕ} (hi : a.length = i)
    (hj : i + m.length = j) : slice (a ++ (m ++ r)) i j = m := by
  subst hi hj
  rw [slice, List.drop_left, Nat.add_sub_cancel_left, List.take_left]

theorem val?_getElem?_eq_some {buf : Bytes} {k : ℕ} {b : UInt8} :
    (buf[k]?).bind Octet.val? = some b ↔ slice buf k (k + 1) = [.lit b] := by
  have hget : buf[k]? = (buf.drop k)[0]? := by rw [List.getElem?_drop, Nat.add_zero]
  rw [slice, hget, Nat.add_sub_cancel_left]
  rcases buf.drop k with _ | ⟨o, rest⟩
  · simp
  · rcases o with v | ⟨f, as, i⟩
    · simp [Octet.val?]
    · simp [Octet.val?]

theorem length_of_vals?_slice {buf : Bytes} {i j : ℕ} {bs : List UInt8}
    (h : vals? (slice buf i j) = some bs) (hj : j ≤ buf.length) : bs.length = j - i := by
  rw [← length_slice hj, vals?_eq_some.mp h, length_lits]

theorem slice_rotation {f : Frame} (hsess : f.session.length = 8) :
    slice (marshalFrame f) 18 22 = putUint32 f.rotation := by
  rw [marshalFrame, List.append_assoc]
  exact slice_mid (a := _ :: _ :: (f.session ++ putUint64 f.sequence)) _ (by simp [hsess]) (by simp)

/-- **The frame format is canonical.** A buffer parses to `f` exactly when it is the
serialisation of `f`, `f` has an eight-byte session identifier and a known type, and the
buffer is within the size bound. -/
theorem parseFrame_eq_ok {buf : Bytes} {f : Frame} :
    parseFrame buf = .ok f ↔ buf = marshalFrame f ∧ f.session.length = 8 ∧ f.typ ∈ frameTypes ∧
      buf.length ≤ maxFrame := by
  constructor
  · intro h
    unfold parseFrame at h
    split_ifs at h with hshort hlarge hver
    have hlen : 22 ≤ buf.length := not_lt.mp hshort
    have hv := val?_getElem?_eq_some.mp (not_not.mp hver)
    split at h
    · cases h
    · rename_i typ htyp
      split_ifs at h with hmem
      split at h
      · rename_i seq rot hseq hrot
        have ht := val?_getElem?_eq_some.mp htyp
        have hseqlen : seq.length = 8 := length_of_vals?_slice hseq (by omega)
        have hrotlen : rot.length = 4 := length_of_vals?_slice hrot hlen
        obtain rfl := (Except.ok.inj h).symm
        refine ⟨?_, length_slice (by omega), hmem, not_lt.mp hlarge⟩
        -- the six slices put the buffer back together
        simp only [marshalFrame, putUint64_of_vals hseqlen, putUint32_of_vals hrotlen,
          ← vals?_eq_some.mp hseq, ← vals?_eq_some.mp hrot, headerSize, List.append_assoc]
        rw [slice_append_drop _ (by norm_num), slice_append_drop _ (by norm_num),
          slice_append_drop _ (by norm_num), ← List.singleton_append, ← hv, ← List.singleton_append,
          ← ht, slice_append_drop _ (by norm_num), slice_append_drop _ (by norm_num),
            List.drop_zero]
      · cases h
  · rintro ⟨rfl, hsess, htyp, hmax⟩
    have h0 : slice (marshalFrame f) 0 1 = [.lit protocolVersion] := rfl
    have h1 : slice (marshalFrame f) 1 2 = [.lit f.typ] := rfl
    have h2 : slice (marshalFrame f) 2 10 = f.session := by
      rw [marshalFrame, List.append_assoc, List.append_assoc]
      exact slice_mid (a := [_, _]) _ rfl (by rw [hsess])
    have h3 : slice (marshalFrame f) 10 18 = putUint64 f.sequence := by
      rw [marshalFrame, List.append_assoc, List.append_assoc]
      exact slice_mid (a := _ :: _ :: f.session) _ (by simp [hsess]) (by simp)
    have h4 := slice_rotation hsess
    have h5 : (marshalFrame f).drop headerSize = f.blob := by
      rw [marshalFrame_eq, List.drop_left' (length_marshalHeaderOnly f hsess)]
    have hlen : ¬ (marshalFrame f).length < headerSize := by
      rw [marshalFrame_eq, List.length_append, length_marshalHeaderOnly f hsess]
      omega
    have hseq : UInt64.ofNat (beNat (beBytes 8 f.sequence.toNat)) = f.sequence := by
      rw [beNat_beBytes, Nat.mod_eq_of_lt (by simpa using f.sequence.toNat_lt), UInt64.ofNat_toNat]
    have hrot : UInt32.ofNat (beNat (beBytes 4 f.rotation.toNat)) = f.rotation := by
      rw [beNat_beBytes, Nat.mod_eq_of_lt (by simpa using f.rotation.toNat_lt), UInt32.ofNat_toNat]
    rw [parseFrame, if_neg hlen, if_neg (not_lt.mpr hmax),
      if_neg (not_not.mpr (val?_getElem?_eq_some.mpr h0)), val?_getElem?_eq_some.mpr h1]
    simp only [htyp, not_true_eq_false, if_false, h2, h3, h4, h5]
    simp only [putUint64, putUint32, vals?_lits, hseq, hrot]

end Heimdall.Proto
