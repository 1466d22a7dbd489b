/-
Big-endian unsigned integers as byte strings of a fixed width, and the two round trips.

`beBytes w n` is the width-`w` encoding of `n mod 256^w`; `beNat` reads any byte string
back. The widths the wire formats use (2, 4 and 8 bytes) are instances, so the facts are
stated once at a general width.
-/
import Mathlib.Tactic
import Mathlib.Data.List.Basic

set_option autoImplicit false

namespace Heimdall.BigEndian

/-- The low `w` bytes of `n`, most significant byte first. -/
def beBytes : ℕ → ℕ → List UInt8
  | 0, _ => []
  | w + 1, n => UInt8.ofNat (n / 256 ^ w) :: beBytes w n

/-- The number a byte string denotes, most significant byte first. -/
def beNat : List UInt8 → ℕ
  | [] => 0
  | b :: bs => b.toNat * 256 ^ bs.length + beNat bs

@[simp] theorem length_beBytes (w n : ℕ) : (beBytes w n).length = w := by
  induction w with
  | zero => rfl
  | succ w ih => simp only [beBytes, List.length_cons, ih]

theorem beNat_lt (bs : List UInt8) : beNat bs < 256 ^ bs.length := by
  induction bs with
  | nil => simp [beNat]
  | cons b bs ih =>
    have hb : b.toNat < 256 := b.toNat_lt
    have hle : b.toNat * 256 ^ bs.length ≤ 255 * 256 ^ bs.length :=
      Nat.mul_le_mul_right _ (by omega)
    have hpow : 256 ^ (bs.length + 1) = 255 * 256 ^ bs.length + 256 ^ bs.length := by ring
    simp only [beNat, List.length_cons]
    omega

theorem beNat_beBytes (w n : ℕ) : beNat (beBytes w n) = n % 256 ^ w := by
  induction w with
  | zero => simp [beBytes, beNat, Nat.mod_one]
  | succ w ih =>
    have hbyte : (UInt8.ofNat (n / 256 ^ w)).toNat = n / 256 ^ w % 256 := by simp
    simp only [beBytes, beNat, length_beBytes, ih, hbyte]
    rw [pow_succ, Nat.mod_mul]
    ring

/-- Encoding what was read gives the bytes back: the encoding is canonical. The induction needs a
number in front of the bytes, since `beBytes` is defined from the whole number at every position. -/
theorem beBytes_beNat (bs : List UInt8) : beBytes bs.length (beNat bs) = bs := by
  suffices h : ∀ (bs : List UInt8) (k : ℕ),
      beBytes bs.length (k * 256 ^ bs.length + beNat bs) = bs by simpa using h bs 0
  intro bs
  induction bs with
  | nil => intro k; rfl
  | cons b bs ih =>
    intro k
    have hlt : beNat bs < 256 ^ bs.length := beNat_lt bs
    have hsplit : k * 256 ^ (bs.length + 1) + (b.toNat * 256 ^ bs.length + beNat bs)
        = (k * 256 + b.toNat) * 256 ^ bs.length + beNat bs := by ring
    have hdiv : ((k * 256 + b.toNat) * 256 ^ bs.length + beNat bs) / 256 ^ bs.length
        = k * 256 + b.toNat := by
      rw [Nat.mul_comm, Nat.mul_add_div (by positivity), Nat.div_eq_of_lt hlt, Nat.add_zero]
    have hhead : UInt8.ofNat (k * 256 + b.toNat) = b := by
      apply UInt8.toNat_inj.mp
      have hb : b.toNat < 256 := b.toNat_lt
      simp only [UInt8.toNat_ofNat']
      omega
    simp only [List.length_cons, beBytes, beNat, hsplit, hdiv, hhead, ih]

theorem beBytes_inj {w m n : ℕ} (hm : m < 256 ^ w) (hn : n < 256 ^ w)
    (h : beBytes w m = beBytes w n) : m = n := by
  have h' := congrArg beNat h
  rwa [beNat_beBytes, beNat_beBytes, Nat.mod_eq_of_lt hm, Nat.mod_eq_of_lt hn] at h'

end Heimdall.BigEndian
