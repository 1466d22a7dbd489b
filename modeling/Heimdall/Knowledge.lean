/-
The attacker of the handshake and of the pairing confirmation, and what it can never learn.

The attacker computes everything from what it has seen: hashes, key derivations, encryptions,
signatures and key agreements with its own keys, decryptions with keys it has. `dolevYao`
says so. Two predicates bound its knowledge. `Sec` is what must stay secret: pairing keys of
codes it was not given, agreements between two honest ephemeral keys, and every key derived
from such a secret, except the two derivations whose outputs are published (the session
identifier and the pairing confirmation). `Pub` is what may be known, relative to three
records of what honest nodes have done: which transcripts they signed, what they encrypted,
and which confirmations they have put into a session.

`Pub.of_known` is the result: if everything seen is `Pub`, everything known is. The
inversions `Pub.signed_of`, `Pub.gcm_cases` and `Pub.revealed_of` say what follows for a
signature, a ciphertext and a confirmation.
-/
import Heimdall.HandshakeSpec

set_option autoImplicit false

namespace Heimdall.Proto

open Heimdall.Octets Heimdall.Crypto

/-- The attacker, to whom the codes `leaked` are known. It owns the `Owner.attacker` keys. -/
def dolevYao (leaked : ℕ → Prop) : Attacker Prim where
  apply f args :=
    match f with
    | .pairingKey n => leaked n
    | .ed25519Public _ => True
    | .ed25519Sign a => ∃ n, a = .attacker n
    | .x25519Public _ => True
    | .x25519 p => ∃ n, .attacker n ∈ p
    | .x25519Foreign _ => True
    | .sha256 => True
    | .hkdf _ _ => args.length = 2
    | .gcm => args.length = 4
  extract f args key plain := f = .gcm ∧ ∃ nonce aad, args = [key, nonce, aad, plain]

/-- Octets the attacker must not have. -/
inductive Sec (leaked : ℕ → Prop) : Octet Prim → Prop
  | pairingKey {n : ℕ} {args : List Bytes} {i : ℕ} :
      ¬ leaked n → Sec leaked (.out (.pairingKey n) args i)
  | x25519 {x y : ℕ} {args : List Bytes} {i : ℕ} :
      Sec leaked (.out (.x25519 s(.honest x, .honest y)) args i)
  | hkdf {info : String} {n i : ℕ} {secret salt : Bytes} {o : Octet Prim} :
      info ≠ infoSession → info ≠ infoPairConfirm → o ∈ secret → Sec leaked o →
      Sec leaked (.out (.hkdf info n) [secret, salt] i)

/-- A string with a secret octet, which the attacker therefore does not have. -/
def SecretKey (leaked : ℕ → Prop) (k : Bytes) : Prop := ∃ o ∈ k, Sec leaked o

/-- What honest nodes have done so far, as far as it bears on what may be known: the
transcripts an identity signed, the AEAD calls made, the confirmations sent. -/
structure Deeds where
  signed : ℕ → Bytes → Prop
  sealed : List Bytes → Prop
  revealed : Bytes → Bytes → Prop

/-- Octets the attacker may have, given the deeds of the honest nodes. -/
inductive Pub (leaked : ℕ → Prop) (D : Deeds) : Octet Prim → Prop
  | lit (b : UInt8) : Pub leaked D (.lit b)
  | pairingKey {n : ℕ} {args : List Bytes} {i : ℕ} :
      leaked n → Pub leaked D (.out (.pairingKey n) args i)
  | ed25519Public {a : Owner} {args : List Bytes} {i : ℕ} :
      Pub leaked D (.out (.ed25519Public a) args i)
  | signAttacker {n : ℕ} {args : List Bytes} {i : ℕ} :
      Pub leaked D (.out (.ed25519Sign (.attacker n)) args i)
  | sign {b : ℕ} {m : Bytes} {i : ℕ} :
      D.signed b m → Pub leaked D (.out (.ed25519Sign (.honest b)) [m] i)
  | x25519Public {x : Owner} {args : List Bytes} {i : ℕ} :
      Pub leaked D (.out (.x25519Public x) args i)
  | x25519 {p : Sym2 Owner} {n : ℕ} {args : List Bytes} {i : ℕ} :
      .attacker n ∈ p → Pub leaked D (.out (.x25519 p) args i)
  | x25519Foreign {x : Owner} {args : List Bytes} {i : ℕ} :
      Pub leaked D (.out (.x25519Foreign x) args i)
  | sha256 {args : List Bytes} {i : ℕ} : Pub leaked D (.out .sha256 args i)
  | hkdf {info : String} {n i : ℕ} {secret salt : Bytes} :
      ¬ SecretKey leaked secret → Pub leaked D (.out (.hkdf info n) [secret, salt] i)
  | sessionID {n i : ℕ} {args : List Bytes} : Pub leaked D (.out (.hkdf infoSession n) args i)
  | confirm {n i : ℕ} {key transcript : Bytes} :
      D.revealed key transcript → Pub leaked D (.out (.hkdf infoPairConfirm n) [key, transcript] i)
  | sealed {i : ℕ} {key nonce aad plain : Bytes} :
      SecretKey leaked key → D.sealed [key, nonce, aad, plain] →
      Pub leaked D (.out .gcm [key, nonce, aad, plain] i)
  | gcm {i : ℕ} {key nonce aad plain : Bytes} :
      ¬ SecretKey leaked key → (∀ o ∈ plain, Pub leaked D o) →
      Pub leaked D (.out .gcm [key, nonce, aad, plain] i)

section Bounds

variable {leaked : ℕ → Prop} {D D' : Deeds}

theorem Pub.hkdf_cases {info : String} {n i : ℕ} {secret salt : Bytes}
    (h : Pub leaked D (.out (.hkdf info n) [secret, salt] i)) :
    ¬ SecretKey leaked secret ∨ info = infoSession ∨
      (info = infoPairConfirm ∧ D.revealed secret salt) := by
  cases h with
  | hkdf hk => exact .inl hk
  | sessionID => exact .inr (.inl rfl)
  | confirm hr => exact .inr (.inr ⟨rfl, hr⟩)

/-- **Nothing is both.** By the constructor of what is secret; only HKDF has constructors on both
sides, and there the labels and the secret tell them apart. -/
theorem Pub.not_sec {o : Octet Prim} (h : Pub leaked D o) : ¬ Sec leaked o := by
  intro hsec
  cases hsec with
  | pairingKey hn =>
    cases h with
    | pairingKey hl => exact hn hl
  | x25519 =>
    -- a pair of honest owners has no attacker in it
    cases h with
    | x25519 hmem => rcases Sym2.mem_iff.mp hmem with hc | hc <;> cases hc
  | hkdf hsess hconf ho hso =>
    rcases h.hkdf_cases with hk | hs | ⟨hc, -⟩
    · exact hk ⟨_, ho, hso⟩
    · exact hsess hs
    · exact hconf hc

theorem Pub.not_secretKey {k : Bytes} (h : ∀ o ∈ k, Pub leaked D o) : ¬ SecretKey leaked k := by
  rintro ⟨o, ho, hsec⟩
  exact (h o ho).not_sec hsec

/-- **What the attacker can compute from `Pub` octets is `Pub`.** By induction on how it was
computed. The step that needs work is decryption: with the key of a ciphertext at hand the
plaintext may be known, because a ciphertext under a key that is no secret has a plaintext that
may be known. -/
theorem Pub.of_known {S : Octet Prim → Prop} (hS : ∀ o, S o → Pub leaked D o) {o : Octet Prim}
    (h : Known (dolevYao leaked) S o) : Pub leaked D o := by
  refine Known.sound hS .lit ?_ ?_ h
  · intro f args i hf hargs
    rcases f with n | a | a | x | p | x | _ | ⟨info, n⟩ | _
    · exact .pairingKey hf
    · exact .ed25519Public
    · obtain ⟨n, rfl⟩ := hf
      exact .signAttacker
    · exact .x25519Public
    · obtain ⟨n, hn⟩ := hf
      exact .x25519 hn
    · exact .x25519Foreign
    · exact .sha256
    · obtain ⟨secret, salt, rfl⟩ := List.length_eq_two.mp hf
      exact .hkdf (Pub.not_secretKey (hargs secret (by simp)))
    · obtain ⟨key, nonce, aad, plain, rfl⟩ :
          ∃ key nonce aad plain, args = [key, nonce, aad, plain] := by
        rcases args with _ | ⟨k, _ | ⟨n, _ | ⟨a, _ | ⟨p, _ | ⟨q, rest⟩⟩⟩⟩⟩
        · exact absurd hf (by simp [dolevYao])
        · exact absurd hf (by simp [dolevYao])
        · exact absurd hf (by simp [dolevYao])
        · exact absurd hf (by simp [dolevYao])
        · exact ⟨k, n, a, p, rfl⟩
        · exact absurd hf (by simp [dolevYao])
      exact .gcm (Pub.not_secretKey (hargs key (by simp))) (hargs plain (by simp))
  · rintro f args i key plain ⟨rfl, nonce, aad, rfl⟩ hout hkey
    -- a key the attacker has is not secret, so the plaintext was already bounded
    cases hout with
    | sealed hsec _ => exact absurd hsec (Pub.not_secretKey hkey)
    | gcm _ hplain => exact hplain

/-! ## Reading `Pub` back -/

theorem Pub.signed_of {b : ℕ} {m : Bytes} {i : ℕ}
    (h : Pub leaked D (.out (.ed25519Sign (.honest b)) [m] i)) : D.signed b m := by
  cases h with
  | sign hs => exact hs

theorem Pub.gcm_cases {key nonce aad plain : Bytes} {i : ℕ}
    (h : Pub leaked D (.out .gcm [key, nonce, aad, plain] i)) :
    (SecretKey leaked key ∧ D.sealed [key, nonce, aad, plain]) ∨
      (¬ SecretKey leaked key ∧ ∀ o ∈ plain, Pub leaked D o) := by
  cases h with
  | sealed hk hs => exact .inl ⟨hk, hs⟩
  | gcm hk hp => exact .inr ⟨hk, hp⟩

theorem Pub.revealed_of {key transcript : Bytes} {n i : ℕ} (hkey : SecretKey leaked key)
    (h : Pub leaked D (.out (.hkdf infoPairConfirm n) [key, transcript] i)) :
    D.revealed key transcript := by
  rcases h.hkdf_cases with hk | hs | ⟨-, hr⟩
  · exact absurd hkey hk
  · exact absurd hs (by decide)
  · exact hr

/-! ## Which keys are secret -/

theorem secretKey_x25519 (x y : ℕ) :
    SecretKey leaked (block (.x25519 s(.honest x, .honest y)) [] 32) :=
  ⟨_, mem_block.mpr ⟨0, by norm_num, rfl⟩, .x25519⟩

theorem secretKey_hkdf {info : String} {secret : Bytes} (hs : info ≠ infoSession)
    (hc : info ≠ infoPairConfirm) (h : SecretKey leaked secret) (salt : Bytes) :
    SecretKey leaked (block (.hkdf info keySize) [secret, salt] keySize) := by
  obtain ⟨o, ho, hsec⟩ := h
  exact ⟨_, mem_block.mpr ⟨0, by norm_num [keySize], rfl⟩, .hkdf hs hc ho hsec⟩

end Bounds

end Heimdall.Proto
