/-
`internal/crypto` and the key operations of `internal/identity`, over ideal primitives.

The Go code calls HKDF-SHA-256, AES-256-GCM, SHA-256, X25519 and Ed25519 from the standard
library. Here each is a symbol of the signature `Prim`, and its output is the block of octets
that symbol has on the inputs it was given (`Octets.block`). Everything the wrappers do around
the primitive is as in the source: the empty-secret and key-size errors, the fresh nonce in
front of the ciphertext, the minimum blob length, the low-order check of X25519.

Private keys never appear as bytes. A private key is an `Owner`: the `n`-th key of an honest
process, or the `n`-th key of the attacker. A public key is the block its owner determines.
-/
import Mathlib.Data.Sym.Sym2
import Heimdall.BigEndian
import Heimdall.Octets
import Heimdall.Spaces

set_option autoImplicit false

namespace Heimdall.Crypto

open Heimdall.BigEndian Heimdall.Octets
open Heimdall.GoStrings (trimSpace)

/-! ## The signature

All that the model knows of cryptography is in this type. Two outputs are equal only if the symbol,
its parameters and its arguments are, so there are no collisions; and nothing can be computed from
an output but what the definitions below say. -/

/-- Who generated a private key. -/
inductive Owner where
  | honest (n : ℕ)
  | attacker (n : ℕ)
  deriving DecidableEq, Repr

/-- The primitives whose outputs occur in messages and keys, with the parameters that are not
byte strings. The byte-string inputs are the argument list of `Octet.out`. -/
inductive Prim where
  /-- the pairing key of the `n`-th invite code; no arguments -/
  | pairingKey (n : ℕ)
  /-- an Ed25519 public key; no arguments -/
  | ed25519Public (a : Owner)
  /-- an Ed25519 signature of the one argument -/
  | ed25519Sign (a : Owner)
  /-- an X25519 public key; no arguments -/
  | x25519Public (x : Owner)
  /-- the X25519 secret two key owners share; no arguments -/
  | x25519 (p : Sym2 Owner)
  /-- the X25519 secret with a peer key that no `Owner` generated, the one argument -/
  | x25519Foreign (x : Owner)
  /-- SHA-256 of the one argument -/
  | sha256
  /-- HKDF-SHA-256 of `[secret, salt]` -/
  | hkdf (info : String) (length : ℕ)
  /-- AES-256-GCM of `[key, nonce, aad, plaintext]` -/
  | gcm
  deriving DecidableEq

abbrev Bytes := Octets.Bytes Prim

/-! ## `internal/crypto` -/

def keySize : ℕ := 32
def nonceSize : ℕ := 12
def tagSize : ℕ := 16

/-- The errors of `internal/crypto`. -/
inductive CryptoErr where
  | csprngFailure
  | emptySecret
  | invalidKeySize (n : ℕ)
  | errDecrypt
  deriving DecidableEq

def CryptoErr.message : CryptoErr → String
  | .csprngFailure => "crypto: CSPRNG failure"
  | .emptySecret => "crypto: empty HKDF secret"
  | .invalidKeySize n => s!"crypto: invalid key size {n}"
  | .errDecrypt => "crypto: message authentication failed"

/-- What `RandomBytes(NonceSize)` returns when it succeeds. -/
structure Nonce where
  bytes : List UInt8
  length_bytes : bytes.length = nonceSize
  deriving DecidableEq

def deriveKey (secret salt : Bytes) (info : String) (length : ℕ) : Except CryptoErr Bytes :=
  if secret.length = 0 then .error .emptySecret
  else .ok (block (.hkdf info length) [secret, salt] length)

/-- `Seal`. The argument `rand` is what the CSPRNG answers: a nonce, or a failure. -/
def sealBlob (key aad plaintext : Bytes) (rand : Option Nonce) : Except CryptoErr Bytes :=
  if key.length ≠ keySize then .error (.invalidKeySize key.length)
  else
    match rand with
    | none => .error .csprngFailure
    | some n => .ok (lits n.bytes ++
        block .gcm [key, lits n.bytes, aad, plaintext] (plaintext.length + tagSize))

/-- GCM decryption: only the complete output of GCM on this key, nonce and additional data
decrypts, and it decrypts to the plaintext it was made from. -/
def gcmOpen (key nonce aad ct : Bytes) : Option Bytes :=
  match ct with
  | .out .gcm [k, n, a, p] _ :: _ =>
    if k = key ∧ n = nonce ∧ a = aad ∧ ct = block .gcm [k, n, a, p] (p.length + tagSize) then some p
    else none
  | _ => none

def openBlob (key aad blob : Bytes) : Except CryptoErr Bytes :=
  if key.length ≠ keySize then .error (.invalidKeySize key.length)
  else if blob.length < nonceSize + tagSize then .error .errDecrypt
  else
    match gcmOpen key (blob.take nonceSize) aad (blob.drop nonceSize) with
    | some pt => .ok pt
    | none => .error .errDecrypt

/-- `Zeroise`: the same length, all zero. -/
def zeroise (b : Bytes) : Bytes := List.replicate b.length (.lit 0)

/-! ### What the wrappers guarantee -/

theorem deriveKey_ok {secret : Bytes} (h : secret ≠ []) (salt : Bytes) (info : String)
    (length : ℕ) :
    deriveKey secret salt info length = .ok (block (.hkdf info length) [secret, salt] length) := by
  rw [deriveKey, if_neg (by simpa using h)]

/-- **`DeriveKey` is injective** in all of its arguments, for keys of positive length. An empty
key would have no octet to tell its origin by. -/
theorem deriveKey_inj {secret secret' salt salt' k : Bytes} {info info' : String} {n n' : ℕ}
    (hn : 0 < n) (h : deriveKey secret salt info n = .ok k)
    (h' : deriveKey secret' salt' info' n' = .ok k) :
    secret = secret' ∧ salt = salt' ∧ info = info' ∧ n = n' := by
  unfold deriveKey at h h'
  split_ifs at h
  split_ifs at h'
  have heq := (Except.ok.inj h).trans (Except.ok.inj h').symm
  obtain ⟨hf, hargs, -⟩ := block_inj hn heq
  simp only [Prim.hkdf.injEq] at hf
  simp only [List.cons.injEq, and_true] at hargs
  exact ⟨hargs.1, hargs.2, hf⟩

/-- **GCM is ideal**: what decrypts under a key, nonce and additional data is exactly the output
of encrypting the returned plaintext under them. The definition looks at the first octet to find
the plaintext and then compares the whole block. -/
theorem gcmOpen_eq_some {key nonce aad ct pt : Bytes} :
    gcmOpen key nonce aad ct = some pt ↔
      ct = block .gcm [key, nonce, aad, pt] (pt.length + tagSize) := by
  constructor
  · intro h
    unfold gcmOpen at h
    split at h
    · split_ifs at h with hc
      obtain ⟨rfl, rfl, rfl, hct⟩ := hc
      simp only [Option.some.injEq] at h
      rw [← h]
      exact hct
    · cases h
  · intro h
    -- the output has at least the sixteen octets of the tag, so there is a first one
    have hcons := block_succ .gcm [key, nonce, aad, pt] (pt.length + 15)
    have hct : ct = .out .gcm [key, nonce, aad, pt] 0 ::
        (List.range (pt.length + 15)).map fun i => .out .gcm [key, nonce, aad, pt] (i + 1) :=
      h.trans hcons
    rw [hct, gcmOpen, if_pos ⟨rfl, rfl, rfl, hcons.symm⟩]

theorem sealBlob_ok {key aad pt : Bytes} {n : Nonce} (hkey : key.length = keySize) :
    sealBlob key aad pt (some n)
      = .ok (lits n.bytes ++ block .gcm [key, lits n.bytes, aad, pt] (pt.length + tagSize)) := by
  rw [sealBlob, if_neg (by simpa using hkey)]

theorem sealBlob_eq_ok {key aad pt blob : Bytes} {rand : Option Nonce} :
    sealBlob key aad pt rand = .ok blob ↔ key.length = keySize ∧ ∃ n, rand = some n ∧
      blob = lits n.bytes ++ block .gcm [key, lits n.bytes, aad, pt] (pt.length + tagSize) := by
  unfold sealBlob
  split_ifs with h
  · simp [h]
  · have hk : key.length = keySize := not_not.mp h
    cases rand with
    | none => simp
    | some n =>
      simp only [Except.ok.injEq, Option.some.injEq, exists_eq_left', hk, true_and]
      exact eq_comm

/-- A blob opens exactly when it is a nonce followed by the GCM output of the plaintext under that
nonce. The nonce is any twelve octets here: whoever made the blob need not have asked the CSPRNG. -/
theorem openBlob_eq_ok {key aad blob pt : Bytes} :
    openBlob key aad blob = .ok pt ↔ key.length = keySize ∧ ∃ nonce : Bytes,
      nonce.length = nonceSize ∧
      blob = nonce ++ block .gcm [key, nonce, aad, pt] (pt.length + tagSize) := by
  constructor
  · intro h
    unfold openBlob at h
    split_ifs at h with hk hl
    cases hg : gcmOpen key (blob.take nonceSize) aad (blob.drop nonceSize) with
    | none => rw [hg] at h; cases h
    | some p =>
      rw [hg] at h
      simp only [Except.ok.injEq] at h
      subst h
      refine ⟨not_not.mp hk, blob.take nonceSize, ?_, ?_⟩
      · rw [List.length_take]
        simp only [nonceSize, tagSize] at hl ⊢
        omega
      · rw [← gcmOpen_eq_some.mp hg, List.take_append_drop]
  · rintro ⟨hk, nonce, hn, rfl⟩
    -- the nonce has twelve octets, so the cut is behind it
    have htake : (nonce ++ block .gcm [key, nonce, aad, pt] (pt.length + tagSize)).take nonceSize
        = nonce := by rw [← hn, List.take_left]
    have hdrop : (nonce ++ block .gcm [key, nonce, aad, pt] (pt.length + tagSize)).drop nonceSize
        = block .gcm [key, nonce, aad, pt] (pt.length + tagSize) := by rw [← hn, List.drop_left]
    rw [openBlob, if_neg (by simpa using hk),
      if_neg (by simp only [List.length_append, hn, length_block]; omega),
      htake, hdrop, gcmOpen_eq_some.mpr rfl]

theorem gcm_mem_of_openBlob {key aad blob pt : Bytes} (h : openBlob key aad blob = .ok pt) :
    ∃ nonce, .out .gcm [key, nonce, aad, pt] 0 ∈ blob := by
  obtain ⟨-, nonce, -, rfl⟩ := openBlob_eq_ok.mp h
  refine ⟨nonce, List.mem_append_right _ (out_mem_block.mpr ⟨rfl, rfl, ?_⟩)⟩
  simp [tagSize]

theorem openBlob_sealBlob {key aad pt blob : Bytes} {rand : Option Nonce}
    (h : sealBlob key aad pt rand = .ok blob) : openBlob key aad blob = .ok pt := by
  obtain ⟨hk, n, -, rfl⟩ := sealBlob_eq_ok.mp h
  exact openBlob_eq_ok.mpr ⟨hk, lits n.bytes, by rw [length_lits, n.length_bytes], rfl⟩

/-! ## X25519 -/

def x25519PublicBytes (x : Owner) : Bytes := block (.x25519Public x) [] 32

/-- The owner of the private key behind a 32-byte public key, when a key generation made it. -/
def x25519Owner? (pub : Bytes) : Option Owner :=
  match pub with
  | .out (.x25519Public y) [] _ :: _ => if pub = x25519PublicBytes y then some y else none
  | _ => none

def curvePrime : ℕ := 2 ^ 255 - 19

/-- The `u`-coordinates of small order, on which X25519 gives the all-zero output. -/
def lowOrderPoints : List ℕ :=
  [0, 1, curvePrime - 1,
    325606250916557431795983626356110631294008115727848805560023387167927233504,
    39382357235489614581723060781553021112529911719440698176882885853963445705823]

/-- X25519 reads the peer key little-endian, drops the top bit and reduces. -/
def lowOrder (pub : Bytes) : Bool :=
  match vals? pub with
  | some bs => (beNat bs.reverse % 2 ^ 255 % curvePrime) ∈ lowOrderPoints
  | none => false

/-- `ecdh.PrivateKey.ECDH` after `NewPublicKey`: fails on a key of the wrong length and on
small-order points. -/
def ecdh (x : Owner) (pub : Bytes) : Option Bytes :=
  if pub.length ≠ 32 then none
  else if lowOrder pub then none
  else
    match x25519Owner? pub with
    | some y => some (block (.x25519 s(x, y)) [] 32)
    | none => some (block (.x25519Foreign x) [pub] 32)

theorem x25519Owner?_eq_some {pub : Bytes} {y : Owner} :
    x25519Owner? pub = some y ↔ pub = x25519PublicBytes y := by
  constructor
  · intro h
    unfold x25519Owner? at h
    split at h
    · split_ifs at h with hc
      simp only [Option.some.injEq] at h
      rw [← h]
      exact hc
    · cases h
  · rintro rfl
    -- the definition matches on the first of the 32 octets
    have hcons : x25519PublicBytes y = .out (.x25519Public y) [] 0 ::
        (List.range 31).map fun i => .out (.x25519Public y) [] (i + 1) :=
      block_succ (Prim.x25519Public y) [] 31
    rw [hcons, x25519Owner?, if_pos hcons.symm]

theorem x25519PublicBytes_inj {x y : Owner} (h : x25519PublicBytes x = x25519PublicBytes y) :
    x = y := Prim.x25519Public.inj (block_inj (by norm_num) h).1

/-- A generated public key is never one of the small-order points. Those are known numbers, and
the octets of a generated key are outputs of a primitive. -/
theorem lowOrder_x25519PublicBytes (y : Owner) : lowOrder (x25519PublicBytes y) = false := by
  have h : vals? (x25519PublicBytes y) = none := by
    cases hv : vals? (x25519PublicBytes y) with
    | none => rfl
    | some bs => exact absurd (vals?_eq_some.mp hv) (block_ne_lits (by norm_num))
  rw [lowOrder, h]

/-- On a generated key the agreement succeeds. The points on which the source rejects the result
as zero are told from the key here, by the list of those points. -/
theorem ecdh_public (x y : Owner) :
    ecdh x (x25519PublicBytes y) = some (block (.x25519 s(x, y)) [] 32) := by
  rw [ecdh, if_neg (by simp [x25519PublicBytes]), lowOrder_x25519PublicBytes,
    x25519Owner?_eq_some.mpr rfl]
  rfl

theorem ecdh_comm (x y : Owner) :
    ecdh x (x25519PublicBytes y) = ecdh y (x25519PublicBytes x) := by
  rw [ecdh_public, ecdh_public, Sym2.eq_swap]

theorem ecdh_length {x : Owner} {pub shared : Bytes} (h : ecdh x pub = some shared) :
    shared.length = 32 := by
  unfold ecdh at h
  split_ifs at h
  split at h <;> simp only [Option.some.injEq] at h <;> rw [← h, length_block]

theorem ecdh_peer_length {x : Owner} {pub shared : Bytes} (h : ecdh x pub = some shared) :
    pub.length = 32 := by
  by_contra hlen
  rw [ecdh, if_pos hlen] at h
  cases h

/-! ## Identities -/

/-- `identity.Identity`. The private key is `none` for a public-only view of a peer. -/
structure Identity where
  name : Bytes
  priv : Option Owner
  pub : Bytes

def ed25519PublicBytes (a : Owner) : Bytes := block (.ed25519Public a) [] 32

def identityOf (a : Owner) (name : Bytes) : Identity := ⟨name, some a, ed25519PublicBytes a⟩

/-- The errors of `internal/identity`. -/
inductive IdentityErr where
  | emptyName
  | keyGeneration
  | noPrivateKey
  | emptyPassphrase
  | crypto (e : CryptoErr)
  | unencrypted
  | passphraseRequired
  | wrongPassphrase
  | invalidFile
  | keyMaterial
  | keyMismatch
  | version
  | truncated
  deriving DecidableEq

def IdentityErr.message : IdentityErr → String
  | .emptyName => "identity: name must not be empty"
  | .keyGeneration => "identity: key generation failed"
  | .noPrivateKey => "identity: cannot save without private key"
  | .emptyPassphrase => "identity: empty passphrase refused (use SaveInsecure for development)"
  | .crypto e => e.message
  | .unencrypted => "identity: file is unencrypted; use empty passphrase"
  | .passphraseRequired => "identity: passphrase required"
  | .wrongPassphrase => "identity: wrong passphrase or corrupted identity file"
  | .invalidFile => "identity: invalid identity file"
  | .keyMaterial => "identity: invalid key material in file"
  | .keyMismatch => "identity: public key does not match private key"
  | .version => "identity: unsupported identity file version"
  | .truncated => "identity: truncated identity file"

/-- `Generate`, with the key that the CSPRNG gives, or its failure. What an identity is made of,
bytes or the symbols here, is left to `build`. -/
def generateWith {κ ι : Type} (build : List UInt8 → κ → ι) (name : List UInt8) (key : Option κ) :
    Except IdentityErr ι :=
  if trimSpace name = [] then .error .emptyName
  else
    match key with
    | none => .error .keyGeneration
    | some k => .ok (build name k)

/-- **What `Generate` returns** has a name that is not blank, and the key that the CSPRNG gave.
The name is kept as it was given: only the check trims it. -/
theorem generateWith_eq_ok {κ ι : Type} {build : List UInt8 → κ → ι} {name : List UInt8}
    {key : Option κ} {id : ι} : generateWith build name key = .ok id ↔
      trimSpace name ≠ [] ∧ ∃ k, key = some k ∧ build name k = id := by
  unfold generateWith
  split_ifs with hname
  · simp [hname]
  · rcases key with _ | k
    · simp
    · simp [hname]

def Identity.hasPrivateKey (id : Identity) : Bool := id.priv.isSome

/-- `Identity.Sign`; `none` for a public-only identity. -/
def Identity.sign (id : Identity) (msg : Bytes) : Option Bytes :=
  id.priv.map fun a => block (.ed25519Sign a) [msg] 64

def ed25519Owner? (pub : Bytes) : Option Owner :=
  match pub with
  | .out (.ed25519Public a) [] _ :: _ => if pub = ed25519PublicBytes a then some a else none
  | _ => none

/-- `VerifyWith`: a signature verifies under a public key exactly when the holder of the
private key made it over this message. -/
def verifyWith (pub msg sig : Bytes) : Bool :=
  match ed25519Owner? pub with
  | some a => sig = block (.ed25519Sign a) [msg] 64
  | none => false

theorem ed25519Owner?_eq_some {pub : Bytes} {a : Owner} :
    ed25519Owner? pub = some a ↔ pub = ed25519PublicBytes a := by
  constructor
  · intro h
    unfold ed25519Owner? at h
    split at h
    · split_ifs at h with hc
      simp only [Option.some.injEq] at h
      rw [← h]
      exact hc
    · cases h
  · rintro rfl
    -- as for the X25519 key, the match is on the first octet
    have hcons : ed25519PublicBytes a = .out (.ed25519Public a) [] 0 ::
        (List.range 31).map fun i => .out (.ed25519Public a) [] (i + 1) :=
      block_succ (Prim.ed25519Public a) [] 31
    rw [hcons, ed25519Owner?, if_pos hcons.symm]

theorem ed25519PublicBytes_inj {a b : Owner} (h : ed25519PublicBytes a = ed25519PublicBytes b) :
    a = b := Prim.ed25519Public.inj (block_inj (by norm_num) h).1

/-- **Signatures are unforgeable**, in the form the handshake uses: what verifies is the output of
signing this message with the private key behind this public key. -/
theorem verifyWith_iff {pub msg sig : Bytes} :
    verifyWith pub msg sig = true ↔
      ∃ a, pub = ed25519PublicBytes a ∧ sig = block (.ed25519Sign a) [msg] 64 := by
  unfold verifyWith
  constructor
  · intro h
    split at h
    · rename_i a ha
      exact ⟨a, ed25519Owner?_eq_some.mp ha, by simpa using h⟩
    · cases h
  · rintro ⟨a, ha, rfl⟩
    rw [ed25519Owner?_eq_some.mpr ha]
    simp

/-- `sha256.Sum256` and `h.Sum(nil)` -/
def sha256 (msg : Bytes) : Bytes := block .sha256 [msg] 32

theorem sha256_inj {m m' : Bytes} (h : sha256 m = sha256 m') : m = m' := by
  have h' := (block_inj (by norm_num) h).2.1
  simpa using h'

end Heimdall.Crypto
