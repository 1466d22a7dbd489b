/-
The identity file, `Save` and `Load` of `internal/identity/identity.go`.

A file is a version, a salt with its length, and a blob: the JSON text of the identity, sealed under
a key that PBKDF2 makes of the passphrase and the salt, with the base name of the file as additional
data. Keys are bytes here, as they are in the file; what is sealed is symbolic, as in `Crypto`.

`Load` is the exact inverse of `Save` (`load_save`): with the passphrase, under the same base name,
it gives the keys back, and the name as far as it is UTF-8; with any other passphrase or base name
it fails. The passphrase counts as HMAC reads it, which is the key of PBKDF2 (`hmacKey`): NUL bytes
at its end are not seen, and one of more than 64 bytes is its digest. And what `Load` accepts with a
passphrase is nothing else than what is sealed under it, with a public key that belongs to the
private one (`load_authentic`).
-/
import Heimdall.Crypto
import Heimdall.JsonCompact
import Heimdall.Saved

set_option autoImplicit false

namespace Heimdall.IdentityFile

open Heimdall.Crypto (Bytes IdentityErr Nonce deriveKey generateWith keySize openBlob sealBlob)
open Heimdall.Json (Literal quote)
open Heimdall.Octets
open Heimdall.Peers
    (GoString bytesJson decodeBytes decodeText encodeToString foldName publicKeySize)
open Heimdall.Utf8 (sanitize)

/-! ## Identities -/

/-- `Identity`. A nil key is the empty list. -/
structure Identity where
  name : GoString := []
  priv : List UInt8 := []
  pub : List UInt8 := []
  deriving DecidableEq

def privateKeySize : ℕ := 64

/-- A private key: the seed, and the public key behind it. -/
structure PrivateKey where
  bytes : List UInt8
  length_bytes : bytes.length = privateKeySize

def publicOf (priv : List UInt8) : List UInt8 := priv.drop 32

def generate (name : GoString) (key : Option PrivateKey) : Except IdentityErr Identity :=
  generateWith (fun name k => ⟨name, k.bytes, publicOf k.bytes⟩) name key

/-! ## `diskFormat` -/

/-- The fields of `diskFormat`. -/
inductive DiskField where
  | name
  | priv
  | pub
  deriving DecidableEq

def DiskField.tag : DiskField → GoString
  | .name => [110, 97, 109, 101]
  | .priv => [112, 114, 105, 118, 97, 116, 101]
  | .pub => [112, 117, 98, 108, 105, 99]

def DiskField.all : List DiskField := [.name, .priv, .pub]

def diskJson (id : Identity) : Json :=
  .obj [(DiskField.tag .name, .str (quote id.name)), (DiskField.tag .priv, bytesJson id.priv),
    (DiskField.tag .pub, bytesJson id.pub)]

def marshalDisk (id : Identity) : GoString := (diskJson id).compact

def diskFieldOf (key : GoString) : Option DiskField :=
  (DiskField.all.find? fun f => f.tag = key) <|>
    DiskField.all.find? fun f => foldName f.tag = foldName key

def DiskField.decode (id : Identity) (v : Json) : DiskField → Option Identity
  | .name => (decodeText id.name v).map fun x => { id with name := x }
  | .priv => (decodeBytes id.priv v).map fun x => { id with priv := x }
  | .pub => (decodeBytes id.pub v).map fun x => { id with pub := x }

def decodeDiskMember (id : Identity) (kv : GoString × Json) : Option Identity :=
  match (Json.unquote kv.1).bind diskFieldOf with
  | none => some id
  | some f => f.decode id kv.2

/-- `json.Unmarshal` into a `diskFormat`; `null` leaves it as it is. -/
def unmarshalDisk (buf : GoString) : Option Identity :=
  match Json.parse buf with
  | some .null => some {}
  | some (.obj kvs) => kvs.foldlM decodeDiskMember {}
  | _ => none

/-! ## The file

The header, the salt and the blob. `pbkdf2Key` is symbolic in the passphrase as HMAC sees it, since
PBKDF2 uses it for nothing but the key of HMAC. -/

def identityFileVersion : UInt8 := 1

def saltSize : ℕ := 16

/-- What `RandomBytes(saltSize)` returns when it succeeds. -/
structure Salt where
  bytes : List UInt8
  length_bytes : bytes.length = saltSize

def hmacBlockSize : ℕ := 64

/-- The key of HMAC-SHA-256, as `hmac.New` makes it: a key that is longer than a block is
replaced by its digest, and what is shorter is filled up with zeros. -/
def hmacKey (sha256 : List UInt8 → List UInt8) (key : GoString) : List UInt8 :=
  let short := if key.length > hmacBlockSize then sha256 key else key
  short ++ List.replicate (hmacBlockSize - short.length) 0

/-- `pbkdf2.Key`, which has the passphrase as the key of its HMAC. It is one more derivation of a
key from a secret and a salt, and it has the symbol of those, with a label that no other has. -/
def pbkdf2Key (sha256 : List UInt8 → List UInt8) (passphrase : GoString) (salt : Bytes) : Bytes :=
  block (.hkdf "PBKDF2-HMAC-SHA-256, 600000 iterations" keySize)
    [lits (hmacKey sha256 passphrase), salt] keySize

def base (path : GoString) : GoString :=
  if path = [] then [46]
  else
    let last := ((path.reverse.dropWhile (· = 47)).takeWhile (· ≠ 47)).reverse
    if last = [] then [47] else last

/-- `"heimdall identity v1 "` -/
def aadLabel : GoString :=
  [104, 101, 105, 109, 100, 97, 108, 108, 32, 105, 100, 101, 110, 116, 105, 116, 121, 32, 118, 49,
    32]

def identityAAD (path : GoString) : Bytes := lits (aadLabel ++ base path)

def fileBytes (salt : List UInt8) (blob : Bytes) : Bytes :=
  .lit identityFileVersion :: .lit (UInt8.ofNat salt.length) :: (lits salt ++ blob)

/-- `readIdentityFile`, of what was read; a salt of length zero is no salt. -/
def readIdentityFile (buf : Bytes) : Except IdentityErr (Option Bytes × Bytes) :=
  match buf with
  | .lit version :: .lit saltLen :: rest =>
    if version ≠ identityFileVersion then .error .version
    else if rest.length < saltLen.toNat then .error .truncated
    else if saltLen = 0 then .ok (none, rest)
    else .ok (some (rest.take saltLen.toNat), rest.drop saltLen.toNat)
  | _ => .error .version

/-- `Save` up to `writeIdentityFile`, with what the CSPRNG answers. -/
def Identity.save (sha256 : List UInt8 → List UInt8) (id : Identity) (path passphrase : GoString)
    (salt : Option Salt)
    (rand : Option Nonce) : Except IdentityErr Bytes :=
  if id.priv = [] then .error .noPrivateKey
  else if passphrase = [] then .error .emptyPassphrase
  else
    match salt with
    | none => .error (.crypto .csprngFailure)
    | some salt =>
      match sealBlob (pbkdf2Key sha256 passphrase (lits salt.bytes)) (identityAAD path)
          (lits (marshalDisk id)) rand with
      | .error e => .error (.crypto e)
      | .ok blob => .ok (fileBytes salt.bytes blob)

def Identity.saveInsecure (id : Identity) : Except IdentityErr Bytes :=
  if id.priv = [] then .error .noPrivateKey else .ok (fileBytes [] (lits (marshalDisk id)))

/-- `Load` from where the payload is there. -/
def identityOf (payload : Bytes) : Except IdentityErr Identity :=
  match (vals? payload).bind unmarshalDisk with
  | none => .error .invalidFile
  | some df =>
    if 0 < df.priv.length then
      if df.priv.length ≠ privateKeySize ∨ df.pub.length ≠ publicKeySize then .error .keyMaterial
      else if df.pub ≠ publicOf df.priv then .error .keyMismatch
      else .ok df
    else .ok { name := df.name, pub := df.pub }

def load (sha256 : List UInt8 → List UInt8) (path passphrase : GoString) (buf : Bytes) :
    Except IdentityErr Identity :=
  match readIdentityFile buf with
  | .error e => .error e
  | .ok (none, blob) => if passphrase ≠ [] then .error .unencrypted else identityOf blob
  | .ok (some salt, blob) =>
    if passphrase = [] then .error .passphraseRequired
    else
      match openBlob (pbkdf2Key sha256 passphrase salt) (identityAAD path) blob with
      | .error _ => .error .wrongPassphrase
      | .ok payload => identityOf payload

/-! ## Reading back -/

/-- An identity as `Generate` makes it. -/
def Identity.Sound (id : Identity) : Prop :=
  id.priv.length = privateKeySize ∧ id.pub = publicOf id.priv

variable {sha256 : List UInt8 → List UInt8} {id : Identity}
  {path path' passphrase passphrase' : GoString}

theorem diskFieldOf_tag (f : DiskField) : (Json.unquote f.tag).bind diskFieldOf = some f := by
  cases f <;> decide +kernel

theorem decodeDiskMember_tag (id : Identity) (f : DiskField) (v : Json) :
    decodeDiskMember id (f.tag, v) = f.decode id v := by
  simp only [decodeDiskMember, diskFieldOf_tag]

theorem literal_diskTag (f : DiskField) : Literal f.tag := by
  apply Literal.of_plain
  cases f <;> decide +kernel

theorem writable_bytesJson (bs : List UInt8) : (bytesJson bs).Writable := by
  unfold bytesJson
  split_ifs
  · trivial
  · exact Literal.of_plain fun c hc => (Peers.encodeToString_bytes bs c hc).1

/-- The text is read back field by field. The name is written as JSON text, so it comes back
sanitized. -/
theorem unmarshalDisk_marshalDisk (id : Identity) :
    unmarshalDisk (marshalDisk id) = some { id with name := sanitize id.name } := by
  have hwritable : (diskJson id).Writable := by
    refine Json.writableMembers_iff.mpr ?_
    simp only [List.mem_cons, List.not_mem_nil, or_false, forall_eq_or_imp, forall_eq]
    exact ⟨⟨literal_diskTag _, Json.literal_quote _⟩, ⟨literal_diskTag _, writable_bytesJson _⟩,
      literal_diskTag _, writable_bytesJson _⟩
  rw [unmarshalDisk, marshalDisk, Json.parse_compact hwritable, diskJson]
  simp only [List.foldlM_cons, List.foldlM_nil, decodeDiskMember_tag, DiskField.decode,
    Peers.decodeText_quote, Peers.decodeBytes_bytesJson, Option.map_some, Option.bind_eq_bind,
    Option.bind_some, Option.pure_def]

theorem identityOf_marshalDisk (h : id.Sound) :
    identityOf (lits (marshalDisk id)) = .ok { id with name := sanitize id.name } := by
  obtain ⟨hpriv, hpub⟩ := h
  have hpublen : id.pub.length = publicKeySize := by
    rw [hpub, publicOf, List.length_drop, hpriv]
    rfl
  rw [identityOf, vals?_lits, Option.bind_some, unmarshalDisk_marshalDisk]
  dsimp only
  rw [if_pos (by rw [hpriv]; decide), if_neg (by simp [hpriv, hpublen]),
    if_neg (not_not_intro hpub)]

theorem readIdentityFile_fileBytes {salt : List UInt8} (hpos : 0 < salt.length)
    (hlen : salt.length < 256) (blob : Bytes) :
    readIdentityFile (fileBytes salt blob) = .ok (some (lits salt), blob) := by
  have htoNat : (UInt8.ofNat salt.length).toNat = salt.length := UInt8.toNat_ofNat_of_lt' hlen
  have hne : UInt8.ofNat salt.length ≠ 0 := by
    intro h
    have hzero := congrArg UInt8.toNat h
    rw [htoNat] at hzero
    exact absurd hzero (by simpa using hpos.ne')
  have hshort : ¬(lits salt ++ blob : Bytes).length < salt.length := by
    rw [List.length_append, length_lits]
    omega
  have hcut : (lits salt : Bytes).length = salt.length := length_lits salt
  rw [fileBytes, readIdentityFile, if_neg (not_not_intro rfl), htoNat, if_neg hshort, if_neg hne,
    List.take_left' hcut, List.drop_left' hcut]

theorem Salt.readIdentityFile_fileBytes (s : Salt) (blob : Bytes) :
    readIdentityFile (fileBytes s.bytes blob) = .ok (some (lits s.bytes), blob) := by
  apply IdentityFile.readIdentityFile_fileBytes
  · rw [s.length_bytes]
    decide
  · rw [s.length_bytes]
    decide

theorem length_pbkdf2Key (sha256 : List UInt8 → List UInt8) (passphrase : GoString) (salt : Bytes) :
    (pbkdf2Key sha256 passphrase salt).length = keySize := length_block _ _ _

/-- Two passphrases have one key under a salt exactly when HMAC reads them as one. Within a block
that is so if one is the other with zeros behind it; beyond a block, if it has the same digest. -/
theorem pbkdf2Key_eq_iff {salt : Bytes} :
    pbkdf2Key sha256 passphrase salt = pbkdf2Key sha256 passphrase' salt ↔
      hmacKey sha256 passphrase = hmacKey sha256 passphrase' := by
  constructor
  · intro h
    obtain ⟨-, hargs, -⟩ := block_inj (by decide) h
    simp only [List.cons.injEq, and_true] at hargs
    exact lits_inj.mp hargs
  · intro h
    rw [pbkdf2Key, pbkdf2Key, h]

/-- The label in front is always the same, so the additional data determine the base name. -/
theorem identityAAD_inj : identityAAD path = identityAAD path' ↔ base path = base path' := by
  rw [identityAAD, identityAAD, lits_inj, List.append_cancel_left_eq]

theorem save_eq_ok {salt : Option Salt} {rand : Option Nonce} {buf : Bytes}
    (h : id.save sha256 path passphrase salt rand = .ok buf) :
    passphrase ≠ [] ∧ ∃ (s : Salt) (blob : Bytes), buf = fileBytes s.bytes blob ∧
      sealBlob (pbkdf2Key sha256 passphrase (lits s.bytes)) (identityAAD path)
        (lits (marshalDisk id)) rand
        = .ok blob := by
  unfold Identity.save at h
  split_ifs at h with hpriv hpass
  refine ⟨hpass, ?_⟩
  -- the CSPRNG may fail twice
  cases salt with
  | none => exact absurd h (by simp)
  | some s =>
    dsimp only at h
    cases hseal : sealBlob (pbkdf2Key sha256 passphrase (lits s.bytes)) (identityAAD path)
        (lits (marshalDisk id)) rand with
    | error e =>
      rw [hseal] at h
      exact absurd h (by simp)
    | ok blob =>
      rw [hseal] at h
      exact ⟨s, blob, (Except.ok.inj h).symm, hseal⟩

theorem openBlob_other {key key' aad aad' plain blob : Bytes} {rand : Option Nonce}
    (hseal : sealBlob key aad plain rand = .ok blob) (hne : key' ≠ key ∨ aad' ≠ aad) (x : Bytes) :
    openBlob key' aad' blob ≠ .ok x := by
  intro hopen
  obtain ⟨-, n, -, hblob⟩ := Crypto.sealBlob_eq_ok.mp hseal
  obtain ⟨-, nonce, hnonce, hblob'⟩ := Crypto.openBlob_eq_ok.mp hopen
  have hlen : (lits n.bytes : Bytes).length = nonce.length := by
    rw [length_lits, n.length_bytes, hnonce]
  obtain ⟨-, hct⟩ := List.append_inj (hblob.symm.trans hblob') hlen
  obtain ⟨-, hargs, -⟩ := block_inj (by simp [Crypto.tagSize]) hct
  simp only [List.cons.injEq, and_true] at hargs
  rcases hne with hkey | haad
  · exact hkey hargs.1.symm
  · exact haad hargs.2.2.1.symm

section Saved

variable {salt : Option Salt} {rand : Option Nonce} {buf : Bytes}

theorem load_same (hsound : id.Sound) (hsave : id.save sha256 path passphrase salt rand = .ok buf)
    (hpass : passphrase' ≠ []) (hkey : hmacKey sha256 passphrase' = hmacKey sha256 passphrase)
    (hbase : base path' = base path) :
    load sha256 path' passphrase' buf = .ok { id with name := sanitize id.name } := by
  obtain ⟨-, s, blob, rfl, hseal⟩ := save_eq_ok hsave
  rw [load, s.readIdentityFile_fileBytes]
  dsimp only
  rw [if_neg hpass, identityAAD_inj.mpr hbase, pbkdf2Key_eq_iff.mpr hkey,
    Crypto.openBlob_sealBlob hseal]
  exact identityOf_marshalDisk hsound

/-- Another passphrase, as HMAC sees it, or another base name gives another key or other
additional data, and the blob does not open. -/
theorem load_other (hsave : id.save sha256 path passphrase salt rand = .ok buf)
    (hpass : passphrase' ≠ [])
    (hne : ¬(hmacKey sha256 passphrase' = hmacKey sha256 passphrase ∧ base path' = base path)) :
    load sha256 path' passphrase' buf = .error .wrongPassphrase := by
  obtain ⟨-, s, blob, rfl, hseal⟩ := save_eq_ok hsave
  -- another passphrase is another key, another base name is other additional data
  have hother :
    pbkdf2Key sha256 passphrase' (lits s.bytes) ≠ pbkdf2Key sha256 passphrase (lits s.bytes) ∨
      identityAAD path' ≠ identityAAD path := by
    by_contra hboth
    rw [not_or, not_not, not_not] at hboth
    exact hne ⟨pbkdf2Key_eq_iff.mp hboth.1, identityAAD_inj.mp hboth.2⟩
  rw [load, s.readIdentityFile_fileBytes]
  dsimp only
  rw [if_neg hpass]
  cases hopen : openBlob (pbkdf2Key sha256 passphrase' (lits s.bytes)) (identityAAD path') blob with
  | error e => rfl
  | ok x => exact absurd hopen (openBlob_other hseal hother x)

theorem load_empty (hsave : id.save sha256 path passphrase salt rand = .ok buf) (path' : GoString) :
    load sha256 path' [] buf = .error .passphraseRequired := by
  obtain ⟨-, s, blob, rfl, -⟩ := save_eq_ok hsave
  rw [load, s.readIdentityFile_fileBytes]
  rfl

theorem load_eq_ok_iff (hsound : id.Sound)
    (hsave : id.save sha256 path passphrase salt rand = .ok buf) {id' : Identity} :
    load sha256 path' passphrase' buf = .ok id' ↔
      (passphrase' ≠ [] ∧ hmacKey sha256 passphrase' = hmacKey sha256 passphrase ∧
        base path' = base path) ∧ id' = { id with name := sanitize id.name } := by
  by_cases hempty : passphrase' = []
  · rw [hempty, load_empty hsave path']
    simp
  by_cases hsame : hmacKey sha256 passphrase' = hmacKey sha256 passphrase ∧ base path' = base path
  · rw [load_same hsound hsave hempty hsame.1 hsame.2, Except.ok.injEq]
    exact ⟨fun h => ⟨⟨hempty, hsame⟩, h.symm⟩, fun h => h.2.symm⟩
  · rw [load_other hsave hempty hsame]
    exact ⟨fun h => absurd h (by simp), fun h => absurd h.1.2 hsame⟩

/-- **`Load` inverts `Save`, and nothing else opens the file.** For an identity with its keys in
order, the file that `Save` wrote gives the keys back, and the name with every byte that is not
UTF-8 replaced, if it is loaded with a passphrase that is the same key for HMAC and from a path
with the base name it was saved under. Without a passphrase, and with another key or under
another base name, it fails. -/
theorem load_save (hsound : id.Sound) (hsave : id.save sha256 path passphrase salt rand = .ok buf)
    (path' passphrase' : GoString) :
    load sha256 path' passphrase' buf =
      if passphrase' = [] then .error .passphraseRequired
      else if hmacKey sha256 passphrase' = hmacKey sha256 passphrase ∧ base path' = base path then
        .ok { id with name := sanitize id.name }
      else .error .wrongPassphrase := by
  split_ifs with hempty hsame
  · rw [hempty]
    exact load_empty hsave path'
  · exact load_same hsound hsave hempty hsame.1 hsame.2
  · exact load_other hsave hempty hsame

/-- The file of `SaveInsecure` is loaded without a passphrase, under any name, and only so. With a
passphrase `Load` refuses it, so that nobody can put it in the place of an encrypted one. -/
theorem load_saveInsecure (hsound : id.Sound) (hsave : id.saveInsecure = .ok buf)
    (path' passphrase' : GoString) :
    load sha256 path' passphrase' buf =
      if passphrase' ≠ [] then .error .unencrypted
        else .ok { id with name := sanitize id.name } := by
  unfold Identity.saveInsecure at hsave
  split_ifs at hsave with hpriv
  obtain rfl := Except.ok.inj hsave
  have hread : readIdentityFile (fileBytes [] (lits (marshalDisk id)))
      = .ok (none, lits (marshalDisk id)) := by
    rw [fileBytes, readIdentityFile, if_neg (not_not_intro rfl), if_neg (by simp),
      if_pos (by decide)]
    rfl
  rw [load, hread]
  dsimp only
  rw [identityOf_marshalDisk hsound]

end Saved

/-! ## What is accepted -/

theorem readIdentityFile_salted {buf salt blob : Bytes}
    (h : readIdentityFile buf = .ok (some salt, blob)) :
    ∃ n : UInt8, n ≠ 0 ∧ salt.length = n.toNat ∧
      buf = .lit identityFileVersion :: .lit n :: (salt ++ blob) := by
  unfold readIdentityFile at h
  split at h
  · rename_i version saltLen rest
    split_ifs at h with hversion hshort hzero
    · exact absurd (Prod.mk.inj (Except.ok.inj h)).1 (by simp)
    obtain ⟨hsalt, hblob⟩ := Prod.mk.inj (Except.ok.inj h)
    obtain rfl := Option.some.inj hsalt
    refine ⟨saltLen, hzero, ?_, ?_⟩
    · rw [List.length_take]
      omega
    · rw [← hblob, List.take_append_drop, not_not.mp hversion]
  · exact absurd h (by simp)

theorem identityOf_eq_ok {payload : Bytes} (h : identityOf payload = .ok id) :
    ∃ text, payload = lits text ∧ unmarshalDisk text = some id ∧ (id.priv = [] ∨ id.Sound) := by
  unfold identityOf at h
  cases hdf : (vals? payload).bind unmarshalDisk with
  | none =>
    rw [hdf] at h
    exact absurd h (by simp)
  | some df =>
    rw [hdf] at h
    obtain ⟨text, htext, hparse⟩ := Option.bind_eq_some_iff.mp hdf
    have hpayload : payload = lits text := vals?_eq_some.mp htext
    dsimp only at h
    -- with a private key there are two more checks
    split_ifs at h with hpriv hmaterial hmatch
    · obtain rfl := Except.ok.inj h
      rw [not_or, not_not, not_not] at hmaterial
      exact ⟨text, hpayload, hparse, .inr ⟨hmaterial.1, not_not.mp hmatch⟩⟩
    · obtain rfl := Except.ok.inj h
      obtain ⟨name, priv, pub⟩ := df
      obtain rfl : priv = [] := List.eq_nil_of_length_eq_zero (by simpa using hpriv)
      exact ⟨text, hpayload, hparse, .inl rfl⟩

/-- **What is loaded was sealed.** Whatever bytes there are under a path, if `Load` accepts them
with a passphrase, they are a blob that was sealed under the key of this passphrase and for this
base name, and the identity is the one in it; its public key belongs to its private key, if it
has one. -/
theorem load_authentic {buf : Bytes} (hpass : passphrase ≠ [])
    (h : load sha256 path passphrase buf = .ok id) :
    ∃ (n : UInt8) (salt nonce : Bytes) (text : GoString),
      salt.length = n.toNat ∧ nonce.length = Crypto.nonceSize ∧
      buf = .lit identityFileVersion :: .lit n :: (salt ++ (nonce ++
        block .gcm [pbkdf2Key sha256 passphrase salt, nonce, identityAAD path, lits text]
          ((lits text : Bytes).length + Crypto.tagSize))) ∧
      unmarshalDisk text = some id ∧ (id.priv = [] ∨ id.Sound) := by
  unfold load at h
  cases hread : readIdentityFile buf with
  | error e =>
    rw [hread] at h
    exact absurd h (by simp)
  | ok parts =>
    obtain ⟨salted, blob⟩ := parts
    rw [hread] at h
    cases salted with
    | none =>
      -- an unencrypted file is refused when there is a passphrase
      dsimp only at h
      rw [if_pos hpass] at h
      exact absurd h (by simp)
    | some salt =>
      dsimp only at h
      rw [if_neg hpass] at h
      cases hopen : openBlob (pbkdf2Key sha256 passphrase salt) (identityAAD path) blob with
      | error e =>
        rw [hopen] at h
        exact absurd h (by simp)
      | ok payload =>
        rw [hopen] at h
        obtain ⟨n, -, hlen, hbuf⟩ := readIdentityFile_salted hread
        obtain ⟨text, rfl, hparse, hkeys⟩ := identityOf_eq_ok h
        obtain ⟨-, nonce, hnonce, hblob⟩ := Crypto.openBlob_eq_ok.mp hopen
        rw [hblob] at hbuf
        exact ⟨n, salt, nonce, text, hlen, hnonce, hbuf, hparse, hkeys⟩

/-! ### An example -/

/-- An identity whose name is not UTF-8, and what the CSPRNG gives it. -/
def sevens : Identity := ⟨[104, 0xFF], List.replicate 64 7, List.replicate 32 7⟩

theorem sevens_sound : sevens.Sound := ⟨rfl, rfl⟩

theorem length_sevensSalt : (List.replicate 16 (7 : UInt8)).length = saltSize := rfl

theorem length_sevensNonce : (List.replicate 12 (7 : UInt8)).length = Crypto.nonceSize := rfl

def sevensSalt : Salt := ⟨List.replicate 16 7, length_sevensSalt⟩

def sevensNonce : Nonce := ⟨List.replicate 12 7, length_sevensNonce⟩

/-- `/a/id` and the passphrase `pw` -/
def sevensPath : GoString := [47, 97, 47, 105, 100]

def sevensPass : GoString := [112, 119]

def cutDigest (b : List UInt8) : List UInt8 := (b ++ List.replicate 32 0).take 32

theorem sevens_saved (sha256 : List UInt8 → List UInt8) :
    ∃ buf, sevens.save sha256 sevensPath sevensPass (some sevensSalt) (some sevensNonce)
      = .ok buf := by
  rw [Identity.save, if_neg (by decide), if_neg (by decide)]
  simp only [Crypto.sealBlob_ok (length_pbkdf2Key _ _ _)]
  exact ⟨_, rfl⟩

/-- The file is moved to another directory and id there: with the passphrase, with a NUL byte behind
it, and with half of it. -/
theorem load_save_moved :
    ∃ buf, sevens.save cutDigest sevensPath sevensPass (some sevensSalt) (some sevensNonce)
      = .ok buf ∧
      (∀ passphrase, passphrase = sevensPass ∨ passphrase = sevensPass ++ [0] →
        load cutDigest [105, 100] passphrase buf =
          .ok ⟨[104, 0xEF, 0xBF, 0xBD], List.replicate 64 7, List.replicate 32 7⟩) ∧
      load cutDigest [105, 100] [112] buf = .error .wrongPassphrase := by
  obtain ⟨buf, hsave⟩ := sevens_saved cutDigest
  refine ⟨buf, hsave, ?_, ?_⟩
  · rintro passphrase (rfl | rfl)
    · rw [load_save sevens_sound hsave, if_neg (by decide), if_pos (by decide)]
      rfl
    · rw [load_save sevens_sound hsave, if_neg (by decide), if_pos (by decide)]
      rfl
  · rw [load_save sevens_sound hsave, if_neg (by decide), if_neg (by decide)]

theorem load_authentic_moved :
    ∃ buf id, load cutDigest [105, 100] sevensPass buf = .ok id ∧
      id.priv = List.replicate 64 7 ∧
      ∃ (n : UInt8) (salt nonce : Bytes) (text : GoString),
        salt.length = n.toNat ∧ nonce.length = Crypto.nonceSize ∧
        buf = .lit identityFileVersion :: .lit n :: (salt ++ (nonce ++
          block .gcm [pbkdf2Key cutDigest sevensPass salt, nonce, identityAAD [105, 100], lits text]
            ((lits text : Bytes).length + Crypto.tagSize))) ∧
        unmarshalDisk text = some id ∧ (id.priv = [] ∨ id.Sound) := by
  obtain ⟨buf, hsave⟩ := sevens_saved cutDigest
  have hload : load cutDigest [105, 100] sevensPass buf
      = .ok { sevens with name := sanitize sevens.name } :=
    load_same sevens_sound hsave (by decide) rfl (by decide)
  exact ⟨buf, _, hload, rfl, load_authentic (by decide) hload⟩

end Heimdall.IdentityFile
