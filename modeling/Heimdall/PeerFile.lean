/-
The file of the trust store, `internal/peers/peers.go`: what `saveLocked` writes and what
`OpenStore` gets to see of it.

`json.MarshalIndent` writes a list of records field by field, in the order of the struct, with the
names of its tags; byte slices are base64 and strings lose what is not UTF-8. `json.Unmarshal` sets
the field a member is called after, whatever the order, and ignores the others; a key that is not
the name of a field may still be one but for case. The text of a time is up to the package `time`
(`TimeCodec`).

A file is read back as it was written, except for strings that are not UTF-8
(`unmarshalPeers_marshalPeers`).
-/
import Heimdall.Dialer
import Heimdall.Json

set_option autoImplicit false

namespace Heimdall.Peers

open Heimdall.Json (Literal isPlain quote unquote)
open Heimdall.Rendezvous (base64Groups base64Value decodeString)
open Heimdall.Utf8 (sanitize)

/-! ## Byte slices -/

def base64Letter (n : ℕ) : UInt8 :=
  if n < 26 then UInt8.ofNat (65 + n)
  else if n < 52 then UInt8.ofNat (71 + n)
  else if n < 62 then UInt8.ofNat (n - 4)
  else if n = 62 then 43
  else 47

def encodeToString : List UInt8 → GoString
  | [] => []
  | [a] => [base64Letter (a.toNat / 4), base64Letter (a.toNat % 4 * 16), 61, 61]
  | [a, b] =>
    [base64Letter (a.toNat / 4), base64Letter (a.toNat % 4 * 16 + b.toNat / 16),
      base64Letter (b.toNat % 16 * 4), 61]
  | a :: b :: c :: s =>
    base64Letter (a.toNat / 4) :: base64Letter (a.toNat % 4 * 16 + b.toNat / 16) ::
      base64Letter (b.toNat % 16 * 4 + c.toNat / 64) :: base64Letter
        (c.toNat % 64) :: encodeToString s

theorem base64Value_letter {n : ℕ} (h : n < 64) : base64Value (base64Letter n) = some n := by
  have hall : ∀ k : Fin 64, base64Value (base64Letter k) = some k.val := by decide
  exact hall ⟨n, h⟩

theorem base64Letter_ne_pad {n : ℕ} (h : n < 64) : base64Letter n ≠ 61 := by
  have hall : ∀ k : Fin 64, base64Letter k ≠ 61 := by decide
  exact hall ⟨n, h⟩

theorem base64Groups_letters {w x y z : ℕ} (hw : w < 64) (hx : x < 64) (hy : y < 64) (hz : z < 64)
    (rest : List UInt8) : base64Groups (base64Letter w :: base64Letter x :: base64Letter y ::
        base64Letter z :: rest) = (base64Groups rest).map fun more =>
          UInt8.ofNat (w * 4 + x / 16) :: UInt8.ofNat (x % 16 * 16 + y / 4) ::
            UInt8.ofNat (y % 4 * 64 + z) :: more := by
  -- a group is the last one only if it ends in padding, and no letter is that
  have hpad := base64Letter_ne_pad hz
  rw [base64Groups]
  · simp only [base64Value_letter hw, base64Value_letter hx, base64Value_letter hy,
      base64Value_letter hz, Option.bind_eq_bind, Option.bind_some, Option.pure_def]
    rcases base64Groups rest <;> rfl
  · rintro - h -
    exact hpad h
  · intro h _
    exact hpad h

/-- **Bytes are read back.** One case for each length of the last group. -/
theorem base64Groups_encode (bs : List UInt8) : base64Groups (encodeToString bs) = some bs := by
  induction bs using encodeToString.induct with
  | case1 => rfl
  | case2 a =>
    have ha := a.toNat_lt
    -- the bits of a byte that is cut in two go together again
    have hvalue : a.toNat / 4 * 4 + a.toNat % 4 * 16 / 16 = a.toNat := by omega
    simp only [encodeToString, base64Groups, base64Value_letter (show a.toNat / 4 < 64 by omega),
      base64Value_letter (show a.toNat % 4 * 16 < 64 by omega), Option.bind_eq_bind,
        Option.bind_some,
      Option.pure_def, hvalue, UInt8.ofNat_toNat]
  | case3 a b =>
    have ha := a.toNat_lt
    have hb := b.toNat_lt
    have h₁ : a.toNat / 4 * 4 + (a.toNat % 4 * 16 + b.toNat / 16) / 16 = a.toNat := by omega
    have h₂ : (a.toNat % 4 * 16 + b.toNat / 16) % 16 * 16 + b.toNat % 16 * 4 / 4 = b.toNat := by
      omega
    have hz : b.toNat % 16 * 4 < 64 := by omega
    rw [encodeToString, base64Groups]
    · simp only [base64Value_letter (show a.toNat / 4 < 64 by omega), base64Value_letter hz,
        base64Value_letter (show a.toNat % 4 * 16 + b.toNat / 16 < 64 by omega),
          Option.bind_eq_bind,
        Option.bind_some, Option.pure_def, h₁, h₂, UInt8.ofNat_toNat]
    · exact base64Letter_ne_pad hz
  | case4 a b c s ih =>
    have ha := a.toNat_lt
    have hb := b.toNat_lt
    have hc := c.toNat_lt
    have h₁ : a.toNat / 4 * 4 + (a.toNat % 4 * 16 + b.toNat / 16) / 16 = a.toNat := by omega
    have h₂ : (a.toNat % 4 * 16 + b.toNat / 16) % 16 * 16 + (b.toNat % 16 * 4 + c.toNat / 64) / 4
        = b.toNat := by
      omega
    have h₃ : (b.toNat % 16 * 4 + c.toNat / 64) % 4 * 64 + c.toNat % 64 = c.toNat := by omega
    rw [encodeToString, base64Groups_letters (by omega) (by omega) (by omega) (by omega), ih, h₁,
      h₂, h₃]
    simp only [UInt8.ofNat_toNat, Option.map_some]

theorem encodeToString_forall {p : UInt8 → Prop} (hletter : ∀ k : Fin 64, p (base64Letter k))
    (hpad : p 61) (bs : List UInt8) : ∀ c ∈ encodeToString bs, p c := by
  have hletter : ∀ n, n < 64 → p (base64Letter n) := fun n hn => hletter ⟨n, hn⟩
  -- every index into the alphabet is below 64
  induction bs using encodeToString.induct with
  | case1 => simp [encodeToString]
  | case2 a =>
    have ha := a.toNat_lt
    simp only [encodeToString, List.forall_mem_cons]
    exact ⟨hletter _ (by omega), hletter _ (by omega), hpad, hpad, by simp⟩
  | case3 a b =>
    have ha := a.toNat_lt
    have hb := b.toNat_lt
    simp only [encodeToString, List.forall_mem_cons]
    exact ⟨hletter _ (by omega), hletter _ (by omega), hletter _ (by omega), hpad, by simp⟩
  | case4 a b c s ih =>
    have ha := a.toNat_lt
    have hb := b.toNat_lt
    have hc := c.toNat_lt
    simp only [encodeToString, List.forall_mem_cons]
    exact ⟨hletter _ (by omega), hletter _ (by omega), hletter _ (by omega), hletter _ (by omega),
      ih⟩

theorem encodeToString_bytes (bs : List UInt8) :
    ∀ c ∈ encodeToString bs, isPlain c = true ∧ c ≠ 13 ∧ c ≠ 10 :=
  encodeToString_forall (by decide) (by decide) bs

theorem length_encodeToString (bs : List UInt8) :
    (encodeToString bs).length = 4 * ((bs.length + 2) / 3) := by
  induction bs using encodeToString.induct with
  | case1 => rfl
  | case2 a => simp only [encodeToString, List.length_cons, List.length_nil]
  | case3 a b => simp only [encodeToString, List.length_cons, List.length_nil]
  | case4 a b c s ih =>
    simp only [encodeToString, List.length_cons, ih]
    omega

/-- Keys are written as base64, in groups of three bytes and four letters, and the decoder of
`Rendezvous` inverts that. -/
theorem decodeString_encodeToString (bs : List UInt8) :
    decodeString (encodeToString bs) = some bs := by
  rw [decodeString, List.filter_eq_self.mpr, base64Groups_encode]
  intro c hc
  simpa using (encodeToString_bytes bs c hc).2

/-! ## The format -/

/-- The text of a time between its quotes and what is read from such a text. Every clock reading
has a text, and that text can be read. -/
structure TimeCodec where
  text : ℕ → List UInt8
  parse : List UInt8 → Option ℕ
  literal : ∀ t, Literal (text t)
  parses : ∀ t, (parse (text t)).isSome = true

def TimeCodec.reread (T : TimeCodec) (t : ℕ) : ℕ := (T.parse (T.text t)).getD 0

/-- The text of a time is read as some time; it need not be the same, as the text may be coarser. -/
theorem TimeCodec.parse_text (T : TimeCodec) (t : ℕ) : T.parse (T.text t) = some (T.reread t) := by
  obtain ⟨t', ht'⟩ := Option.isSome_iff_exists.mp (T.parses t)
  rw [TimeCodec.reread, ht']
  rfl

/-- The fields of `Peer`. -/
inductive Field where
  | name
  | publicKey
  | fingerprint
  | verified
  | address
  | firstSeen
  | lastSeen
  | pendingKey
  deriving DecidableEq

def Field.tag : Field → GoString
  | .name => [110, 97, 109, 101]
  | .publicKey => [112, 117, 98, 108, 105, 99, 95, 107, 101, 121]
  | .fingerprint => [102, 105, 110, 103, 101, 114, 112, 114, 105, 110, 116]
  | .verified => [118, 101, 114, 105, 102, 105, 101, 100]
  | .address => [97, 100, 100, 114, 101, 115, 115]
  | .firstSeen => [102, 105, 114, 115, 116, 95, 115, 101, 101, 110]
  | .lastSeen => [108, 97, 115, 116, 95, 115, 101, 101, 110]
  | .pendingKey => [112, 101, 110, 100, 105, 110, 103, 95, 107, 101, 121]

def Field.all : List Field :=
  [.name, .publicKey, .fingerprint, .verified, .address, .firstSeen, .lastSeen, .pendingKey]

section Format

variable (T : TimeCodec)

/-- A byte slice; a nil one is `null`. -/
def bytesJson (bs : List UInt8) : Json := if bs = [] then .null else .str (encodeToString bs)

def peerJson (p : Peer) : Json :=
  .obj ([(Field.tag .name, .str (quote p.name)), (Field.tag .publicKey, bytesJson p.publicKey),
      (Field.tag .fingerprint, .str (quote p.fingerprint)),
        (Field.tag .verified, .bool p.verified)] ++
    (if p.address = [] then [] else [(Field.tag .address, .str (quote p.address))]) ++
    [(Field.tag .firstSeen, .str (T.text p.firstSeen)),
      (Field.tag .lastSeen, .str (T.text p.lastSeen))] ++
    if p.pendingKey = [] then [] else [(Field.tag .pendingKey, bytesJson p.pendingKey)])

def marshalPeers (ps : List Peer) : GoString := (Json.arr (ps.map (peerJson T))).print 0

/-- `foldName`: letters in upper case, and the two other runes that fold to ASCII letters, the
Kelvin sign and the long s. -/
def foldName : GoString → GoString
  | [] => []
  | c :: s =>
    if c = 0xE2 ∧ s.take 2 = [0x84, 0xAA] then 75 :: (foldName s).drop 2
    else if c = 0xC5 ∧ s.take 1 = [0xBF] then 83 :: (foldName s).drop 1
    else if 97 ≤ c ∧ c ≤ 122 then (c - 32) :: foldName s
    else c :: foldName s

/-- The field a key means: the one of that name, or else the first one of that name but for case. -/
def fieldOf (key : GoString) : Option Field :=
  (Field.all.find? fun f => f.tag = key) <|> Field.all.find? fun f => foldName f.tag = foldName key

def decodeText (old : GoString) : Json → Option GoString
  | .null => some old
  | .str raw => unquote raw
  | _ => none

/-- An element of a byte slice that is written as an array of numbers. -/
def decodeByte (old : UInt8) : Json → Option UInt8
  | .null => some old
  | .num raw =>
    let n := raw.foldl (fun n c => n * 10 + (c.toNat - 48)) 0
    if raw.all Utf8.isDigit ∧ n < 256 then some (UInt8.ofNat n) else none
  | _ => none

/-- The elements, decoded over the bytes of an earlier member of the same name. -/
def decodeByteElements : List UInt8 → List Json → Option (List UInt8)
  | _, [] => some []
  | old, v :: vs =>
    (decodeByte (old.headD 0) v).bind fun b => (decodeByteElements old.tail vs).map (b :: ·)

def decodeBytes (old : List UInt8) : Json → Option (List UInt8)
  | .null => some []
  | .str raw => (unquote raw).bind decodeString
  | .arr vs => decodeByteElements old vs
  | _ => none

def decodeBool (old : Bool) : Json → Option Bool
  | .null => some old
  | .bool b => some b
  | _ => none

def decodeTime (old : ℕ) : Json → Option ℕ
  | .null => some old
  | .str raw => T.parse raw
  | _ => none

def Field.decode (p : Peer) (v : Json) : Field → Option Peer
  | .name => (decodeText p.name v).map fun x => { p with name := x }
  | .publicKey => (decodeBytes p.publicKey v).map fun x => { p with publicKey := x }
  | .fingerprint => (decodeText p.fingerprint v).map fun x => { p with fingerprint := x }
  | .verified => (decodeBool p.verified v).map fun x => { p with verified := x }
  | .address => (decodeText p.address v).map fun x => { p with address := x }
  | .firstSeen => (decodeTime T p.firstSeen v).map fun x => { p with firstSeen := x }
  | .lastSeen => (decodeTime T p.lastSeen v).map fun x => { p with lastSeen := x }
  | .pendingKey => (decodeBytes p.pendingKey v).map fun x => { p with pendingKey := x }

def decodeMember (p : Peer) (m : GoString × Json) : Option Peer :=
  match (unquote m.1).bind fieldOf with
  | none => some p
  | some f => f.decode T p m.2

/-- An element of the list; `null` is a nil pointer. -/
def decodePeer : Json → Option (Option Peer)
  | .null => some none
  | .obj ms => (ms.foldlM (decodeMember T) {}).map some
  | _ => none

def unmarshalPeers (buf : GoString) : Option (List (Option Peer)) :=
  match Json.parse buf with
  | some .null => some []
  | some (.arr vs) => vs.mapM (decodePeer T)
  | _ => none

/-! ## Reading back -/

/-- A record after it was written and read. -/
def reread (p : Peer) : Peer :=
  { p with
    name := sanitize p.name
    fingerprint := sanitize p.fingerprint
    address := sanitize p.address
    firstSeen := T.reread p.firstSeen
    lastSeen := T.reread p.lastSeen }

end Format

variable {T : TimeCodec}

theorem fieldOf_tag (f : Field) : (unquote f.tag).bind fieldOf = some f := by
  cases f <;> decide +kernel

theorem decodeMember_tag (p : Peer) (f : Field) (v : Json) :
    decodeMember T p (f.tag, v) = f.decode T p v := by
  simp only [decodeMember, fieldOf_tag]

theorem decodeBytes_bytesJson (old bs : List UInt8) : decodeBytes old (bytesJson bs) = some bs := by
  unfold bytesJson
  split_ifs with hnil
  · rw [hnil]
    rfl
  · rw [decodeBytes, Json.unquote_plain fun c hc =>
      (encodeToString_bytes bs c hc).1, Option.bind_some,
      decodeString_encodeToString]

theorem decodeText_quote (old s : GoString) : decodeText old (.str (quote s)) = some (sanitize s) :=
  Json.unquote_quote s

/-- An object is read by folding over its members, each of which sets one field. A member that was
left out sets none, so the field must have been empty. -/
theorem foldlM_omitempty {α : Type} {f : Field} {x : List α} {v : Json} {p q : Peer}
    (hempty : x = [] → q = p) (hset : f.decode T p v = some q) :
    (if x = [] then [] else [(f.tag, v)]).foldlM (decodeMember T) p = some q := by
  split_ifs with hnil
  · rw [hempty hnil]
    rfl
  · rw [List.foldlM_cons, decodeMember_tag, hset]
    rfl

/-- **A record is read back**, with its strings sanitized. The two fields that may be left out are
empty in the record that is being built. -/
theorem decodePeer_peerJson (p : Peer) :
    decodePeer T (peerJson T p) = some (some (reread T p)) := by
  -- the record as it is before and after `address`, and before and after `pending_key`
  have haddress := foldlM_omitempty (T := T) (f := .address) (x := p.address)
    (v := .str (quote p.address))
    (p := {
      name := sanitize p.name, publicKey := p.publicKey, fingerprint := sanitize p.fingerprint,
      verified := p.verified })
    (q := {
      name := sanitize p.name, publicKey := p.publicKey, fingerprint := sanitize p.fingerprint,
      verified := p.verified, address := sanitize p.address })
    (fun hnil => by rw [hnil]; rfl) (by rw [Field.decode, decodeText_quote]; rfl)
  have hpending := foldlM_omitempty (T := T) (f := .pendingKey) (x := p.pendingKey)
    (v := bytesJson p.pendingKey) (p := { reread T p with pendingKey := [] }) (q := reread T p)
    (fun hnil => by rw [← hnil]; rfl) (by rw [Field.decode, decodeBytes_bytesJson]; rfl)
  rw [peerJson, decodePeer]
  simp only [List.foldlM_append, List.foldlM_cons, List.foldlM_nil, decodeMember_tag, Field.decode,
    decodeText_quote, decodeBytes_bytesJson, decodeBool, decodeTime, T.parse_text, Option.map_some,
    Option.bind_eq_bind, Option.bind_some, Option.pure_def, haddress]
  exact congrArg (Option.map some) hpending

theorem literal_tag (f : Field) : Literal f.tag := by
  refine Literal.of_plain (List.all_eq_true.mp ?_)
  cases f <;> rfl

theorem printable_bytesJson (bs : List UInt8) : (bytesJson bs).Printable := by
  unfold bytesJson
  split_ifs
  · trivial
  · exact Literal.of_plain fun c hc => (encodeToString_bytes bs c hc).1

theorem printable_peerJson (p : Peer) : (peerJson T p).Printable := by
  rw [peerJson, Json.Printable, Json.printableMembers_iff]
  simp only [List.forall_mem_append, List.forall_mem_cons, List.not_mem_nil, false_imp_iff,
    implies_true, and_true]
  refine ⟨⟨⟨⟨⟨literal_tag _, Json.literal_quote _⟩, ⟨literal_tag _, printable_bytesJson _⟩,
    ⟨literal_tag _, Json.literal_quote _⟩, literal_tag _, trivial⟩, ?_⟩,
    ⟨literal_tag _, T.literal _⟩, literal_tag _, T.literal _⟩, ?_⟩
  · -- the address and the pending key may be left out
    split_ifs
    · simp
    · rw [List.forall_mem_singleton]
      exact ⟨literal_tag .address, Json.literal_quote _⟩
  · split_ifs
    · simp
    · rw [List.forall_mem_singleton]
      exact ⟨literal_tag .pendingKey, printable_bytesJson _⟩

theorem mapM_decodePeer (ps : List Peer) : (ps.map (peerJson T)).mapM (decodePeer T)
    = some (ps.map fun p => some (reread T p)) := by
  induction ps with
  | nil => rfl
  | cons p ps ih =>
    rw [List.map_cons, List.mapM_cons, decodePeer_peerJson, ih]
    rfl

/-- **A file is read back**, with the strings of its records sanitized. -/
theorem unmarshalPeers_marshalPeers (ps : List Peer) :
    unmarshalPeers T (marshalPeers T ps) = some (ps.map fun p => some (reread T p)) := by
  have hprintable : (Json.arr (ps.map (peerJson T))).Printable := by
    rw [Json.Printable, Json.printableElements_iff, List.forall_mem_map]
    exact fun p _ => printable_peerJson p
  rw [unmarshalPeers, marshalPeers, Json.parse_print hprintable]
  exact mapM_decodePeer ps

end Heimdall.Peers
