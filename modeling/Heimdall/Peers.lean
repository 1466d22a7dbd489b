/-
The trust store, `internal/peers/peers.go`.

The store maps fingerprints to pointers to records, so the model has a heap of records and a
finite map into it. Go's `range` visits a map in an unspecified order: every operation that
scans the map takes the order as an argument, a permutation of the keys. Strings are byte
strings, as in Go; the SHA-256 digest is a parameter.
-/
import Heimdall.Heap
import Heimdall.Runs
import Mathlib.Data.List.AList

set_option autoImplicit false

namespace Heimdall.Peers

open Heimdall.Runs

abbrev GoString := List UInt8

/-! ## `identity.FingerprintOf` -/

/-- A digit of `%02X`. -/
def hexDigit (n : ℕ) : UInt8 := if n < 10 then UInt8.ofNat (48 + n) else UInt8.ofNat (55 + n)

def hexByte (b : UInt8) : GoString := [hexDigit (b.toNat / 16), hexDigit (b.toNat % 16)]

def joinColon : List GoString → GoString
  | [] => []
  | [p] => p
  | p :: q :: ps => p ++ 58 :: joinColon (q :: ps)

/-- `FingerprintOf`: `"SHA256: "` and the bytes of the digest in hex, separated by colons. -/
def fingerprintOf (sha256 : List UInt8 → List UInt8) (pub : List UInt8) : GoString :=
  [83, 72, 65, 50, 53, 54, 58, 32] ++ joinColon ((sha256 pub).map hexByte)

theorem hexDigit_inj {m n : ℕ} (hm : m < 16) (hn : n < 16) (h : hexDigit m = hexDigit n) :
    m = n := by
  have htoNat : ∀ k, k < 16 → (hexDigit k).toNat = if k < 10 then 48 + k else 55 + k := by
    intro k hk
    unfold hexDigit
    split_ifs <;> exact UInt8.toNat_ofNat_of_lt' (by show _ < 256; omega)
  have hnat := congrArg UInt8.toNat h
  rw [htoNat m hm, htoNat n hn] at hnat
  split_ifs at hnat <;> omega

theorem hexByte_inj {b c : UInt8} (h : hexByte b = hexByte c) : b = c := by
  have hb := b.toNat_lt
  have hc := c.toNat_lt
  simp only [hexByte, List.cons.injEq, and_true] at h
  have hhigh := hexDigit_inj (by omega) (by omega) h.1
  have hlow := hexDigit_inj (by omega) (by omega) h.2
  exact UInt8.toNat_inj.mp (by omega)

theorem joinColon_hexByte_inj : ∀ {l l' : List UInt8},
    joinColon (l.map hexByte) = joinColon (l'.map hexByte) → l = l'
  | [], [], _ => rfl
  | [], [_], h => absurd h (by simp [joinColon, hexByte])
  | [], _ :: _ :: _, h => absurd h (by simp [joinColon, hexByte])
  | [_], [], h => absurd h (by simp [joinColon, hexByte])
  | [b], [c], h => by rw [hexByte_inj h]
  | [_], _ :: _ :: _, h => absurd h (by simp [joinColon, hexByte])
  | _ :: _ :: _, [], h => absurd h (by simp [joinColon, hexByte])
  | _ :: _ :: _, [_], h => absurd h (by simp [joinColon, hexByte])
  | b :: b' :: l, c :: c' :: l', h => by
    obtain ⟨hhead, htail⟩ := List.append_inj h rfl
    have hrest : b' :: l = c' :: l' := joinColon_hexByte_inj (List.cons.inj htail).2
    rw [hexByte_inj hhead, hrest]

/-- The store is keyed by this text and not by the key itself. It shows the whole digest, so it is
as good as the digest. -/
theorem fingerprintOf_inj {sha256 : List UInt8 → List UInt8} {k k' : List UInt8} :
    fingerprintOf sha256 k = fingerprintOf sha256 k' ↔ sha256 k = sha256 k' := by
  constructor
  · intro h
    exact joinColon_hexByte_inj (List.append_cancel_left h)
  · intro h
    rw [fingerprintOf, fingerprintOf, h]

/-! ## Records and the store

The records are on a heap, because `Observe` and `Verify` return pointers to them, which the callers
keep. The map has the addresses. -/

inductive TrustLevel where
  | unknown
  | unverified
  | verified
  | changed
  deriving DecidableEq

/-- `Peer`. A nil `PendingKey` is the empty list; times are what the clock read. -/
structure Peer where
  name : GoString := []
  publicKey : List UInt8 := []
  fingerprint : GoString := []
  verified : Bool := false
  address : GoString := []
  firstSeen : ℕ := 0
  lastSeen : ℕ := 0
  pendingKey : List UInt8 := []
  deriving DecidableEq

/-- `Store`: the records and the map of fingerprints to their addresses. -/
structure Store where
  heap : Heap Peer := Heap.empty {}
  peers : AList fun _ : GoString => ℕ := ∅

/-- The errors of the store: `peers: no such peer`, with the name, and whatever `saveLocked`
failed with. -/
inductive StoreErr where
  | noSuchPeer (name : GoString)
  | save
  deriving DecidableEq

/-- `saveLocked`, which reads the store only. -/
def saveLocked (saved : Bool) : Option StoreErr := if saved then none else some .save

namespace Store

/-- `findByNameLocked`, for the order in which `range` visits the map. -/
def findByNameLocked (s : Store) (order : List GoString) (name : GoString) : Option ℕ :=
  order.findSome? fun k => (s.peers.lookup k).filter fun a => (s.heap.get a).name = name

def levelOf (p : Peer) : TrustLevel := if p.verified then .verified else .unverified

section Operations

variable (sha256 : List UInt8 → List UInt8)

def observe (s : Store) (order : List GoString) (now : ℕ) (name address : GoString)
    (pub : List UInt8) (saved : Bool) : Store × ℕ × TrustLevel × Option StoreErr :=
  match s.peers.lookup (fingerprintOf sha256 pub) with
  | some a =>
    -- same key: the metadata is updated, the verification state kept
    ({ s with heap := s.heap.modify a fun p =>
        { p with name := name, address := if address ≠ [] then address else p.address,
                 lastSeen := now, pendingKey := [] } },
      a, levelOf (s.heap.get a), saveLocked saved)
  | none =>
    match s.findByNameLocked order name with
    | some a =>
      ({ s with heap := s.heap.modify a fun p => { p with pendingKey := pub, lastSeen := now } },
        a, .changed, saveLocked saved)
    | none =>
      ({ heap := s.heap.alloc {
           name := name, publicKey := pub, fingerprint := fingerprintOf sha256 pub,
           address := address, firstSeen := now, lastSeen := now }
         peers := s.peers.insert (fingerprintOf sha256 pub) s.heap.next },
        s.heap.next, .unknown, saveLocked saved)

/-- The part of `Verify` that adopts a pending key: the record moves in the map. -/
def adopt (s : Store) (a : ℕ) : Store :=
  let old := (s.heap.get a).publicKey
  let new := (s.heap.get a).pendingKey
  { heap := s.heap.modify a fun p =>
      { p with publicKey := new, pendingKey := [], fingerprint := fingerprintOf sha256 new }
    peers := (s.peers.erase (fingerprintOf sha256 old)).insert (fingerprintOf sha256 new) a }

def verify (s : Store) (order : List GoString) (name : GoString) (saved : Bool) :
    Store × Option ℕ × Option StoreErr :=
  match s.findByNameLocked order name with
  | none => (s, none, some (.noSuchPeer name))
  | some a =>
    let s' := if (s.heap.get a).pendingKey ≠ [] then s.adopt sha256 a else s
    ({ s' with heap := s'.heap.modify a fun p => { p with verified := true } }, some a,
      saveLocked saved)

def reject (s : Store) (order : List GoString) (name : GoString) (saved : Bool) :
    Store × Option StoreErr :=
  match s.findByNameLocked order name with
  | none => (s, some (.noSuchPeer name))
  | some a =>
    ({ s with heap := s.heap.modify a fun p => { p with pendingKey := [] } }, saveLocked saved)

def trustOf (s : Store) (order : List GoString) (name : GoString) (pub : List UInt8) : TrustLevel :=
  match s.peers.lookup (fingerprintOf sha256 pub) with
  | some a => levelOf (s.heap.get a)
  | none => if (s.findByNameLocked order name).isSome then .changed else .unknown

end Operations

/-! ## The scan for a name -/

variable {s : Store} {order : List GoString} {name : GoString}

theorem findByNameLocked_eq_some {a : ℕ} (h : s.findByNameLocked order name = some a) :
    (∃ k, s.peers.lookup k = some a) ∧ (s.heap.get a).name = name := by
  obtain ⟨k, -, hk⟩ := List.exists_of_findSome?_eq_some h
  obtain ⟨hlookup, hname⟩ := Option.filter_eq_some_iff.mp hk
  exact ⟨⟨k, hlookup⟩, by simpa using hname⟩

/-- The order in which the scan visits the map differs from call to call, but not whether it finds
something. -/
theorem findByNameLocked_eq_none (hord : order.Perm s.peers.keys) :
    s.findByNameLocked order name = none ↔
      ∀ k a, s.peers.lookup k = some a → (s.heap.get a).name ≠ name := by
  rw [findByNameLocked, List.findSome?_eq_none_iff]
  constructor
  · intro h k a hk
    have hmem : k ∈ order := by
      rw [hord.mem_iff, ← AList.mem_keys, ← AList.lookup_isSome, hk]
      rfl
    have := h k hmem
    rw [hk] at this
    simpa using this
  · intro h k _
    rcases hk : s.peers.lookup k with _ | a
    · rfl
    · simpa using h k a hk

end Store

/-! ## Runs -/

/-- The calls of a run, with the order of every scan and, for `Verify`, the record it returned. -/
inductive Event where
  | observe (order : List GoString) (now : ℕ) (name address : GoString) (pub : List UInt8) (saved :
    Bool)
  | verify (order : List GoString) (name : GoString) (saved : Bool) (ret : Option Peer)
  | reject (order : List GoString) (name : GoString) (saved : Bool)
  | trustOf (order : List GoString) (name : GoString) (pub : List UInt8)

def Event.order : Event → List GoString
  | .observe order _ _ _ _ _ | .verify order _ _ _ | .reject order _ _ | .trustOf order _ _ => order

/-- One call; the mutex makes it atomic. -/
def Store.Step (sha256 : List UInt8 → List UInt8) (s : Store) (ev : Event) (s' : Store) : Prop :=
  ev.order.Perm s.peers.keys ∧
    match ev with
    | .observe order now name address pub saved =>
      s' = (s.observe sha256 order now name address pub saved).1
    | .verify order name saved ret =>
      s' = (s.verify sha256 order name saved).1 ∧
        ret = (s.verify sha256 order name saved).2.1.map s'.heap.get
    | .reject order name saved => s' = (s.reject order name saved).1
    | .trustOf _ _ _ => s' = s

end Heimdall.Peers
