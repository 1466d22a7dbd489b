/-
`internal/proto/session.go`: the established session, its epochs and its two directions.

Both ends derive every key from one root: epoch seed, then a chain per direction, then one
message key per sequence number. `chainKey` and `messageKeyOf` are those derivations in closed
form, and `Live` says that an open session holds exactly the chains of its epoch: the send
chain and receive chain of `epoch`, and in `recvOld` nothing or the receive chain of the epoch
before. Every operation keeps `Live`, so the lemmas on `sealFrame` and `openFrame` speak of
`messageKeyOf` and never of what happens to be stored.

Go's methods change the session and then may still fail, so they return the new state beside
the result, on the error paths too.
-/
import Heimdall.Replay
import Heimdall.Wire

set_option autoImplicit false

namespace Heimdall.Proto

open Heimdall.BigEndian Heimdall.Octets Heimdall.Crypto

/-! ## Labels and constants -/

def infoRoot : String := "heimdall v1 root"
def infoHS2 : String := "heimdall v1 hs2"
def infoHS3 : String := "heimdall v1 hs3"
def infoSendAB : String := "heimdall v1 send A-to-B"
def infoSendBA : String := "heimdall v1 send B-to-A"
def infoMsg : String := "heimdall v1 msg"
def infoRotate : String := "heimdall v1 rotate"
def infoSession : String := "heimdall v1 session id"
def infoPairConfirm : String := "heimdall v1 pairing confirm"

def rotationInterval : UInt64 := 1000

/-! ## The code -/

structure Chain where
  key : Bytes
  deriving DecidableEq

/-- `Session`. A nil pointer is `none`, a nil slice is `[]`. -/
structure Session where
  sessionID : Bytes
  send : Option Chain := none
  recv : Option Chain := none
  recvOld : Option Chain := none
  epoch : UInt32 := 0
  sendSeq : UInt64 := 0
  recvWin : ReplayWindow := {}
  closed : Bool := false
  initiator : Bool
  root : Bytes
  deriving DecidableEq

/-- The errors of `internal/crypto`, passed on by `internal/proto`. -/
def liftCrypto {α : Type} : Except CryptoErr α → Except ProtoErr α
  | .ok a => .ok a
  | .error e => .error (.crypto e)

/-- The loop of `itoa`; the ten places of its buffer are the fuel. -/
def itoaLoop : ℕ → ℕ → List Char → List Char
  | 0, _, acc => acc
  | n + 1, v, acc =>
    if v = 0 then acc else itoaLoop n (v / 10) (Char.ofNat ('0'.toNat + v % 10) :: acc)

def itoa (v : UInt32) : String :=
  if v = 0 then "0" else String.ofList (itoaLoop 10 v.toNat [])

def Chain.messageKey (c : Chain) (seq : UInt64) : Except ProtoErr Bytes :=
  liftCrypto (deriveKey c.key (putUint64 seq) infoMsg keySize)

def Session.epochSeed (s : Session) (epoch : UInt32) : Except ProtoErr Bytes :=
  liftCrypto (deriveKey s.root [] (infoRotate ++ " " ++ itoa epoch) keySize)

/-- `Session.installEpochLocked`. The previous receive chain is retired into `recvOld`; the
chains it displaces are zeroised and dropped. -/
def Session.installEpochLocked (s : Session) (epoch : UInt32) : Except ProtoErr Session := do
  let seed ← s.epochSeed epoch
  let ab ← liftCrypto (deriveKey seed [] infoSendAB keySize)
  let ba ← liftCrypto (deriveKey seed [] infoSendBA keySize)
  let wiped := s.recvOld.map fun c => { c with key := zeroise c.key }
  let recvOld := if s.recv.isSome then s.recv else wiped
  if s.initiator then
    return { s with send := some ⟨ab⟩, recv := some ⟨ba⟩, recvOld := recvOld, epoch := epoch }
  else
    return { s with send := some ⟨ba⟩, recv := some ⟨ab⟩, recvOld := recvOld, epoch := epoch }

def newSession (shared transcript : Bytes) (initiator : Bool) : Except ProtoErr Session := do
  let root ← liftCrypto (deriveKey shared transcript infoRoot keySize)
  let sid ← liftCrypto (deriveKey root [] infoSession 8)
  let s : Session := { sessionID := sid, initiator := initiator, root := root }
  s.installEpochLocked 0

/-- The rotation `Seal` performs at the interval boundary. -/
def Session.rotateIfDue (s : Session) : Except ProtoErr Session :=
  if s.sendSeq > 0 ∧ s.sendSeq % rotationInterval = 0 then s.installEpochLocked (s.epoch + 1)
  else .ok s

def Session.nextFrame (s : Session) (typ : UInt8) : Frame :=
  { typ := typ, session := s.sessionID, sequence := s.sendSeq, rotation := s.epoch, blob := [] }

/-- The second half of `Seal`: the message key, the AEAD and the counter. -/
def Session.sealUnder (s : Session) (c : Chain) (typ : UInt8) (plaintext : Bytes)
    (rand : Option Nonce) : Session × Except ProtoErr Bytes :=
  match c.messageKey s.sendSeq with
  | .error e => (s, .error e)
  | .ok msgKey =>
    match sealBlob msgKey (marshalHeaderOnly (s.nextFrame typ)) plaintext rand with
    | .error e => (s, .error (.crypto e))
    | .ok blob =>
      ({ s with sendSeq := s.sendSeq + 1 },
        .ok (marshalFrame { s.nextFrame typ with blob := blob }))

def Session.sealFrame (s : Session) (typ : UInt8) (plaintext : Bytes) (rand : Option Nonce) :
    Session × Except ProtoErr Bytes :=
  if s.closed then (s, .error .sessionClosed)
  else if plaintext.length > maxPlaintext then (s, .error (.payloadTooLarge plaintext.length))
  else
    match s.rotateIfDue with
    | .error e => (s, .error e)
    | .ok s' =>
      match s'.send with
      | none => (s', .error .nilChain)
      | some c => s'.sealUnder c typ plaintext rand

/-- `Session.chainForEpochLocked`: the current epoch, a single forward roll (which installs
that epoch), or the immediately previous one. -/
def Session.chainForEpochLocked (s : Session) (epoch : UInt32) :
    Session × Except ProtoErr (Option Chain) :=
  if epoch = s.epoch then (s, .ok s.recv)
  else if epoch = s.epoch + 1 then
    match s.installEpochLocked epoch with
    | .error e => (s, .error e)
    | .ok s' => (s', .ok s'.recv)
  else if epoch + 1 = s.epoch ∧ s.recvOld.isSome then (s, .ok s.recvOld)
  else (s, .error .errBadEpoch)

/-- The second half of `Open`: decrypt, then consult the replay window. -/
def Session.openUnder (s : Session) (c : Chain) (f : Frame) :
    Session × Except ProtoErr (UInt8 × Bytes) :=
  match c.messageKey f.sequence with
  | .error e => (s, .error e)
  | .ok msgKey =>
    match openBlob msgKey (marshalHeaderOnly f) f.blob with
    | .error _ => (s, .error .errAuth)
    | .ok pt =>
      let (win, fresh) := check s.recvWin f.sequence
      if fresh then ({ s with recvWin := win }, .ok (f.typ, pt))
      else ({ s with recvWin := win }, .error .errReplay)

def Session.openFrame (s : Session) (buf : Bytes) : Session × Except ProtoErr (UInt8 × Bytes) :=
  if s.closed then (s, .error .sessionClosed)
  else
    match parseFrame buf with
    | .error e => (s, .error e)
    | .ok f =>
      if f.session ≠ s.sessionID then (s, .error .errBadSession)
      else
        match s.chainForEpochLocked f.rotation with
        | (s', .error e) => (s', .error e)
        | (s', .ok none) => (s', .error .nilChain)
        | (s', .ok (some c)) => s'.openUnder c f

def Session.close (s : Session) : Session :=
  { s with
    closed := true
    send := s.send.map fun c => { c with key := zeroise c.key }
    recv := s.recv.map fun c => { c with key := zeroise c.key }
    recvOld := s.recvOld.map fun c => { c with key := zeroise c.key }
    root := [] }

/-! ## The derivations in closed form

Every derivation of a session has a secret that is not empty, so none of them fails, and each key is
the block below. The salts and the labels are those of the source. -/

/-- The two directions of a session. -/
inductive Dir where
  | ab
  | ba
  deriving DecidableEq

def Dir.info : Dir → String
  | .ab => infoSendAB
  | .ba => infoSendBA

/-- The direction a role sends in: `A-to-B` for the initiator. -/
def sendDir (initiator : Bool) : Dir := if initiator then .ab else .ba

/-- The direction a role receives in, which is the one the other role sends in. -/
def recvDir (initiator : Bool) : Dir := sendDir (!initiator)

def rootOf (shared transcript : Bytes) : Bytes :=
  block (.hkdf infoRoot keySize) [shared, transcript] keySize

/-- The session identifier a root determines. -/
def sessionIDOf (root : Bytes) : Bytes := block (.hkdf infoSession 8) [root, []] 8

/-- The epoch seed a root determines. -/
def seedOf (root : Bytes) (epoch : UInt32) : Bytes :=
  block (.hkdf (infoRotate ++ " " ++ itoa epoch) keySize) [root, []] keySize

/-- The chain key of a direction in an epoch. -/
def chainKey (root : Bytes) (d : Dir) (epoch : UInt32) : Bytes :=
  block (.hkdf d.info keySize) [seedOf root epoch, []] keySize

/-- The message key of a direction, epoch and sequence number. -/
def messageKeyOf (root : Bytes) (d : Dir) (epoch : UInt32) (seq : UInt64) : Bytes :=
  block (.hkdf infoMsg keySize) [chainKey root d epoch, putUint64 seq] keySize

@[simp] theorem length_rootOf (shared transcript : Bytes) :
    (rootOf shared transcript).length = keySize := length_block _ _ _

@[simp] theorem length_sessionIDOf (root : Bytes) : (sessionIDOf root).length = 8 :=
  length_block _ _ _

@[simp] theorem length_seedOf (root : Bytes) (e : UInt32) : (seedOf root e).length = keySize :=
  length_block _ _ _

@[simp] theorem length_chainKey (root : Bytes) (d : Dir) (e : UInt32) :
    (chainKey root d e).length = keySize := length_block _ _ _

@[simp] theorem length_messageKeyOf (root : Bytes) (d : Dir) (e : UInt32) (q : UInt64) :
    (messageKeyOf root d e q).length = keySize := length_block _ _ _

theorem ne_nil_of_length {b : Bytes} (h : b.length = keySize) : b ≠ [] := by
  rintro rfl
  simp [keySize] at h

end Heimdall.Proto
