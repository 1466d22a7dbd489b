/-
The starts of the program, `loadOrCreateIdentity` of `main.go`.

A start loads the identity file if there is one, and otherwise makes an identity and saves it. It
can be given any passphrase and any name, it can run out of randomness or of disk, and it can die at
any point of the save.

However the starts go, there is only ever one identity (`identity_across_starts`): the first that
gets as far as the rename decides the keys and the passphrase, every start that succeeds has the
keys and a passphrase that is the same for HMAC, and no start that fails takes them away. What that
rests on besides the replacement of the file is that `os.Stat` finds a file that is there; any error
of it counts as "no identity" in the code.
-/
import Heimdall.IdentityFile
import Heimdall.Lifetimes

set_option autoImplicit false

namespace Heimdall.Starts

open Heimdall.Crypto (IdentityErr Nonce Prim generateWith_eq_ok)
open Heimdall.Durable
open Heimdall.GoStrings (trimSpace)
open Heimdall.IdentityFile
open Heimdall.Octets (Octet)
open Heimdall.Peers (GoString tmpPath tmpPath_ne)
open Heimdall.Runs
open Heimdall.Utf8 (sanitize sanitize_of_valid valid_sanitize)

def readPassphrase (env : GoString) (line : Option GoString) : Option GoString :=
  if env ≠ [] then some env else line.map trimSpace

/-- Why a start has no identity: an error of the package, no passphrase to be read, no file and no
name, or a file that is not read or not written. -/
inductive StartErr where
  | identity (e : IdentityErr)
  | passphrase
  | noIdentity
  | read
  | write
  deriving DecidableEq

/-- What a start is given: the flag `-name`, whether `os.Stat` finds the file, what can be read
of the passphrase, whether the file can be read, what the CSPRNG answers, and where the save
stops. -/
structure Inputs where
  name : GoString
  found : Bool
  env : GoString
  line : Option GoString
  readable : Bool := true
  key : Option PrivateKey
  salt : Option Salt
  nonce : Option Nonce
  stop : Stop

def Inputs.passphrase (x : Inputs) : Option GoString := readPassphrase x.env x.line

/-- The part of `loadOrCreateIdentity` for a file that is there. -/
def loadIdentity (sha256 : List UInt8 → List UInt8) (path : GoString)
    (d : Disk GoString (Octet Prim)) (x : Inputs) : Except StartErr Identity :=
  match x.passphrase with
  | none => .error .passphrase
  | some pass =>
    match if x.readable then d path else none with
    | none => .error .read
    | some buf => (load sha256 path pass buf).mapError .identity

def createIdentity (sha256 : List UInt8 → List UInt8) (path : GoString)
    (d : Disk GoString (Octet Prim)) (x : Inputs) :
    Disk GoString (Octet Prim) × Except StartErr Identity :=
  if trimSpace x.name = [] then (d, .error .noIdentity)
  else
    match generate x.name x.key with
    | .error e => (d, .error (.identity e))
    | .ok id =>
      match x.passphrase with
      | none => (d, .error .passphrase)
      | some pass =>
        match id.save sha256 path pass x.salt x.nonce with
        | .error e => (d, .error (.identity e))
        | .ok buf => (replace d path (tmpPath path) buf x.stop,
            if x.stop = .never then .ok id else .error .write)

def loadOrCreateIdentity (sha256 : List UInt8 → List UInt8) (path : GoString)
    (d : Disk GoString (Octet Prim)) (x : Inputs) :
      Disk GoString (Octet Prim) × Except StartErr Identity :=
  if x.found then (d, loadIdentity sha256 path d x) else createIdentity sha256 path d x

/-- A start, with what it came to; nothing, if the process died in it. -/
structure Start where
  inputs : Inputs
  ret : Option (Except StartErr Identity)

def Step (sha256 : List UInt8 → List UInt8) (path : GoString) (d : Disk GoString (Octet Prim))
    (a : Start) (d' : Disk GoString (Octet Prim)) : Prop :=
  a.inputs.found = (d path).isSome ∧ d' = (loadOrCreateIdentity sha256 path d a.inputs).1 ∧
    (a.ret = none ∨ a.ret = some (loadOrCreateIdentity sha256 path d a.inputs).2)

/-! ## One start -/

variable {sha256 : List UInt8 → List UInt8} {path : GoString} {d d' : Disk GoString (Octet Prim)}
  {x : Inputs} {id : Identity}

theorem generate_eq_ok {name : GoString} {key : Option PrivateKey}
    (h : generate name key = .ok id) : id.Sound := by
  obtain ⟨-, k, -, rfl⟩ := generateWith_eq_ok.mp h
  exact ⟨k.length_bytes, rfl⟩

/-- A file under the path that `Save` wrote for this identity and this passphrase. -/
def Kept (sha256 : List UInt8 → List UInt8) (path : GoString) (d : Disk GoString (Octet Prim))
    (pass : GoString) (id : Identity) : Prop :=
  id.Sound ∧ ∃ salt rand buf, id.save sha256 path pass salt rand = .ok buf ∧ d path = some buf

/-- A passphrase that opens what was saved with `pass`: there is one, and for HMAC it is the
same. -/
def SamePass (sha256 : List UInt8 → List UInt8) (pass p : GoString) : Prop :=
  p ≠ [] ∧ hmacKey sha256 p = hmacKey sha256 pass

theorem Kept.samePass {pass : GoString} (h : Kept sha256 path d pass id) :
    SamePass sha256 pass pass := by
  obtain ⟨-, salt, rand, buf, hsave, -⟩ := h
  exact ⟨(save_eq_ok hsave).1, rfl⟩

/-- Creating an identity changes nothing and fails, or leaves the file of it; then it is the one
that is returned, if any. A save that stops on the way has not touched the file. -/
theorem createIdentity_cases (sha256 : List UInt8 → List UInt8) (path : GoString)
    (d : Disk GoString (Octet Prim)) (x : Inputs) :
    ((createIdentity sha256 path d x).1 path = d path ∧
        ∃ e, (createIdentity sha256 path d x).2 = .error e) ∨
      ∃ pass id, x.passphrase = some pass ∧
        Kept sha256 path (createIdentity sha256 path d x).1 pass id ∧
        (createIdentity sha256 path d x).2 = .ok id := by
  by_cases hname : trimSpace x.name = []
  · rw [createIdentity, if_pos hname]
    exact .inl ⟨rfl, _, rfl⟩
  · rw [createIdentity, if_neg hname]
    cases hgen : generate x.name x.key with
    | error e => exact .inl ⟨rfl, _, rfl⟩
    | ok id =>
      cases hpass : x.passphrase with
      | none => exact .inl ⟨rfl, _, rfl⟩
      | some pass =>
        dsimp only
        cases hsave : id.save sha256 path pass x.salt x.nonce with
        | error e => exact .inl ⟨rfl, _, rfl⟩
        | ok buf =>
          dsimp only
          -- the save got through to the rename, or stopped before it
          by_cases hstop : x.stop = .never
          · refine .inr ⟨pass, id, rfl, ⟨generate_eq_ok hgen, _, _, buf, hsave, ?_⟩, if_pos hstop⟩
            rw [replace_path (tmpPath_ne path), if_pos hstop]
          · refine .inl ⟨?_, .write, if_neg hstop⟩
            rw [replace_path (tmpPath_ne path), if_neg hstop]

/-- Loading the file gives its identity, and only to the passphrase it was saved with. The name
may have been sanitized on the way, as the file is JSON. -/
theorem loadIdentity_kept {pass : GoString} (h : Kept sha256 path d pass id) {id' : Identity}
    (hload : loadIdentity sha256 path d x = .ok id') :
    (∃ p, x.passphrase = some p ∧ SamePass sha256 pass p) ∧
      id' = { id with name := sanitize id.name } := by
  obtain ⟨hsound, salt, rand, buf, hsave, hfile⟩ := h
  unfold loadIdentity at hload
  cases hpass : x.passphrase with
  | none =>
    rw [hpass] at hload
    exact absurd hload (by simp)
  | some pass' =>
    rw [hpass, hfile] at hload
    cases hread : x.readable with
    | false =>
      rw [hread] at hload
      exact absurd hload (by simp)
    | true =>
      rw [hread] at hload
      -- an error of the package is passed on
      have hok : load sha256 path pass' buf = .ok id' := by
        cases hres : load sha256 path pass' buf with
        | error e =>
          simp only [if_true, hres, Except.mapError] at hload
          exact absurd hload (by simp)
        | ok id'' =>
          simp only [if_true, hres, Except.mapError] at hload
          rw [Except.ok.inj hload]
      obtain ⟨⟨hne, hkey, -⟩, hid⟩ := (load_eq_ok_iff hsound hsave).mp hok
      exact ⟨⟨pass', rfl, hne, hkey⟩, hid⟩

/-! ## All starts -/

/-- What the starts so far have come to: no file and no identity, or the file of one identity, which
all that succeeded have. -/
def Settled (sha256 : List UInt8 → List UInt8) (path : GoString) (acts : List Start)
    (d : Disk GoString (Octet Prim)) : Prop :=
  (d path = none ∧ ∀ a ∈ acts, ∀ id, a.ret ≠ some (.ok id)) ∨
    ∃ pass id, Kept sha256 path d pass id ∧ ∀ a ∈ acts, ∀ id', a.ret = some (.ok id') →
      (∃ p, a.inputs.passphrase = some p ∧ SamePass sha256 pass p) ∧ id'.priv = id.priv ∧
        id'.pub = id.pub ∧ sanitize id'.name = sanitize id.name

/-- Step lemma. With no file a start creates one or fails; with a file it loads it or fails, and
the file stays. A start whose process died may have left the file all the same. -/
theorem Settled.step {acts : List Start} {a : Start} (h : Settled sha256 path acts d)
    (hstep : Step sha256 path d a d') : Settled sha256 path (acts ++ [a]) d' := by
  obtain ⟨hfound, rfl, hret⟩ := hstep
  rcases h with ⟨hnone, hacts⟩ | ⟨pass, id, hkept, hacts⟩
  · -- there is no file yet, so this start creates one or fails
    have hcreate : loadOrCreateIdentity sha256 path d a.inputs =
        createIdentity sha256 path d a.inputs := by
      rw [loadOrCreateIdentity, hfound, hnone]
      rfl
    rw [hcreate] at hret ⊢
    rcases createIdentity_cases sha256 path d a.inputs with
      ⟨hsame, e, herr⟩ | ⟨pass, id, hpass, hkept, hok⟩
    · refine .inl ⟨hsame.trans hnone, ?_⟩
      intro b hb id hid
      rcases List.mem_append.mp hb with hb | hb
      · exact hacts b hb id hid
      · obtain rfl := List.mem_singleton.mp hb
        rw [herr] at hret
        rcases hret with hret | hret
        · exact absurd (hret.symm.trans hid) (by simp)
        · exact absurd (hret.symm.trans hid) (by simp)
    · refine .inr ⟨pass, id, hkept, ?_⟩
      intro b hb id' hid
      rcases List.mem_append.mp hb with hb | hb
      · exact absurd hid (hacts b hb id')
      · obtain rfl := List.mem_singleton.mp hb
        rw [hok] at hret
        rcases hret with hret | hret
        · exact absurd (hret.symm.trans hid) (by simp)
        · have heq := hret.symm.trans hid
          simp only [Option.some.injEq, Except.ok.injEq] at heq
          subst heq
          exact ⟨⟨pass, hpass, hkept.samePass⟩, rfl, rfl, rfl⟩
  · -- there is one, and it is only loaded
    obtain ⟨buf, hfile⟩ : ∃ buf, d path = some buf := by
      obtain ⟨-, -, -, buf, -, hfile⟩ := hkept
      exact ⟨buf, hfile⟩
    have hload : loadOrCreateIdentity sha256 path d a.inputs =
        (d, loadIdentity sha256 path d a.inputs) := by
      rw [loadOrCreateIdentity, hfound, hfile]
      rfl
    rw [hload] at hret ⊢
    refine .inr ⟨pass, id, hkept, ?_⟩
    intro b hb id' hid
    rcases List.mem_append.mp hb with hb | hb
    · exact hacts b hb id' hid
    · obtain rfl := List.mem_singleton.mp hb
      rcases hret with hret | hret
      · exact absurd (hret.symm.trans hid) (by simp)
      · have hok : loadIdentity sha256 path d b.inputs = .ok id' := by
          simpa only [Option.some.injEq] using hret.symm.trans hid
        obtain ⟨hpass, rfl⟩ := loadIdentity_kept hkept hok
        exact ⟨hpass, rfl, rfl, sanitize_of_valid (valid_sanitize _)⟩

/-- **There is only ever one identity.** However often the program is started, with whatever
passphrases and names, and wherever its saves stop or it dies: either there is no file and no
start has succeeded, or there is a file that opens to one passphrase only, as far as HMAC tells
passphrases apart, and always to the same keys, and each start that succeeded had this passphrase
and has returned these keys. -/
theorem identity_across_starts (hd : d path = none) {acts : List Start}
    (hrun : Run (Step sha256 path) d acts d') :
    (d' path = none ∧ ∀ a ∈ acts, ∀ id, a.ret ≠ some (.ok id)) ∨
      ∃ (pass : GoString) (id : Identity) (buf : Crypto.Bytes), d' path = some buf ∧ id.Sound ∧
        (∀ p id', load sha256 path p buf = .ok id' ↔
          SamePass sha256 pass p ∧ id' = { id with name := sanitize id.name }) ∧
        ∀ a ∈ acts, ∀ id', a.ret = some (.ok id') →
          (∃ p, a.inputs.passphrase = some p ∧ SamePass sha256 pass p) ∧ id'.priv = id.priv ∧
            id'.pub = id.pub ∧ sanitize id'.name = sanitize id.name := by
  have hsettled : Settled sha256 path acts d' :=
    hrun.invariant_trace (Settled sha256 path) (.inl ⟨hd, fun a ha => absurd ha (by simp)⟩)
      fun _ _ _ _ h hs => h.step hs
  refine hsettled.imp_right ?_
  rintro ⟨pass, id, ⟨hsound, salt, rand, buf, hsave, hfile⟩, hacts⟩
  refine ⟨pass, id, buf, hfile, hsound, ?_, hacts⟩
  intro p id'
  rw [load_eq_ok_iff hsound hsave, eq_self_iff_true, and_true, SamePass]

theorem length_sevensKey : (List.replicate 64 (7 : UInt8)).length = privateKeySize := rfl

/-- A first start, which dies three bytes into the file, one that gets through, one with another
passphrase, and one with the passphrase. -/
def dyingStart : Inputs where
  name := [97]
  found := false
  env := sevensPass
  line := none
  key := some ⟨List.replicate 64 7, length_sevensKey⟩
  salt := some sevensSalt
  nonce := some sevensNonce
  stop := .writing 3

def savingStart : Inputs := { dyingStart with stop := .never }

def guessingStart : Inputs := { dyingStart with found := true, env := [112] }

def savedStart : Start := ⟨savingStart, some (.ok ⟨[97], List.replicate 64 7, List.replicate 32 7⟩)⟩

def paddedStart : Start :=
  ⟨{ dyingStart with found := true, env := sevensPass ++ [0] },
    some (.ok ⟨[97], List.replicate 64 7, List.replicate 32 7⟩)⟩

def refusedStart : Start := ⟨guessingStart, some (.error (.identity .wrongPassphrase))⟩

theorem identity_across_starts_death :
    ∃ d', Run (Step cutDigest sevensPath) (fun _ => none)
        ([⟨dyingStart, none⟩] ++ [savedStart] ++ [refusedStart] ++ [paddedStart]) d' ∧
      ∃ (pass : GoString) (id : Identity) (buf : Crypto.Bytes), d' sevensPath = some buf ∧
        id.Sound ∧
        ∀ p id', load cutDigest sevensPath p buf = .ok id' ↔
          SamePass cutDigest pass p ∧ id' = { id with name := sanitize id.name } := by
  have hdying : Step cutDigest sevensPath (fun _ => none) ⟨dyingStart, none⟩ _ :=
    ⟨rfl, rfl, .inl rfl⟩
  have hsaving : Step cutDigest sevensPath
      (loadOrCreateIdentity cutDigest sevensPath (fun _ => none) dyingStart).1 savedStart
        _ := ⟨by decide +kernel, rfl, .inr (by decide +kernel)⟩
  have hguess : Step cutDigest sevensPath (loadOrCreateIdentity cutDigest sevensPath
      (loadOrCreateIdentity cutDigest sevensPath (fun _ => none) dyingStart).1 savingStart).1
      refusedStart _ := ⟨by decide +kernel, rfl, .inr (by decide +kernel)⟩
  -- a refused start leaves the disk as it was
  have hpadded : Step cutDigest sevensPath (loadOrCreateIdentity cutDigest sevensPath
      (loadOrCreateIdentity cutDigest sevensPath
        (loadOrCreateIdentity cutDigest sevensPath (fun _ => none) dyingStart).1 savingStart).1
      guessingStart).1 paddedStart _ := ⟨by decide +kernel, rfl, .inr (by decide +kernel)⟩
  have hrun := (((Run.single hdying).snoc hsaving).snoc hguess).snoc hpadded
  refine ⟨_, hrun, ?_⟩
  rcases identity_across_starts rfl hrun with ⟨-, hnever⟩ | ⟨pass, id, buf, hfile, hsound, hload, -⟩
  · exact absurd rfl (hnever paddedStart (List.mem_append_right _
      (List.mem_singleton_self paddedStart)) _)
  · exact ⟨pass, id, buf, hfile, hsound, hload⟩

end Heimdall.Starts
