/-
The race for a connection, `internal/connect/connect.go`, and the pairing key it owns.

`Race` starts its attempts, files an expectation for connections from the peer, and once all
attempts are over sets a timer that withdraws the expectation and wipes the key. The key is a
buffer: the attempts, the expectation and every connection accepted under it hold the same bytes,
and `confirmPairing` reads them when it gets there, which is when the peer lets it.

The attempts are over before the timer is set. A connection that was accepted under the expectation
may not be: its peer can take longer over the handshake than the timer lingers, and then
`confirmPairing` runs with a key of zeros, which anybody can prove to hold
(`zero_key_accepted`). If the timer only fires when no such connection is left, every confirmation
uses the key of the invite code (`key_not_wiped_early`).
-/
import Heimdall.Expect
import Heimdall.World

set_option autoImplicit false

namespace Heimdall.Connect

open Heimdall.Peers (GoString)
open Heimdall.Runs Heimdall.Crypto
open Heimdall.Proto (pairConfirm verifyPairConfirm)

/-! ## The state

A race owns a buffer with the key. Everything that may read the buffer later is in the state with
its place: attempts, the expectation and the connections accepted under it. -/

def expectLinger : ℕ := 10 * 1000

/-- Where `runHandshake` is with a connection. -/
inductive Place where
  | handshake
  /-- The handshake is done, with this transcript. -/
  | agreed (transcript : Bytes)
  /-- In `confirmPairing`, waiting for the peer's confirmation. -/
  | confirming (transcript : Bytes)
  | established
  | failed
  deriving DecidableEq

def Place.busy : Place → Bool
  | .handshake | .agreed _ | .confirming _ => true
  | .established | .failed => false

/-- A connection in `runHandshake`, with the key buffer of its options. -/
structure Link where
  key : Option ℕ := none
  dialled : Bool := false
  place : Place := .failed

/-- A key buffer: what it holds, and what it was made with. -/
structure KeyBuf where
  bytes : Bytes := []
  original : Bytes := []

def KeyBuf.zeroise (k : KeyBuf) : KeyBuf := { k with bytes := k.bytes.map fun _ => .lit 0 }

/-- How far a race is. -/
inductive Phase where
  | running
  /-- `wg.Wait` has returned, and the timer is set. -/
  | lingering (since : ℕ)
  /-- The timer has fired, or there is no such race. -/
  | over
  deriving DecidableEq

/-- `Race`: how many attempts are still dialling. -/
structure RaceState where
  dialing : ℕ := 0
  phase : Phase := .over

/-- A use that `confirmPairing` has made of a key. -/
inductive Use where
  | sealed (key : ℕ) (bytes transcript : Bytes)
  | verified (key : ℕ) (bytes transcript got : Bytes) (ok : Bool)

def Use.key : Use → ℕ
  | .sealed k _ _ | .verified k _ _ _ _ => k

def Use.bytes : Use → Bytes
  | .sealed _ b _ | .verified _ b _ _ _ => b

/-- Any number of races, with the connections that are being adopted. Race `r` has made call `r`
of `expect` and owns key `r`. -/
structure Racing where
  reg : Registry := {}
  keys : Heap KeyBuf := Heap.empty {}
  races : Heap RaceState := Heap.empty {}
  links : Heap Link := Heap.empty {}
  uses : List Use := []
  now : ℕ := 0

inductive RacingAct where
  /-- `Race` is called. -/
  | race (pairingKey : Bytes) (observed : GoString) (candidates : List GoString)
      (initiator punch : Bool)
  /-- An attempt of race `r` has dialled, or failed to. -/
  | dial (r : ℕ) (ok : Bool)
  /-- A connection is accepted. -/
  | inbound (remote : Option GoString)
  | handshake (l : ℕ) (transcript : Bytes)
  /-- `confirmPairing` up to its first `RecvBefore`. -/
  | confirm (l : ℕ)
  /-- A confirmation has come. -/
  | verify (l : ℕ) (got : Bytes)
  /-- An error of any kind. -/
  | fail (l : ℕ)
  | wait (r : ℕ)
  | fire (r : ℕ)
  | tick (dt : ℕ)

namespace Racing

/-! ## Steps -/

def attempts (observed : GoString) (candidates : List GoString) (punch : Bool) : ℕ :=
  candidates.length + (if punch = true ∧ observed ≠ [] then 1 else 0) + 1

def inboundOpts (r : ℕ) (initiator : Bool) : AdoptOptions :=
  { initiator := initiator, pairingKey := some r, path := some .direct, onEstablished := some r }

def setPlace (s : Racing) (l : ℕ) (p : Place) : Racing :=
  { s with links := s.links.modify l fun x => { x with place := p } }

def Adopting (s : Racing) (r : ℕ) : Prop :=
  ∃ l < s.links.next, (s.links.get l).key = some r ∧ (s.links.get l).dialled = true ∧
    (s.links.get l).place.busy = true

instance (s : Racing) (r : ℕ) : Decidable (s.Adopting r) :=
  inferInstanceAs (Decidable (∃ l < s.links.next, _ ∧ _ ∧ _))

def next (s : Racing) : RacingAct → Option Racing
  | .race pairingKey observed candidates initiator punch =>
    -- the call of `expect`, the key and the race all get the same number
    some { s with
      reg := s.reg.expect (peerIPs observed candidates) (inboundOpts s.keys.next initiator)
      keys := s.keys.alloc ⟨pairingKey, pairingKey⟩
      races := s.races.alloc ⟨attempts observed candidates punch, .running⟩ }
  | .dial r ok =>
    if 0 < (s.races.get r).dialing then
      let t := { s with races := s.races.modify r fun x => { x with dialing := x.dialing - 1 } }
      some (if ok then { t with links := t.links.alloc ⟨some r, true, .handshake⟩ } else t)
    else none
  | .inbound remote =>
    -- the options hold the key by reference
    let key := (s.reg.exps.hook remote).bind AdoptOptions.pairingKey
    some { s with links := s.links.alloc ⟨key, false, .handshake⟩ }
  | .handshake l transcript =>
    match (s.links.get l).place with
    | .handshake => some (s.setPlace l (.agreed transcript))
    | _ => none
  | .confirm l =>
    match (s.links.get l).place, (s.links.get l).key with
    | .agreed _, none => some (s.setPlace l .established)
    | .agreed transcript, some k =>
      -- `len(opts.PairingKey) > 0`
      if (s.keys.get k).bytes = [] then some (s.setPlace l .established)
      else
        match pairConfirm (s.keys.get k).bytes transcript with
        | .error _ => some (s.setPlace l .failed)
        | .ok _ => some { s.setPlace l (.confirming transcript) with
            uses := .sealed k (s.keys.get k).bytes transcript :: s.uses }
    | _, _ => none
  | .verify l got =>
    match (s.links.get l).place, (s.links.get l).key with
    | .confirming transcript, some k =>
      let ok := verifyPairConfirm (s.keys.get k).bytes transcript got
      some { s.setPlace l (if ok then .established else .failed) with
        uses := .verified k (s.keys.get k).bytes transcript got ok :: s.uses }
    | _, _ => none
  | .fail l => if (s.links.get l).place.busy then some (s.setPlace l .failed) else none
  | .wait r =>
    -- `wg.Wait` is about what was dialled, not about what came in
    if (s.races.get r).phase = .running ∧ (s.races.get r).dialing = 0 ∧ ¬ s.Adopting r then
      some { s with races := s.races.modify r fun x => { x with phase := .lingering s.now } }
    else none
  | .fire r =>
    match (s.races.get r).phase with
    | .lingering since =>
      if since + expectLinger ≤ s.now then
        some { s with
          reg := s.reg.withdraw r
          keys := s.keys.modify r KeyBuf.zeroise
          races := s.races.modify r fun x => { x with phase := .over } }
      else none
    | _ => none
  | .tick dt => some { s with now := s.now + dt }

/-! ## The invariant -/

/-- A key is wiped only when its race is over, and then nothing is left that could use it. -/
structure Kept (s : Racing) : Prop where
  aligned : s.keys.next = s.reg.calls.next ∧ s.races.next = s.reg.calls.next
  sound : s.reg.Sound
  opts : ∀ k, s.reg.Outstanding k → (s.reg.calls.get k).opts.pairingKey = some k ∧
    (s.races.get k).phase ≠ .over
  running : ∀ r, (s.races.get r).phase ≠ .over → s.reg.Outstanding r ∧
    (s.keys.get r).bytes = (s.keys.get r).original
  links : ∀ l r, (s.links.get l).key = some r → (s.links.get l).place.busy = true →
    l < s.links.next ∧ (s.races.get r).phase ≠ .over
  waited : ∀ r, (s.races.get r).phase ≠ .running → (s.races.get r).dialing = 0 ∧ ¬ s.Adopting r
  uses : ∀ u ∈ s.uses, u.key < s.keys.next ∧ u.bytes = (s.keys.get u.key).original

namespace Kept

variable {s s' : Racing} {l r : ℕ}

theorem of_links (hs : s.Kept) (hreg : s'.reg = s.reg) (hkeys : s'.keys = s.keys)
    (hraces : s'.races = s.races) (hnext : s.links.next ≤ s'.links.next)
    (hlinks : ∀ l, (s'.links.get l).place.busy = true →
      ((s.links.get l).place.busy = true ∧ (s'.links.get l).key = (s.links.get l).key ∧
        (s'.links.get l).dialled = (s.links.get l).dialled) ∨
      (l < s'.links.next ∧ (s'.links.get l).dialled = false ∧
        ∀ r, (s'.links.get l).key = some r → (s.races.get r).phase ≠ .over))
    (huses : ∀ u ∈ s'.uses, u ∈ s.uses ∨
      ∃ l, (s.links.get l).place.busy = true ∧ (s.links.get l).key = some u.key ∧
        u.bytes = (s.keys.get u.key).bytes) : s'.Kept where
  aligned := by rw [hreg, hkeys, hraces]; exact hs.aligned
  sound := hreg ▸ hs.sound
  opts k hk := by
    rw [hreg] at hk ⊢
    rw [hraces]
    exact hs.opts k hk
  running r hr := by
    rw [hraces] at hr
    rw [hreg, hkeys]
    exact hs.running r hr
  links l r hkey hbusy := by
    rw [hraces]
    rcases hlinks l hbusy with ⟨hold, hsame, -⟩ | ⟨hlt, -, hnew⟩
    · obtain ⟨hlt, hphase⟩ := hs.links l r (hsame ▸ hkey) hold
      exact ⟨hlt.trans_le hnext, hphase⟩
    · exact ⟨hlt, hnew r hkey⟩
  waited r hr := by
    rw [hraces] at hr ⊢
    obtain ⟨hdial, hno⟩ := hs.waited r hr
    refine ⟨hdial, ?_⟩
    rintro ⟨l, -, hkey, hdialled, hbusy⟩
    -- a link that is new was accepted, not dialled
    rcases hlinks l hbusy with ⟨hold, hsame, hsame'⟩ | ⟨-, hnot, -⟩
    · have hkey' := hsame ▸ hkey
      exact hno ⟨l, (hs.links l r hkey' hold).1, hkey', hsame' ▸ hdialled, hold⟩
    · exact absurd (hdialled.symm.trans hnot) (by simp)
  uses u hu := by
    rw [hkeys]
    -- a key that is used now belongs to a race that is not over, so it has not been wiped
    rcases huses u hu with hold | ⟨l, hbusy, hkey, hbytes⟩
    · exact hs.uses u hold
    · obtain ⟨hout, horig⟩ := hs.running u.key (hs.links l u.key hkey hbusy).2
      exact ⟨hs.aligned.1 ▸ hout.1, hbytes.trans horig⟩

theorem setPlace (hs : s.Kept) (hbusy : (s.links.get l).place.busy = true) (p : Place)
    {us : List Use} (huses : ∀ u ∈ us, u ∈ s.uses ∨
      ((s.links.get l).key = some u.key ∧ u.bytes = (s.keys.get u.key).bytes)) :
    Kept { s.setPlace l p with uses := us } := by
  refine hs.of_links rfl rfl rfl le_rfl (fun j hj => ?_) fun u hu => ?_
  · left
    dsimp only [Racing.setPlace] at hj ⊢
    by_cases hjl : j = l
    · subst hjl
      rw [Heap.get_modify_self]
      exact ⟨hbusy, rfl, rfl⟩
    · rw [Heap.get_modify_of_ne _ _ hjl] at hj ⊢
      exact ⟨hj, rfl, rfl⟩
  · exact (huses u hu).imp_right fun hnew => ⟨l, hbusy, hnew⟩

theorem race (hs : s.Kept) (key : Bytes) (ips : List GoString) (initiator : Bool) (n : ℕ) :
    Kept { s with
      reg := s.reg.expect ips (inboundOpts s.keys.next initiator)
      keys := s.keys.alloc ⟨key, key⟩
      races := s.races.alloc ⟨n, .running⟩ } := by
  obtain ⟨hkeys, hraces⟩ := hs.aligned
  -- a race that is not over has made its call, so its number is an older one
  have hlt : ∀ {r}, (s.races.get r).phase ≠ .over → r < s.reg.calls.next :=
    fun hr => (hs.running _ hr).1.1
  constructor
  case aligned =>
    dsimp only [Registry.calls_expect]
    rw [Heap.next_alloc, Heap.next_alloc, Heap.next_alloc, hkeys, hraces]
    exact ⟨rfl, rfl⟩
  case sound => exact hs.sound.expect
  case opts =>
    intro k hk
    dsimp only
    rcases Registry.outstanding_expect.mp hk with rfl | hk
    · rw [Registry.get_expect_new, ← hraces, Heap.get_alloc_next, hraces, ← hkeys]
      exact ⟨rfl, nofun⟩
    · rw [Registry.get_expect_of_lt hk.1, Heap.get_alloc_of_lt _ _ (hraces ▸ hk.1)]
      exact hs.opts k hk
  case running =>
    intro r hr
    dsimp only at hr ⊢
    rw [Registry.outstanding_expect]
    by_cases hnew : r = s.reg.calls.next
    · rw [hnew, ← hkeys, Heap.get_alloc_next]
      exact ⟨.inl rfl, rfl⟩
    · rw [Heap.get_alloc_of_ne _ _ (hraces ▸ hnew)] at hr
      rw [Heap.get_alloc_of_ne _ _ (hkeys ▸ hnew)]
      exact ⟨.inr (hs.running r hr).1, (hs.running r hr).2⟩
  case links =>
    intro l r hkey hbusy
    obtain ⟨hl, hphase⟩ := hs.links l r hkey hbusy
    dsimp only
    rw [Heap.get_alloc_of_lt _ _ (hraces ▸ hlt hphase)]
    exact ⟨hl, hphase⟩
  case waited =>
    intro r hr
    dsimp only at hr ⊢
    by_cases hnew : r = s.races.next
    · rw [hnew, Heap.get_alloc_next] at hr
      exact absurd rfl hr
    · rw [Heap.get_alloc_of_ne _ _ hnew] at hr ⊢
      exact hs.waited r hr
  case uses =>
    intro u hu
    obtain ⟨hu, hbytes⟩ := hs.uses u hu
    dsimp only
    rw [Heap.get_alloc_of_lt _ _ hu, Heap.next_alloc]
    exact ⟨hu.trans (Nat.lt_succ_self _), hbytes⟩

theorem of_races (hs : s.Kept) {f : RaceState → RaceState}
    (hover : (f (s.races.get r)).phase = .over ↔ (s.races.get r).phase = .over)
    (hwaited : (f (s.races.get r)).phase ≠ .running →
      (f (s.races.get r)).dialing = 0 ∧ ¬ s.Adopting r) :
    Kept { s with races := s.races.modify r f } := by
  have hphase : ∀ x, ((s.races.modify r f).get x).phase = .over ↔
      (s.races.get x).phase = .over := by
    intro x
    by_cases hx : x = r
    · subst hx
      rw [Heap.get_modify_self]
      exact hover
    · rw [Heap.get_modify_of_ne _ _ hx]
  constructor
  case aligned => exact hs.aligned
  case sound => exact hs.sound
  case opts =>
    intro k hk
    rw [ne_eq, hphase]
    exact hs.opts k hk
  case running =>
    intro x hx
    rw [ne_eq, hphase] at hx
    exact hs.running x hx
  case links =>
    intro l x hkey hbusy
    rw [ne_eq, hphase]
    exact hs.links l x hkey hbusy
  case waited =>
    intro x hx
    dsimp only at hx ⊢
    by_cases hxr : x = r
    · subst hxr
      rw [Heap.get_modify_self] at hx ⊢
      exact hwaited hx
    · rw [Heap.get_modify_of_ne _ _ hxr] at hx ⊢
      exact hs.waited x hx
  case uses => exact hs.uses

/-- An attempt has dialled. The race was running, so its key is there. -/
theorem dialled (hs : s.Kept) (hrun : (s.races.get r).phase = .running) :
    Kept { s with links := s.links.alloc ⟨some r, true, .handshake⟩ } := by
  have hold : ∀ {l}, l ≠ s.links.next →
      (s.links.alloc ⟨some r, true, .handshake⟩).get l = s.links.get l :=
    fun hl => Heap.get_alloc_of_ne _ _ hl
  constructor
  case aligned => exact hs.aligned
  case sound => exact hs.sound
  case opts => exact hs.opts
  case running => exact hs.running
  case links =>
    intro l x hkey hbusy
    dsimp only at hkey hbusy ⊢
    by_cases hl : l = s.links.next
    · rw [hl, Heap.get_alloc_next] at hkey
      obtain rfl := Option.some.inj hkey
      rw [hl, hrun]
      exact ⟨Nat.lt_succ_self _, nofun⟩
    · rw [hold hl] at hkey hbusy
      obtain ⟨hlt, hphase⟩ := hs.links l x hkey hbusy
      exact ⟨hlt.trans (Nat.lt_succ_self _), hphase⟩
  case waited =>
    intro x hx
    obtain ⟨hdial, hno⟩ := hs.waited x hx
    refine ⟨hdial, ?_⟩
    rintro ⟨l, -, hkey, hdialled, hbusy⟩
    dsimp only at hkey hdialled hbusy
    by_cases hl : l = s.links.next
    · rw [hl, Heap.get_alloc_next] at hkey
      obtain rfl := Option.some.inj hkey
      exact hx hrun
    · rw [hold hl] at hkey hdialled hbusy
      exact hno ⟨l, (hs.links l x hkey hbusy).1, hkey, hdialled, hbusy⟩
  case uses => exact hs.uses

/-- The timer fires, and no connection that was accepted with the key is left. What was dialled
has ended before, as the timer is set after `wg.Wait`. -/
theorem fire (hs : s.Kept) (hphase : (s.races.get r).phase ≠ .running)
    (hover : (s.races.get r).phase ≠ .over)
    (hpatient : ∀ l < s.links.next, (s.links.get l).key = some r → (s.links.get l).dialled = false →
      (s.links.get l).place.busy = false) :
    Kept { s with
      reg := s.reg.withdraw r
      keys := s.keys.modify r KeyBuf.zeroise
      races := s.races.modify r fun x => { x with phase := .over } } := by
  obtain ⟨hdial, hno⟩ := hs.waited r hphase
  -- nobody holds the key any more
  have hfree : ∀ l x, (s.links.get l).key = some x → (s.links.get l).place.busy = true → x ≠ r := by
    rintro l x hkey hbusy rfl
    have hlt := (hs.links l x hkey hbusy).1
    by_cases hdialled : (s.links.get l).dialled = true
    · exact hno ⟨l, hlt, hkey, hdialled, hbusy⟩
    · have hidle := hpatient l hlt hkey (by simpa using hdialled)
      exact absurd (hbusy.symm.trans hidle) (by simp)
  constructor
  case aligned => exact hs.aligned
  case sound => exact hs.sound.withdraw (hs.running r hover).1
  case opts =>
    intro k hk
    obtain ⟨hkr, hk⟩ := Registry.outstanding_withdraw.mp hk
    dsimp only
    rw [Registry.get_withdraw_of_ne hkr, Heap.get_modify_of_ne _ _ hkr]
    exact hs.opts k hk
  case running =>
    intro x hx
    dsimp only at hx ⊢
    have hxr : x ≠ r := by
      rintro rfl
      rw [Heap.get_modify_self] at hx
      exact absurd rfl hx
    rw [Heap.get_modify_of_ne _ _ hxr] at hx ⊢
    rw [Registry.outstanding_withdraw]
    exact ⟨⟨hxr, (hs.running x hx).1⟩, (hs.running x hx).2⟩
  case links =>
    intro l x hkey hbusy
    dsimp only
    rw [Heap.get_modify_of_ne _ _ (hfree l x hkey hbusy)]
    exact hs.links l x hkey hbusy
  case waited =>
    intro x hx
    dsimp only at hx ⊢
    by_cases hxr : x = r
    · subst hxr
      rw [Heap.get_modify_self]
      exact ⟨hdial, hno⟩
    · rw [Heap.get_modify_of_ne _ _ hxr] at hx ⊢
      exact hs.waited x hx
  case uses =>
    intro u hu
    have horig : ((s.keys.modify r KeyBuf.zeroise).get u.key).original =
        (s.keys.get u.key).original := s.keys.get_modify_congr KeyBuf.zeroise (fun _ => rfl) u.key
    exact ⟨(hs.uses u hu).1, (hs.uses u hu).2.trans horig.symm⟩

end Kept

/-! ## Steps that are patient -/

/-- The timer of a race fires only when no connection that was accepted with its key is still
before the end of `confirmPairing`. -/
def Patient (s : Racing) : RacingAct → Prop
  | .fire r => ∀ l < s.links.next, (s.links.get l).key = some r → (s.links.get l).dialled = false →
      (s.links.get l).place.busy = false
  | _ => True

instance (s : Racing) (a : RacingAct) : Decidable (s.Patient a) :=
  match a with
  | .fire r => inferInstanceAs (Decidable (∀ l < s.links.next, (s.links.get l).key = some r →
      (s.links.get l).dialled = false → (s.links.get l).place.busy = false))
  | .race .. | .dial .. | .inbound .. | .handshake .. | .confirm .. | .verify .. | .fail ..
  | .wait .. | .tick .. => inferInstanceAs (Decidable True)

def StepPatient (s : Racing) (a : RacingAct) (s' : Racing) :
    Prop := s.next a = some s' ∧ s.Patient a

section Steps

variable {s s' : Racing} {a : RacingAct} {as : List RacingAct}

/-- A dial that has ended, with a connection or without. Only a race that is running has any
left. -/
theorem Kept.dial (hs : s.Kept) {r : ℕ} {ok : Bool} (hnext : s.next (.dial r ok) = some s') :
    s'.Kept := by
  simp only [next] at hnext
  split_ifs at hnext with hpos hok
  -- with a connection or without, there is one attempt less
  all_goals
    have hrun : (s.races.get r).phase = .running := by
      by_contra hphase
      exact absurd (hs.waited r hphase).1 hpos.ne'
    have hraces := hs.of_races (r := r) (f := fun x => { x with dialing := x.dialing - 1 }) Iff.rfl
      fun hphase => absurd hrun hphase
    rw [← Option.some.inj hnext]
  · apply hraces.dialled
    dsimp only
    rw [Heap.get_modify_self]
    exact hrun
  · exact hraces

/-- What `Hook` hands out belongs to a race that is not over: it was filed by a call of `expect`
that is still outstanding. -/
theorem Kept.inbound (hs : s.Kept) (remote : Option GoString) :
    let key := (s.reg.exps.hook remote).bind AdoptOptions.pairingKey
    Kept { s with links := s.links.alloc ⟨key, false, .handshake⟩ } := by
  intro key
  refine hs.of_links rfl rfl rfl (Nat.le_succ _) (fun l hbusy => ?_) fun u hu => .inl hu
  dsimp only at hbusy ⊢
  by_cases hl : l = s.links.next
  · rw [hl, Heap.get_alloc_next]
    refine .inr ⟨Nat.lt_succ_self _, rfl, fun r hkey => ?_⟩
    obtain ⟨o, ho, hor⟩ := Option.bind_eq_some_iff.mp hkey
    unfold Expectations.hook at ho
    split at ho
    · exact absurd ho (by simp)
    · split at ho
      · exact absurd ho (by simp)
      · obtain ⟨k, hk, -, rfl⟩ := hs.sound.source _ o ho
        obtain ⟨hkey', hphase⟩ := hs.opts k hk
        obtain rfl := Option.some.inj (hkey'.symm.trans hor)
        exact hphase
  · rw [Heap.get_alloc_of_ne _ _ hl] at hbusy ⊢
    exact .inl ⟨hbusy, rfl, rfl⟩

/-- `confirmPairing` up to the wait, in the four ways it can go: no key, an empty key, an error,
and a confirmation that is sent. Only the last one uses the key. -/
theorem Kept.confirm (hs : s.Kept) {l : ℕ} (hnext : s.next (.confirm l) = some s') : s'.Kept := by
  simp only [next] at hnext
  split at hnext
  · rename_i hplace hkey
    rw [← Option.some.inj hnext]
    exact hs.setPlace (by rw [hplace]; rfl) _ fun u hu => .inl hu
  · rename_i transcript k hplace hkey
    have hbusy : (s.links.get l).place.busy = true := by rw [hplace]; rfl
    split_ifs at hnext
    · rw [← Option.some.inj hnext]
      exact hs.setPlace hbusy _ fun u hu => .inl hu
    · split at hnext
      · rw [← Option.some.inj hnext]
        exact hs.setPlace hbusy _ fun u hu => .inl hu
      · rw [← Option.some.inj hnext]
        refine hs.setPlace hbusy _ fun u hu => ?_
        rcases List.mem_cons.mp hu with rfl | hu
        · exact .inr ⟨hkey, rfl⟩
        · exact .inl hu
  · exact absurd hnext (by simp)

theorem Kept.verify (hs : s.Kept) {l : ℕ} {got : Bytes} (hnext : s.next (.verify l got) = some s') :
    s'.Kept := by
  simp only [next] at hnext
  split at hnext
  · rename_i transcript k hplace hkey
    rw [← Option.some.inj hnext]
    refine hs.setPlace (by rw [hplace]; rfl) _ fun u hu => ?_
    rcases List.mem_cons.mp hu with rfl | hu
    · exact .inr ⟨hkey, rfl⟩
    · exact .inl hu
  · exact absurd hnext (by simp)

/-- **One patient step.** Only `fire` needs the condition. -/
theorem Kept.step (hs : s.Kept) (hstep : StepPatient s a s') : s'.Kept := by
  obtain ⟨hnext, hpatient⟩ := hstep
  cases a with
  | race key observed candidates initiator punch =>
    exact Option.some.inj hnext ▸ hs.race key _ initiator _
  | dial r ok => exact hs.dial hnext
  | inbound remote => exact Option.some.inj hnext ▸ hs.inbound remote
  | handshake l transcript =>
    simp only [next] at hnext
    split at hnext
    · rename_i hplace
      rw [← Option.some.inj hnext]
      exact hs.setPlace (by rw [hplace]; rfl) _ fun u hu => .inl hu
    · exact absurd hnext (by simp)
  | confirm l => exact hs.confirm hnext
  | verify l got => exact hs.verify hnext
  | fail l =>
    simp only [next] at hnext
    split_ifs at hnext with hbusy
    rw [← Option.some.inj hnext]
    exact hs.setPlace hbusy _ fun u hu => .inl hu
  | wait r =>
    simp only [next] at hnext
    split_ifs at hnext with hwait
    obtain ⟨hphase, hdial, hno⟩ := hwait
    rw [← Option.some.inj hnext]
    exact hs.of_races (iff_of_false nofun (by rw [hphase]; nofun)) fun _ => ⟨hdial, hno⟩
  | fire r =>
    simp only [next] at hnext
    split at hnext
    · rename_i since hphase
      split_ifs at hnext
      rw [← Option.some.inj hnext]
      exact hs.fire (by rw [hphase]; nofun) (by rw [hphase]; nofun) hpatient
    · exact absurd hnext (by simp)
  | tick dt =>
    exact Option.some.inj hnext ▸ hs.of_links rfl rfl rfl le_rfl (fun _ h => .inl ⟨h, rfl, rfl⟩)
      fun _ => Or.inl

theorem Kept.start : ({} : Racing).Kept where
  aligned := ⟨rfl, rfl⟩
  sound := .start
  opts _ hk := absurd hk.1 (Nat.not_lt_zero _)
  running _ hr := absurd rfl hr
  links _ _ hkey := absurd hkey (by simp [Heap.empty])
  waited _ _ := ⟨rfl, fun ⟨_, hl, _⟩ => absurd hl (Nat.not_lt_zero _)⟩
  uses _ hu := absurd hu (by simp)

/-- A step notes one use at most, and a confirmation that it notes as accepted was verified. -/
theorem uses_of_next (hnext : s.next a = some s') : s'.uses = s.uses ∨
    ∃ u, s'.uses = u :: s.uses ∧ ∀ k b tr got, u = .verified k b tr got true →
      verifyPairConfirm b tr got = true := by
  cases a with
  | confirm l =>
    simp only [next] at hnext
    split at hnext
    · exact Option.some.inj hnext ▸ .inl rfl
    · split_ifs at hnext
      · exact Option.some.inj hnext ▸ .inl rfl
      · split at hnext
        · exact Option.some.inj hnext ▸ .inl rfl
        · exact Option.some.inj hnext ▸ .inr ⟨_, rfl, nofun⟩
    · exact absurd hnext (by simp)
  | verify l got =>
    simp only [next] at hnext
    split at hnext
    · refine Option.some.inj hnext ▸ .inr ⟨_, rfl, fun k b tr got' hu => ?_⟩
      injection hu with _ hb htr hgot hok
      rw [← hb, ← htr, ← hgot, hok]
    · exact absurd hnext (by simp)
  | race | inbound | tick => exact Option.some.inj hnext ▸ .inl rfl
  | dial | handshake | fail | wait | fire =>
    simp only [next] at hnext
    repeat' split at hnext
    all_goals first | exact Option.some.inj hnext ▸ .inl rfl | exact absurd hnext (by simp)

/-- **The pairing key is not wiped under a confirmation**, in every run in which the timer fires
only when no connection accepted with the key is left: every use that `confirmPairing` makes of a
key is of the bytes the race was given, and a peer is accepted only for a confirmation under
them. -/
theorem key_not_wiped_early (hrun : Run StepPatient {} as s) :
    (∀ u ∈ s.uses, u.bytes = (s.keys.get u.key).original) ∧
    ∀ k b tr got, .verified k b tr got true ∈ s.uses →
      verifyPairConfirm (s.keys.get k).original tr got = true := by
  have hinv : s.Kept ∧ ∀ k b tr got, .verified k b tr got true ∈ s.uses →
      verifyPairConfirm b tr got = true := by
    refine hrun.invariant (fun s => s.Kept ∧ ∀ k b tr got, .verified k b tr got true ∈ s.uses →
      verifyPairConfirm b tr got = true) ⟨.start, nofun⟩ ?_
    rintro t a u ⟨hkept, hver⟩ hstep
    refine ⟨hkept.step hstep, fun k b tr got hmem => ?_⟩
    rcases uses_of_next hstep.1 with heq | ⟨x, heq, hx⟩
    · exact hver k b tr got (heq ▸ hmem)
    · rw [heq] at hmem
      rcases List.mem_cons.mp hmem with hnew | hold
      · exact hx k b tr got hnew.symm
      · exact hver k b tr got hold
  have huses : ∀ u ∈ s.uses, u.bytes = (s.keys.get u.key).original := fun u hu =>
    (hinv.1.uses u hu).2
  refine ⟨huses, fun k b tr got hmem => ?_⟩
  have hbytes : b = (s.keys.get k).original := huses _ hmem
  rw [← hbytes]
  exact hinv.2 k b tr got hmem

theorem next_confirm {l k : ℕ} {b tr : Bytes} (hplace : (s.links.get l).place = .agreed tr)
    (hkey : (s.links.get l).key = some k) (hbytes : (s.keys.get k).bytes = b) (hb : b ≠ [])
    (htr : tr ≠ []) : s.next (.confirm l) =
      some { s.setPlace l (.confirming tr) with uses := .sealed k b tr :: s.uses } := by
  simp only [next, hplace, hkey, hbytes, if_neg hb, Proto.pairConfirm_eq hb htr]

theorem next_verify {l k : ℕ} {b tr : Bytes} (hplace : (s.links.get l).place = .confirming tr)
    (hkey : (s.links.get l).key = some k) (hbytes : (s.keys.get k).bytes = b) (hb : b ≠ [])
    (htr : tr ≠ []) : s.next (.verify l (Proto.confirmOf b tr)) =
      some { s.setPlace l .established with
        uses := .verified k b tr (Proto.confirmOf b tr) true :: s.uses } := by
  have hver : verifyPairConfirm b tr (Proto.confirmOf b tr) = true := by
    rw [verifyPairConfirm, Proto.pairConfirm_eq hb htr]
    simp
  simp only [next, hplace, hkey, hbytes, hver, if_true]

theorem accepts_confirmation {l k : ℕ} {b tr : Bytes} (hplace : (s.links.get l).place = .agreed tr)
    (hkey : (s.links.get l).key = some k) (hbytes : (s.keys.get k).bytes = b) (hb : b ≠ [])
    (htr : tr ≠ []) :
    ∃ t u, s.next (.confirm l) = some t ∧ t.next (.verify l (Proto.confirmOf b tr)) = some u ∧
      u.keys = s.keys ∧ (u.links.get l).place = .established ∧
      u.uses = .verified k b tr (Proto.confirmOf b tr) true :: .sealed k b tr :: s.uses := by
  have hget : ∀ (v : Racing) (p : Place),
      (v.setPlace l p).links.get l = { v.links.get l with place := p } := by
    intro v p
    dsimp only [setPlace]
    rw [Heap.get_modify_self]
  refine ⟨_, _, next_confirm hplace hkey hbytes hb htr, next_verify ?_ ?_ hbytes hb htr, rfl, ?_,
    rfl⟩
  · exact congrArg Link.place (hget s _)
  · exact (congrArg Link.key (hget s _)).trans hkey
  · exact congrArg Link.place (hget _ .established)

/-- The key of an invite code, and the transcript of a handshake. -/
def inviteKey : Bytes := Octets.lits (List.replicate 32 7)

def oneTranscript : Bytes := Octets.lits [1, 2, 3]

/-- One race comes to its end; in a second one, the attempts fail and the timer is set, and the
peer connects within the time. -/
def promptActs : List RacingAct :=
  [.race inviteKey [50, 58, 57] [] true false, .dial 0 false, .wait 0, .tick 10000, .fire 0,
    .race inviteKey [49, 58, 57] [] true false, .dial 1 false, .wait 1, .tick 9000,
    .inbound (some [49, 58, 56]), .handshake 0 oneTranscript]

theorem key_not_wiped_early_prompt :
    ∃ s : Racing, Run StepPatient {} (promptActs ++ [.confirm 0] ++
        [.verify 0 (Proto.confirmOf inviteKey oneTranscript)]) s ∧
      .verified 1 inviteKey oneTranscript (Proto.confirmOf inviteKey oneTranscript) true ∈ s.uses ∧
      ∀ u ∈ s.uses, u.bytes = (s.keys.get u.key).original := by
  obtain ⟨s, hrun, hkey, hbytes, hplace⟩ : ∃ s, Run StepPatient {} promptActs s ∧
      (s.links.get 0).key = some 1 ∧ (s.keys.get 1).bytes = inviteKey ∧
      (s.links.get 0).place = .agreed oneTranscript :=
    exists_run_guarded (fun s : Racing => (s.links.get 0).key = some 1 ∧
      (s.keys.get 1).bytes = inviteKey ∧ (s.links.get 0).place = .agreed oneTranscript) (by decide)
  obtain ⟨t, u, hconfirm, hverify, -, -, huses⟩ :=
    accepts_confirmation hplace hkey hbytes (by decide) (by decide)
  have hpatient : Run StepPatient {} (promptActs ++ [.confirm 0] ++
      [.verify 0 (Proto.confirmOf inviteKey oneTranscript)]) u :=
    .snoc (.snoc hrun ⟨hconfirm, trivial⟩) ⟨hverify, trivial⟩
  refine ⟨u, hpatient, ?_, (key_not_wiped_early hpatient).1⟩
  rw [huses]
  exact List.mem_cons_self

def zeroKey : Bytes := Octets.lits (List.replicate 32 0)

/-- The peer connects within the time, but takes its time over the handshake, and the timer
fires. -/
def stalledActs : List RacingAct :=
  [.race inviteKey [49, 58, 57] [] true false, .dial 0 false, .wait 0, .tick 9000,
    .inbound (some [49, 58, 56]), .tick 1000, .fire 0, .handshake 0 oneTranscript]

/-- **A key of zeros is accepted.** The connection was accepted with the key of the invite code, and
the peer that is established has confirmed under zeros. -/
theorem zero_key_accepted : inviteKey ≠ zeroKey ∧
    ∃ s : Racing, Run (ofNext next) {} (stalledActs ++ [.confirm 0] ++
        [.verify 0 (Proto.confirmOf zeroKey oneTranscript)]) s ∧
      (s.keys.get 0).original = inviteKey ∧ (s.links.get 0).place = .established ∧
      .sealed 0 zeroKey oneTranscript ∈ s.uses ∧
      .verified 0 zeroKey oneTranscript (Proto.confirmOf zeroKey oneTranscript) true ∈ s.uses := by
  refine ⟨by decide, ?_⟩
  obtain ⟨s, hrun, hkey, hbytes, horig, hplace⟩ : ∃ s, Run (ofNext next) {} stalledActs s ∧
      (s.links.get 0).key = some 0 ∧ (s.keys.get 0).bytes = zeroKey ∧
      (s.keys.get 0).original = inviteKey ∧ (s.links.get 0).place = .agreed oneTranscript :=
    exists_run_of_any (fun s : Racing => (s.links.get 0).key = some 0 ∧
      (s.keys.get 0).bytes = zeroKey ∧ (s.keys.get 0).original = inviteKey ∧
      (s.links.get 0).place = .agreed oneTranscript) (by decide)
  obtain ⟨t, u, hconfirm, hverify, hkeys, hdone, huses⟩ :=
    accepts_confirmation hplace hkey hbytes (by decide) (by decide)
  refine ⟨u, .snoc (.snoc hrun hconfirm) hverify, hkeys ▸ horig, hdone, ?_⟩
  rw [huses]
  exact ⟨List.mem_cons_of_mem _ List.mem_cons_self, List.mem_cons_self⟩

end Steps

end Racing

end Heimdall.Connect
