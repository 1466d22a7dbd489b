/-
One invite code, from the client that publishes it to the peers that claim it.

The publisher is a `Client` with its supervised connection, the relay is the `Server`, and between
them are the messages: what `resendWaiters` has sent on a connection is read by that connection's
handler in order, if it gets that far, and what the relay sends back waits until `readPump` reads it
or is lost with the connection. Claimers are connections of the relay that claim whatever they like.

The relay deletes a code when it is claimed, so that nobody else can claim it. But it keeps no
memory of it, and the client publishes whatever it still holds. If the publisher's connection is
lost with the `paired` message still on it, the code is published again, and claimed again
(`claimed_twice`); and a request that two calls of `resendWaiters` have both sent does the same
without a loss. A code is claimed once, as long as the relay reads no publish of a code that it has
paired or is pairing (`claimed_once`).
-/
import Heimdall.Client
import Heimdall.RelayTraffic

set_option autoImplicit false

namespace Heimdall.Relay

def Pc.pairs : Pc → Bool
  | pairTaken | pairIssued _ _ _ => true
  | gone | control | redeemed _ _ | waiting _ _ _ | splicing _ _ => false

theorem Moves.pairs_of {hs hs' : Heap Handler} {h x : ℕ} {pc : Pc} {also : Set ℕ}
    (hm : Moves hs hs' h pc also) (hpc : pc.pairs = false) (hx : (hs'.get x).pc.pairs = true) :
    x ≠ h ∧ (hs.get x).pc.pairs = true := by
  rcases hm.cases x with ⟨-, hx'⟩ | ⟨hne, hx'⟩
  · rw [hx', hpc] at hx
    exact absurd hx nofun
  · exact ⟨hne, hx' ▸ hx⟩

theorem Server.Effect.pairs_of {L : Limits} {s s' : Server} {a : Act} {x : ℕ}
    (heff : s.Effect L a s')
    (hclaim : ∀ rid, a ≠ .claim x rid true) (hx : (s'.handler.get x).pc.pairs = true) :
    (s.handler.get x).pc.pairs = true := by
  cases heff with
  | connect =>
    dsimp only at hx
    by_cases hxn : x = s.handler.next
    · rw [hxn, Heap.get_alloc_next] at hx
      exact absurd hx nofun
    · rwa [Heap.get_alloc_of_ne _ _ hxn] at hx
  | quiet _ hpc hm =>
    refine (hm.pairs_of ?_ hx).2
    rcases hpc with rfl | rfl <;> rfl
  | @take h rid p hs _ _ hm =>
    rcases hm.cases x with ⟨rfl, -⟩ | ⟨-, hsame⟩
    · exact absurd rfl (hclaim rid)
    · exact hsame ▸ hx
  | issue hfrom _ _ _ hm =>
    -- the handler goes on inside `pair`
    rcases hm.cases x with ⟨rfl, -⟩ | ⟨-, hsame⟩
    · rw [hfrom]
      rfl
    · exact hsame ▸ hx
  | giveBack _ hm | resume _ hm | drop _ hm | redeem _ _ hm | fail _ hm
  | splice _ _ hm | wake _ _ hm | idle _ hm | shutdown _ _ hm => exact (hm.pairs_of rfl hx).2
  | @attach h c side hfrom =>
    refine ((s.moves_attach h c side).pairs_of ?_ hx).2
    split_ifs <;> rfl
  | pump | sweep | close | tick => exact hx

end Heimdall.Relay

namespace Heimdall.Invites

open Heimdall.Peers (GoString)
open Heimdall.Rendezvous
open Heimdall.Relay (Limits Server)
open Heimdall.Runs

/-! ## The parties and the messages between them -/

/-- The publisher, the relay, and what is on the way. -/
structure Exchange where
  pub : Client := {}
  srv : Server := {}
  /-- The relay's handler of the client's connection `k`. -/
  handlerOf : ℕ → Option ℕ := fun _ => none
  /-- How many of the requests on connection `k` the relay has read. -/
  read : ℕ → ℕ := fun _ => 0
  /-- What the relay has sent to connection `h`, and the other end has not read. -/
  down : ℕ → List Reply := fun _ => []
  /-- The variables of the last `pair` of handler `h`: the ID, and the publisher's connection. -/
  pairing : ℕ → GoString × ℕ := fun _ => ([], 0)
  /-- The claims that have been answered with `paired`. -/
  answered : List GoString := []

inductive ExchangeAct where
  /-- A step of the client alone. -/
  | client (a : ClientAct)
  /-- The client's dial succeeds, and the relay has accepted it. -/
  | connect (ip : GoString)
  /-- The relay reads the next request of the client's connection `k`. -/
  | read (k : ℕ) (allowed sent : Bool)
  /-- `readPump` reads a message. -/
  | receive
  /-- A claimer's request. -/
  | claim (h : ℕ) (rid : GoString) (sent : Bool)
  /-- The two `paired` messages, each of which can fail. -/
  | deliver (h : ℕ) (pubOk claimOk : Bool)
  /-- Any other step of the relay. -/
  | relay (a : Relay.Act)

/-- A step of the client that no one else takes part in. -/
def alone : ClientAct → Bool
  | .connect | .dispatch _ => false
  | .dial | .dialFail | .pump | .lose | .reset | .register _ _ _ | .capture _ _ | .send _ _
  | .mark _
  | .unregister _ | .await _ _ | .close => true

/-- A step of the relay that is not spelt out above. -/
def other : Relay.Act → Bool
  | .publish _ _ _ _ | .claim _ _ _ | .deliver _ _ => false
  | .connect _ | .quit _ | .issue _ _ | .redeem _ _ | .answer _ _ | .pumpEnd _ | .spliceEnd _
  | .wake _
  | .idle _ | .shutdown _ | .sweep | .close | .tick _ => true

namespace Exchange

variable (L : Limits) (e : Exchange)

def say (down : ℕ → List Reply) (h : ℕ) (ms : List Reply) : ℕ → List Reply :=
  Function.update down h (down h ++ ms)

def request (k : ℕ) : Option Request :=
  ((e.pub.log.filter fun x => x.conn = k).map Sending.request)[e.read k]?

def publish (h : ℕ) (rid : GoString) (allowed sent : Bool) : Option Exchange :=
  (e.srv.next L (.publish h rid allowed sent)).map fun t => { e with
    srv := t
    down :=
      -- a refusal is sent before the connection is closed
      if allowed = true ∧ (e.srv.addPending L rid h).1 = true then
        if sent then say e.down h [.published rid] else e.down
      else say e.down h [.error rid] }

/-- `MsgClaim`, up to the slot that `pair` takes. -/
def claim (h : ℕ) (rid : GoString) (sent : Bool) : Option Exchange :=
  (e.srv.next L (.claim h rid sent)).map fun t =>
    match e.srv.pending.lookup rid, (t.handler.get h).pc with
    | some p, .pairTaken => { e with
        srv := t
        pairing := Function.update e.pairing h (rid, p.conn)
        down := say e.down h [.published rid] }
    -- `published` is sent before `pair` looks for the code
    | _, _ => { e with
        srv := t, down := if sent then say e.down h [.published rid, .error rid] else e.down }

/-- The end of `pair`. -/
def deliver (h : ℕ) (pubOk claimOk : Bool) : Option Exchange :=
  let (rid, pub) := e.pairing h
  (e.srv.next L (.deliver h (pubOk && claimOk))).map fun t => { e with
    srv := t
    answered := if claimOk then rid :: e.answered else e.answered
    down :=
      -- both are told, also if the first could not be reached
      let told := if pubOk then say e.down pub [.paired rid] else e.down
      let told' := if claimOk then say told h [.paired rid] else told
      if pubOk && claimOk then told' else say told' h [.error rid] }

def next (e : Exchange) : ExchangeAct → Option Exchange
  | .client a => if alone a then (e.pub.next a).map fun c => { e with pub := c } else none
  | .connect ip => do
    let c ← e.pub.next .connect
    let t ← e.srv.next L (.connect ip)
    return { e with
      pub := c, srv := t
      handlerOf := Function.update e.handlerOf e.pub.conns (some e.srv.handler.next) }
  | .read k allowed sent => do
    let h ← e.handlerOf k
    let r ← e.request k
    let e' := { e with read := Function.update e.read k (e.read k + 1) }
    match r.typ with
    | .publish => e'.publish L h r.rid allowed sent
    | .claim => e'.claim L h r.rid sent
  | .receive =>
    match e.pub.sup with
    | .pumping k => do
      let h ← e.handlerOf k
      match e.down h with
      | [] => none
      | m :: rest => (e.pub.next (.dispatch m)).map fun c =>
          { e with pub := c, down := Function.update e.down h rest }
    | _ => none
  | .claim h rid sent => e.claim L h rid sent
  | .deliver h pubOk claimOk => e.deliver L h pubOk claimOk
  | .relay a =>
    if other a then (e.srv.next L a).map fun t => { e with
      srv := t
      down :=
        match a with
        -- `pair` has failed, and the claim is refused
        | .issue h none => say e.down h [.error (e.pairing h).1]
        | _ => e.down }
    else none

/-! ## Claimed once -/

/-- Handler `h` is in `pair` for `rid`. -/
def Pairing (h : ℕ) (rid : GoString) : Prop :=
  (e.srv.handler.get h).pc.pairs = true ∧ (e.pairing h).1 = rid

instance (h : ℕ) (rid : GoString) :
    Decidable (e.Pairing h rid) := inferInstanceAs (Decidable (_ ∧ _))

/-- No claim of `rid` has been answered with `paired`, or is about to be. -/
def Unclaimed (rid : GoString) : Prop :=
  rid ∉ e.answered ∧ ∀ h < e.srv.handler.next, ¬ e.Pairing h rid

instance (rid : GoString) : Decidable (e.Unclaimed rid) := inferInstanceAs (Decidable (_ ∧ _))

/-- The relay does not read a publish of a code that it has paired or is pairing. -/
def Unrepeated : ExchangeAct → Prop
  | .read k _ _ => ∀ r ∈ e.request k, r.typ = .publish → e.Unclaimed r.rid
  | _ => True

instance : DecidablePred e.Unrepeated
  | .read k _ _ =>
    inferInstanceAs (Decidable (∀ r ∈ e.request k, r.typ = .publish → e.Unclaimed r.rid))
  | .client _ | .connect _ | .receive | .claim _ _ _ | .deliver _ _ _ | .relay _ =>
    inferInstanceAs (Decidable True)

/-- A step in which nothing is published again that was claimed. -/
def StepUnrepeated (e : Exchange) (a : ExchangeAct) (e' : Exchange) : Prop :=
  e.next L a = some e' ∧ e.Unrepeated a

/-- What holds in every state of a run in which nothing is published again that was claimed. -/
structure OneClaim : Prop where
  wired : e.srv.Wired
  once : ∀ rid, e.answered.count rid ≤ 1
  /-- A code that can be claimed has not been claimed. -/
  pending : ∀ rid p, e.srv.pending.lookup rid = some p →
    rid ∉ e.answered ∧ ∀ h, ¬ e.Pairing h rid
  fresh : ∀ h rid, e.Pairing h rid → rid ∉ e.answered
  sole : ∀ h h' rid, e.Pairing h rid → e.Pairing h' rid → h = h'

variable {L} {e e' : Exchange} {a : ExchangeAct}

theorem OneClaim.start : OneClaim {} where
  wired := .start
  once _ := Nat.zero_le 1
  pending := nofun
  fresh _ _ h := absurd h.1 nofun
  sole _ _ _ h := absurd h.1 nofun

/-- A handler that does not exist is not in `pair`, so the bound in `Unclaimed` excludes nobody. -/
theorem Unclaimed.not_pairing {rid : GoString} (hun : e.Unclaimed rid) (hw : e.srv.Wired) (h : ℕ) :
    ¬ e.Pairing h rid := by
  intro hp
  by_cases hlt : h < e.srv.handler.next
  · exact hun.2 h hlt hp
  · have hgone := hw.fresh h (by omega)
    rw [Pairing, hgone] at hp
    exact absurd hp.1 nofun

/-- **A step that takes nobody into `pair`.** The codes that can be claimed were there before, or
have not been claimed. -/
theorem OneClaim.of_srv (h : e.OneClaim) (hwired : e'.srv.Wired)
    (hanswered : e'.answered = e.answered)
    (hpairing : ∀ x rid, e'.Pairing x rid → e.Pairing x rid)
    (hpending : ∀ rid p, e'.srv.pending.lookup rid = some p →
      (∃ q, e.srv.pending.lookup rid = some q) ∨ e.Unclaimed rid) : e'.OneClaim where
  wired := hwired
  once rid := hanswered ▸ h.once rid
  pending rid p hp := by
    rw [hanswered]
    rcases hpending rid p hp with ⟨q, hq⟩ | hun
    · obtain ⟨hno, hnone⟩ := h.pending rid q hq
      exact ⟨hno, fun x hx => hnone x (hpairing x rid hx)⟩
    · exact ⟨hun.1, fun x hx => hun.not_pairing h.wired x (hpairing x rid hx)⟩
  fresh x rid hx := hanswered ▸ h.fresh x rid (hpairing x rid hx)
  sole x y rid hx hy := h.sole x y rid (hpairing x rid hx) (hpairing y rid hy)

/-- A step of the relay that is no claim, and publishes only what has not been claimed. It takes
nobody into `pair` and adds at most the code it publishes. -/
theorem OneClaim.of_next (h : e.OneClaim) {a : Relay.Act} {t : Server}
    (hnext : e.srv.next L a = some t)
    (hsrv : e'.srv = t) (hvars : e'.pairing = e.pairing) (hanswered : e'.answered = e.answered)
    (hclaim : ∀ x rid, a ≠ .claim x rid true)
    (hpub : ∀ x rid u v, a = .publish x rid u v → e.Unclaimed rid) : e'.OneClaim := by
  subst hsrv
  have heff := Server.next_effect hnext
  apply h.of_srv (h.wired.step heff) hanswered
  · intro x rid hx
    rw [Pairing, hvars] at hx
    exact ⟨heff.pairs_of (hclaim x) hx.1, hx.2⟩
  · intro rid p hp
    -- a publication that is refused, one that is entered, or another step
    by_cases hpubl : ∃ x rid' u v, a = .publish x rid' u v
    · obtain ⟨x, rid', u, v, rfl⟩ := hpubl
      obtain ⟨-, ⟨-, heq⟩ | ⟨-, t, u', hroom, hsame, heq⟩⟩ := Server.next_publish hnext
      · rw [heq] at hp
        exact .inl ⟨p, Server.lookup_of_finish hp⟩
      · rw [heq] at hp
        rcases Server.lookup_of_addPending hroom hsame hp with ⟨rfl, -⟩ | ⟨-, hold⟩
        · exact .inr (hpub x rid u v rfl)
        · exact .inl ⟨p, hold⟩
    · left
      refine ⟨p, (Server.next_traffic hnext).lookup_of ?_ hp⟩
      intro x rid' u v heq
      exact hpubl ⟨x, rid', u, v, heq⟩

theorem OneClaim.congr (h : e.OneClaim) (hsrv : e'.srv = e.srv) (hvars : e'.pairing = e.pairing)
    (hanswered : e'.answered = e.answered) : e'.OneClaim := by
  apply h.of_srv (hsrv ▸ h.wired) hanswered
  · intro x rid hx
    rw [Pairing, hsrv, hvars] at hx
    exact hx
  · intro rid p hp
    exact .inl ⟨p, hsrv ▸ hp⟩

/-- **A code is claimed**: it could be claimed, so nobody else is in `pair` for it. It cannot be
claimed again until it is published again. -/
theorem OneClaim.taken (h : e.OneClaim) {x : ℕ} {rid : GoString} {p : Relay.PendingCode}
    (hp : e.srv.pending.lookup rid = some p) (hwired : e'.srv.Wired)
    (hanswered : e'.answered = e.answered)
    (hvars : e'.pairing = Function.update e.pairing x (rid, p.conn))
    (hpending : e'.srv.pending = e.srv.pending.erase rid)
    (hothers : ∀ y, y ≠ x → (e'.srv.handler.get y).pc = (e.srv.handler.get y).pc) :
    e'.OneClaim := by
  obtain ⟨hno, hnone⟩ := h.pending rid p hp
  -- in `pair` are those who were, and the claimer for this code
  have hpairing : ∀ y rid', e'.Pairing y rid' → (y = x ∧ rid' = rid) ∨ e.Pairing y rid' := by
    rintro y rid' ⟨hpc, hrid⟩
    rw [hvars] at hrid
    by_cases hy : y = x
    · subst hy
      rw [Function.update_self] at hrid
      exact .inl ⟨rfl, hrid.symm⟩
    · rw [Function.update_of_ne hy] at hrid
      exact .inr ⟨hothers y hy ▸ hpc, hrid⟩
  constructor
  case wired => exact hwired
  case once => exact fun rid' => hanswered ▸ h.once rid'
  case pending =>
    intro rid' q hq
    rw [hpending] at hq
    obtain ⟨hold, hne⟩ := Maps.lookup_of_erase _ hq
    obtain ⟨hno', hnone'⟩ := h.pending rid' q hold
    refine ⟨hanswered ▸ hno', fun y hy => ?_⟩
    rcases hpairing y rid' hy with ⟨-, heq⟩ | hold'
    · exact hne heq
    · exact hnone' y hold'
  case fresh =>
    intro y rid' hy
    rw [hanswered]
    rcases hpairing y rid' hy with ⟨-, rfl⟩ | hold
    · exact hno
    · exact h.fresh y rid' hold
  case sole =>
    intro y z rid' hy hz
    rcases hpairing y rid' hy with ⟨rfl, rfl⟩ | hy' <;>
      rcases hpairing z rid' hz with ⟨rfl, hz'⟩ | hz'
    · rfl
    · exact absurd hz' (hnone z)
    · exact absurd (hz' ▸ hy') (hnone y)
    · exact h.sole y z rid' hy' hz'

/-- `MsgClaim` takes a code, or is refused and changes nothing that matters here. -/
theorem OneClaim.claim (h : e.OneClaim) {x : ℕ} {rid : GoString} {sent : Bool}
    (hclaim : e.claim L x rid sent = some e') : e'.OneClaim := by
  obtain ⟨t, hnext, heq⟩ := Option.map_eq_some_iff.mp hclaim
  have hwired : t.Wired := h.wired.step (Server.next_effect hnext)
  obtain ⟨hfrom, hcases⟩ := Server.next_claim hnext
  -- where the handler is, and who else is in `pair`, in the two cases in which no slot is taken
  have hrest : t = e.srv ∨ t = e.srv.finish x →
      (t.handler.get x).pc ≠ .pairTaken ∧
        (∀ y, (t.handler.get y).pc.pairs = true → (e.srv.handler.get y).pc.pairs = true) ∧
        ∀ r q, t.pending.lookup r = some q → e.srv.pending.lookup r = some q := by
    rintro (rfl | rfl)
    · exact ⟨by rw [hfrom]; nofun, fun _ => id, fun _ _ => id⟩
    · have hm := Server.moves_leave e.srv.handler x
      rw [Server.finish_eq]
      refine ⟨?_, fun y hy => (hm.pairs_of rfl hy).2, fun r q hq => Server.lookup_of_finish hq⟩
      rw [hm.pc_self]
      nofun
  split at heq
  · next p hp hpc =>
    subst heq
    rcases hcases with rfl | rfl | ⟨-, -, q, -, -, rfl⟩
    · exact absurd hpc (hrest (.inl rfl)).1
    · exact absurd hpc (hrest (.inr rfl)).1
    · exact h.taken (x := x) hp hwired rfl rfl rfl
        fun y hy => (Server.moves_setPc _ x .pairTaken).pc_other y hy
  · next hnot =>
    subst heq
    have hsame : t = e.srv ∨ t = e.srv.finish x := by
      rcases hcases with hs | hs | ⟨-, -, q, hq, -, rfl⟩
      · exact .inl hs
      · exact .inr hs
      · exact absurd (Server.moves_setPc _ x .pairTaken).pc_self (hnot q hq)
    obtain ⟨-, hpairs, hpend⟩ := hrest hsame
    refine h.of_srv hwired rfl ?_ ?_
    · exact fun y r hy => ⟨hpairs y hy.1, hy.2⟩
    · exact fun r q hq => .inl ⟨q, hpend r q hq⟩

theorem pairs_deliver {s t : Server} {x : ℕ} {sent : Bool}
    (hnext : s.next L (.deliver x sent) = some t) :
    (s.handler.get x).pc.pairs = true ∧ (t.handler.get x).pc.pairs = false := by
  obtain ⟨c, ta, tb, hfrom, rfl⟩ := Server.next_deliver hnext
  refine ⟨by rw [hfrom]; rfl, ?_⟩
  rcases sent with _ | _
  · exact congrArg Relay.Pc.pairs (Server.moves_setPc (s.dropCircuit c ta tb) x .control).pc_self
  · exact congrArg Relay.Pc.pairs (Server.moves_setPc s x .control).pc_self

/-- **A claim is answered**: it was the only one in `pair` for its code, and its code had not been
answered. -/
theorem OneClaim.deliver (h : e.OneClaim) {x : ℕ} {pubOk claimOk : Bool}
    (hdeliver : e.deliver L x pubOk claimOk = some e') : e'.OneClaim := by
  obtain ⟨t, hnext, rfl⟩ := Option.map_eq_some_iff.mp hdeliver
  have heff := Server.next_effect hnext
  obtain ⟨hin, hout⟩ := pairs_deliver hnext
  have hself : e.Pairing x (e.pairing x).1 := ⟨hin, rfl⟩
  -- whoever is in `pair` now was so before, and is not the handler whose claim is answered
  have hpairing : ∀ y rid, (t.handler.get y).pc.pairs = true ∧ (e.pairing y).1 = rid →
      y ≠ x ∧ e.Pairing y rid := by
    rintro y rid ⟨hpc, hrid⟩
    refine ⟨fun hy => ?_, heff.pairs_of (fun _ => nofun) hpc, hrid⟩
    rw [hy, hout] at hpc
    exact absurd hpc nofun
  have hpending : ∀ rid p, t.pending.lookup rid = some p → e.srv.pending.lookup rid = some p :=
    fun rid p hp => (Server.next_traffic hnext).lookup_of (fun _ _ _ _ => nofun) hp
  cases claimOk with
  | false =>
    refine h.of_srv (h.wired.step heff) rfl ?_ ?_
    · exact fun y rid hy => (hpairing y rid hy).2
    · exact fun rid p hp => .inl ⟨p, hpending rid p hp⟩
  | true =>
    have hnot : ∀ rid, rid ∉ e.answered → rid ≠ (e.pairing x).1 →
        rid ∉ (e.pairing x).1 :: e.answered :=
      fun rid hno hne hmem => (List.mem_cons.mp hmem).elim hne hno
    constructor
    case wired => exact h.wired.step heff
    case once =>
      intro rid
      change List.count rid ((e.pairing x).1 :: e.answered) ≤ 1
      by_cases hrid : rid = (e.pairing x).1
      · have hzero := List.count_eq_zero_of_not_mem (h.fresh x _ hself)
        rw [hrid, List.count_cons_self]
        omega
      · rw [List.count_cons_of_ne (fun heq => hrid heq.symm)]
        exact h.once rid
    case pending =>
      intro rid p hp
      obtain ⟨hno, hnone⟩ := h.pending rid p (hpending rid p hp)
      refine ⟨hnot rid hno fun heq => hnone x (heq ▸ hself), fun y hy => ?_⟩
      exact hnone y (hpairing y rid hy).2
    case fresh =>
      intro y rid hy
      obtain ⟨hne, hold⟩ := hpairing y rid hy
      apply hnot rid (h.fresh y rid hold)
      intro heq
      exact hne (h.sole y x rid hold (heq ▸ hself))
    case sole =>
      exact fun y z rid hy hz => h.sole y z rid (hpairing y rid hy).2 (hpairing z rid hz).2

theorem OneClaim.publish (h : e.OneClaim) {x : ℕ} {rid : GoString} {allowed sent : Bool}
    (hun : e.Unclaimed rid) (hpub : e.publish L x rid allowed sent = some e') : e'.OneClaim := by
  obtain ⟨t, hnext, rfl⟩ := Option.map_eq_some_iff.mp hpub
  refine h.of_next hnext rfl rfl rfl (fun _ _ => nofun) ?_
  intro _ _ _ _ heq
  cases heq
  exact hun

/-- Step lemma. The client's own steps and the messages on the way do not matter; a request that
the relay reads is a publication, for which the condition is needed, or a claim. -/
theorem OneClaim.step (h : e.OneClaim) (hstep : StepUnrepeated L e a e') : e'.OneClaim := by
  obtain ⟨hnext, hcond⟩ := hstep
  cases a with
  | client a =>
    simp only [next] at hnext
    split_ifs at hnext
    obtain ⟨c, -, rfl⟩ := Option.map_eq_some_iff.mp hnext
    exact h.congr rfl rfl rfl
  | connect ip =>
    simp only [next, Option.bind_eq_bind, Option.bind_eq_some_iff] at hnext
    obtain ⟨c, -, t, hconn, heq⟩ := hnext
    cases heq
    exact h.of_next hconn rfl rfl rfl (fun _ _ => nofun) (fun _ _ _ _ => nofun)
  | read k allowed sent =>
    simp only [next, Option.bind_eq_bind, Option.bind_eq_some_iff] at hnext
    obtain ⟨x, -, r, hr, heq⟩ := hnext
    have hread : OneClaim { e with read := Function.update e.read k (e.read k + 1) } :=
      h.congr rfl rfl rfl
    split at heq
    · next htyp => exact hread.publish (hcond r hr htyp) heq
    · exact hread.claim heq
  | receive =>
    simp only [next] at hnext
    split at hnext
    · simp only [Option.bind_eq_bind, Option.bind_eq_some_iff] at hnext
      obtain ⟨x, -, heq⟩ := hnext
      split at heq
      · exact absurd heq nofun
      · obtain ⟨c, -, rfl⟩ := Option.map_eq_some_iff.mp heq
        exact h.congr rfl rfl rfl
    · exact absurd hnext nofun
  | claim x rid sent => exact h.claim hnext
  | deliver x pubOk claimOk => exact h.deliver hnext
  | relay a =>
    simp only [next] at hnext
    split_ifs at hnext with hother
    obtain ⟨t, ht, rfl⟩ := Option.map_eq_some_iff.mp hnext
    refine h.of_next ht rfl rfl rfl ?_ ?_
    · rintro x rid rfl
      exact absurd hother nofun
    · rintro x rid u v rfl
      exact absurd hother nofun

/-- **A code is claimed at most once**, as long as the relay reads no publish of a code that it has
paired or is pairing. -/
theorem claimed_once (L : Limits) {acts : List ExchangeAct}
    (hrun : Run (StepUnrepeated L) {} acts e) (rid : GoString) : e.answered.count rid ≤ 1 :=
  (hrun.invariant OneClaim .start fun _ _ _ h hstep => h.step hstep).once rid

def inviteActs : List ExchangeAct :=
  [.client .dial, .connect [9], .client (.capture 0 []), .client .pump,
    .client (.register [1] false [7]), .client (.capture 1 [([1], 0)]), .client (.send 1 true)]

/-- The client loses its connection, connects again and sends the invite again; the relay reads
it. -/
def againActs : List ExchangeAct :=
  [.client .lose, .client .reset, .client .dial, .connect [9], .client (.capture 2 [([1], 0)]),
    .client (.send 2 true), .client (.mark 2), .read 1 true true]

def claimActs (h ta tb : ℕ) : List ExchangeAct :=
  [.relay (.connect [5]), .claim h [1] true, .relay (.issue h (some (ta, tb))),
    .deliver h true true]

/-- An invite that is published again before it is claimed is claimed once. -/
theorem claimed_once_republished :
    ∃ e, Run (StepUnrepeated Relay.defaultLimits) {}
        (inviteActs ++ [.client (.mark 1), .read 0 true true] ++ againActs ++ claimActs 2 10 11) e ∧
      [1] ∈ e.answered ∧ e.answered.count [1] ≤ 1 := by
  obtain ⟨e, hrun, hmem⟩ : ∃ e, Run (StepUnrepeated Relay.defaultLimits) {}
      (inviteActs ++ [.client (.mark 1), .read 0 true true] ++ againActs ++ claimActs 2 10 11) e ∧
        [1] ∈ e.answered := exists_run_guarded _ (by decide)
  exact ⟨e, hrun, hmem, claimed_once Relay.defaultLimits hrun [1]⟩

/-- A code is claimed twice: when the connection is lost before `paired` is read on it, and when
two calls of `resendWaiters` have sent the invite, one before the other has marked it. -/
theorem claimed_twice :
    (∃ e, Run (ofNext (next Relay.defaultLimits)) {}
        (inviteActs ++ [.client (.mark 1), .read 0 true true] ++ claimActs 1 10 11 ++ againActs ++
          claimActs 3 12 13) e ∧ e.answered.count [1] = 2) ∧
      ∃ e, Run (ofNext (next Relay.defaultLimits)) {}
        (inviteActs ++ [.client (.register [2] false [8]),
          .client (.capture 2 [([1], 0), ([2], 1)]), .client (.send 2 true), .read 0 true true] ++
          claimActs 1 10 11 ++ [.read 0 true true] ++ claimActs 2 12 13) e ∧
        e.answered.count [1] = 2 :=
  ⟨exists_run_of_any _ (by decide), exists_run_of_any _ (by decide)⟩

end Exchange

end Heimdall.Invites
