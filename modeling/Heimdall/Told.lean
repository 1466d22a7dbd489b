/-
Who is told what by the relay.

Everything a handler works with was read from its own connection, or was filed in the tables by
another handler that had read it from its own: so the tables and the desks agree with the record of
what was read and issued (`Sound`), which every step keeps. Two things are read off that. A
connection is told of nothing but what it has asked for, and of the other side of a pairing only
what that side has sent for this code (`told_own`). And the two ends of a pipe are connections that
have shown the two tickets of one pairing, each of which was told to nobody but the connection it is
for (`piped_together`). That a ticket was told at all before it is shown is not for the relay to
enforce: it rests on tickets not being guessed (`Desk.Unguessed`).
-/
import Heimdall.RelayPairing
import Heimdall.Serving

set_option autoImplicit false

namespace Heimdall.Serving

open Heimdall.Peers (GoString encodeToString)
open Heimdall.Relay
open Heimdall.Rendezvous (Message MsgType msgCircuitOK msgError ticketSize)
open Heimdall.Runs

/-! ## What is on record -/

namespace Log

variable (r : Log)

/-- Connection `h` has sent a request of this type. -/
def Heard (typ : GoString) (h : ℕ) (rid cand : GoString) : Prop :=
  ∃ m ∈ r.heard h, m.type = typ ∧ m.rendezvousID = rid ∧ m.candidates = cand

/-- Connection `h` has shown this ticket. -/
def Showed (h : ℕ) (ticket : GoString) : Prop :=
  ∃ m ∈ r.heard h, m.type = msgCircuit ∧ m.ticket = ticket

/-- A refusal of this ID answers a message of connection `h`, or names none. -/
def Asked (h : ℕ) (rid : GoString) : Prop := rid = [] ∨ ∃ m ∈ r.heard h, m.rendezvousID = rid

/-- Everything on record is still on record. -/
def Extends (r' : Log) : Prop := (∀ h, r'.heard h ⊆ r.heard h) ∧ r'.pairings ⊆ r.pairings

/-- `h` has shown the ticket of a side of circuit `c`. -/
def Holds (c : ℕ) (side : Bool) (h : ℕ) : Prop :=
  ∃ i ∈ r.pairings, i.circuit = c ∧ r.Showed h (encodeToString (i.ticket side))

end Log

section Spec

variable (punchDelay : Int64) (remoteAddr : ℕ → GoString)

/-- A code as connection `h` has published it. -/
structure Offered (r : Log) (h : ℕ) (rid : GoString) (code : GoString × GoString) : Prop where
  heard : r.Heard MsgType.publish.text h rid code.1
  observed : code.2 = remoteAddr h

/-- A claim of a code that another connection has published. -/
structure Genuine (r : Log) (v : Claim) : Prop where
  claimed : r.Heard MsgType.claim.text v.claimer v.rid v.cand
  offered : Offered remoteAddr r v.publisher v.rid (v.candidates, v.observed)
  ne : v.publisher ≠ v.claimer

/-- What connection `h` may be told. -/
inductive Told (r : Log) (h : ℕ) : Message → Prop
  | published {typ : MsgType} {rid cand : GoString} (hreq : r.Heard typ.text h rid cand) :
    Told r h (publishedMessage rid (remoteAddr h))
  | publisher {i : Pairing} (hi : i ∈ r.pairings) (hh : i.publisher = h) :
    Told r h (i.toPublisher punchDelay remoteAddr)
  | claimer {i : Pairing} (hi : i ∈ r.pairings) (hh : i.claimer = h) :
    Told r h (i.toClaimer punchDelay)
  | refused {rid : GoString} {reason : Reason} (hasked : r.Asked h rid) :
    Told r h (errorMessage rid reason)
  | circuitOK : Told r h circuitOK

/-- What a task of handler `h` is about was read from its connection. -/
def Backed (r : Log) (h : ℕ) : Task → Prop
  | .receiving | .attaching | .leaving => True
  | .publishing rid cand => r.Heard MsgType.publish.text h rid cand
  | .answering rid => ∃ cand, r.Heard MsgType.publish.text h rid cand
  | .claiming rid cand | .pairing rid cand => r.Heard MsgType.claim.text h rid cand
  | .taken v => v.claimer = h ∧ Genuine remoteAddr r v
  | .telling i | .told i _ | .delivered i _ => i ∈ r.pairings ∧ i.claimer = h
  | .redeeming ticket => r.Showed h ticket
  | .refusing rid _ _ => r.Asked h rid

variable {punchDelay remoteAddr} {r r' : Log} {h : ℕ}

theorem Log.Heard.mono {typ rid cand : GoString} (hx : r.Extends r')
    (hh : r'.Heard typ h rid cand) :
    r.Heard typ h rid cand := by
  obtain ⟨m, hm, hreq⟩ := hh
  exact ⟨m, hx.1 h hm, hreq⟩

theorem Log.Showed.mono {ticket : GoString} (hx : r.Extends r') (hh : r'.Showed h ticket) :
    r.Showed h ticket := by
  obtain ⟨m, hm, hshow⟩ := hh
  exact ⟨m, hx.1 h hm, hshow⟩

theorem Log.Asked.mono {rid : GoString} (hx : r.Extends r') (hh : r'.Asked h rid) :
    r.Asked h rid := by
  rcases hh with hnil | ⟨m, hm, hrid⟩
  · exact .inl hnil
  · exact .inr ⟨m, hx.1 h hm, hrid⟩

theorem Log.Holds.mono {c : ℕ} {side : Bool} (hx : r.Extends r') (hh : r'.Holds c side h) :
    r.Holds c side h := by
  obtain ⟨i, hi, hc, hshow⟩ := hh
  exact ⟨i, hx.2 hi, hc, hshow.mono hx⟩

theorem Offered.mono {rid : GoString} {code : GoString × GoString} (hx : r.Extends r')
    (ho : Offered remoteAddr r' h rid code) : Offered remoteAddr r h rid code :=
  ⟨ho.heard.mono hx, ho.observed⟩

theorem Genuine.mono {v : Claim} (hx : r.Extends r') (hg : Genuine remoteAddr r' v) :
    Genuine remoteAddr r v :=
  ⟨hg.claimed.mono hx, hg.offered.mono hx, hg.ne⟩

/-- What is told is explained by what is on record, and the record only grows. -/
theorem Told.mono {m : Message} (hx : r.Extends r') (ht : Told punchDelay remoteAddr r' h m) :
    Told punchDelay remoteAddr r h m := by
  cases ht with
  | published hreq => exact .published (hreq.mono hx)
  | publisher hi hh => exact .publisher (hx.2 hi) hh
  | claimer hi hh => exact .claimer (hx.2 hi) hh
  | refused hasked => exact .refused (hasked.mono hx)
  | circuitOK => exact .circuitOK

theorem Backed.mono {t : Task} (hx : r.Extends r') (hb : Backed remoteAddr r' h t) :
    Backed remoteAddr r h t := by
  cases t with
  | receiving | attaching | leaving => trivial
  | publishing | claiming | pairing => exact Log.Heard.mono hx hb
  | answering =>
    obtain ⟨cand, hreq⟩ := hb
    exact ⟨cand, hreq.mono hx⟩
  | taken => exact ⟨hb.1, hb.2.mono hx⟩
  | telling | told | delivered => exact ⟨hx.2 hb.1, hb.2⟩
  | redeeming => exact Log.Showed.mono hx hb
  | refusing => exact Log.Asked.mono hx hb

/-! ## What holds in every state -/

/-- The tables and the desks agree with the record. -/
structure Sound (punchDelay : Int64) (remoteAddr : ℕ → GoString) (x : Relaying) : Prop where
  wired : x.srv.Wired
  said : ∀ h, ∀ m ∈ x.desk.said h, Told punchDelay remoteAddr x.desk.log h m
  task : ∀ h, Backed remoteAddr x.desk.log h (x.desk.task h)
  codes : ∀ rid p, x.srv.pending.lookup rid = some p →
    Offered remoteAddr x.desk.log p.conn rid (x.desk.code rid)
  pairings : ∀ i ∈ x.desk.log.pairings, Genuine remoteAddr x.desk.log i.toClaim ∧
    i.circuit < x.srv.circuit.next ∧
    ∀ side, (i.ticket side).length = ticketSize ∧
      ticketKey (encodeToString (i.ticket side)) ∈ x.srv.issued
  distinct : ∀ i ∈ x.desk.log.pairings, ∀ j ∈ x.desk.log.pairings, ∀ side side',
    i.ticket side = j.ticket side' → i = j ∧ side = side'
  circuits : ∀ i ∈ x.desk.log.pairings, ∀ j ∈ x.desk.log.pairings, i.circuit = j.circuit → i = j
  ticket : ∀ k ref, x.srv.tickets.lookup k = some ref → ∃ i ∈ x.desk.log.pairings,
    i.circuit = ref.circuit ∧ k = ticketKey (encodeToString (i.ticket ref.side))
  holder : ∀ h c side, (x.srv.handler.get h).pc = .redeemed c side → x.desk.log.Holds c side h
  conn : ∀ c side h, (x.srv.circuit.get c).conns side = some h → x.desk.log.Holds c side h

theorem Sound.start : Sound punchDelay remoteAddr {} where
  wired := .start
  said := nofun
  task _ := trivial
  codes := nofun
  pairings := nofun
  distinct := nofun
  circuits := nofun
  ticket := nofun
  holder := nofun
  conn := nofun

end Spec

namespace Sound

variable {L : Limits} {punchDelay : Int64} {remoteAddr : ℕ → GoString} {s s' : Server} {d : Desk}
  {h : ℕ}
  {a : Act}

/-! ### The desks alone -/

theorem setTask (hx : Sound punchDelay remoteAddr ⟨s, d⟩) {t : Task}
    (hb : Backed remoteAddr d.log h t) :
    Sound punchDelay remoteAddr ⟨s, d.setTask h t⟩ where
  __ := hx
  task h' := by
    show Backed remoteAddr d.log h' (Function.update d.task h t h')
    by_cases hh : h' = h
    · subst hh
      rwa [Function.update_self]
    · rw [Function.update_of_ne hh]
      exact hx.task h'

/-- A message may be said if the record explains it. If the connection is broken it is not said at
all. -/
theorem say (hx : Sound punchDelay remoteAddr ⟨s, d⟩) {m : Message}
    (ht : Told punchDelay remoteAddr d.log h m) (sent : Bool) :
    Sound punchDelay remoteAddr ⟨s, d.say h m sent⟩ := by
  cases sent with
  | false => exact hx
  | true =>
    refine { hx with said := ?_ }
    intro h' m' hm'
    change m' ∈ Function.update d.said h (d.said h ++ [m]) h' at hm'
    -- on this connection it is one more, and on the others nothing changes
    by_cases hh : h' = h
    · subst hh
      rw [Function.update_self, List.mem_append, List.mem_singleton] at hm'
      rcases hm' with hold | rfl
      · exact hx.said h' m' hold
      · exact ht
    · rw [Function.update_of_ne hh] at hm'
      exact hx.said h' m' hm'

theorem extends_hear (d : Desk) (h : ℕ) (m : Message) : (d.hear h m).log.Extends d.log := by
  refine ⟨?_, fun _ hi => hi⟩
  intro h' m' hm'
  show m' ∈ Function.update d.log.heard h (d.log.heard h ++ [m]) h'
  by_cases hh : h' = h
  · subst hh
    rw [Function.update_self]
    exact List.mem_append_left _ hm'
  · rwa [Function.update_of_ne hh]

theorem mem_hear (d : Desk) (h : ℕ) (m : Message) : m ∈ (d.hear h m).log.heard h := by
  show m ∈ Function.update d.log.heard h (d.log.heard h ++ [m]) h
  rw [Function.update_self]
  exact List.mem_append_right _ List.mem_cons_self

theorem hear (hx : Sound punchDelay remoteAddr ⟨s, d⟩) (m : Message) :
    Sound punchDelay remoteAddr ⟨s, d.hear h m⟩ := by
  have hext := extends_hear d h m
  constructor
  case wired => exact hx.wired
  case said => exact fun h' m' hm' => (hx.said h' m' hm').mono hext
  case task => exact fun h' => (hx.task h').mono hext
  case codes => exact fun rid p hp => (hx.codes rid p hp).mono hext
  case pairings =>
    intro i hi
    obtain ⟨hgen, hrest⟩ := hx.pairings i hi
    exact ⟨hgen.mono hext, hrest⟩
  case distinct => exact hx.distinct
  case circuits => exact hx.circuits
  case ticket => exact hx.ticket
  case holder => exact fun h' c side hpc => (hx.holder h' c side hpc).mono hext
  case conn => exact fun c side h' hc => (hx.conn c side h' hc).mono hext

theorem limit (hx : Sound punchDelay remoteAddr ⟨s, d⟩) (p : RateCounter) :
    Sound punchDelay remoteAddr ⟨s, { d with publishes := p }⟩ :=
  { hx with }

/-! ### The tables -/

theorem letsGo (hx : Sound punchDelay remoteAddr ⟨s, d⟩) (hnext : s.next L a = some s')
    (hl : LetsGo s s') {code : GoString → GoString × GoString}
    (hcodes : ∀ rid p, s'.pending.lookup rid = some p →
      Offered remoteAddr d.log p.conn rid (code rid)) :
    Sound punchDelay remoteAddr ⟨s', { d with code := code }⟩ where
  wired := hx.wired.step (Server.next_effect hnext)
  said := hx.said
  task := hx.task
  codes := hcodes
  pairings i hi := by
    obtain ⟨hgen, hc, htickets⟩ := hx.pairings i hi
    refine ⟨hgen, hl.circuit.next ▸ hc, ?_⟩
    intro side
    rw [hl.issued]
    exact htickets side
  distinct := hx.distinct
  circuits := hx.circuits
  ticket k ref hk := hx.ticket k ref (hl.tickets k ref hk)
  holder h' c side hpc := hx.holder h' c side (hl.pc_of hpc nofun nofun nofun)
  conn c side h' hc := by
    rw [hl.circuit.conns] at hc
    exact hx.conn c side h' hc

theorem quiet (hx : Sound punchDelay remoteAddr ⟨s, d⟩) (hnext : s.next L a = some s')
    (ha : ∀ h rid allowed sent, a ≠ .publish h rid allowed sent) (hp : ¬ s.PassesOn a s') :
    Sound punchDelay remoteAddr ⟨s', d⟩ := by
  have hl := (hx.wired.letsGo_or (Server.next_effect hnext)).resolve_right hp
  exact hx.letsGo hnext hl fun rid p hlook =>
    hx.codes rid p ((Server.next_traffic hnext).lookup_of ha hlook)

/-- `addPending`, with `sealed` and `observed`: the code is there as its publisher has sent it,
with the address that the relay has seen. -/
theorem publish (hx : Sound punchDelay remoteAddr ⟨s, d⟩) {rid cand : GoString} {t : Server}
    (hreq : d.log.Heard MsgType.publish.text h rid cand) (hroom : s.addPending L rid h = (true, t))
    (hnext : s.next L (.publish h rid true true) = some s') :
    Sound punchDelay remoteAddr
      ⟨s', { d with code := Function.update d.code rid (cand, remoteAddr h) }⟩ := by
  have hl := (hx.wired.letsGo_or (Server.next_effect hnext)).resolve_right nofun
  refine hx.letsGo hnext hl ?_
  intro k p hk
  -- the entry is the new one, or one of another code
  have hcase : k = rid ∧ p.conn = h ∨ k ≠ rid ∧ s.pending.lookup k = some p := by
    rcases (Server.next_publish hnext).2 with ⟨hfull, -⟩ | ⟨-, t', u, hroom', hsame, hs⟩
    · exact absurd ⟨rfl, by rw [hroom]⟩ hfull
    · rw [hs] at hk
      exact Server.lookup_of_addPending hroom' hsame hk
  rcases hcase with ⟨rfl, hconn⟩ | ⟨hne, hold⟩
  · rw [Function.update_self, hconn]
    exact ⟨hreq, rfl⟩
  · rw [Function.update_of_ne hne]
    exact hx.codes k p hold

theorem issue (hx : Sound punchDelay remoteAddr ⟨s, d⟩) {v : Claim} {ta tb : List UInt8}
    (hgen : Genuine remoteAddr d.log v) (hta : ta.length = ticketSize)
    (htb : tb.length = ticketSize)
    (hnext : s.next L (.issue h (some (ticketKey (encodeToString ta),
      ticketKey (encodeToString tb)))) = some s') :
    Sound punchDelay remoteAddr ⟨s', d.issue ⟨v, ta, tb, s.circuit.next⟩⟩ := by
  rcases Server.passesOn_issue hnext with ⟨-, hne, ho⟩
  have hext : (d.issue ⟨v, ta, tb, s.circuit.next⟩).log.Extends d.log :=
    ⟨fun _ _ hm => hm, fun _ hi => List.mem_cons_of_mem _ hi⟩
  -- the new tickets were never drawn before
  have hfresh : ∀ i ∈ d.log.pairings, ∀ side side',
      i.ticket side ≠ Pairing.ticket ⟨v, ta, tb, s.circuit.next⟩ side' := by
    intro i hi side side' heq
    have hold := ((hx.pairings i hi).2.2 side).2
    rw [heq] at hold
    cases side' with
    | false => exact ho.fresh_a hold
    | true => exact ho.fresh_b hold
  have hself : ∀ side side', Pairing.ticket ⟨v, ta, tb, s.circuit.next⟩ side =
      Pairing.ticket ⟨v, ta, tb, s.circuit.next⟩ side' → side = side' := by
    intro side side' heq
    cases side <;> cases side'
    · rfl
    · exact absurd (congrArg (fun t => ticketKey (encodeToString t)) heq) hne
    · exact absurd (congrArg (fun t => ticketKey (encodeToString t)) heq).symm hne
    · rfl
  have hold : ∀ i ∈ d.log.pairings, i.circuit ≠ s.circuit.next := fun i hi =>
    (hx.pairings i hi).2.1.ne
  constructor
  case wired => exact hx.wired.step (Server.next_effect hnext)
  case said => exact fun h' m hm => (hx.said h' m hm).mono hext
  case task => exact fun h' => (hx.task h').mono hext
  case codes =>
    intro rid p hp
    exact (hx.codes rid p ((Server.next_traffic hnext).lookup_of (by simp) hp)).mono hext
  case pairings =>
    intro i hi
    simp only [ho.next, ho.issued]
    rcases List.mem_cons.mp hi with rfl | hi
    · refine ⟨hgen.mono hext, Nat.lt_succ_self _, ?_⟩
      rintro (_ | _)
      · exact ⟨hta, List.mem_cons_self⟩
      · exact ⟨htb, List.mem_cons_of_mem _ List.mem_cons_self⟩
    · obtain ⟨hg, hc, ht⟩ := hx.pairings i hi
      refine ⟨hg.mono hext, hc.trans (Nat.lt_succ_self _), ?_⟩
      intro side
      exact ⟨(ht side).1, List.mem_cons_of_mem _ (List.mem_cons_of_mem _ (ht side).2)⟩
  case distinct =>
    intro i hi j hj side side' heq
    rcases List.mem_cons.mp hi with rfl | hi <;> rcases List.mem_cons.mp hj with rfl | hj
    · exact ⟨rfl, hself side side' heq⟩
    · exact absurd heq.symm (hfresh j hj side' side)
    · exact absurd heq (hfresh i hi side side')
    · exact hx.distinct i hi j hj side side' heq
  case circuits =>
    intro i hi j hj heq
    rcases List.mem_cons.mp hi with rfl | hi <;> rcases List.mem_cons.mp hj with rfl | hj
    · rfl
    · exact absurd heq.symm (hold j hj)
    · exact absurd heq (hold i hi)
    · exact hx.circuits i hi j hj heq
  case ticket =>
    intro k ref hk
    rcases (ho.lookup k ref).mp hk with ⟨rfl, rfl⟩ | ⟨-, ⟨rfl, rfl⟩ | ⟨-, hk⟩⟩
    · exact ⟨_, List.mem_cons_self, rfl, rfl⟩
    · exact ⟨_, List.mem_cons_self, rfl, rfl⟩
    · obtain ⟨i, hi, hrest⟩ := hx.ticket k ref hk
      exact ⟨i, List.mem_cons_of_mem _ hi, hrest⟩
  case holder =>
    exact fun h' c side hpc => (hx.holder h' c side (ho.moves.pc_of hpc nofun)).mono hext
  case conn =>
    intro c side h' hc
    simp only [ho.old c (ho.ne_next_of_conn hc)] at hc
    exact (hx.conn c side h' hc).mono hext

/-- A ticket is redeemed by a connection that has shown it. It is gone from the table, and the
handler has the side of the circuit that it was for. -/
theorem redeem (hx : Sound punchDelay remoteAddr ⟨s, d⟩) {ticket : GoString}
    (hshow : d.log.Showed h ticket) (hnext : s.next L (.redeem h (ticketKey ticket)) = some s') :
    Sound punchDelay remoteAddr ⟨s', d⟩ := by
  -- a ticket that is not in the table moves nothing
  rcases href : s.tickets.lookup (ticketKey ticket) with _ | ref
  · refine hx.quiet hnext (by simp) ?_
    rintro ⟨⟩
    simp_all
  rcases Server.passesOn_redeem href hnext with _ | ⟨-, href, hm⟩
  obtain ⟨i, hi, hc, hkey⟩ := hx.ticket _ _ href
  exact {
    hx with
    wired := hx.wired.step (Server.next_effect hnext)
    ticket := fun k ref hk => hx.ticket k ref (Maps.lookup_of_erase _ hk).1
    holder := by
      intro h' c side hpc
      rcases hm.cases h' with ⟨rfl, hpc'⟩ | ⟨-, hsame⟩
      · cases hpc'.symm.trans hpc
        exact ⟨i, hi, hc, ticketKey_inj hkey ▸ hshow⟩
      · exact hx.holder h' c side (hsame.symm.trans hpc) }

/-- A connection attaches to the side of which it has shown the ticket, if it could be answered at
all. -/
theorem answer (hx : Sound punchDelay remoteAddr ⟨s, d⟩) {sent : Bool}
    (hnext : s.next L (.answer h sent) = some s') : Sound punchDelay remoteAddr ⟨s', d⟩ := by
  cases sent with
  | false => exact hx.quiet hnext (by simp) nofun
  | true =>
    -- the handler has redeemed the ticket, and its record is that of the connection
    rcases Server.passesOn_answer hnext with _ | _ | hfrom
    rename_i c side
    exact {
      hx with
      wired := hx.wired.step (Server.next_effect hnext)
      holder := by
        intro h' c' side' hpc
        refine hx.holder h' c' side' ((s.moves_attach h c side).pc_of hpc ?_)
        split_ifs <;> nofun
      conn := by
        intro c' side' h' hc
        rcases s.attach_conns h c side hc with ⟨rfl, rfl, rfl⟩ | ⟨-, hold⟩
        · exact hx.holder h' c' side' hfrom
        · exact hx.conn c' side' h' hold }

end Sound

/-! ## Every step keeps it -/

section Runs

variable {L : Limits} {perMin : ℕ} {punchDelay : Int64} {remoteAddr : ℕ → GoString} {x y : Relaying}
  {a : ServingAct} {acts : List ServingAct}

theorem rid_of_checkRID {msg : Message} {rid : GoString} (h : checkRID msg = .ok rid) :
    rid = msg.rendezvousID := by
  unfold checkRID at h
  split at h
  · exact absurd h (by simp)
  · split_ifs at h
    exact (Except.ok.inj h).symm

/-- What a message asks for is backed by it, since it is on record when the task begins. -/
theorem Sound.receive {s : Server} {d : Desk} (hx : Sound punchDelay remoteAddr ⟨s, d⟩) (perMin : ℕ)
    (now : ℤ) (h : ℕ) (msg : Message) :
    Sound punchDelay remoteAddr ⟨s, d.receive perMin remoteAddr now h msg⟩ := by
  have hheard := hx.hear (h := h) msg
  have hmem := Sound.mem_hear d h msg
  have hasked : (d.hear h msg).log.Asked h msg.rendezvousID := .inr ⟨msg, hmem, rfl⟩
  unfold Desk.receive
  split_ifs with hpub hclaim hcircuit
  · -- `publish`
    rcases hcheck : checkRID msg with e | rid
    · exact hheard.setTask hasked
    · obtain rfl := rid_of_checkRID hcheck
      refine (hheard.limit _).setTask ?_
      split_ifs
      · exact ⟨msg, hmem, hpub, rfl, rfl⟩
      · exact hasked
  · -- `claim`
    rcases hcheck : checkRID msg with e | rid
    · exact hheard.setTask hasked
    · obtain rfl := rid_of_checkRID hcheck
      exact hheard.setTask ⟨msg, hmem, hclaim, rfl, rfl⟩
  · -- `circuit`
    rcases decodeExact msg.ticket ticketSize with _ | bytes
    · exact hheard.setTask (.inl rfl)
    · exact hheard.setTask ⟨msg, hmem, hcircuit, rfl⟩
  · exact hheard.setTask trivial
  · exact hheard.setTask hasked

theorem Sound.quit {s s' : Server} {d : Desk} (hx : Sound punchDelay remoteAddr ⟨s, d⟩) {h : ℕ}
    (hact : Relaying.act L s (some (.quit h)) = some s') : Sound punchDelay remoteAddr ⟨s', d⟩ := by
  rw [Relaying.act_some] at hact
  exact hx.quiet hact (by simp) nofun

/-- **The next action of a handler**, for each of its tasks. The task says what the record has
about it, and that is what the messages and the tables need. -/
theorem Sound.go {h : ℕ} {sent : Bool} {b : Option Act} {d : Desk} {s : Server}
    (hx : Sound punchDelay remoteAddr x) (hplan : x.go L punchDelay remoteAddr h sent = some (b, d))
    (hact : Relaying.act L x.srv b = some s) : Sound punchDelay remoteAddr ⟨s, d⟩ := by
  have hb := hx.task h
  unfold Relaying.go at hplan
  -- one case for each task; the tables are left alone, or change as in one step of the `Server`
  cases htask : x.desk.task h with
  | receiving | taken => exact absurd hplan (by simp [htask])
  | leaving =>
    simp only [htask] at hplan
    cases hplan
    exact (hx.quit hact).setTask trivial
  | publishing rid cand =>
    rw [htask] at hb
    simp only [htask] at hplan
    rcases hroom : x.srv.addPending L rid h with ⟨_ | _, t⟩
    · rw [hroom] at hplan
      cases hplan
      cases hact
      obtain ⟨m, hm, -, hrid, -⟩ := hb
      exact hx.setTask (.inr ⟨m, hm, hrid⟩)
    · rw [hroom] at hplan
      cases hplan
      exact (hx.publish hb hroom hact).setTask ⟨cand, hb⟩
  | answering rid =>
    rw [htask] at hb
    simp only [htask] at hplan
    obtain ⟨cand, hreq⟩ := hb
    cases sent with
    | true =>
      cases hplan
      cases hact
      exact (hx.say (.published hreq) true).setTask trivial
    | false =>
      cases hplan
      exact (hx.quit hact).setTask trivial
  | claiming rid cand =>
    rw [htask] at hb
    simp only [htask] at hplan
    cases sent with
    | true =>
      cases hplan
      cases hact
      exact (hx.say (.published hb) true).setTask hb
    | false =>
      cases hplan
      exact (hx.quit hact).setTask trivial
  | pairing rid cand =>
    rw [htask] at hb
    simp only [htask] at hplan
    have hasked : x.desk.log.Asked h rid := by
      obtain ⟨m, hm, -, hrid, -⟩ := hb
      exact .inr ⟨m, hm, hrid⟩
    rcases hlook : x.srv.pending.lookup rid with _ | p
    · rw [hlook] at hplan
      cases hplan
      cases hact
      exact hx.setTask hasked
    · rw [hlook] at hplan
      dsimp only at hplan
      split_ifs at hplan with hown hfull
      · cases hplan
        cases hact
        exact hx.setTask hasked
      · cases hplan
        cases hact
        exact hx.setTask hasked
      · cases hplan
        rw [Relaying.act_some] at hact
        exact (hx.quiet hact (by simp) nofun).setTask ⟨rfl, hb, hx.codes rid p hlook, hown⟩
  | telling i =>
    rw [htask] at hb
    simp only [htask] at hplan
    cases hplan
    cases hact
    have hsaid := hx.say (.publisher hb.1 rfl) sent
    exact hsaid.setTask (by rwa [Desk.say_log])
  | told i pubOk =>
    rw [htask] at hb
    simp only [htask] at hplan
    cases hplan
    cases hact
    have hsaid := hx.say (.claimer hb.1 hb.2) sent
    exact hsaid.setTask (by rwa [Desk.say_log])
  | delivered i ok =>
    rw [htask] at hb
    simp only [htask] at hplan
    cases hplan
    rw [Relaying.act_some] at hact
    refine (hx.quiet hact (by simp) nofun).setTask ?_
    split_ifs
    · trivial
    · obtain ⟨m, hm, -, hrid, -⟩ := (hx.pairings i hb.1).1.claimed
      rw [hb.2] at hm
      exact .inr ⟨m, hm, hrid⟩
  | redeeming ticket =>
    rw [htask] at hb
    simp only [htask] at hplan
    rcases hlook : x.srv.tickets.lookup (ticketKey ticket) with _ | ref
    · rw [hlook] at hplan
      cases hplan
      cases hact
      exact hx.setTask (.inl rfl)
    · rw [hlook] at hplan
      cases hplan
      rw [Relaying.act_some] at hact
      exact (hx.redeem hb hact).setTask trivial
  | attaching =>
    simp only [htask] at hplan
    cases hplan
    rw [Relaying.act_some] at hact
    exact ((hx.answer hact).say .circuitOK sent).setTask trivial
  | refusing rid reason returns =>
    rw [htask] at hb
    simp only [htask] at hplan
    cases hplan
    cases returns with
    | true => exact ((hx.quit hact).say (.refused hb) sent).setTask trivial
    | false =>
      cases hact
      exact (hx.say (.refused hb) sent).setTask trivial

/-- A step of the relay is planned at the desks and then made in the tables. Here the tickets are
drawn. -/
theorem Sound.draw {h : ℕ} {tickets : Option (List UInt8 × List UInt8)} {b : Option Act} {d : Desk}
    {s : Server} (hx : Sound punchDelay remoteAddr x)
    (hplan : x.plan L perMin punchDelay remoteAddr (.draw h tickets) = some (b, d))
    (hact : Relaying.act L x.srv b = some s) : Sound punchDelay remoteAddr ⟨s, d⟩ := by
  have hb := hx.task h
  cases htask : x.desk.task h with
  | taken v =>
    rw [htask] at hb
    simp only [Relaying.plan, htask] at hplan
    -- the handler gives the claim up, or the pairing is on record and is to be told
    cases tickets with
    | none =>
      cases hplan
      rw [Relaying.act_some] at hact
      refine (hx.quiet hact (by simp) nofun).setTask ?_
      obtain ⟨m, hm, -, hrid, -⟩ := hb.2.claimed
      rw [hb.1] at hm
      exact .inr ⟨m, hm, hrid⟩
    | some tickets =>
      dsimp only at hplan
      split_ifs at hplan with hlen
      cases hplan
      rw [Relaying.act_some] at hact
      exact (hx.issue hb.2 hlen.1 hlen.2 hact).setTask ⟨List.mem_cons_self, hb.1⟩
  | _ => exact absurd hplan (by simp [Relaying.plan, htask])

/-- **Every step of the relay keeps the tables and the desks in agreement with the record.** -/
theorem Sound.step (hx : Sound punchDelay remoteAddr x)
    (hstep : x.next L perMin punchDelay remoteAddr a = some y) : Sound punchDelay remoteAddr y := by
  obtain ⟨b, hplan, hact⟩ := next_eq_some hstep
  cases a with
  | accept =>
    obtain ⟨rfl, hdesk⟩ := Prod.mk.inj (Option.some.inj hplan)
    rw [Relaying.act_some] at hact
    have hy := hx.quiet hact (by simp) nofun
    rwa [hdesk] at hy
  | receive h msg =>
    cases htask : x.desk.task h with
    | receiving =>
      simp only [Relaying.plan, htask] at hplan
      split_ifs at hplan
      obtain ⟨rfl, hdesk⟩ := Prod.mk.inj (Option.some.inj hplan)
      have hy := hx.receive perMin (nanos x.srv) h msg
      rwa [hdesk, Option.some.inj hact] at hy
    | _ => exact absurd hplan (by simp [Relaying.plan, htask])
  | hangUp h =>
    cases htask : x.desk.task h with
    | receiving =>
      simp only [Relaying.plan, htask] at hplan
      obtain ⟨rfl, hdesk⟩ := Prod.mk.inj (Option.some.inj hplan)
      have hy := hx.quit hact
      rwa [hdesk] at hy
    | _ => exact absurd hplan (by simp [Relaying.plan, htask])
  | go h sent => exact hx.go hplan hact
  | draw h tickets => exact hx.draw hplan hact
  -- the sweeper, the pumps and the clock do not know of the desks
  | relay c =>
    cases c with
    | sweep =>
      obtain ⟨rfl, hdesk⟩ := Prod.mk.inj (Option.some.inj hplan)
      rw [Relaying.act_some] at hact
      have hy := (hx.quiet hact (by simp) nofun).limit (x.desk.publishes.sweep minute (nanos x.srv))
      rwa [hdesk] at hy
    | pumpEnd | spliceEnd | wake | idle | shutdown | close | tick =>
      obtain ⟨rfl, hdesk⟩ := Prod.mk.inj (Option.some.inj hplan)
      rw [Relaying.act_some] at hact
      have hy := hx.quiet hact (by simp) nofun
      rwa [hdesk] at hy
    | _ => exact absurd hplan (by simp [Relaying.plan, silent])

theorem sound_of_run
    (hrun : Run (ofNext (Relaying.next L perMin punchDelay remoteAddr)) {} acts x) :
    Sound punchDelay remoteAddr x :=
  hrun.invariant (Sound punchDelay remoteAddr) .start fun _ _ _ hx hstep => hx.step hstep

/-! ## A rendezvous -/

def demoRid : GoString := encodeToString (List.replicate 16 0)

def demoTicket (b : UInt8) : List UInt8 := List.replicate ticketSize b

def demoAddr (h : ℕ) : GoString := [49 + h.toUInt8, 58, 49]

/-- Connection 0 publishes a code and 1 claims it, and each redeems its ticket on a connection of
its own. The publisher hears of the claim before its code is acknowledged. -/
def demoActs : List ServingAct :=
  [.accept, .accept,
    .receive 0 { type := MsgType.publish.text, rendezvousID := demoRid, candidates := [65] },
      .go 0 true,
    .receive 1 { type := MsgType.claim.text, rendezvousID := demoRid, candidates := [66] },
      .go 1 true,
    .go 1 true, .draw 1 (some (demoTicket 1, demoTicket 2)), .go 1 true, .go 0 true, .go 1 true,
      .go 1 true,
    .accept, .accept,
    .receive 2 { type := msgCircuit, ticket := encodeToString (demoTicket 1) }, .go 2 true,
      .go 2 true,
    .receive 3 { type := msgCircuit, ticket := encodeToString (demoTicket 2) }, .go 3 true,
      .go 3 true]

def demoPairing : Pairing :=
  ⟨⟨1, demoRid, [66], 0, [65], demoAddr 0⟩, demoTicket 1, demoTicket 2, 0⟩

/-- A rendezvous from the first message to the pipe, evaluated. The `paired` of the publisher
comes before its `published`, as the handlers are not in step. -/
theorem demo_run :
    ∃ x : Relaying, Run (ofNext (Relaying.next defaultLimits 30 250000000 demoAddr)) {}
      demoActs x ∧
    x.desk.said 0
      = [demoPairing.toPublisher 250000000 demoAddr, publishedMessage demoRid (demoAddr 0)] ∧
    (x.srv.circuit.get 0).conns false = some 2 ∧ (x.srv.circuit.get 0).conns true = some 3 ∧
    x.desk.log.pairings = [demoPairing] ∧
    (∀ m ∈ x.desk.log.heard 2, ∃ m' ∈ x.desk.said 0, m'.ticket = m.ticket) ∧
    ∀ m ∈ x.desk.log.heard 3, ∃ m' ∈ x.desk.said 1, m'.ticket = m.ticket :=
  exists_run_of_any _ (by decide +kernel)

/-! ## Who is told what -/

/-- **A connection is told of nothing but what it has asked for.** In every run of the relay,
whatever its clients send and however its handlers are interleaved, every message on a connection
is an answer of one of four types. A `published` names a code that this connection has published
or claimed, and its own address. An `error` names a code of a message of this connection, or
none. A `paired` is about a code that this connection has published or claimed, and has
candidates and address of another connection, which has claimed or published that code with these
candidates. -/
theorem told_own (hrun : Run (ofNext (Relaying.next L perMin punchDelay remoteAddr)) {} acts x)
    {h : ℕ}
    {m : Message} (hm : m ∈ x.desk.said h) :
    m.type ∈ [msgPublished, msgPaired, msgError, msgCircuitOK] ∧
    (m.type = msgPublished → m.observed = remoteAddr h ∧
      ∃ (typ : MsgType) (cand : GoString), x.desk.log.Heard typ.text h m.rendezvousID cand) ∧
    (m.type = msgError → x.desk.log.Asked h m.rendezvousID) ∧
    (m.type = msgPaired → ∃ k, k ≠ h ∧ m.peerObserved = remoteAddr k ∧
      ((m.role = rolePublisher ∧
        (∃ cand, x.desk.log.Heard MsgType.publish.text h m.rendezvousID cand) ∧
          x.desk.log.Heard MsgType.claim.text k m.rendezvousID m.peerCandidates) ∨
        (m.role = roleClaimer ∧
          (∃ cand, x.desk.log.Heard MsgType.claim.text h m.rendezvousID cand) ∧
          x.desk.log.Heard MsgType.publish.text k m.rendezvousID m.peerCandidates))) := by
  have hx := sound_of_run hrun
  have hne : msgPublished ≠ msgError ∧ msgPublished ≠ msgPaired ∧ msgPaired ≠ msgPublished ∧
      msgPaired ≠ msgError ∧ msgError ≠ msgPublished ∧ msgError ≠ msgPaired ∧
      msgCircuitOK ≠ msgPublished ∧ msgCircuitOK ≠ msgError ∧ msgCircuitOK ≠ msgPaired := by decide
  obtain ⟨hpe, hpp, hap, hae, hep, hea, hcp, hce, hca⟩ := hne
  -- one case for each kind of message; it has one type and not the others
  cases hx.said h m hm with
  | @published typ rid cand hreq =>
    exact ⟨by simp [publishedMessage], fun _ => ⟨rfl, typ, cand, hreq⟩, fun ht => absurd ht hpe,
      fun ht => absurd ht hpp⟩
  | @publisher i hi hh =>
    obtain ⟨hclaim, hoffer, hother⟩ := (hx.pairings i hi).1
    subst hh
    refine ⟨by simp [Pairing.toPublisher, pairedMessage], fun ht => absurd ht hap,
      fun ht => absurd ht hae, fun _ =>
        ⟨i.claimer, hother.symm, rfl, .inl ⟨rfl, ⟨_, hoffer.heard⟩, hclaim⟩⟩⟩
  | @claimer i hi hh =>
    obtain ⟨hclaim, hoffer, hother⟩ := (hx.pairings i hi).1
    subst hh
    refine ⟨by simp [Pairing.toClaimer, pairedMessage], fun ht => absurd ht hap,
      fun ht => absurd ht hae,
      fun _ => ⟨i.publisher, hother, hoffer.observed, .inr ⟨rfl, ⟨_, hclaim⟩, hoffer.heard⟩⟩⟩
  | refused hasked =>
    exact ⟨by simp [errorMessage], fun ht => absurd ht hep, fun _ => hasked, fun ht =>
      absurd ht hea⟩
  | circuitOK =>
    exact ⟨by simp [circuitOK], fun ht => absurd ht hcp, fun ht => absurd ht hce, fun ht =>
      absurd ht hca⟩

theorem told_own_early : ∃ x : Relaying,
    Run (ofNext (Relaying.next defaultLimits 30 250000000 demoAddr)) {} demoActs x ∧
    ∃ m ∈ x.desk.said 0, m.role = rolePublisher ∧ ∃ k, k ≠ 0 ∧ m.peerObserved = demoAddr k := by
  obtain ⟨x, hrun, hsaid, -⟩ := demo_run
  have hm : demoPairing.toPublisher 250000000 demoAddr ∈ x.desk.said 0 := by
    rw [hsaid]
    exact List.mem_cons_self
  obtain ⟨k, hk, haddr, -⟩ := (told_own hrun hm).2.2.2 rfl
  exact ⟨x, hrun, _, hm, rfl, k, hk, haddr⟩

theorem encodeToString_inj {bs bs' : List UInt8} (h : encodeToString bs = encodeToString bs') :
    bs = bs' := by
  have hdec := congrArg Rendezvous.decodeString h
  rw [Peers.decodeString_encodeToString, Peers.decodeString_encodeToString] at hdec
  exact Option.some.inj hdec

/-- The message of `pair` with the ticket of a side. -/
def Pairing.message (punchDelay : Int64) (remoteAddr : ℕ → GoString) (i : Pairing) : Bool → Message
  | false => i.toPublisher punchDelay remoteAddr
  | true => i.toClaimer punchDelay

/-- A message with a ticket of a pairing is the one of that pairing to the party that the ticket
is for. No other message has a ticket, and no ticket is in two pairings. -/
theorem Sound.told_of_ticket (hx : Sound punchDelay remoteAddr x) {i : Pairing} {side : Bool}
    {h : ℕ}
    {m : Message} (hi : i ∈ x.desk.log.pairings) (hm : m ∈ x.desk.said h)
    (ht : m.ticket = encodeToString (i.ticket side)) :
    h = i.party side ∧ m = i.message punchDelay remoteAddr side := by
  -- messages without a ticket have the empty text there
  have hnonempty : ([] : GoString) ≠ encodeToString (i.ticket side) := by
    intro hnil
    have hempty : [] = i.ticket side := encodeToString_inj hnil
    have hlen := ((hx.pairings i hi).2.2 side).1
    rw [← hempty] at hlen
    exact absurd hlen (by decide)
  cases hx.said h m hm with
  | published | refused | circuitOK => exact absurd ht hnonempty
  | @publisher j hj hh =>
    obtain ⟨rfl, rfl⟩ := hx.distinct j hj i hi false side (encodeToString_inj ht)
    exact ⟨hh.symm, rfl⟩
  | @claimer j hj hh =>
    obtain ⟨rfl, rfl⟩ := hx.distinct j hj i hi true side (encodeToString_inj ht)
    exact ⟨hh.symm, rfl⟩

/-- The tickets that connection `h` has shown were all told to somebody. -/
def Desk.Unguessed (d : Desk) (h : ℕ) : Prop :=
  ∀ ticket, d.log.Showed h ticket → ∃ g, ∃ m ∈ d.said g, m.ticket = ticket

theorem Sound.message_of_unguessed (hx : Sound punchDelay remoteAddr x) {i : Pairing} {side : Bool}
    {h : ℕ} (hi : i ∈ x.desk.log.pairings)
    (hshow : x.desk.log.Showed h (encodeToString (i.ticket side)))
    (hunguessed : x.desk.Unguessed h) :
    i.message punchDelay remoteAddr side ∈ x.desk.said (i.party side) := by
  obtain ⟨g, m, hm, ht⟩ := hunguessed _ hshow
  obtain ⟨rfl, rfl⟩ := hx.told_of_ticket hi hm ht
  exact hm

/-- **A pipe joins the two ends of one pairing.** In every run of the relay, if a circuit has a
connection on each side, then the circuit is that of a pairing, of a code that one connection has
published and another has claimed, and the two have shown its two tickets. The tickets are of no
other pairing. A message with the first went to the publisher, and one with the second to the
claimer, and to nobody else; and where the tickets that a connection has shown were not guessed,
there is such a message. -/
theorem piped_together
    (hrun : Run (ofNext (Relaying.next L perMin punchDelay remoteAddr)) {} acts x)
    {c k k' : ℕ} (hk : (x.srv.circuit.get c).conns false = some k)
    (hk' : (x.srv.circuit.get c).conns true = some k') :
    ∃ i ∈ x.desk.log.pairings, i.circuit = c ∧ Genuine remoteAddr x.desk.log i.toClaim ∧
      x.desk.log.Showed k (encodeToString i.ticketA) ∧
      x.desk.log.Showed k' (encodeToString i.ticketB) ∧
      (∀ j ∈ x.desk.log.pairings, ∀ side side', j.ticket side' = i.ticket side →
        j = i ∧ side' = side) ∧
      (∀ side h, ∀ m ∈ x.desk.said h, m.ticket = encodeToString (i.ticket side) →
        h = i.party side) ∧
      (x.desk.Unguessed k → i.toPublisher punchDelay remoteAddr ∈ x.desk.said i.publisher) ∧
      (x.desk.Unguessed k' → i.toClaimer punchDelay ∈ x.desk.said i.claimer) := by
  have hx := sound_of_run hrun
  obtain ⟨i, hi, hic, hshow⟩ := hx.conn c false k hk
  obtain ⟨j, hj, hjc, hshow'⟩ := hx.conn c true k' hk'
  -- a circuit belongs to one pairing
  obtain rfl := hx.circuits i hi j hj (hic.trans hjc.symm)
  refine ⟨i, hi, hic, (hx.pairings i hi).1, hshow, hshow', ?_, ?_, ?_, ?_⟩
  · intro j hj side side' heq
    exact hx.distinct j hj i hi side' side heq
  · intro side h m hm ht
    exact (hx.told_of_ticket hi hm ht).1
  · exact hx.message_of_unguessed hi hshow
  · exact hx.message_of_unguessed hi hshow'

/-- On circuit 0 the parties of that pairing are joined, and each had been sent its ticket. -/
theorem piped_together_demo : ∃ x : Relaying,
    Run (ofNext (Relaying.next defaultLimits 30 250000000 demoAddr)) {} demoActs x ∧
    ∃ i ∈ x.desk.log.pairings, i.circuit = 0 ∧
      x.desk.log.Showed 2 (encodeToString i.ticketA) ∧
        x.desk.log.Showed 3 (encodeToString i.ticketB) ∧
      i.publisher = 0 ∧ i.toPublisher 250000000 demoAddr ∈ x.desk.said 0 ∧
      i.claimer = 1 ∧ i.toClaimer 250000000 ∈ x.desk.said 1 := by
  obtain ⟨x, hrun, -, hk, hk', hpairings, hfirst, hsecond⟩ := demo_run
  obtain ⟨i, hi, hc, -, hshow, hshow', -, -, htold, htold'⟩ := piped_together hrun hk hk'
  rw [hpairings, List.mem_singleton] at hi
  subst hi
  refine ⟨x, hrun, _, hpairings ▸ List.mem_singleton_self _, hc, hshow, hshow', rfl, htold ?_, rfl,
    htold' ?_⟩
  · rintro ticket ⟨m, hm, -, rfl⟩
    exact ⟨0, hfirst m hm⟩
  · rintro ticket ⟨m, hm, -, rfl⟩
    exact ⟨1, hsecond m hm⟩

end Runs

end Heimdall.Serving
