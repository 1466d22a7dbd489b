/-
Two sessions of one handshake with an active attacker between them.

The network is not modelled as a queue: an `Open` may be called on any byte string at any
time, which covers dropping, reordering, duplicating, reflecting and injecting. What an
attacker cannot do is forge: `IdealAead` restricts a string only when it authenticates under
some message key of the two sessions, and then asks that header and blob were sealed
together by one of them, without saying by which one, under which key, or when.

The main result is `opens_inject_into_seals`: whatever one end accepts was sealed by the
other end, as that type and that plaintext, and each sealing is accepted at most once.
-/
import Heimdall.Runs
import Heimdall.SessionSpec

set_option autoImplicit false

namespace Heimdall.Proto

open Heimdall.Octets Heimdall.Crypto Heimdall.Runs

/-! ## The two sessions and the calls made on them -/

/-- A call of `Seal` or `Open` that succeeded. -/
structure Call where
  typ : UInt8
  plaintext : Bytes
  wire : Bytes
  deriving DecidableEq

/-- The two ends, `true` being the initiator, with the calls that succeeded at each. -/
structure Channel where
  side : Bool → Session
  sealed : Bool → List Call := fun _ => []
  opened : Bool → List Call := fun _ => []

inductive ChannelAct where
  | sealing (who : Bool) (typ : UInt8) (plaintext : Bytes) (rand : Option Nonce)
  | opening (who : Bool) (buf : Bytes)
  | closing (who : Bool)

namespace Channel

def start (a b : Session) : Channel := { side := fun who => if who then a else b }

def setSide (c : Channel) (who : Bool) (s : Session) : Channel :=
  { c with side := Function.update c.side who s }

def logSeal (c : Channel) (who : Bool) (r : Call) : Channel :=
  { c with sealed := Function.update c.sealed who (c.sealed who ++ [r]) }

def logOpen (c : Channel) (who : Bool) (r : Call) : Channel :=
  { c with opened := Function.update c.opened who (c.opened who ++ [r]) }

def next (c : Channel) : ChannelAct → Channel
  | .sealing who typ pt rand =>
    match (c.side who).sealFrame typ pt rand with
    | (s, .ok wire) => (c.setSide who s).logSeal who ⟨typ, pt, wire⟩
    | (s, .error _) => c.setSide who s
  | .opening who buf =>
    match (c.side who).openFrame buf with
    | (s, .ok (typ, pt)) => (c.setSide who s).logOpen who ⟨typ, pt, buf⟩
    | (s, .error _) => c.setSide who s
  | .closing who => c.setSide who (c.side who).close

/-- The ideal AEAD at the moment `buf` is offered: if it authenticates under any message key
of the two sessions, its header and blob were sealed by one of them. -/
def IdealAead (root : Bytes) (c : Channel) (buf : Bytes) : Prop :=
  ∀ f d epoch seq pt, parseFrame buf = .ok f →
    openBlob (messageKeyOf root d epoch seq) (marshalHeaderOnly f) f.blob = .ok pt →
    ∃ who, ∃ r ∈ c.sealed who, r.wire = marshalHeaderOnly f ++ f.blob

/-- One step; only what is offered to `Open` is constrained. -/
def Step (root : Bytes) (c : Channel) (a : ChannelAct) (c' : Channel) : Prop :=
  (∀ who buf, a = .opening who buf → c.IdealAead root buf) ∧ c.next a = c'

end Channel

/-! ## What a sealed frame opens as -/

theorem marshalFrame_inj {f g : Frame} (hf : f.session.length = 8) (hg : g.session.length = 8)
    (h : marshalFrame f = marshalFrame g) : f = g := by
  rw [marshalFrame_eq, marshalFrame_eq] at h
  obtain ⟨hhdr, hblob⟩ := List.append_inj h
    (by rw [length_marshalHeaderOnly _ hf, length_marshalHeaderOnly _ hg])
  obtain ⟨ht, hs, hq, hr⟩ := marshalHeaderOnly_inj hf hg hhdr
  rcases f with ⟨ft, fs, fq, fr, fb⟩
  rcases g with ⟨gt, gs, gq, gr, gb⟩
  simp_all

theorem openBlob_sealedFrame_inv {root : Bytes} {d : Dir} {typ : UInt8} {q : UInt64} {e : UInt32}
    {n : Nonce} {pt key aad pt' : Bytes}
    (h : openBlob key aad (sealedFrame root d typ q e n pt).blob = .ok pt') :
    key = messageKeyOf root d e q ∧ pt' = pt := by
  obtain ⟨-, nonce, hlen, hblob⟩ := openBlob_eq_ok.mp h
  have hnonce : (lits n.bytes : Bytes).length = nonce.length := by
    rw [length_lits, n.length_bytes, hlen]
  obtain ⟨-, hgcm⟩ := List.append_inj hblob hnonce
  obtain ⟨-, hargs, -⟩ := block_inj (by simp [tagSize]) hgcm
  simp only [List.cons.injEq, and_true] at hargs
  exact ⟨hargs.1.symm, hargs.2.2.2.symm⟩

/-! ## The invariant -/

namespace Channel

/-- What holds of the two sessions and their logs throughout a run. -/
structure Inv (root : Bytes) (c : Channel) : Prop where
  side : ∀ w, (c.side w).closed = true ∨ Live root w (c.side w)
  sealed : ∀ w, ∀ r ∈ c.sealed w, ∃ q e n,
    r.wire = marshalFrame (sealedFrame root (sendDir w) r.typ q e n r.plaintext)
  opened : ∀ w, c.opened w ⊆ c.sealed (!w)
  window : ∀ w, ∃ S, Tracks (c.side w).recvWin S ∧
    ∀ r ∈ c.opened w, ∃ f, parseFrame r.wire = .ok f ∧ f.sequence.toNat ∈ S
  nodup : ∀ w, ((c.opened w).map Call.wire).Nodup

variable {root : Bytes} {c : Channel}

theorem Inv.start (h : root.length = keySize) :
    (start (freshSession root true) (freshSession root false)).Inv root where
  side w := .inr (by rcases w <;> exact freshSession_live h _)
  sealed w r hr := absurd hr List.not_mem_nil
  opened w r hr := absurd hr List.not_mem_nil
  window w := ⟨∅, by rcases w <;> exact tracks_zero, fun r hr => absurd hr List.not_mem_nil⟩
  nodup w := List.nodup_nil

/-- A side may change in any way that keeps its window, if it is closed or live afterwards. This
covers every call that is refused, and `Close`. -/
theorem Inv.setSide (h : c.Inv root) {w : Bool} {s : Session}
    (hs : s.closed = true ∨ Live root w s) (hwin : s.recvWin = (c.side w).recvWin) :
    (c.setSide w s).Inv root where
  side w' := by
    by_cases hw : w' = w
    · subst hw
      simpa only [Channel.setSide, Function.update_self] using hs
    · simpa only [Channel.setSide, Function.update_of_ne hw] using h.side w'
  sealed := h.sealed
  opened := h.opened
  window w' := by
    by_cases hw : w' = w
    · subst hw
      simpa only [Channel.setSide, Function.update_self, hwin] using h.window w'
    · simpa only [Channel.setSide, Function.update_of_ne hw] using h.window w'
  nodup := h.nodup

theorem Inv.logSeal (h : c.Inv root) {w : Bool} {r : Call}
    (hr : ∃ q e n, r.wire = marshalFrame (sealedFrame root (sendDir w) r.typ q e n r.plaintext)) :
    (c.logSeal w r).Inv root where
  side := h.side
  sealed w' r' hr' := by
    by_cases hw : w' = w
    · subst hw
      simp only [Channel.logSeal, Function.update_self, List.mem_append, List.mem_singleton] at hr'
      rcases hr' with hr' | rfl
      · exact h.sealed w' r' hr'
      · exact hr
    · simp only [Channel.logSeal, Function.update_of_ne hw] at hr'
      exact h.sealed w' r' hr'
  opened w' := by
    -- the log only grows
    refine fun r' hr' => ?_
    have hmem := h.opened w' hr'
    by_cases hw : (!w') = w
    · subst hw
      simp only [Channel.logSeal, Function.update_self]
      exact List.mem_append_left _ hmem
    · simpa only [Channel.logSeal, Function.update_of_ne hw] using hmem
  window := h.window
  nodup := h.nodup

/-- Recording an accepted frame: it is one the other end sealed, and its number was fresh. Fresh
means that no accepted frame has this number, so the same bytes have not been accepted before. -/
theorem Inv.logOpen (h : c.Inv root) {w : Bool} {s : Session} {r : Call} {f : Frame}
    (hs : Live root w s) (hsealed : r ∈ c.sealed (!w)) (hp : parseFrame r.wire = .ok f)
    (hfresh : (check (c.side w).recvWin f.sequence).2 = true)
    (hwin : s.recvWin = (check (c.side w).recvWin f.sequence).1) :
    ((c.setSide w s).logOpen w r).Inv root := by
  obtain ⟨S, hS, hmem⟩ := h.window w
  obtain ⟨hacc, hS'⟩ := check_spec hS f.sequence
  have hacc' : accepts S f.sequence.toNat := of_decide_eq_true (hacc.symm.trans hfresh)
  have hrec : record S f.sequence.toNat = insert f.sequence.toNat S := if_pos hacc'
  rw [← hwin, hrec] at hS'
  refine ⟨?_, h.sealed, ?_, ?_, ?_⟩
  · intro w'
    by_cases hw : w' = w
    · subst hw
      exact .inr (by simpa only [Channel.logOpen, Channel.setSide, Function.update_self] using hs)
    · simpa only [Channel.logOpen, Channel.setSide, Function.update_of_ne hw] using h.side w'
  · intro w' r' hr'
    by_cases hw : w' = w
    · subst hw
      simp only [Channel.logOpen, Channel.setSide, Function.update_self, List.mem_append,
        List.mem_singleton] at hr'
      rcases hr' with hr' | rfl
      · exact h.opened w' hr'
      · exact hsealed
    · simp only [Channel.logOpen, Channel.setSide, Function.update_of_ne hw] at hr'
      exact h.opened w' hr'
  · intro w'
    by_cases hw : w' = w
    · subst hw
      simp only [Channel.logOpen, Channel.setSide, Function.update_self]
      refine ⟨_, hS', fun r' hr' => ?_⟩
      rcases List.mem_append.mp hr' with hr' | hr'
      · obtain ⟨f', hp', hf'⟩ := hmem r' hr'
        exact ⟨f', hp', Finset.mem_insert_of_mem hf'⟩
      · rw [List.mem_singleton.mp hr']
        exact ⟨f, hp, Finset.mem_insert_self _ _⟩
    · simpa only [Channel.logOpen, Channel.setSide, Function.update_of_ne hw] using h.window w'
  · intro w'
    by_cases hw : w' = w
    · subst hw
      simp only [Channel.logOpen, Channel.setSide, Function.update_self, List.map_append,
        List.map_cons, List.map_nil]
      refine List.nodup_append.mpr ⟨h.nodup w', List.nodup_singleton _, ?_⟩
      -- an earlier acceptance of the same bytes would have used up the number
      rintro x hx y hy rfl
      obtain ⟨r', hr', hx'⟩ := List.mem_map.mp hx
      rw [List.mem_singleton] at hy
      obtain ⟨f', hp', hf'⟩ := hmem r' hr'
      rw [hx', hy, hp] at hp'
      rw [← Except.ok.inj hp'] at hf'
      exact hacc'.1 hf'
    · simpa only [Channel.logOpen, Channel.setSide, Function.update_of_ne hw] using h.nodup w'

/-- **Integrity of one `Open`.** What a live session accepts was sealed by the other end as
exactly this type and plaintext. That it was sealed by either end comes from the ideal AEAD, and
that it was the other one from the key, which has the direction in it. -/
theorem Inv.sealed_of_accepted (h : c.Inv root) {w : Bool} {buf pt : Bytes} {f : Frame}
    (hideal : c.IdealAead root buf) (hp : parseFrame buf = .ok f)
    (ho : openBlob (messageKeyOf root (recvDir w) f.rotation f.sequence) (marshalHeaderOnly f)
      f.blob = .ok pt) :
    ⟨f.typ, pt, buf⟩ ∈ c.sealed (!w) := by
  obtain ⟨who, r, hr, hwire⟩ := hideal f _ _ _ pt hp ho
  obtain ⟨q, e, n, hframe⟩ := h.sealed who r hr
  obtain ⟨hbuf, hlen, -⟩ := parseFrame_eq_ok.mp hp
  have hf : f = sealedFrame root (sendDir who) r.typ q e n r.plaintext :=
    marshalFrame_inj hlen (length_sessionIDOf root) (hwire.symm.trans hframe)
  rw [hf] at ho
  obtain ⟨hkey, hpt⟩ := openBlob_sealedFrame_inv ho
  -- the direction is part of the key, so the sealer cannot be the session that opens
  have hdir : recvDir w = sendDir who := (messageKeyOf_inj hkey).2.1
  have hwho : who = !w := by
    revert hdir
    rcases w <;> rcases who <;> decide
  have hcall : r = ⟨f.typ, pt, buf⟩ := by
    have htyp : f.typ = r.typ := by rw [hf, sealedFrame_typ]
    rcases r with ⟨rt, rp, rw'⟩
    simp only [Call.mk.injEq]
    exact ⟨htyp.symm, hpt.symm, hwire.trans hbuf.symm⟩
  rw [← hwho, ← hcall]
  exact hr

/-! ## Every step keeps it -/

theorem Inv.sealing (h : c.Inv root) (w : Bool) (typ : UInt8) (pt : Bytes) (rand : Option Nonce) :
    (c.next (.sealing w typ pt rand)).Inv root := by
  rcases h.side w with hclosed | hlive
  · simp only [Channel.next, sealFrame_closed hclosed]
    exact h.setSide (.inl hclosed) rfl
  · obtain ⟨hlive', hwin, hcases⟩ := sealFrame_spec hlive typ pt rand
    rcases hres : (c.side w).sealFrame typ pt rand with ⟨s, e | wire⟩
    · simp only [Channel.next, hres]
      rw [hres] at hlive' hwin
      exact h.setSide (.inr hlive') hwin
    · rw [hres] at hlive' hwin hcases
      simp only [Channel.next, hres]
      rcases hcases with ⟨e, he, -⟩ | ⟨n, -, -, hok, -⟩
      · exact absurd he (by simp)
      · exact (h.setSide (.inr hlive') hwin).logSeal ⟨_, _, n, Except.ok.inj hok⟩

theorem Inv.opening (h : c.Inv root) {w : Bool} {buf : Bytes} (hideal : c.IdealAead root buf) :
    (c.next (.opening w buf)).Inv root := by
  rcases h.side w with hclosed | hlive
  · simp only [Channel.next, openFrame_closed hclosed]
    exact h.setSide (.inl hclosed) rfl
  · obtain ⟨hlive', -, -, hcases⟩ := openFrame_spec hlive buf
    -- refused, with the window as it was, or accepted
    rcases hres : (c.side w).openFrame buf with ⟨s, e | ⟨typ, pt⟩⟩
    · rw [hres] at hlive' hcases
      simp only [Channel.next, hres]
      rcases hcases with ⟨e, -, hwin⟩ | ⟨f, pt, -, -, -, -, -, -, hok⟩
      · exact h.setSide (.inr hlive') hwin
      · exact absurd hok (by simp)
    · rw [hres] at hlive' hcases
      simp only [Channel.next, hres]
      rcases hcases with ⟨e, he, -⟩ | ⟨f, pt', hp, -, -, ho, hfresh, hwin, hok⟩
      · exact absurd he (by simp)
      · obtain ⟨rfl, rfl⟩ := Prod.mk.inj (Except.ok.inj hok)
        exact h.logOpen hlive' (h.sealed_of_accepted hideal hp ho) hp hfresh hwin

/-- Step lemma; the third kind of call is `Close`, which leaves the window alone. -/
theorem Inv.step (h : c.Inv root) {a : ChannelAct} {c' : Channel} (hs : c.Step root a c') :
    c'.Inv root := by
  obtain ⟨hideal, rfl⟩ := hs
  rcases a with ⟨w, typ, pt, rand⟩ | ⟨w, buf⟩ | w
  · exact h.sealing w typ pt rand
  · exact h.opening (hideal w buf rfl)
  · exact h.setSide (.inl rfl) rfl

theorem Inv.not_own (h : c.Inv root) {w : Bool} {r r' : Call} (hr : r ∈ c.opened w)
    (hr' : r' ∈ c.sealed w) : r.wire ≠ r'.wire := by
  intro heq
  obtain ⟨q, e, n, hw⟩ := h.sealed (!w) r (h.opened w hr)
  obtain ⟨q', e', n', hw'⟩ := h.sealed w r' hr'
  have hframe := marshalFrame_inj (length_sessionIDOf root) (length_sessionIDOf root)
    (hw.symm.trans (heq.trans hw'))
  have hopen := openBlob_sealedFrame root (sendDir (!w)) r.typ q e n r.plaintext
  rw [congrArg Frame.blob hframe] at hopen
  have hdir := (messageKeyOf_inj (openBlob_sealedFrame_inv hopen).1).2.1
  exact recvDir_ne_sendDir w hdir

/-- The position of an accepted call in the other end's log. -/
def sealOf (h : c.Inv root) (w : Bool) (k : Fin (c.opened w).length) :
    Fin (c.sealed (!w)).length :=
  ⟨(c.sealed (!w)).idxOf ((c.opened w).get k),
    List.idxOf_lt_length_of_mem (h.opened w (List.get_mem _ k))⟩

theorem get_sealOf (h : c.Inv root) (w : Bool) (k : Fin (c.opened w).length) :
    (c.sealed (!w)).get (sealOf h w k) = (c.opened w).get k :=
  List.idxOf_get _

theorem sealOf_injective (h : c.Inv root) (w : Bool) : Function.Injective (sealOf h w) := by
  intro k k' heq
  have hget : (c.opened w).get k = (c.opened w).get k' := by
    rw [← get_sealOf h w k, ← get_sealOf h w k', heq]
  exact (List.nodup_iff_injective_get.mp ((h.nodup w).of_map _)) hget

/-! ## A frame handed over at once -/

theorem next_sealing {w : Bool} (h : Live root w (c.side w)) (typ : UInt8) {pt : Bytes}
    (hpt : pt.length ≤ maxPlaintext) (n : Nonce) :
    c.next (.sealing w typ pt (some n))
      = (c.setSide w { (c.side w).rotated with sendSeq := (c.side w).sendSeq + 1 }).logSeal w
          ⟨typ, pt, marshalFrame
            (sealedFrame root (sendDir w) typ (c.side w).sendSeq (c.side w).sealEpoch n pt)⟩ := by
  rw [next, sealFrame_eq h typ hpt n]

/-- The attacker may also do nothing: a frame that is handed over while its epoch is in range and
its number fresh is accepted. -/
theorem next_opening {w : Bool} (h : Live root w (c.side w)) {typ : UInt8} {q : UInt64} {e : UInt32}
    {pt : Bytes} (n : Nonce) (htyp : typ ∈ frameTypes) (hpt : pt.length ≤ maxPlaintext)
    (hr : (c.side w).inRange e) (hfresh : (check (c.side w).recvWin q).2 = true) :
    (c.next (.opening w (marshalFrame (sealedFrame root (recvDir w) typ q e n pt)))).opened w
      = c.opened w ++ [⟨typ, pt, marshalFrame (sealedFrame root (recvDir w) typ q e n pt)⟩] := by
  rw [next, openFrame_sealedFrame h n htyp hpt hr hfresh]
  exact Function.update_self _ _ _

theorem idealAead_of_sealed {w : Bool} {r : Call} (hr : r ∈ c.sealed w) :
    c.IdealAead root r.wire :=
  fun _ _ _ _ _ hp _ => ⟨w, r, hr, (parseFrame_eq_ok.mp hp).1⟩

theorem exists_handed_over (hroot : root.length = keySize) :
    ∃ acts c, Run (Step root) (start (freshSession root true) (freshSession root false)) acts c ∧
      (c.opened false).length = 1 := by
  have hlive := freshSession_live hroot
  have hpt : (lits [104, 105] : Bytes).length ≤ maxPlaintext := by simp [maxPlaintext]
  let n : Nonce := ⟨List.replicate 12 0, rfl⟩
  let c₀ := start (freshSession root true) (freshSession root false)
  set c₁ := c₀.next (.sealing true typeChat (lits [104, 105]) (some n)) with hc₁
  rw [next_sealing (c := c₀) (w := true) (hlive true) typeChat hpt n] at hc₁
  set wire := marshalFrame (sealedFrame root (sendDir true) typeChat 0 0 n (lits [104, 105]))
  have hmem : ⟨typeChat, lits [104, 105], wire⟩ ∈ c₁.sealed true := by
    rw [hc₁]
    exact List.mem_append_right _ (List.mem_singleton_self _)
  have hside : c₁.side false = freshSession root false := by
    rw [hc₁]
    rfl
  have hopened : c₁.opened false = [] := by
    rw [hc₁]
    rfl
  -- first the `Seal`, which the AEAD does not constrain, then the `Open` of its frame
  refine ⟨[] ++ [.sealing true typeChat (lits [104, 105]) (some n)] ++ [.opening false wire],
    c₁.next (.opening false wire), .snoc (.snoc .nil ⟨?_, rfl⟩) ⟨?_, rfl⟩, ?_⟩
  · rintro _ _ ⟨⟩
  · rintro _ _ ⟨⟩
    exact idealAead_of_sealed hmem
  · have hopen := next_opening (c := c₁) (w := false) (q := 0) (e := 0)
      (by rw [hside]; exact hlive false) n (show typeChat ∈ frameTypes by decide) hpt
      (by rw [hside]; exact .inl rfl) (by rw [hside]; rfl)
    rw [hopened] at hopen
    exact congrArg List.length hopen

end Channel

/-! ## The result -/

/-- **Session integrity and at-most-once delivery.** In every run of the two sessions of one
handshake, under an attacker who may hand any string to either end at any time, the
successful `Open`s of each end inject into the successful `Seal`s of the other, with type and
plaintext preserved; no string is accepted twice, and none that the same end sealed. -/
theorem opens_inject_into_seals {shared transcript : Bytes} {a b : Session}
    (ha : newSession shared transcript true = .ok a)
    (hb : newSession shared transcript false = .ok b)
    {acts : List ChannelAct} {c : Channel}
    (hrun : Run (Channel.Step (rootOf shared transcript)) (Channel.start a b) acts c) (w : Bool) :
    (∃ g : Fin (c.opened w).length → Fin (c.sealed (!w)).length, Function.Injective g ∧
        ∀ k, ((c.sealed (!w)).get (g k)).typ = ((c.opened w).get k).typ ∧
          ((c.sealed (!w)).get (g k)).plaintext = ((c.opened w).get k).plaintext ∧
          ((c.sealed (!w)).get (g k)).wire = ((c.opened w).get k).wire) ∧
      ((c.opened w).map Call.wire).Nodup ∧
      ∀ r ∈ c.opened w, ∀ r' ∈ c.sealed w, r.wire ≠ r'.wire := by
  obtain ⟨-, rfl⟩ := newSession_eq_ok ha
  obtain ⟨-, rfl⟩ := newSession_eq_ok hb
  have hinv : c.Inv (rootOf shared transcript) :=
    hrun.invariant _ (Channel.Inv.start (length_rootOf _ _)) fun _ _ _ h hs => h.step hs
  refine ⟨⟨Channel.sealOf hinv w, Channel.sealOf_injective hinv w, fun k => ?_⟩, hinv.nodup w,
    fun r hr r' hr' => hinv.not_own hr hr'⟩
  rw [Channel.get_sealOf hinv w k]
  exact ⟨rfl, rfl, rfl⟩

/-- The run of `exists_handed_over`, over the root of a concrete secret. -/
theorem opens_inject_into_seals_chat :
    ∃ (acts : List ChannelAct) (c : Channel),
      Run (Channel.Step (rootOf (lits [7]) []))
        (Channel.start (freshSession (rootOf (lits [7]) []) true)
          (freshSession (rootOf (lits [7]) []) false)) acts c ∧
      (c.opened false).length = 1 ∧
      ∃ g : Fin (c.opened false).length → Fin (c.sealed true).length, Function.Injective g := by
  have hne : (lits [7] : Bytes) ≠ [] := by simp
  obtain ⟨acts, c, hrun, hlen⟩ := Channel.exists_handed_over (length_rootOf (lits [7]) [])
  obtain ⟨⟨g, hg, -⟩, -⟩ :=
    opens_inject_into_seals (newSession_eq hne _ _) (newSession_eq hne _ _) hrun false
  exact ⟨acts, c, hrun, hlen, g, hg⟩

end Heimdall.Proto
