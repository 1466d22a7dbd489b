/-
The formats of `internal/proto` on the wire, and the text of a chat message on its way through them.

Session frames, msg1, auth messages and auth payloads are written by hand, with length fields of two
and of four bytes. `Wire` and `Handshake` say of each parser what exactly it accepts; here the four
are put together (`formats_canonical`), with the header that `Open` writes once more for the AEAD.

A chat text has a length of two bytes in front (`encodeChatPayload`), and the conversion to `uint16`
truncates. What keeps a long text from being cut is the limit of another layer: `Seal` refuses a
payload above `maxPlaintext`, which is far below 2^16, and what it does not refuse fits into a frame
(`chat_exact_or_refused`).
-/
import Heimdall.Pair
import Heimdall.Handshake

set_option autoImplicit false

namespace Heimdall.Proto

open Heimdall.BigEndian Heimdall.Octets Heimdall.Crypto Heimdall.Runs

/-! ## The four formats -/

/-- **The formats are canonical.** What is written from well-formed parts is read as those parts;
what a parser accepts is what the parts it returns are written as; and the header of an accepted
frame is written as it was received. -/
theorem formats_canonical :
    -- session frames
    (∀ f : Frame, f.session.length = 8 → f.typ ∈ frameTypes → (marshalFrame f).length ≤ maxFrame →
        parseFrame (marshalFrame f) = .ok f) ∧
    (∀ buf f, parseFrame buf = .ok f → marshalFrame f = buf ∧
        marshalHeaderOnly f = buf.take headerSize) ∧
    -- msg1
    (∀ h : Handshaker, h.initiator = true → h.ephPub.length = 32 →
        ∃ msg, h.initMessage = .ok msg ∧ parseInit msg = .ok h.ephPub) ∧
    (∀ msg eph, parseInit msg = .ok eph →
        ∀ h : Handshaker, h.initiator = true → h.ephPub = eph → h.initMessage = .ok msg) ∧
    -- auth messages
    (∀ eph blob : Bytes, eph.length = 32 → blob ≠ [] → blob.length < 2 ^ 32 →
        parseAuth (marshalAuth eph blob) = .ok (eph, blob)) ∧
    (∀ msg eph blob, parseAuth msg = .ok (eph, blob) → marshalAuth eph blob = msg) ∧
    -- auth payloads
    (∀ pub name sig : Bytes, pub.length = 32 → 1 ≤ name.length → name.length ≤ 64 →
        sig.length = 64 → parseAuthPlain (marshalAuthPlain pub name sig) = .ok (pub, name, sig)) ∧
    ∀ b pub name sig, parseAuthPlain b = .ok (pub, name, sig) →
      marshalAuthPlain pub name sig = b := by
  have hinit : ∀ h : Handshaker, h.initiator = true →
      h.initMessage = .ok (.lit hsTypeInit :: (putUint16 h.ephPub.length ++ h.ephPub)) := by
    intro h hrole
    rw [Handshaker.initMessage, if_neg (by simp [hrole])]
  refine ⟨?_, ?_, ?_, ?_, ?_, ?_, ?_, ?_⟩
  · intro f hsess htyp hlen
    exact parseFrame_eq_ok.mpr ⟨rfl, hsess, htyp, hlen⟩
  · intro buf f hparse
    obtain ⟨rfl, hsess, -, -⟩ := parseFrame_eq_ok.mp hparse
    refine ⟨rfl, ?_⟩
    -- the second encoder writes what the first one writes before the blob
    rw [marshalFrame_eq, List.take_left' (length_marshalHeaderOnly f hsess)]
  · intro h hrole hlen
    exact ⟨_, hinit h hrole, parseInit_eq_ok.mpr ⟨hlen, rfl⟩⟩
  · intro msg eph hparse h hrole heph
    subst heph
    rw [hinit h hrole, (parseInit_eq_ok.mp hparse).2]
  · intro eph blob heph hne hlen
    exact parseAuth_eq_ok.mpr ⟨heph, List.length_pos_iff.mpr hne, hlen, rfl⟩
  · intro msg eph blob hparse
    exact (parseAuth_eq_ok.mp hparse).2.2.2.symm
  · intro pub name sig hpub hpos hname hsig
    exact parseAuthPlain_eq_ok.mpr ⟨hpub, hpos, hname, hsig, rfl⟩
  · intro b pub name sig hparse
    exact (parseAuthPlain_eq_ok.mp hparse).2.2.2.2.symm

/-! ## Chat payloads -/

/-- Why a plaintext is not a chat payload. -/
inductive ChatErr where
  | tooShort
  | truncated
  /-- Two octets of key material; they have no numeric value here. -/
  | opaqueLength
  deriving DecidableEq

def ChatErr.message : ChatErr → String
  | .tooShort => "proto: malformed frame: chat payload too short"
  | .truncated => "proto: malformed frame: chat payload truncated"
  | .opaqueLength => "proto: malformed frame: chat length without a numeric value"

def encodeChatPayload (text : Bytes) : Bytes := putUint16 text.length ++ text

def decodeChatPayload (b : Bytes) : Except ChatErr Bytes :=
  if b.length < 2 then .error .tooShort
  else
    match vals? (slice b 0 2) with
    | none => .error .opaqueLength
    | some bs =>
      if b.length - 2 < beNat bs then .error .truncated else .ok (slice b 2 (2 + beNat bs))

def Session.sealChat (s : Session) (text : Bytes) (rand : Option Nonce) :
    Session × Except ProtoErr Bytes :=
  s.sealFrame typeChat (encodeChatPayload text) rand

def decodeChat (plaintext : Bytes) : Except ChatErr Bytes := decodeChatPayload plaintext

theorem length_encodeChatPayload (text : Bytes) :
    (encodeChatPayload text).length = text.length + 2 := by
  rw [encodeChatPayload, List.length_append, length_putUint16, Nat.add_comm]

theorem decodeChat_encodeChatPayload (text : Bytes) :
    decodeChat (encodeChatPayload text) = .ok (text.take (text.length % 2 ^ 16)) := by
  have hlen := length_encodeChatPayload text
  have hnum : slice (encodeChatPayload text) 0 2 = lits (beBytes 2 text.length) :=
    slice_mid (a := []) (m := putUint16 text.length) text rfl (by simp)
  have hval : beNat (beBytes 2 text.length) = text.length % 2 ^ 16 := beNat_beBytes 2 text.length
  have hle : text.length % 2 ^ 16 ≤ text.length := Nat.mod_le _ _
  have htext : slice (encodeChatPayload text) 2 (2 + text.length % 2 ^ 16)
      = text.take (text.length % 2 ^ 16) := by
    rw [slice, encodeChatPayload, List.drop_left' (length_putUint16 _), Nat.add_sub_cancel_left]
  rw [decodeChat, decodeChatPayload, if_neg (by omega), hnum, vals?_lits]
  dsimp only
  rw [hval, if_neg (by omega), htext]

/-- A payload that `Seal` takes is read as it was written, as its limit is far below 2^16. -/
theorem decodeChat_of_le {text : Bytes} (h : (encodeChatPayload text).length ≤ maxPlaintext) :
    decodeChat (encodeChatPayload text) = .ok text := by
  have hlt : text.length < 2 ^ 16 := by
    rw [length_encodeChatPayload] at h
    unfold maxPlaintext at h
    omega
  rw [decodeChat_encodeChatPayload, Nat.mod_eq_of_lt hlt, List.take_length]

/-! ## A chat text from end to end -/

theorem length_marshalFrame_sealedFrame (root : Bytes) (d : Dir) (typ : UInt8) (q : UInt64)
    (e : UInt32) (n : Nonce) (pt : Bytes) :
    (marshalFrame (sealedFrame root d typ q e n pt)).length
      = headerSize + nonceSize + pt.length + tagSize := by
  rw [marshalFrame_eq, List.length_append, length_marshalHeaderOnly _ (length_sessionIDOf root)]
  simp only [sealedFrame, List.length_append, length_lits, n.length_bytes, length_block]
  omega

section Chat

variable {root : Bytes} {i : Bool} {s : Session}

theorem Session.Valid.length_sealed (h : s.Valid root i) {typ : UInt8} {pt : Bytes}
    {rand : Option Nonce} {wire : Bytes} (hseal : (s.sealFrame typ pt rand).2 = .ok wire) :
    headerSize ≤ wire.length ∧ wire.length ≤ maxFrame := by
  rcases h with hclosed | hlive
  · rw [sealFrame_closed hclosed] at hseal
    exact absurd hseal nofun
  obtain ⟨-, -, ⟨e, hres, -, -⟩ | ⟨n, -, hpt, hres, -, -⟩⟩ := sealFrame_spec hlive typ pt rand
  · rw [hres] at hseal
    exact absurd hseal nofun
  · obtain rfl := Except.ok.inj (hres.symm.trans hseal)
    rw [length_marshalFrame_sealedFrame]
    unfold maxFrame nonceSize tagSize
    omega

theorem Live.sealChat_iff (h : Live root i s) (text : Bytes) (n : Nonce) :
    (∃ wire, (s.sealChat text (some n)).2 = .ok wire) ↔ text.length + 2 ≤ maxPlaintext := by
  unfold Session.sealChat
  rw [← length_encodeChatPayload]
  constructor
  · rintro ⟨wire, hseal⟩
    obtain ⟨-, -, ⟨e, hres, -, -⟩ | ⟨-, -, hpt, -, -, -⟩⟩ :=
      sealFrame_spec h typeChat (encodeChatPayload text) (some n)
    · rw [hres] at hseal
      exact absurd hseal nofun
    · exact hpt
  · intro hpt
    exact ⟨_, congrArg Prod.snd (sealFrame_eq h typeChat hpt n)⟩

/-- One text from an end to the other: either `SealChat` fails, or the frame that it returns is
opened as what was sealed, and decodes to the text. -/
theorem Session.Valid.chat (h : s.Valid root i) {s' : Session} (h' : Live root (!i) s')
    (hrange : s'.inRange s.sealEpoch) (hfresh : (check s'.recvWin s.sendSeq).2 = true)
    (text : Bytes) (rand : Option Nonce) :
    (∃ e, (s.sealChat text rand).2 = .error e) ∨
      ∃ wire plaintext, (s.sealChat text rand).2 = .ok wire ∧
        (s'.openFrame wire).2 = .ok (typeChat, plaintext) ∧ decodeChat plaintext = .ok text := by
  unfold Session.sealChat
  rcases h with hclosed | hlive
  · rw [sealFrame_closed hclosed]
    exact .inl ⟨_, rfl⟩
  obtain ⟨-, -, ⟨e, hres, -, -⟩ | ⟨n, -, hpt, hres, -, -⟩⟩ :=
    sealFrame_spec hlive typeChat (encodeChatPayload text) rand
  · exact .inl ⟨e, hres⟩
  · refine .inr ⟨_, encodeChatPayload text, hres, ?_, decodeChat_of_le hpt⟩
    -- the direction this end sends in is the one the other end receives in
    have hdir : sendDir i = recvDir (!i) := by rw [← recvDir_eq_sendDir_not, Bool.not_not]
    rw [hdir, openFrame_sealedFrame h' n (by decide) hpt hrange hfresh]

end Chat

/-- **A chat text arrives exactly or is refused.** In every run of the two sessions of one
handshake, when the other end is open and admits the next frame of this one, `SealChat` fails or its
frame is opened as a chat and decodes to the text. No frame of `Seal` is too large for `parseFrame`,
and only a text above the limit is refused by an open session that has a nonce. -/
theorem chat_exact_or_refused {shared transcript : Bytes} {a b : Session}
    (ha : newSession shared transcript true = .ok a)
    (hb : newSession shared transcript false = .ok b)
    {acts : List (Bool × SessionAct)} {p : Pair} (hrun : Run Pair.Call (Pair.start a b) acts p)
    (w : Bool) :
    (∀ (text : Bytes) (rand : Option Nonce), (p.side (!w)).closed = false →
      (p.side (!w)).inRange (p.side w).sealEpoch →
      (check (p.side (!w)).recvWin (p.side w).sendSeq).2 = true →
        (∃ e, ((p.side w).sealChat text rand).2 = .error e) ∨
          ∃ wire plaintext, ((p.side w).sealChat text rand).2 = .ok wire ∧
            ((p.side (!w)).openFrame wire).2 = .ok (typeChat, plaintext) ∧
            decodeChat plaintext = .ok text) ∧
      (∀ (typ : UInt8) (pt : Bytes) (rand : Option Nonce) (wire : Bytes),
        ((p.side w).sealFrame typ pt rand).2 = .ok wire →
          headerSize ≤ wire.length ∧ wire.length ≤ maxFrame) ∧
      ∀ (text : Bytes) (n : Nonce), (p.side w).closed = false →
        ((∃ wire, ((p.side w).sealChat text (some n)).2 = .ok wire) ↔
          text.length + 2 ≤ maxPlaintext) := by
  obtain ⟨-, rfl⟩ := newSession_eq_ok ha
  obtain ⟨-, rfl⟩ := newSession_eq_ok hb
  have hvalid : ∀ w, (p.side w).Valid (rootOf shared transcript) w :=
    fun w => (Pair.run_numbered (length_rootOf shared transcript) hrun w).valid
  have hlive : ∀ {w}, (p.side w).closed = false → Live (rootOf shared transcript) w (p.side w) :=
    fun {w} hopen => (hvalid w).resolve_left (by simp [hopen])
  refine ⟨?_, ?_, ?_⟩
  · intro text rand hopen hrange hfresh
    exact (hvalid w).chat (hlive hopen) hrange hfresh text rand
  · intro typ pt rand wire hseal
    exact (hvalid w).length_sealed hseal
  · intro text n hopen
    exact (hlive hopen).sealChat_iff text n

/-- The third text of a responder that is one epoch ahead, which the initiator reads. -/
theorem chat_exact_or_refused_ahead :
    (aheadPair.side true).epoch = 0 ∧ (aheadPair.side false).sealEpoch = 1 ∧
      (aheadPair.side true).inRange (aheadPair.side false).sealEpoch ∧
      ∃ wire plaintext,
        ((aheadPair.side false).sealChat (lits [104, 105]) demoNonce).2 = .ok wire ∧
        ((aheadPair.side true).openFrame wire).2 = .ok (typeChat, plaintext) ∧
        decodeChat plaintext = .ok (lits [104, 105]) := by
  have hrun : Run Pair.Call demoPair aheadActs aheadPair := aheadPair_run.mono fun _ _ _ hs => hs.1
  obtain ⟨harrives, -, hsize⟩ :=
    chat_exact_or_refused newSession_demo (newSession_eq (by simp) _ _) hrun false
  have hrange : (aheadPair.side true).inRange (aheadPair.side false).sealEpoch := by decide +kernel
  obtain ⟨wire, hseal⟩ :=
    (hsize (lits [104, 105]) ⟨List.replicate 12 0, rfl⟩ (by decide +kernel)).mpr (by decide)
  refine ⟨by decide +kernel, by decide +kernel, hrange, ?_⟩
  rcases harrives (lits [104, 105]) demoNonce (by decide +kernel) hrange (by decide +kernel)
    with ⟨e, herr⟩ | hok
  · exact absurd (hseal.symm.trans herr) nofun
  · exact hok

end Heimdall.Proto
