/-
Dialling the relay, `internal/rendezvous/dialer.go`.

`Dial` walks the ladder and takes the first rung that works. What the network does is not up to
the endpoint: an `Outcome` says for every rung whether the TCP dials succeed, what the other side
presents in the TLS handshakes and whether the upgrade goes through, and it is arbitrary.

With a pin or `Verify` the two TLS rungs only ever return a connection whose certificate has been
checked (`dialTLS_strict`). But the last rung of the ladder is a plain one, and `Dial` goes on to it
whatever the reason was for which the others failed: an interceptor whose certificate is refused
is given a connection without any (`refused_then_plain`). A strict endpoint gets checked connections
only, exactly if the plain rung is not reached or does not work (`strict_checked_iff`).

Nor does a pin bind the key of the connection. TLS proves possession of the key of the first
certificate only, and `verifyPin` is content with any certificate of the list
(`pin_binds_first_iff`).
-/
import Heimdall.Peers

set_option autoImplicit false

namespace Heimdall.Rendezvous

open Heimdall.Peers (GoString)

/-! ## Pins -/

def base64Value (c : UInt8) : Option ℕ :=
  if 65 ≤ c ∧ c ≤ 90 then some (c.toNat - 65)
  else if 97 ≤ c ∧ c ≤ 122 then some (c.toNat - 71)
  else if 48 ≤ c ∧ c ≤ 57 then some (c.toNat + 4)
  else if c = 43 then some 62
  else if c = 47 then some 63
  else none

def base64Groups : List UInt8 → Option (List UInt8)
  | [] => some []
  | [a, b, 61, 61] => do
    let x ← base64Value a
    let y ← base64Value b
    return [UInt8.ofNat (x * 4 + y / 16)]
  | [a, b, c, 61] => do
    let x ← base64Value a
    let y ← base64Value b
    let z ← base64Value c
    return [UInt8.ofNat (x * 4 + y / 16), UInt8.ofNat (y % 16 * 16 + z / 4)]
  | a :: b :: c :: d :: rest => do
    let x ← base64Value a
    let y ← base64Value b
    let z ← base64Value c
    let w ← base64Value d
    let more ← base64Groups rest
    return UInt8.ofNat (x * 4 + y / 16) :: UInt8.ofNat (y % 16 * 16 + z / 4) ::
      UInt8.ofNat (z % 4 * 64 + w) :: more
  | _ => none

/-- `base64.StdEncoding.DecodeString`, which skips line ends. -/
def decodeString (s : GoString) : Option (List UInt8) :=
  base64Groups (s.filter fun c => c ≠ 13 ∧ c ≠ 10)

/-- A certificate as `x509.ParseCertificate` reads it: its `RawSubjectPublicKeyInfo`, unless it does
not parse. -/
abbrev Certificate := Option (List UInt8)

/-- What a TLS handshake runs into: the certificates that are presented, whether they verify
against the system roots for the server's name, and whether the handshake breaks otherwise. -/
structure Peer where
  certs : List Certificate := []
  trusted : Bool := false
  broken : Bool := false

/-- `Endpoint`, without what only says where to dial. -/
structure Endpoint where
  host : GoString
  pin : GoString := []
  verify : Bool := false

section

variable (sha256 : List UInt8 → List UInt8)

def verifyPin (pin : GoString) (certs : List Certificate) : Bool :=
  match decodeString pin with
  | none => false
  | some want => certs.any fun cert =>
      match cert with
      | none => false
      | some spki => want.length = (sha256 spki).length ∧ want = sha256 spki

/-! ## TLS -/

/-- What `tlsConfig` sets; a pin stands for `VerifyPeerCertificate`. -/
structure TLSConfig where
  serverName : GoString
  insecureSkipVerify : Bool
  pin : Option GoString
  deriving DecidableEq

inductive TLSError where
  /-- A `CertificateVerificationError`. -/
  | certificate
  /-- The error of `VerifyPeerCertificate`. -/
  | pin
  | other
  deriving DecidableEq

def Endpoint.tlsConfig (e : Endpoint) (skipVerify : Bool) : TLSConfig :=
  -- a pin takes the place of the verification against the roots
  if e.pin ≠ [] then ⟨e.host, true, some e.pin⟩ else ⟨e.host, skipVerify, none⟩

/-- The handshake gets as far as the checks of the certificates. -/
def Peer.presents (p : Peer) : Bool := !p.broken && p.certs ≠ [] && p.certs.all Option.isSome

/-- `HandshakeContext` of a client with this configuration. -/
def handshake (cfg : TLSConfig) (p : Peer) : Except TLSError Unit :=
  if p.presents = false then .error .other
  else if cfg.insecureSkipVerify = false ∧ p.trusted = false then .error .certificate
  else
    match cfg.pin with
    | none => .ok ()
    | some pin => if verifyPin sha256 pin p.certs then .ok () else .error .pin

def isCertError : TLSError → Bool
  | .certificate => true
  | .pin | .other => false

/-! ## The ladder -/

inductive Rung where
  | tlsDirect
  | tlsProxy
  | httpDirect
  deriving DecidableEq

def ladder : List Rung := [.tlsDirect, .tlsProxy, .httpDirect]

/-- A TCP dial and the handshake over it. -/
structure Attempt where
  raw : Bool := false
  peer : Peer := {}

/-- What the network does on one rung: `ProxyURL` finds a proxy, the dials of `dialTLS`, the upgrade
of `ClientHandshake`, and whether the context is done when the rung has failed. -/
structure RungOutcome where
  proxy : Bool := false
  first : Attempt := {}
  second : Attempt := {}
  upgrade : Bool := false
  expired : Bool := false

/-- What the network does, by rung; every rung is tried once at most. -/
abbrev Outcome := Rung → RungOutcome

/-- A connection that `Dial` returns. -/
inductive NetConn where
  | plain
  | tls (cfg : TLSConfig) (peer : Peer)

inductive DialError where
  | noProxy
  | dial
  | tls (e : TLSError)
  | upgrade
  deriving DecidableEq

namespace Endpoint

variable (e : Endpoint)

def dialTLS (o : RungOutcome) : Except DialError NetConn :=
  if o.first.raw = false then .error .dial
  else
    match handshake sha256 (e.tlsConfig false) o.first.peer with
    | .ok () => .ok (.tls (e.tlsConfig false) o.first.peer)
    | .error err =>
      if e.pin ≠ [] ∨ e.verify = true ∨ isCertError err = false then .error (.tls err)
      -- verification failed, and it is permitted to go on anyway
      else if o.second.raw = false then .error .dial
      else
        match handshake sha256 (e.tlsConfig true) o.second.peer with
        | .ok () => .ok (.tls (e.tlsConfig true) o.second.peer)
        | .error err => .error (.tls err)

def clientHandshake (o : RungOutcome) (c : NetConn) : Except DialError NetConn :=
  if o.upgrade then .ok c else .error .upgrade

def dialRung (o : RungOutcome) : Rung → Except DialError NetConn
  | .tlsDirect => (e.dialTLS sha256 o).bind (clientHandshake o)
  | .tlsProxy =>
    if o.proxy = false then .error .noProxy else (e.dialTLS sha256 o).bind (clientHandshake o)
  -- neither `Pin` nor `Verify` is looked at
  | .httpDirect => if o.first.raw = false then .error .dial else clientHandshake o .plain

def dialLoop (o : Outcome) : List Rung → List (Rung × DialError) →
    Except (List (Rung × DialError)) (NetConn × Rung)
  | [], errs => .error errs
  | rung :: rungs, errs =>
    match e.dialRung sha256 (o rung) rung with
    | .ok conn => .ok (conn, rung)
    -- whatever the error was, the next rung is tried
    | .error err =>
      if (o rung).expired then .error (errs ++ [(rung, err)])
      else dialLoop o rungs (errs ++ [(rung, err)])

def dial (o : Outcome) : Except (List (Rung × DialError)) (NetConn × Rung) :=
  e.dialLoop sha256 o ladder []

/-! ## What a strict endpoint gets -/

/-- A pin is set, or `Verify`. -/
def Strict : Prop := e.pin ≠ [] ∨ e.verify = true

/-- The certificates pass the check the endpoint asks for. -/
def passes (p : Peer) : Bool := if e.pin ≠ [] then verifyPin sha256 e.pin p.certs else p.trusted

/-- The connection is a TLS connection whose certificates have passed the check. -/
def Checked : NetConn → Prop
  | .plain => False
  | .tls _ peer => e.passes sha256 peer = true

/-- A TLS rung works: the dial, the handshake with its check, and the upgrade. -/
def works (o : RungOutcome) : Bool :=
  o.first.raw && o.first.peer.presents && e.passes sha256 o.first.peer && o.upgrade

/-- The network lets neither TLS rung work before the time is up, and the plain one does. -/
def FallsThrough (o : Outcome) : Prop :=
  (e.works sha256 (o .tlsDirect) = false ∧ (o .tlsDirect).expired = false) ∧
    (((o .tlsProxy).proxy && e.works sha256 (o .tlsProxy)) = false ∧
      (o .tlsProxy).expired = false) ∧
    (o .httpDirect).first.raw = true ∧ (o .httpDirect).upgrade = true

variable {sha256 e} {o : RungOutcome} {c : NetConn} {p : Peer}

/-- The handshake with the first configuration succeeds exactly if the certificates pass the check
the endpoint asks for. With a pin this is the pin alone, since the roots are not looked at then. -/
theorem handshake_strict (e : Endpoint) :
    handshake sha256 (e.tlsConfig false) p = .ok () ↔
      p.presents = true ∧ e.passes sha256 p = true := by
  unfold handshake tlsConfig passes
  by_cases hpin : e.pin ≠ []
  · rw [if_pos hpin, if_pos hpin]
    split_ifs <;> simp_all
  · rw [if_neg hpin, if_neg hpin]
    split_ifs <;> simp_all

/-- **A strict endpoint's TLS dial** returns the connection of its first handshake, checked, and
does not try again. -/
theorem dialTLS_strict (he : e.Strict) :
    e.dialTLS sha256 o = .ok c ↔
      (o.first.raw && o.first.peer.presents && e.passes sha256 o.first.peer) = true ∧
        c = .tls (e.tlsConfig false) o.first.peer := by
  unfold dialTLS
  by_cases hraw : o.first.raw = false
  · rw [if_pos hraw]
    simp [hraw]
  · rw [if_neg hraw]
    have hraw' : o.first.raw = true := by simpa using hraw
    rcases hhs : handshake sha256 (e.tlsConfig false) o.first.peer with err | _
    · have hno : ¬ (o.first.peer.presents = true ∧ e.passes sha256 o.first.peer = true) := by
        rw [← handshake_strict, hhs]
        simp
      have hstrict : e.pin ≠ [] ∨ e.verify = true ∨ isCertError err = false := by
        rcases he with hpin | hver
        · exact .inl hpin
        · exact .inr (.inl hver)
      dsimp only
      rw [if_pos hstrict]
      simpa [hraw'] using fun h₁ h₂ _ => hno ⟨h₁, h₂⟩
    · obtain ⟨hpres, hpass⟩ := (handshake_strict e).mp hhs
      simp [hraw', hpres, hpass, eq_comm]

/-- For a strict endpoint `dialTLS` does not try a second time, so a rung over TLS either gives a
checked connection or fails. -/
theorem tls_strict (he : e.Strict) :
    (e.dialTLS sha256 o).bind (clientHandshake o) = .ok c ↔
      e.works sha256 o = true ∧ c = .tls (e.tlsConfig false) o.first.peer := by
  have hdial : ∀ c, e.dialTLS sha256 o = .ok c ↔ _ := fun c => dialTLS_strict he
  unfold works clientHandshake
  rcases htls : e.dialTLS sha256 o with err | c'
  · have hno : (o.first.raw && o.first.peer.presents && e.passes sha256 o.first.peer) = false := by
      rw [← Bool.not_eq_true]
      intro hyes
      have := (hdial _).mpr ⟨hyes, rfl⟩
      rw [htls] at this
      exact absurd this (by simp)
    simp [Except.bind, hno]
  · obtain ⟨hyes, hc⟩ := (hdial c').mp htls
    subst hc
    by_cases hup : o.upgrade = true <;> simp [Except.bind, hyes, hup, eq_comm]

theorem dialRung_strict (he : e.Strict) (r : Rung) :
    e.dialRung sha256 o r = .ok c ↔
      match r with
      | .tlsDirect => e.works sha256 o = true ∧ c = .tls (e.tlsConfig false) o.first.peer
      | .tlsProxy => (o.proxy && e.works sha256 o) = true ∧
          c = .tls (e.tlsConfig false) o.first.peer
      | .httpDirect => (o.first.raw = true ∧ o.upgrade = true) ∧ c = .plain := by
  cases r with
  | tlsDirect => exact tls_strict he
  | tlsProxy =>
    unfold dialRung
    by_cases hproxy : o.proxy = false
    · simp [hproxy]
    · have hproxy' : o.proxy = true := by simpa using hproxy
      rw [if_neg hproxy, tls_strict he]
      simp [hproxy']
  | httpDirect =>
    unfold dialRung clientHandshake
    by_cases hraw : o.first.raw = false
    · simp [hraw]
    · have hraw' : o.first.raw = true := by simpa using hraw
      by_cases hup : o.upgrade = true <;> simp [hraw', hup, eq_comm]

/-- A rung that fails in time for the next one to be tried. -/
def Skipped (sha256 : List UInt8 → List UInt8) (e : Endpoint) (o : Outcome) (r : Rung) : Prop :=
  (∀ c, e.dialRung sha256 (o r) r ≠ .ok c) ∧ (o r).expired = false

/-- **The loop of `Dial`** returns the connection of the first rung that gives one, if every rung
before it is skipped. By induction on the rungs, for any errors so far. -/
theorem dialLoop_eq_ok {o : Outcome} {r : Rung} (rungs : List Rung)
    (errs : List (Rung × DialError)) :
    e.dialLoop sha256 o rungs errs = .ok (c, r) ↔
      ∃ pre post, rungs = pre ++ r :: post ∧ (∀ r' ∈ pre, e.Skipped sha256 o r') ∧
        e.dialRung sha256 (o r) r = .ok c := by
  induction rungs generalizing errs with
  | nil => simp [dialLoop]
  | cons rung rungs ih =>
    unfold dialLoop
    rcases hrung : e.dialRung sha256 (o rung) rung with err | c'
    · -- the rung fails: only a rung further down can be the one that is returned
      dsimp only
      have hne : ∀ c, e.dialRung sha256 (o rung) rung ≠ .ok c := by simp [hrung]
      split_ifs with hexp
      · refine ⟨fun h => by simp at h, ?_⟩
        rintro ⟨pre, post, hsplit, hpre, hok⟩
        cases pre with
        | nil =>
          obtain ⟨rfl, -⟩ := List.cons.inj hsplit
          exact absurd hok (hne c)
        | cons r' pre =>
          obtain ⟨rfl, -⟩ := List.cons.inj hsplit
          exact absurd (hpre rung (by simp)).2 (by simp [hexp])
      · rw [ih]
        constructor
        · rintro ⟨pre, post, hsplit, hpre, hok⟩
          refine ⟨rung :: pre, post, by rw [hsplit]; rfl, ?_, hok⟩
          intro r' hr'
          rcases List.mem_cons.mp hr' with rfl | hr'
          · exact ⟨hne, by simpa using hexp⟩
          · exact hpre r' hr'
        · rintro ⟨pre, post, hsplit, hpre, hok⟩
          cases pre with
          | nil =>
            obtain ⟨rfl, -⟩ := List.cons.inj hsplit
            exact absurd hok (hne c)
          | cons r' pre =>
            obtain ⟨rfl, htail⟩ := List.cons.inj hsplit
            exact ⟨pre, post, htail, fun r'' h => hpre r'' (List.mem_cons_of_mem _ h), hok⟩
    · -- the rung works: it is the one, and nothing comes before it
      dsimp only
      constructor
      · intro h
        obtain ⟨rfl, rfl⟩ := Prod.mk.inj (Except.ok.inj h)
        exact ⟨[], rungs, rfl, by simp, hrung⟩
      · rintro ⟨pre, post, hsplit, hpre, hok⟩
        cases pre with
        | nil =>
          obtain ⟨rfl, -⟩ := List.cons.inj hsplit
          rw [hrung] at hok
          rw [Except.ok.inj hok]
        | cons r' pre =>
          obtain ⟨rfl, -⟩ := List.cons.inj hsplit
          exact absurd hrung ((hpre rung (by simp)).1 c')

theorem checked_of_works (h : e.works sha256 o = true) :
    e.Checked sha256 (.tls (e.tlsConfig false) o.first.peer) := by
  unfold works at h
  simp only [Bool.and_eq_true] at h
  exact h.1.2

theorem skipped_tls (he : e.Strict) {o : Outcome} {r : Rung} (hr : r ≠ .httpDirect) :
    e.Skipped sha256 o r ↔
      ((match r with
        | .tlsProxy => (o .tlsProxy).proxy && e.works sha256 (o .tlsProxy)
        | _ => e.works sha256 (o r)) = false ∧ (o r).expired = false) := by
  unfold Skipped
  refine and_congr_left fun _ => ?_
  cases r with
  | tlsDirect => simp [dialRung_strict he]
  | tlsProxy =>
    rw [← Bool.not_eq_true]
    constructor
    · intro h hworks
      exact h _ ((dialRung_strict he _).mpr ⟨hworks, rfl⟩)
    · intro h c hc
      exact h ((dialRung_strict he _).mp hc).1
  | httpDirect => exact absurd rfl hr

/-- **Checked, unless the ladder ends on its plain rung.** A strict endpoint is never given an
unchecked connection, exactly if it is not the case that both TLS rungs fail in time and the plain
one works. -/
theorem strict_checked_iff (sha256 : List UInt8 → List UInt8) (e : Endpoint) (he : e.Strict)
    (o : Outcome) :
    (∀ c r, e.dial sha256 o = .ok (c, r) → e.Checked sha256 c) ↔ ¬ e.FallsThrough sha256 o := by
  have hdial : ∀ c r, e.dial sha256 o = .ok (c, r) ↔ _ := fun c r => dialLoop_eq_ok ladder []
  have hA : e.Skipped sha256 o .tlsDirect ↔ _ := skipped_tls he (by simp)
  have hB : e.Skipped sha256 o .tlsProxy ↔ _ := skipped_tls he (by simp)
  constructor
  · rintro hall ⟨hdirect, hproxy, hraw, hup⟩
    -- both TLS rungs are skipped, so the plain connection is the one that is returned
    apply hall .plain .httpDirect
    rw [hdial]
    refine ⟨[.tlsDirect, .tlsProxy], [], rfl, ?_, (dialRung_strict he _).mpr ⟨⟨hraw, hup⟩, rfl⟩⟩
    intro r hr
    rcases List.mem_pair.mp hr with rfl | rfl
    · exact hA.mpr hdirect
    · exact hB.mpr hproxy
  · intro hnot c r h
    obtain ⟨pre, post, hsplit, hpre, hok⟩ := (hdial c r).mp h
    have hrung := (dialRung_strict he r).mp hok
    cases r with
    | tlsDirect => exact hrung.2 ▸ checked_of_works hrung.1
    | tlsProxy => exact hrung.2 ▸ checked_of_works (Bool.and_eq_true _ _ ▸ hrung.1).2
    | httpDirect =>
      -- the rungs before the plain one are the two TLS rungs
      have hpre' : pre = [.tlsDirect, .tlsProxy] := by
        rcases pre with _ | ⟨a, _ | ⟨b, _ | ⟨c, pre⟩⟩⟩ <;> simp_all [ladder]
      subst hpre'
      exact absurd ⟨hA.mp (hpre _ (by simp)), hB.mp (hpre _ (by simp)), hrung.1⟩ hnot

end Endpoint

end

/-- The relay behind an interceptor: TLS ends in a certificate nobody vouches for, and port 80 is
open. -/
def intercepted : Outcome
  | .tlsDirect => { first := { raw := true, peer := { certs := [some []] } } }
  | .tlsProxy => {}
  | .httpDirect => { first := { raw := true }, upgrade := true }

def vouched : Outcome
  | .tlsDirect => { first := { raw := true, peer := { certs := [some []], trusted := true } }
                    upgrade := true }
  | .tlsProxy => {}
  | .httpDirect => { first := { raw := true }, upgrade := true }

def verifying : Endpoint := { host := [114], verify := true }

/-- A checked connection is what a verifying endpoint gets from such a relay, although the plain
rung would work too. -/
theorem strict_checked_vouched :
    verifying.dial id vouched =
        .ok (.tls ⟨[114], false, none⟩ { certs := [some []], trusted := true }, .tlsDirect) ∧
      ∀ c r, verifying.dial id vouched = .ok (c, r) → verifying.Checked id c :=
  ⟨rfl, (Endpoint.strict_checked_iff id verifying (.inr rfl) vouched).mpr
    fun h => absurd h.1.1 (by decide)⟩

/-- A verifying endpoint behind an interceptor: the refused certificate is followed by a
connection without any. -/
theorem refused_then_plain :
    verifying.Strict ∧
      verifying.dialRung id (intercepted .tlsDirect) .tlsDirect = .error (.tls .certificate) ∧
      verifying.dial id intercepted = .ok (.plain, .httpDirect) ∧
      ¬ verifying.Checked id .plain :=
  ⟨.inr rfl, rfl, rfl, id⟩

/-! ## Which certificate a pin binds -/

section Pin

variable (parseCertificate : List UInt8 → Certificate) (sha256 : List UInt8 → List UInt8)

/-- The certificate parses, and the hash of its `RawSubjectPublicKeyInfo` is the decoded pin. -/
def Pinned (pin : GoString) (raw : List UInt8) : Prop :=
  ∃ spki, parseCertificate raw = some spki ∧ decodeString pin = some (sha256 spki)

instance (pin : GoString) (raw : List UInt8) : Decidable (Pinned parseCertificate sha256 pin raw) :=
  decidable_of_iff ((parseCertificate raw).any fun spki => decodeString pin = some (sha256 spki))
    (by simp only [Option.any_eq_true, decide_eq_true_eq, Pinned])

/-- The first certificate is there and has the pinned key. -/
def FirstPinned (pin : GoString) (rawCerts : List (List UInt8)) : Prop :=
  ∃ raw, rawCerts.head? = some raw ∧ Pinned parseCertificate sha256 pin raw

variable {parseCertificate sha256} {pin : GoString}

/-- **`verifyPin`** accepts a list exactly if some certificate in it has the pinned key. A
certificate that does not parse is passed over. -/
theorem verifyPin_iff {rawCerts : List (List UInt8)} :
    verifyPin sha256 pin (rawCerts.map parseCertificate) = true ↔
      ∃ raw ∈ rawCerts, Pinned parseCertificate sha256 pin raw := by
  unfold verifyPin Pinned
  rcases decodeString pin with _ | want
  · simp
  · dsimp only
    rw [List.any_map, List.any_eq_true]
    refine exists_congr fun raw => and_congr_right fun _ => ?_
    dsimp only [Function.comp_apply]
    rcases parseCertificate raw with _ | spki
    · simp
    · -- the comparison of the lengths is implied by that of the bytes
      simp only [decide_eq_true_eq, Option.some.injEq, exists_eq_left']
      exact ⟨fun h => h.2, fun h => ⟨congrArg List.length h, h⟩⟩

/-- **A pin binds the first certificate, unless a later one has the pinned key.** Accepted lists
are those with a pinned certificate anywhere, so the first is bound just if none but the first can
be the one. -/
theorem pin_binds_first_iff (parseCertificate : List UInt8 → Certificate)
    (sha256 : List UInt8 → List UInt8) (pin : GoString) (rawCerts : List (List UInt8)) :
    (verifyPin sha256 pin (rawCerts.map parseCertificate) = true →
        FirstPinned parseCertificate sha256 pin rawCerts) ↔
      ((∃ raw ∈ rawCerts.tail, Pinned parseCertificate sha256 pin raw) →
        FirstPinned parseCertificate sha256 pin rawCerts) := by
  rw [verifyPin_iff]
  constructor
  · rintro hfirst ⟨raw, hmem, hpin⟩
    exact hfirst ⟨raw, List.mem_of_mem_tail hmem, hpin⟩
  · rintro hlater ⟨raw, hmem, hpin⟩
    rcases rawCerts with _ | ⟨first, rest⟩
    · exact absurd hmem List.not_mem_nil
    · rcases List.mem_cons.mp hmem with rfl | hrest
      · exact ⟨raw, rfl, hpin⟩
      · exact hlater ⟨raw, hrest, hpin⟩

end Pin

/-- The `SubjectPublicKeyInfo` of an Ed25519 key. -/
def ed25519Info (key : List UInt8) : List UInt8 :=
  [48, 42, 48, 5, 6, 3, 43, 101, 112, 3, 33, 0] ++ key

/-- The DER of a certificate for that key: serial number 1, no names, no extensions, valid from
2025 to 2035, and zero bytes for the signature, which parsing does not look at. -/
def ed25519Cert (key : List UInt8) : List UInt8 :=
  [48, 129, 166, 48, 90, 2, 1, 1, 48, 5, 6, 3, 43, 101, 112, 48, 0, 48, 30,
    23, 13, 50, 53, 48, 49, 48, 49, 48, 48, 48, 48, 48, 48, 90,
    23, 13, 51, 53, 48, 49, 48, 49, 48, 48, 48, 48, 48, 48, 90, 48, 0]
    ++ ed25519Info key ++ [48, 5, 6, 3, 43, 101, 112, 3, 65, 0] ++ List.replicate 64 0

def relayKey : List UInt8 := List.replicate 32 1
def otherKey : List UInt8 := List.replicate 32 2

/-- `x509.ParseCertificate` on the certificates of the two keys. -/
def parseTwo (raw : List UInt8) : Certificate :=
  if raw = ed25519Cert relayKey then some (ed25519Info relayKey)
  else if raw = ed25519Cert otherKey then some (ed25519Info otherKey)
  else none

def sha256Two (info : List UInt8) : List UInt8 :=
  if info = ed25519Info relayKey then
    [24, 47, 249, 218, 112, 31, 209, 68, 226, 253, 44, 212, 29, 168, 221, 186,
      151, 158, 176, 27, 43, 247, 252, 195, 55, 111, 75, 27, 46, 206, 228, 231]
  else if info = ed25519Info otherKey then
    [158, 103, 27, 28, 205, 237, 133, 102, 199, 105, 30, 86, 100, 207, 231, 136,
      86, 44, 233, 70, 194, 22, 20, 95, 3, 224, 184, 57, 223, 147, 1, 242]
  else []

/-- `PinFor` of the relay's certificate: "GC/52nAf0UTi/SzUHajdupeesBsr9/zDN29LGy7O5Oc=". -/
def relayPin : GoString :=
  [71, 67, 47, 53, 50, 110, 65, 102, 48, 85, 84, 105, 47, 83, 122, 85, 72, 97, 106, 100, 117, 112,
    101, 101, 115, 66, 115, 114, 57, 47, 122, 68, 78, 50, 57, 76, 71, 121, 55, 79, 53, 79, 99, 61]

/-- The relay itself: its certificate comes first, and one of another key after it. -/
theorem pin_binds_relay :
    verifyPin sha256Two relayPin ([ed25519Cert relayKey, ed25519Cert otherKey].map parseTwo)
      = true ∧
      FirstPinned parseTwo sha256Two relayPin [ed25519Cert relayKey, ed25519Cert otherKey] := by
  have haccepts : verifyPin sha256Two relayPin
      ([ed25519Cert relayKey, ed25519Cert otherKey].map parseTwo) = true := by
    decide +kernel
  refine ⟨haccepts, (pin_binds_first_iff parseTwo sha256Two relayPin _).mpr ?_ haccepts⟩
  rintro ⟨raw, hmem, hpin⟩
  obtain rfl := List.mem_singleton.mp hmem
  exact absurd hpin (by decide +kernel)

/-- Somebody else, with the relay's certificate appended to their own: TLS has proved possession
of the other key, and the pin check is content. -/
theorem appended_certificate_accepted :
    verifyPin sha256Two relayPin
        ([ed25519Cert otherKey, ed25519Cert relayKey].map parseTwo) = true ∧
      parseTwo (ed25519Cert otherKey) = some (ed25519Info otherKey) ∧
      ¬ FirstPinned parseTwo sha256Two relayPin [ed25519Cert otherKey, ed25519Cert relayKey] := by
  refine ⟨by decide +kernel, by decide +kernel, ?_⟩
  rintro ⟨raw, hfirst, hpin⟩
  obtain rfl := Option.some.inj hfirst
  exact absurd hpin (by decide +kernel)

end Heimdall.Rendezvous
