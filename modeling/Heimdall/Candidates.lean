/-
Candidates, `internal/rendezvous/candidates.go`.

The addresses a peer offers are whatever the peer likes, so `ValidateCandidates` passes over the
list and keeps what may be dialled, at most eight addresses and at most two private ones. It is a
pass in the sense of `Selection`: what it keeps next depends on what it has kept. That is all that
is needed for what it is meant to do (`validateCandidates_selects`), whatever the package `net`
makes of an address.

It compares texts, however, and of the port it only sees that it is there and not `0`. With `net` as
it is, a port may be any text, and one endpoint may be kept in several spellings
(`unreal_endpoints_kept`). What is kept are different real endpoints exactly if no address that is
picked has such a port or is another spelling of one picked before (`endpoints_real_iff`), where the
addresses that are picked can be counted off in the list (`Picked`).
-/
import Heimdall.Expect
import Heimdall.GoNet
import Heimdall.Selection

set_option autoImplicit false

namespace Heimdall.Rendezvous

open Heimdall.Peers (GoString)
open Heimdall.Selection

/-! ## The filter -/

structure Candidate where
  addr : GoString
  kind : GoString
  deriving DecidableEq

/-- What the filter asks the package `net`. -/
structure Net (IP : Type) where
  splitHostPort : GoString → Option (GoString × GoString)
  parseIP : GoString → Option IP
  isUnspecified : IP → Bool
  isLoopback : IP → Bool
  isLinkLocalUnicast : IP → Bool
  isLinkLocalMulticast : IP → Bool
  isInterfaceLocalMulticast : IP → Bool
  isMulticast : IP → Bool
  /-- `To4` gives `net.IPv4bcast`. -/
  isBroadcast : IP → Bool
  isPrivate : IP → Bool

def maxCandidates : ℕ := 8

def maxPrivateCandidates : ℕ := 2

namespace Net

variable {IP : Type} (N : Net IP)

def usableIP (ip : IP) : Bool :=
  if N.isUnspecified ip || N.isLoopback ip || N.isLinkLocalUnicast ip ||
      N.isLinkLocalMulticast ip || N.isInterfaceLocalMulticast ip || N.isMulticast ip then false
  else if N.isBroadcast ip then false
  else true

/-- The loop of `ValidateCandidates`: what is left of the list, and `out`, `private` and `seen`. -/
def validateLoop : List Candidate → List Candidate → ℕ → List GoString → List Candidate
  | [], out, _, _ => out
  | c :: cs, out, priv, seen =>
    if maxCandidates ≤ out.length then out
    else
      match N.splitHostPort c.addr with
      | none => validateLoop cs out priv seen
      | some (host, port) =>
        match N.parseIP host with
        | none => validateLoop cs out priv seen
        | some ip =>
          if N.usableIP ip = false then validateLoop cs out priv seen
          else if port = [] ∨ port = [48] then validateLoop cs out priv seen
          else if seen.contains c.addr then validateLoop cs out priv seen
          else if N.isPrivate ip then
            if maxPrivateCandidates ≤ priv then validateLoop cs out priv seen
            else validateLoop cs (out ++ [⟨c.addr, c.kind⟩]) (priv + 1) (c.addr :: seen)
          else validateLoop cs (out ++ [⟨c.addr, c.kind⟩]) priv (c.addr :: seen)

def validateCandidates (l : List Candidate) : List Candidate := N.validateLoop l [] 0 []

/-! ## The filter as a selection -/

/-- The address that the host of `addr` denotes. -/
def hostIP (addr : GoString) : Option IP := (N.splitHostPort addr).bind fun hp => N.parseIP hp.1

def usable (addr : GoString) : Bool := (N.hostIP addr).any N.usableIP

def privateAddr (addr : GoString) : Bool := (N.hostIP addr).any N.isPrivate

def portSet (addr : GoString) : Bool :=
  (N.splitHostPort addr).any fun hp => hp.2 ≠ [] && hp.2 ≠ [48]

def passes (addr : GoString) : Bool := N.usable addr && N.portSet addr

def privates (l : List Candidate) : ℕ := l.countP fun c => N.privateAddr c.addr

/-- Whether a candidate is kept, in view of those that have been. -/
def keeps (out : List Candidate) (c : Candidate) : Bool :=
  out.length < maxCandidates && N.passes c.addr && !(out.map Candidate.addr).contains c.addr &&
    (!N.privateAddr c.addr || N.privates out < maxPrivateCandidates)

variable {N} {l out pre post : List Candidate} {c : Candidate}

theorem keeps_iff : N.keeps out c = true ↔
    out.length < maxCandidates ∧ N.passes c.addr = true ∧ c.addr ∉ out.map Candidate.addr ∧
      (N.privateAddr c.addr = true → N.privates out < maxPrivateCandidates) := by
  simp only [keeps, Bool.and_eq_true, Bool.or_eq_true, decide_eq_true_eq, Bool.not_eq_true',
    and_assoc]
  rcases N.privateAddr c.addr <;> simp

theorem privates_snoc : N.privates (out ++ [c])
    = N.privates out + if N.privateAddr c.addr then 1 else 0 := by
  simp [privates, List.countP_append, List.countP_singleton]

theorem validateLoop_cons {cs : List Candidate} {priv : ℕ} {seen : List GoString} :
    N.validateLoop (c :: cs) out priv seen =
      if maxCandidates ≤ out.length then out
      else if N.passes c.addr = true ∧ c.addr ∉ seen ∧
          (N.privateAddr c.addr = true → priv < maxPrivateCandidates) then
        N.validateLoop cs (out ++ [c]) (priv + if N.privateAddr c.addr then 1
          else 0) (c.addr :: seen)
      else N.validateLoop cs out priv seen := by
  rw [validateLoop]
  refine if_congr Iff.rfl rfl ?_
  rcases hsplit : N.splitHostPort c.addr with _ | ⟨host, port⟩
  · simp [passes, usable, hostIP, hsplit]
  dsimp only
  rcases hip : N.parseIP host with _ | ip
  · simp [passes, usable, hostIP, hsplit, hip]
  have hpasses : N.passes c.addr = true ↔ N.usableIP ip = true ∧ ¬(port = [] ∨ port = [48]) := by
    simp [passes, usable, portSet, hostIP, hsplit, hip]
  have hpriv : N.privateAddr c.addr = N.isPrivate ip := by
    simp [privateAddr, hostIP, hsplit, hip]
  simp only [hpriv, hpasses]
  split_ifs <;> grind

/-- The loop carries a counter and a set along. Both can be read off what has been kept, so the
loop is a selection in the sense of `Selection`, and its general facts apply. -/
theorem validateLoop_eq {seen : List GoString}
    (hseen : ∀ a, a ∈ seen ↔ a ∈ out.map Candidate.addr) :
    N.validateLoop l out (N.privates out) seen = select N.keeps out l := by
  induction l generalizing out seen with
  | nil => rfl
  | cons c cs ih =>
    simp only [validateLoop_cons, hseen, select]
    by_cases hfull : maxCandidates ≤ out.length
    · -- the loop is over, and nothing more would be kept
      have hnone : ∀ d, N.keeps out d = false := fun d => by simp [keeps, hfull]
      rw [if_pos hfull, hnone c, if_neg Bool.false_ne_true, select_of_refused hnone]
    · rw [if_neg hfull]
      have hkeeps : N.keeps out c = true ↔
        N.passes c.addr = true ∧ c.addr ∉ out.map Candidate.addr ∧
          (N.privateAddr c.addr = true → N.privates out < maxPrivateCandidates) := by
        simp only [keeps_iff, not_le.mp hfull, true_and]
      by_cases hc : N.keeps out c = true
      · rw [if_pos hc, if_pos (hkeeps.mp hc), ← privates_snoc]
        exact ih (by grind)
      · rw [if_neg hc, if_neg (mt hkeeps.mpr hc)]
        exact ih hseen

theorem validateCandidates_eq : N.validateCandidates l = select N.keeps [] l :=
  validateLoop_eq (by simp)

/-- What holds of everything that is ever kept. -/
structure Kept (N : Net IP) (out : List Candidate) : Prop where
  length_le : out.length ≤ maxCandidates
  privates_le : N.privates out ≤ maxPrivateCandidates
  nodup : (out.map Candidate.addr).Nodup
  passes : ∀ c ∈ out, N.passes c.addr = true

theorem Kept.snoc (h : N.Kept out) (hc : N.keeps out c = true) : N.Kept (out ++ [c]) := by
  obtain ⟨hroom, hpass, hnew, hpriv⟩ := keeps_iff.mp hc
  -- the number, the private ones, no text twice, and all pass
  refine ⟨?_, ?_, ?_, ?_⟩
  · rw [List.length_append, List.length_singleton]
    exact hroom
  · rw [privates_snoc]
    split_ifs with hp
    · exact hpriv hp
    · exact h.privates_le
  · rw [List.map_append]
    exact h.nodup.append (List.nodup_singleton _) (by simpa using hnew)
  · intro d hd
    rcases List.mem_append.mp hd with hd | hd
    · exact h.passes d hd
    · rwa [List.mem_singleton.mp hd]

theorem kept (N : Net IP) (l : List Candidate) : N.Kept (N.validateCandidates l) := by
  rw [validateCandidates_eq]
  exact select_invariant N.Kept ⟨Nat.zero_le _, Nat.zero_le _, List.nodup_nil, by simp⟩
    (fun _ _ => Kept.snoc) l

/-- What was kept of the entries before one that was dropped explains why it was. -/
theorem dropped (hpass : N.passes c.addr = true) (hc : N.keeps out c = false) (hout : N.Kept out) :
    c.addr ∈ out.map Candidate.addr ∨
      (N.privateAddr c.addr = true ∧ N.privates out = maxPrivateCandidates) ∨
      out.length = maxCandidates := by
  by_contra! hno
  have hkeeps : N.keeps out c = true :=
    keeps_iff.mpr ⟨lt_of_le_of_ne hout.length_le hno.2.2, hpass, hno.1,
      fun hp => lt_of_le_of_ne hout.privates_le (hno.2.1 hp)⟩
  rw [hkeeps] at hc
  cases hc

end Net

variable {IP : Type}

/-- **The filter is a sound, greedy and idempotent selection.** It returns a subsequence, within
the limits, of addresses that differ and pass the checks. An entry that passes them and is not
returned repeats the address of an entry kept before it, or is private and two private ones had been
kept, or came after eight; the entries kept by then are a first part of the result. -/
theorem validateCandidates_selects (N : Net IP) (l : List Candidate) :
    ((N.validateCandidates l).Sublist l ∧
      (N.validateCandidates l).length ≤ 8 ∧ N.privates (N.validateCandidates l) ≤ 2 ∧
      ((N.validateCandidates l).map Candidate.addr).Nodup ∧
      ∀ c ∈ N.validateCandidates l, N.usable c.addr = true ∧ N.portSet c.addr = true) ∧
    (∀ pre c post, l = pre ++ c :: post → N.usable c.addr = true → N.portSet c.addr = true →
      c ∉ N.validateCandidates l →
      N.validateCandidates pre <+: N.validateCandidates l ∧
      (c.addr ∈ (N.validateCandidates pre).map Candidate.addr ∨
        (N.privateAddr c.addr = true ∧ N.privates (N.validateCandidates pre) = 2) ∨
        (N.validateCandidates pre).length = 8)) ∧
    N.validateCandidates (N.validateCandidates l) = N.validateCandidates l := by
  have hkept := N.kept l
  refine ⟨⟨?_, hkept.length_le, hkept.privates_le, hkept.nodup, ?_⟩, ?_, ?_⟩
  · rw [Net.validateCandidates_eq]
    exact select_sublist l
  · intro c hc
    simpa [Net.passes] using hkept.passes c hc
  · rintro pre c post rfl husable hport hc
    have hpre := N.kept pre
    simp only [Net.validateCandidates_eq] at hc hpre ⊢
    have hpass : N.passes c.addr = true := by simp [Net.passes, husable, hport]
    exact ⟨select_initial _ _, Net.dropped hpass (refused_of_notMem hc) hpre⟩
  · simp only [Net.validateCandidates_eq]
    exact select_idem l

/-! ## The package `net` as it is -/

/-- The package `net`. -/
def goNet : Net GoNet.IP where
  splitHostPort := GoNet.splitHostPort
  parseIP := GoNet.parseIP
  isUnspecified := GoNet.isUnspecified
  isLoopback := GoNet.isLoopback
  isLinkLocalUnicast := GoNet.isLinkLocalUnicast
  isLinkLocalMulticast := GoNet.isLinkLocalMulticast
  isInterfaceLocalMulticast := GoNet.isInterfaceLocalMulticast
  isMulticast := GoNet.isMulticast
  isBroadcast := GoNet.isBroadcast
  isPrivate := GoNet.isPrivate

/-- `192.168.1.d:7331`, for a digit -/
def lan (d : UInt8) : Candidate where
  addr := [49, 57, 50, 46, 49, 54, 56, 46, 49, 46, d, 58, 55, 51, 51, 49]
  kind := [104, 111, 115, 116]

/-- Of three private addresses two are kept. -/
theorem validateCandidates_selects_lan :
    goNet.validateCandidates [lan 49, lan 50, lan 51] = [lan 49, lan 50] ∧
    (goNet.privateAddr (lan 51).addr = true ∧
      goNet.privates (goNet.validateCandidates [lan 49, lan 50]) = 2) := by
  have hkept : goNet.validateCandidates [lan 49, lan 50, lan 51] = [lan 49, lan 50] := by
    decide +kernel
  have hwhy := ((validateCandidates_selects goNet [lan 49, lan 50, lan 51]).2.1 [lan 49, lan 50]
    (lan 51) [] rfl (by decide +kernel) (by decide +kernel) (by decide +kernel)).2
  refine ⟨hkept, ?_⟩
  rcases hwhy with hrepeat | hprivate | hfull
  · exact absurd hrepeat (by decide +kernel)
  · exact hprivate
  · exact absurd hfull (by decide +kernel)

/-- `203.0.113.5:0` -/
def portZero : Candidate where
  addr := [50, 48, 51, 46, 48, 46, 49, 49, 51, 46, 53, 58, 48]
  kind := []

/-- An entry may also be dropped for its port: it parses, its address is usable, and nothing was
kept before it. -/
theorem port_zero_dropped : goNet.usable portZero.addr = true ∧
    portZero ∉ goNet.validateCandidates [portZero] ∧
    ¬(portZero.addr ∈ (goNet.validateCandidates [portZero]).map Candidate.addr ∨
      (goNet.privateAddr portZero.addr = true ∧
        goNet.privates (goNet.validateCandidates [portZero]) = 2) ∨
      (goNet.validateCandidates [portZero]).length = 8) := by
  decide +kernel

/-! ## Which entries are picked -/

namespace Net

variable (N : Net IP)

/-- The different texts of a list that pass the checks, the private or the others. -/
def texts (priv : Bool) (l : List Candidate) : Finset GoString :=
  ((l.map Candidate.addr).filter fun a => N.passes a && N.privateAddr a == priv).toFinset

/-- The room that the entries of a list take if there is enough of it. -/
def taken (l : List Candidate) : ℕ :=
  (N.texts false l).card + min maxPrivateCandidates (N.texts true l).card

/-- The entry is kept when it comes after `pre`. -/
def Picked (pre : List Candidate) (c : Candidate) : Prop :=
  N.passes c.addr = true ∧ c.addr ∉ pre.map Candidate.addr ∧ N.taken pre < maxCandidates ∧
    (N.privateAddr c.addr = true → (N.texts true pre).card < maxPrivateCandidates)

variable {N} {l pre post : List Candidate} {c : Candidate} {a : GoString} {priv : Bool}

theorem mem_texts : a ∈ N.texts priv l ↔
    a ∈ l.map Candidate.addr ∧ N.passes a = true ∧ N.privateAddr a = priv := by
  simp [texts]

theorem card_texts_snoc : (N.texts priv (l ++ [c])).card = (N.texts priv l).card +
    if N.passes c.addr = true ∧ N.privateAddr c.addr = priv ∧ c.addr ∉ l.map Candidate.addr
      then 1 else 0 := by
  split_ifs with hnew
  · have hins : N.texts priv (l ++ [c]) = insert c.addr (N.texts priv l) := by
      ext a
      simp only [mem_texts, Finset.mem_insert, List.map_append, List.mem_append]
      grind
    rw [hins, Finset.card_insert_of_notMem (by simp only [mem_texts]; grind)]
  · have hsame : N.texts priv (l ++ [c]) = N.texts priv l := by
      ext a
      simp only [mem_texts, List.map_append, List.mem_append]
      grind
    rw [hsame, add_zero]

/-- What is kept of a list, in terms of the texts in it. -/
structure Counted (N : Net IP) (l : List Candidate) : Prop where
  length_eq : (N.validateCandidates l).length = min maxCandidates (N.taken l)
  privates_eq : N.taken l < maxCandidates →
    N.privates (N.validateCandidates l) = min maxPrivateCandidates (N.texts true l).card
  missing : N.taken l < maxCandidates → ∀ d ∈ l, N.passes d.addr = true →
    d.addr ∉ (N.validateCandidates l).map Candidate.addr →
      N.privateAddr d.addr = true ∧ maxPrivateCandidates ≤ (N.texts true l).card

/-- An entry is kept if it passes the checks, no entry before it has its text, and there is room.
The texts before it that pass can be counted: all public ones take room, and up to two private
ones. -/
theorem Counted.keeps_iff_picked (h : N.Counted pre) :
    N.keeps (N.validateCandidates pre) c = true ↔ N.Picked pre c := by
  have hsub : (N.validateCandidates pre).map Candidate.addr ⊆ pre.map Candidate.addr := by
    rw [validateCandidates_eq]
    exact ((select_sublist pre).map Candidate.addr).subset
  have hroom : (N.validateCandidates pre).length < maxCandidates ↔ N.taken pre < maxCandidates := by
    rw [h.length_eq, min_lt_iff]
    simp
  rw [keeps_iff, Picked, hroom]
  constructor
  · rintro ⟨htaken, hpass, hnew, hpriv⟩
    have hcard : N.privateAddr c.addr = true → (N.texts true pre).card < maxPrivateCandidates := by
      intro hp
      have := hpriv hp
      rw [h.privates_eq htaken] at this
      omega
    refine ⟨hpass, ?_, htaken, hcard⟩
    -- had the text been there, it would have been kept or been one private text too many
    intro hmem
    obtain ⟨d, hd, hdc⟩ := List.mem_map.mp hmem
    have hmiss := h.missing htaken d hd (by rwa [hdc]) (by rwa [hdc])
    rw [hdc] at hmiss
    exact absurd (hcard hmiss.1) (not_lt.mpr hmiss.2)
  · rintro ⟨hpass, hnew, htaken, hpriv⟩
    refine ⟨htaken, hpass, fun hmem => hnew (hsub hmem), fun hp => ?_⟩
    rw [h.privates_eq htaken]
    exact lt_of_le_of_lt (min_le_right _ _) (hpriv hp)

theorem validateCandidates_snoc : N.validateCandidates (l ++ [c]) =
    if N.keeps (N.validateCandidates l) c then N.validateCandidates l ++ [c]
    else N.validateCandidates l := by
  simp only [validateCandidates_eq]
  exact select_snoc

theorem taken_of_picked (hc : N.Picked pre c) : N.taken (pre ++ [c]) = N.taken pre + 1 := by
  obtain ⟨hpass, hnew, -, hpriv⟩ := hc
  simp only [taken, card_texts_snoc, hpass, hnew, not_false_eq_true, and_true, true_and]
  rcases hp : N.privateAddr c.addr with _ | _
  · simp only [Bool.false_eq_true, if_true, if_false]
    omega
  · have := hpriv hp
    simp only [Bool.true_eq_false, if_true, if_false]
    omega

theorem texts_le_snoc : (N.texts priv pre).card ≤ (N.texts priv (pre ++ [c])).card := by
  rw [card_texts_snoc]
  exact Nat.le_add_right _ _

theorem taken_le_snoc : N.taken pre ≤ N.taken (pre ++ [c]) :=
  add_le_add texts_le_snoc (min_le_min_left _ texts_le_snoc)

theorem of_not_picked (hroom : N.taken pre < maxCandidates) (hc : ¬N.Picked pre c) :
    (N.passes c.addr = true → c.addr ∈ pre.map Candidate.addr) ∨
      (N.privateAddr c.addr = true ∧ maxPrivateCandidates ≤ (N.texts true pre).card) := by
  by_contra! hno
  exact hc ⟨hno.1.1, hno.1.2, hroom, hno.2⟩

theorem texts_of_not_picked (hroom : N.taken pre < maxCandidates) (hc : ¬N.Picked pre c) :
    (N.texts false (pre ++ [c])).card = (N.texts false pre).card ∧
      min maxPrivateCandidates (N.texts true (pre ++ [c])).card
        = min maxPrivateCandidates (N.texts true pre).card := by
  rcases of_not_picked hroom hc with hold | ⟨hp, hcard⟩
  · have hcards : ∀ priv, (N.texts priv (pre ++ [c])).card = (N.texts priv pre).card := by
      intro priv
      rw [card_texts_snoc, if_neg (by tauto), add_zero]
    exact ⟨hcards false, by rw [hcards true]⟩
  · rw [card_texts_snoc, if_neg (by simp [hp]), min_eq_left hcard,
      min_eq_left (hcard.trans texts_le_snoc)]
    exact ⟨rfl, rfl⟩

theorem Counted.picked (h : N.Counted pre) (hc : N.Picked pre c) : N.Counted (pre ++ [c]) := by
  have hkept : N.validateCandidates (pre ++ [c]) = N.validateCandidates pre ++ [c] := by
    rw [validateCandidates_snoc, if_pos (h.keeps_iff_picked.mpr hc)]
  have htaken := taken_of_picked hc
  obtain ⟨hpass, hnew, hroom, hpriv⟩ := hc
  -- its text is new, so one count goes up by one
  refine ⟨?_, fun _ => ?_, fun _ d hd hdpass hmiss => ?_⟩
  · rw [hkept, htaken, List.length_append, List.length_singleton, h.length_eq]
    omega
  · rw [hkept, privates_snoc, h.privates_eq hroom, card_texts_snoc]
    by_cases hp : N.privateAddr c.addr = true
    · have := hpriv hp
      rw [if_pos hp, if_pos ⟨hpass, hp, hnew⟩]
      omega
    · rw [if_neg hp, if_neg (by tauto)]
      rfl
  · rw [hkept, List.map_append, List.mem_append, not_or] at hmiss
    rcases List.mem_append.mp hd with hd | hd
    · obtain ⟨hp, hcard⟩ := h.missing hroom d hd hdpass hmiss.1
      exact ⟨hp, hcard.trans texts_le_snoc⟩
    · exact absurd (List.mem_map_of_mem hd) hmiss.2

theorem Counted.passed_over (h : N.Counted pre) (hc : ¬N.Picked pre c) :
    N.Counted (pre ++ [c]) := by
  have hkept : N.validateCandidates (pre ++ [c]) = N.validateCandidates pre := by
    rw [validateCandidates_snoc, if_neg (mt h.keeps_iff_picked.mp hc)]
  -- once eight are kept the pass is over, and what follows changes nothing
  rcases lt_or_ge (N.taken pre) maxCandidates with hroom | hfull
  · obtain ⟨hpublic, hprivate⟩ := texts_of_not_picked hroom hc
    have htaken : N.taken (pre ++ [c]) = N.taken pre := by rw [taken, taken, hpublic, hprivate]
    refine ⟨?_, fun _ => ?_, fun _ d hd hpass hmiss => ?_⟩
    · rw [hkept, htaken, h.length_eq]
    · rw [hkept, hprivate, h.privates_eq hroom]
    · rw [hkept] at hmiss
      have hcovered : d.addr ∈ pre.map Candidate.addr →
          N.privateAddr d.addr = true ∧
            maxPrivateCandidates ≤ (N.texts true (pre ++ [c])).card := by
        intro hmem
        obtain ⟨e, he, hed⟩ := List.mem_map.mp hmem
        obtain ⟨hp, hcard⟩ := h.missing hroom e he (by rwa [hed]) (by rwa [hed])
        exact ⟨hed ▸ hp, hcard.trans texts_le_snoc⟩
      rcases List.mem_append.mp hd with hd | hd
      · exact hcovered (List.mem_map_of_mem hd)
      · obtain rfl := List.mem_singleton.mp hd
        rcases of_not_picked hroom hc with hold | ⟨hp, hcard⟩
        · exact hcovered (hold hpass)
        · exact ⟨hp, hcard.trans texts_le_snoc⟩
  · have hfull' := hfull.trans (taken_le_snoc (c := c))
    refine ⟨?_, fun h' => absurd h' (not_lt.mpr hfull'), fun h' => absurd h' (not_lt.mpr hfull')⟩
    rw [hkept, h.length_eq, min_eq_left hfull, min_eq_left hfull']

theorem counted (N : Net IP) (l : List Candidate) : N.Counted l := by
  induction l using List.reverseRecOn with
  | nil => exact ⟨rfl, fun _ => rfl, by simp⟩
  | append_singleton l c ih =>
    by_cases hc : N.Picked l c
    · exact ih.picked hc
    · exact ih.passed_over hc

/-- **What is kept are the entries that are picked**, each in view of the entries before it in the
list. -/
theorem mem_validateCandidates : c ∈ N.validateCandidates l ↔
    ∃ pre post, l = pre ++ c :: post ∧ N.Picked pre c := by
  rw [validateCandidates_eq, mem_select_iff]
  simp only [← validateCandidates_eq, (N.counted _).keeps_iff_picked]

theorem pairwise_validateCandidates {R : Candidate → Candidate → Prop} :
    (N.validateCandidates l).Pairwise R ↔ ∀ pre c post, l = pre ++ c :: post → N.Picked pre c →
      ∀ d ∈ N.validateCandidates pre, R d c := by
  rw [validateCandidates_eq, pairwise_select_iff]
  simp only [← validateCandidates_eq, (N.counted _).keeps_iff_picked]

end Net

/-! ## Endpoints -/

/-- The endpoint that an address denotes: the IP address and the number of the port. -/
def endpointOf (addr : GoString) : Option (GoNet.IP × ℕ) :=
  (GoNet.splitHostPort addr).bind fun hp =>
    (GoNet.parseIP hp.1).bind fun ip => (GoNet.portNumber hp.2).map fun port => (ip, port)

/-- The port of an address is no number from 1 to 65535. -/
def BadPort (addr : GoString) : Prop :=
  ∃ host port, GoNet.splitHostPort addr = some (host, port) ∧ GoNet.portNumber port = none

/-- Two texts for one endpoint. -/
def Respelled (a b : GoString) : Prop :=
  a ≠ b ∧ (endpointOf a).isSome ∧ endpointOf a = endpointOf b

/-- Every candidate denotes an endpoint, and no two the same one. -/
def RealEndpoints (l : List Candidate) : Prop :=
  (∀ c ∈ l, (endpointOf c.addr).isSome) ∧
    l.Pairwise fun c d => endpointOf c.addr ≠ endpointOf d.addr

instance (l : List Candidate) : Decidable (RealEndpoints l) :=
  inferInstanceAs (Decidable (_ ∧ _))

/-- An entry of the list that does harm if it is picked: its port is no number, or it is another
spelling of an entry picked before it. -/
def Harmful (pre : List Candidate) (c : Candidate) : Prop :=
  BadPort c.addr ∨ ∃ pre' d post', pre = pre' ++ d :: post' ∧ goNet.Picked pre' d ∧
    Respelled d.addr c.addr

/-- An address that passes the checks denotes an endpoint unless its port is no number. The checks
look at the text of the port, and only at whether it is empty or `0`. -/
theorem isSome_endpointOf {a : GoString} (h : goNet.passes a = true) :
    (endpointOf a).isSome ↔ ¬BadPort a := by
  rcases hsplit : GoNet.splitHostPort a with _ | ⟨host, port⟩
  · simp [Net.passes, Net.portSet, goNet, hsplit] at h
  rcases hip : GoNet.parseIP host with _ | ip
  · simp [Net.passes, Net.usable, Net.hostIP, goNet, hsplit, hip] at h
  · rcases hport : GoNet.portNumber port with _ | n
    · simp [endpointOf, BadPort, hsplit, hip, hport]
    · simp [endpointOf, BadPort, hsplit, hip, hport]

/-- **What is kept are different real endpoints exactly if no entry that is picked is harmful.**
The filter compares texts, and does not read ports. -/
theorem endpoints_real_iff (l : List Candidate) : RealEndpoints (goNet.validateCandidates l) ↔
    ∀ pre c post, l = pre ++ c :: post → goNet.Picked pre c → ¬Harmful pre c := by
  rw [RealEndpoints, Net.pairwise_validateCandidates]
  constructor
  · rintro ⟨hreal, hdiff⟩ pre c post hl hc (hbad | ⟨pre', d, post', hpre, hd, hspell⟩)
    · exact (isSome_endpointOf hc.1).mp
        (hreal c (Net.mem_validateCandidates.mpr ⟨pre, post, hl, hc⟩))
        hbad
    · exact hdiff pre c post hl hc d (Net.mem_validateCandidates.mpr ⟨pre', post', hpre, hd⟩)
        hspell.2.2
  · intro h
    have hreal : ∀ c ∈ goNet.validateCandidates l, (endpointOf c.addr).isSome := by
      intro c hc
      obtain ⟨pre, post, hl, hpick⟩ := Net.mem_validateCandidates.mp hc
      exact (isSome_endpointOf hpick.1).mpr fun hbad => h pre c post hl hpick (.inl hbad)
    refine ⟨hreal, fun pre c post hl hc d hd heq => ?_⟩
    have hsome := hreal c (Net.mem_validateCandidates.mpr ⟨pre, post, hl, hc⟩)
    obtain ⟨pre', post', hpre, hpick⟩ := Net.mem_validateCandidates.mp hd
    refine h pre c post hl hc (.inr ⟨pre', d, post', hpre, hpick, ?_, by rwa [heq], heq⟩)
    -- the text of an entry that is picked is new
    intro hda
    exact hc.2.1 (hda ▸ List.mem_map_of_mem (by simp [hpre]))

/-- `203.0.113.5:7331` -/
def publicV4 : Candidate where
  addr := [50, 48, 51, 46, 48, 46, 49, 49, 51, 46, 53, 58, 55, 51, 51, 49]
  kind := []

/-- `[2001:db8::1]:443` -/
def publicV6 : Candidate where
  addr := [91, 50, 48, 48, 49, 58, 100, 98, 56, 58, 58, 49, 93, 58, 52, 52, 51]
  kind := []

theorem endpoints_real_two : RealEndpoints (goNet.validateCandidates [publicV4, publicV6]) ∧
    ∀ pre c post, [publicV4, publicV6] = pre ++ c :: post → goNet.Picked pre c → ¬Harmful pre c :=
  ⟨by decide +kernel, (endpoints_real_iff _).mp (by decide +kernel)⟩

/-- `[::ffff:203.0.113.5]:07331` -/
def mappedV4 : Candidate where
  addr := [91, 58, 58, 102, 102, 102, 102, 58, 50, 48, 51, 46, 48, 46, 49, 49, 51, 46, 53, 93, 58,
    48, 55, 51, 51, 49]
  kind := []

/-- `203.0.113.5:http` -/
def serviceName : Candidate where
  addr := [50, 48, 51, 46, 48, 46, 49, 49, 51, 46, 53, 58, 104, 116, 116, 112]
  kind := []

/-- **One endpoint in two spellings and a port that is no number are kept.** The first two entries
are the same address and port, and would be dialled twice. -/
theorem unreal_endpoints_kept :
    goNet.validateCandidates [publicV4, mappedV4, serviceName] = [publicV4, mappedV4, serviceName] ∧
    (endpointOf publicV4.addr).isSome ∧ endpointOf publicV4.addr = endpointOf mappedV4.addr ∧
    endpointOf serviceName.addr = none ∧
    ¬RealEndpoints (goNet.validateCandidates [publicV4, mappedV4, serviceName]) := by
  decide +kernel

end Heimdall.Rendezvous
