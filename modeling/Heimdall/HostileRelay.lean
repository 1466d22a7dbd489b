/-
A relay that lies, `SealCandidates` and `OpenCandidates` of `internal/rendezvous/candidates.go`.

The candidates of a peer go through the relay, sealed under the pairing key. A relay need not copy
them: it may hand any blob to anybody, those it has seen before and those it makes itself. It cannot
make one that opens. What a node takes for candidates was sealed by somebody who has the code, as it
was sealed (`candidates_authentic`).

That is all there is to it, though: nothing in the blob says who has sealed it or for whom. The
relay can hand a node its own candidates, and the node will dial itself
(`candidates_authentic_reflected`).

Keys and blobs are the symbolic strings of `Crypto`, and the relay is the attacker of `Knowledge`.
Of what clients send it, only the sealed lists are here: neither the rendezvous IDs nor the
confirmations that the pairing key is also used for.
-/
import Heimdall.Knowledge
import Heimdall.Meet
import Heimdall.Pairing

set_option autoImplicit false

namespace Heimdall.HostileRelay

open Heimdall.Crypto
open Heimdall.Octets
open Heimdall.Proto (Deeds Pub Sec SecretKey codeKey dolevYao)
open Heimdall.Rendezvous (Candidate Opening candidateAAD candidateSetJson goNet openCandidates
  sealCandidates unmarshalCandidates unmarshalCandidates_json)
open Heimdall.Runs

/-! ## Sealing and opening -/

def sealing (rand : Option Nonce) (key : Bytes) (aad plain : List UInt8) : Option Bytes :=
  (sealBlob key (lits aad) (lits plain) rand).toOption

/-- What `OpenCandidates` calls. What is not plain bytes is no JSON. -/
def opening : Opening (Octet Prim) where
  openSealed key aad blob := (openBlob key (lits aad) blob).toOption
  unmarshal plain := (vals? plain).bind unmarshalCandidates

theorem toOption_eq_some {ε α : Type} {x : Except ε α} {a : α} :
    x.toOption = some a ↔ x = .ok a := by
  cases x <;> simp [Except.toOption]

/-- `OpenCandidates`, read backwards: the blob opened, to bytes that are the JSON of a list, and
what is returned is that list as the filter leaves it. -/
theorem openCandidates_eq_ok {pairingKey blob : Bytes} {cs : List Candidate}
    (h : openCandidates opening pairingKey blob = .ok cs) :
    ∃ plain l, openBlob pairingKey (lits candidateAAD) blob = .ok (lits plain) ∧
      unmarshalCandidates plain = some l ∧ cs = goNet.validateCandidates l := by
  obtain ⟨plain, l, hopen, hread, hcs⟩ := Rendezvous.openCandidates_ok h
  obtain ⟨bytes, hvals, hjson⟩ := Option.bind_eq_some_iff.mp hread
  rw [vals?_eq_some.mp hvals] at hopen
  exact ⟨bytes, l, toOption_eq_some.mp hopen, hjson, hcs⟩

/-! ## The relay and its clients -/

/-- A blob that somebody with code `code` has sealed and sent to the relay. -/
structure Post where
  code : ℕ
  set : Option (List Candidate)
  blob : Bytes

/-- A blob that a client with code `code` was handed, and what it took it for. -/
structure Delivery where
  code : ℕ
  blob : Bytes
  candidates : List Candidate

structure Scene where
  posts : List Post := []
  accepted : List Delivery := []

/-- What the relay has seen: the sealed lists. The rendezvous IDs, which come from the code as well,
and the confirmations of a pairing are left out. -/
def Scene.seen (s : Scene) (o : Octet Prim) : Prop := ∃ p ∈ s.posts, o ∈ p.blob

inductive SceneAct where
  /-- A client with a code publishes or claims it. -/
  | post (code : ℕ) (set : Option (List Candidate)) (rand : Option Nonce)
  /-- A client with a code is handed a blob. -/
  | deliver (code : ℕ) (blob : Bytes)

/-- A step. The relay hands out what it can make of what it has seen, and of the codes it was
given. -/
def Scene.Step (leaked : ℕ → Prop) (s : Scene) (a : SceneAct) (s' : Scene) : Prop :=
  match a with
  | .post code set rand => ∃ blob, sealCandidates (sealing rand) (codeKey code) set = .ok blob ∧
      s' = { s with posts := ⟨code, set, blob⟩ :: s.posts }
  | .deliver code blob => KnownAll (dolevYao leaked) s.seen blob ∧
      ∃ cs, openCandidates opening (codeKey code) blob = .ok cs ∧
        s' = { s with accepted := ⟨code, blob, cs⟩ :: s.accepted }

/-! ## What the relay can make -/

def Post.args (p : Post) (nonce : Nonce) : List Bytes :=
  [codeKey p.code, lits nonce.bytes, lits candidateAAD, lits (candidateSetJson p.set).compact]

/-- A post as `SealCandidates` makes it. -/
def Post.Made (p : Post) (nonce : Nonce) : Prop :=
  p.blob = lits nonce.bytes ++ block .gcm (p.args nonce)
    ((lits (candidateSetJson p.set).compact : Bytes).length + tagSize)

/-- The encryptions of the clients, and nothing else that they do with their codes. -/
def Scene.deeds (s : Scene) : Deeds where
  signed _ _ := False
  sealed args := ∃ p ∈ s.posts, ∃ nonce, p.Made nonce ∧ args = p.args nonce
  revealed _ _ := False

/-- The posts are as the clients have made them, and what was accepted was posted. -/
structure Scene.Honest (leaked : ℕ → Prop) (s : Scene) : Prop where
  posts : ∀ p ∈ s.posts, ∃ nonce, p.Made nonce
  accepted : ∀ d ∈ s.accepted, ¬ leaked d.code → ∃ p ∈ s.posts, p.code = d.code ∧ p.blob = d.blob ∧
    d.candidates = goNet.validateCandidates ((p.set.getD []).map Candidate.sanitized)

section Proof

variable {leaked : ℕ → Prop} {s s' : Scene}

/-- What `SealCandidates` returns is a post as the scene has them: a nonce and one encryption
under the code. -/
theorem made_of_sealCandidates {code : ℕ} {set : Option (List Candidate)} {rand : Option Nonce}
    {blob : Bytes} (h : sealCandidates (sealing rand) (codeKey code) set = .ok blob) :
    ∃ nonce, Post.Made ⟨code, set, blob⟩ nonce := by
  have hseal := toOption_eq_some.mp (Rendezvous.sealCandidates_ok h).1
  obtain ⟨-, nonce, -, hblob⟩ := sealBlob_eq_ok.mp hseal
  exact ⟨nonce, hblob⟩

theorem not_secretKey_codeKey {n : ℕ} (hn : leaked n) : ¬ SecretKey leaked (codeKey n) := by
  rintro ⟨o, ho, hsec⟩
  obtain ⟨i, -, rfl⟩ := mem_block.mp ho
  cases hsec with
  | pairingKey hnot => exact hnot hn

/-- The relay has seen nothing that it must not have: a post is a nonce and a ciphertext, under a
leaked code or under one that a client has used. -/
theorem Scene.Honest.pub_seen (hs : s.Honest leaked) {o : Octet Prim} (ho : s.seen o) :
    Pub leaked s.deeds o := by
  obtain ⟨p, hp, ho⟩ := ho
  obtain ⟨nonce, hmade⟩ := hs.posts p hp
  have hlits : ∀ bs : List UInt8, ∀ o ∈ (lits bs : Bytes), Pub leaked s.deeds o := by
    intro bs o ho
    obtain ⟨b, -, rfl⟩ := List.mem_map.mp ho
    exact .lit b
  rw [hmade] at ho
  rcases List.mem_append.mp ho with ho | ho
  · exact hlits _ o ho
  · obtain ⟨i, -, rfl⟩ := mem_block.mp ho
    by_cases hleak : leaked p.code
    · exact .gcm (not_secretKey_codeKey hleak) (hlits _)
    · exact .sealed (Proto.codeKey_secret hleak) ⟨p, hp, nonce, hmade, rfl⟩

/-- A blob that opens under a code that was not leaked is one of the posts. The relay could not
make the ciphertext, so a client did, under the same key, and the nonce is an argument of it. -/
theorem Scene.Honest.of_open (hs : s.Honest leaked) {code : ℕ} {blob : Bytes} {plain : List UInt8}
    (hknown : KnownAll (dolevYao leaked) s.seen blob) (hcode : ¬ leaked code)
    (hopen : openBlob (codeKey code) (lits candidateAAD) blob = .ok (lits plain)) :
    ∃ p ∈ s.posts, p.code = code ∧ p.blob = blob ∧ plain = (candidateSetJson p.set).compact := by
  obtain ⟨-, nonce, -, hblob⟩ := openBlob_eq_ok.mp hopen
  -- the relay has the first octet of the ciphertext, so somebody has made that encryption
  have hfirst : .out .gcm [codeKey code, nonce, lits candidateAAD, lits plain] 0 ∈ blob := by
    rw [hblob]
    exact List.mem_append_right _ (mem_block.mpr ⟨0, by simp [tagSize], rfl⟩)
  have hpub : Pub leaked s.deeds _ := Pub.of_known (fun o ho => hs.pub_seen ho) (hknown _ hfirst)
  rcases hpub.gcm_cases with ⟨-, p, hp, nonce', hmade, hargs⟩ | ⟨hpublic, -⟩
  · simp only [Post.args, List.cons.injEq, and_true] at hargs
    obtain ⟨hkey, hnonce, -, hplain⟩ := hargs
    have hsame : p.code = code := by
      obtain ⟨hprim, -⟩ := block_inj (by norm_num) hkey
      simpa using hprim.symm
    refine ⟨p, hp, hsame, ?_, lits_inj.mp hplain⟩
    rw [hmade, hblob, Post.args, hkey, hnonce, hplain]
  · exact absurd (Proto.codeKey_secret hcode) hpublic

/-- Step lemma. A delivery is accepted only if it opens, and then it is the list of a post: what
was sealed is JSON of that list, and the parser reads it back. -/
theorem Scene.Honest.step (hs : s.Honest leaked) {a : SceneAct} (hstep : s.Step leaked a s') :
    s'.Honest leaked := by
  cases a with
  | post code set rand =>
    obtain ⟨blob, hseal, rfl⟩ := hstep
    constructor
    · intro p hp
      rcases List.mem_cons.mp hp with rfl | hp
      · exact made_of_sealCandidates hseal
      · exact hs.posts p hp
    · intro d hd hcode
      obtain ⟨p, hp, hrest⟩ := hs.accepted d hd hcode
      exact ⟨p, List.mem_cons_of_mem _ hp, hrest⟩
  | deliver code blob =>
    obtain ⟨hknown, cs, hopen, rfl⟩ := hstep
    refine ⟨hs.posts, ?_⟩
    intro d hd hcode
    rcases List.mem_cons.mp hd with rfl | hd
    · -- the blob that has just been accepted
      obtain ⟨plain, l, hblob, hjson, rfl⟩ := openCandidates_eq_ok hopen
      obtain ⟨p, hp, hsame, hpost, rfl⟩ := hs.of_open hknown hcode hblob
      rw [unmarshalCandidates_json] at hjson
      exact ⟨p, hp, hsame, hpost, by rw [← Option.some.inj hjson]⟩
    · exact hs.accepted d hd hcode

end Proof

/-- **A relay cannot make up candidates.** In every run, whatever the relay hands out: what a
client takes for the candidates of its peer was sealed, under the same code, by somebody who has
that code, and is the list that they have sealed, as the filter leaves it; unless the relay was
given the code. -/
theorem candidates_authentic {leaked : ℕ → Prop} {acts : List SceneAct} {s : Scene}
    (hrun : Run (Scene.Step leaked) {} acts s) {d : Delivery} (hd : d ∈ s.accepted)
    (hcode : ¬ leaked d.code) :
    ∃ p ∈ s.posts, p.code = d.code ∧ p.blob = d.blob ∧
      d.candidates = goNet.validateCandidates ((p.set.getD []).map Candidate.sanitized) := by
  have hs : s.Honest leaked :=
    hrun.invariant (Scene.Honest leaked) ⟨nofun, nofun⟩ fun _ _ _ hs hstep => hs.step hstep
  exact hs.accepted d hd hcode

def ownSet : Option (List Candidate) := some [⟨[49, 48, 46, 48, 46, 48, 46, 50, 58, 49], []⟩]

theorem length_zeroNonce : (List.replicate 12 (0 : UInt8)).length = nonceSize := rfl

def zeroNonce : Nonce := ⟨List.replicate 12 0, length_zeroNonce⟩

def ownPost : Post where
  code := 0
  set := ownSet
  blob := lits zeroNonce.bytes ++ block .gcm
    [codeKey 0, lits zeroNonce.bytes, lits candidateAAD, lits (candidateSetJson ownSet).compact] 64

theorem sealCandidates_ownSet :
    sealCandidates (sealing (some zeroNonce)) (codeKey 0) ownSet = .ok ownPost.blob := by
  rfl

theorem openCandidates_ownPost :
    openCandidates opening (codeKey 0) ownPost.blob = .ok (ownSet.getD []) := by
  have hopen : openBlob (codeKey 0) (lits candidateAAD) ownPost.blob =
      .ok (lits (candidateSetJson ownSet).compact) :=
    openBlob_eq_ok.mpr ⟨rfl, lits zeroNonce.bytes, rfl, rfl⟩
  have hvalid :
      goNet.validateCandidates ((ownSet.getD []).map Candidate.sanitized) = ownSet.getD [] := by
    decide +kernel
  rw [openCandidates, if_neg (by decide +kernel)]
  simp only [opening, hopen, Except.toOption, vals?_lits, Option.bind_some,
    unmarshalCandidates_json, hvalid]

/-- The relay hands a node its own candidates. The theorem does not exclude it: they were sealed
under the code by somebody who has it. -/
theorem candidates_authentic_reflected : ∃ s, Run (Scene.Step fun _ => False) {}
      [.post 0 ownSet (some zeroNonce), .deliver 0 ownPost.blob] s ∧
    ∃ d ∈ s.accepted, ∃ p ∈ s.posts, p.blob = d.blob ∧ s.posts.length = 1 := by
  have hpost : Scene.Step (fun _ => False) {}
      (.post 0 ownSet (some zeroNonce)) { posts := [ownPost] } :=
    ⟨ownPost.blob, sealCandidates_ownSet, rfl⟩
  have hknown :
      KnownAll (dolevYao fun _ => False) (Scene.seen { posts := [ownPost] }) ownPost.blob :=
    .seen fun o ho => ⟨ownPost, List.mem_cons_self, ho⟩
  have hdeliver : Scene.Step (fun _ => False) { posts := [ownPost] } (.deliver 0 ownPost.blob)
      { posts := [ownPost], accepted := [⟨0, ownPost.blob, ownSet.getD []⟩] } :=
    ⟨hknown, ownSet.getD [], openCandidates_ownPost, rfl⟩
  have hrun := (Run.single hpost).snoc hdeliver
  obtain ⟨p, hp, -, hblob, -⟩ := candidates_authentic hrun List.mem_cons_self not_false
  exact ⟨_, hrun, _, List.mem_cons_self, p, hp, hblob, rfl⟩

end Heimdall.HostileRelay
