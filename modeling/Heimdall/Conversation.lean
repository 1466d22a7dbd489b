/-
A conversation: the two ends of one connection, each with its goroutines.

`Loops` is about one end. Here both ends of a session run, with what is on the wire between them,
and a step is a step of some goroutine of either end. What an end reads is the next frame of the
wire, or anything an attacker makes up, as far as the AEAD lets it (`Channel.IdealAead`).

Forgetting the loops, the queues and the wire leaves the two sessions and the calls made on them,
which is `Channel`: every run of a conversation is a run of it (`Talk.refines`). What the user of
one end is shown is therefore what `Send` and `Broadcast` were given at the other, and no call is
shown twice (`shown_was_sent`). The order is not a matter of the sessions, which accept frames in
any order: a frame is sealed first and queued later, and two senders may overtake each other in
between. From the queue on nobody overtakes. Without an attacker, texts are shown in the order in
which they were queued (`shown_in_order`).
-/
import Heimdall.Channel
import Heimdall.Loops

set_option autoImplicit false

namespace Heimdall.Sessions

open Heimdall.Octets Heimdall.Crypto Heimdall.Proto Heimdall.Runs

/-! ## What a step of a goroutine does

Of the many fields of a `Link` a conversation needs five. What each action does to them is written
down once, as functions of the action, and the rest of this file uses `Does` and not the loops. -/

namespace Link

variable (l : Link)

def sessAfter : LoopAct → Session
  | .recv buf => (l.sess.openFrame buf).1
  | .sealing who rand => (l.sess.sealFrame who.typ who.payload rand).1
  | .closeSession => l.sess.close
  | _ => l.sess

/-- What `readLoop` shows of an opened frame. -/
def shownOf : Except ProtoErr (UInt8 × Bytes) → List Bytes
  | .ok (typ, pt) => if typ = typeChat then (decodeChat pt).toOption.toList else []
  | .error _ => []

def shown : LoopAct → List Bytes
  | .recv buf => shownOf (l.sess.openFrame buf).2
  | _ => []

def sealedBy : LoopAct → List Outgoing
  | .sealing who rand =>
    (l.sess.sealFrame who.typ who.payload rand).2.toOption.toList.map fun buf => ⟨who, buf⟩
  | _ => []

def queuedBy : LoopAct → List Outgoing
  | .offer k pick => (l.held[k]?).toList.filter fun f => l.takes f pick
  | _ => []

def queueAfter (a : LoopAct) : List Bytes :=
  match a with
  | .write _ => l.queue.tail
  | _ => l.queue ++ (l.queuedBy a).map Outgoing.buf

def takenBy : LoopAct → List Bytes
  | .write _ => l.queue.take 1
  | _ => []

def writtenBy : LoopAct → List Bytes
  | .write true => l.queue.take 1
  | _ => []

variable {l} {l' : Link} {a : LoopAct} {who : Sender} {ok : Bool}

@[simp] theorem texts_offering : (l.offering who).texts = l.texts := by cases who <;> rfl

@[simp] theorem queue_offering : (l.offering who).queue = l.queue := by cases who <;> rfl

@[simp] theorem held_offering : (l.offering who).held = l.held := by cases who <;> rfl

@[simp] theorem writing_offering : (l.offering who).writing = l.writing := by cases who <;> rfl

@[simp] theorem texts_settle : (l.settle ok who).texts = l.texts := by
  cases who <;> cases ok <;> rfl

@[simp] theorem queue_settle : (l.settle ok who).queue = l.queue := by
  cases who <;> cases ok <;> rfl

@[simp] theorem held_settle : (l.settle ok who).held = l.held := by
  cases who <;> cases ok <;> rfl

@[simp] theorem writing_settle : (l.settle ok who).writing = l.writing := by
  cases who <;> cases ok <;> rfl

/-- **What an action does** to the session, the texts, the queue and the frames that are held. -/
structure Does (l : Link) (a : LoopAct) (l' : Link) : Prop where
  sess : l'.sess = l.sessAfter a
  texts : l'.texts = l.texts ++ l.shown a
  queue : l'.queue = l.queueAfter a
  held : ∀ f ∈ l'.held, f ∈ l.held ∨ f ∈ l.sealedBy a
  /-- `writeLoop` stops after a write that has failed. -/
  writing : (a ≠ .write false ∧ l'.writing = l.writing) ∨ (a = .write false ∧ l'.writing = false)
  canWrite : ∀ ok, a = .write ok → l.writing = true ∧ l.queue ≠ []

theorem Does.of_same (hsess : l'.sess = l.sess) (htexts : l'.texts = l.texts)
    (hqueue : l'.queue = l.queue) (hheld : l'.held = l.held) (hwriting : l'.writing = l.writing)
    (ha : l.sessAfter a = l.sess ∧ l.shown a = [] ∧ l.queueAfter a = l.queue)
    (hwrite : ∀ ok, a ≠ .write ok) : Does l a l' where
  sess := hsess.trans ha.1.symm
  texts := by rw [htexts, ha.2.1, List.append_nil]
  queue := hqueue.trans ha.2.2.symm
  held f hf := .inl (hheld ▸ hf)
  writing := .inl ⟨hwrite false, hwriting⟩
  canWrite ok hok := absurd hok (hwrite ok)

theorem recv_eq (l : Link) (buf : Bytes) : ∃ rejections reader done unanswered, l.recv buf =
    { l with
      sess := (l.sess.openFrame buf).1
      texts := l.texts ++ shownOf (l.sess.openFrame buf).2
      rejections := rejections
      reader := reader
      done := done
      unanswered := unanswered } := by
  -- a frame that is refused, a text, and frames of the other types
  unfold recv
  rcases l.sess.openFrame buf with ⟨sess, e | ⟨typ, pt⟩⟩
  · dsimp only [shownOf]
    rw [List.append_nil]
    split_ifs
    · exact ⟨_, _, _, _, rfl⟩
    · exact ⟨_, _, _, _, rfl⟩
  · dsimp only [shownOf]
    by_cases hchat : typ = typeChat
    · rw [if_pos hchat, if_pos hchat]
      rcases decodeChat pt with e | text
      · refine ⟨[], l.reader, l.done, l.unanswered, ?_⟩
        rw [Except.toOption, Option.toList_none, List.append_nil]
      · exact ⟨_, _, _, _, rfl⟩
    · rw [if_neg hchat, if_neg hchat, List.append_nil]
      split_ifs <;> exact ⟨_, _, _, _, rfl⟩

theorem does_recv (l : Link) (buf : Bytes) : Does l (.recv buf) (l.recv buf) := by
  obtain ⟨rejections, reader, done, unanswered, heq⟩ := recv_eq l buf
  rw [heq]
  exact ⟨rfl, rfl, (List.append_nil _).symm, fun f hf => .inl hf, .inl ⟨by simp, rfl⟩, by simp⟩

theorem does_sealBy (l : Link) (who : Sender) (rand : Option Nonce) :
    Does l (.sealing who rand) (l.sealBy who rand) := by
  -- field by field, and in each the call that failed and the one that did not
  refine ⟨sess_sealBy l who rand, ?_, ?_, fun f hf => ?_, .inl ⟨by simp, ?_⟩, by simp⟩
  all_goals unfold sealBy at *
  all_goals rcases hseal : l.sess.sealFrame who.typ who.payload rand with ⟨sess, e | buf⟩
  · simp [shown]
  · simp [shown]
  · simp [queueAfter, queuedBy]
  · simp [queueAfter, queuedBy]
  · rw [hseal] at hf
    exact .inl (by simpa using hf)
  · rw [hseal] at hf
    rw [held_offering] at hf
    rcases List.mem_append.mp hf with hf | hf
    · exact .inl hf
    · right
      rw [List.mem_singleton.mp hf, sealedBy, hseal]
      exact List.mem_singleton_self _
  · exact writing_settle
  · exact writing_offering

/-- A sender offers its frame, which is taken or dropped. In either case it is held no more. -/
theorem does_offer (l : Link) {k : ℕ} {f : Outgoing} (hf : l.held[k]? = some f) (pick : Bool) :
    Does l (.offer k pick) (l.offer k f pick) := by
  have hmem : ∀ g ∈ l.held.eraseIdx k, g ∈ l.held := fun g hg => List.mem_of_mem_eraseIdx hg
  unfold offer
  -- the queue takes it, or is full, or the sender sees that the connection is done
  by_cases htakes : l.takes f pick = true
  · rw [if_pos htakes]
    refine ⟨sess_settle, ?_, ?_, fun g hg => ?_, .inl ⟨by simp, writing_settle⟩, by simp⟩
    · simp [shown]
    · simp [queueAfter, queuedBy, hf, htakes]
    · rw [held_settle] at hg
      exact .inl (hmem g hg)
  · rw [if_neg htakes]
    refine ⟨sess_settle, ?_, ?_, fun g hg => ?_, .inl ⟨by simp, writing_settle⟩, by simp⟩
    · simp [shown]
    · simp [queueAfter, queuedBy, hf, htakes]
    · rw [held_settle] at hg
      exact .inl (hmem g hg)

/-- **Every step does what its action does**, one case for each action. What is below this line
does not look into the goroutines any more. -/
theorem does_of_next (h : l.next a = some l') : Does l a l' := by
  cases a with
  | recv buf =>
    obtain ⟨-, h⟩ := Option.ite_none_right_eq_some.mp h
    obtain rfl := Option.some.inj h
    exact does_recv l buf
  | sealing who rand =>
    obtain ⟨-, h⟩ := Option.ite_none_right_eq_some.mp h
    obtain rfl := Option.some.inj h
    exact does_sealBy l who rand
  | offer k pick =>
    obtain ⟨f, hf, h⟩ := Option.bind_eq_some_iff.mp h
    obtain ⟨-, h⟩ := Option.ite_none_right_eq_some.mp h
    obtain rfl := Option.some.inj h
    exact does_offer l hf pick
  | write ok =>
    obtain ⟨hcan, h⟩ := Option.ite_none_right_eq_some.mp h
    obtain rfl := Option.some.inj h
    have hwrite : ∀ ok', LoopAct.write ok = .write ok' → l.writing = true ∧ l.queue ≠ [] :=
      fun _ _ => hcan
    cases ok with
    | true =>
      exact ⟨rfl, (List.append_nil _).symm, rfl, fun f hf => .inl hf, .inl ⟨by simp, rfl⟩, hwrite⟩
    | false =>
      exact ⟨rfl, (List.append_nil _).symm, rfl, fun f hf => .inl hf, .inr ⟨rfl, rfl⟩, hwrite⟩
  -- the other actions are about the loops themselves
  | recvErr =>
    obtain ⟨-, h⟩ := Option.ite_none_right_eq_some.mp h
    obtain rfl := Option.some.inj h
    exact .of_same rfl rfl rfl rfl rfl ⟨rfl, rfl, List.append_nil _⟩ (by simp)
  | tick =>
    obtain ⟨-, h⟩ := Option.ite_none_right_eq_some.mp h
    obtain rfl := Option.some.inj h
    unfold tick
    split_ifs
    · exact .of_same rfl rfl rfl rfl rfl ⟨rfl, rfl, List.append_nil _⟩ (by simp)
    · exact .of_same rfl rfl rfl rfl rfl ⟨rfl, rfl, List.append_nil _⟩ (by simp)
  | drop =>
    obtain rfl := Option.some.inj h
    exact .of_same rfl rfl rfl rfl rfl ⟨rfl, rfl, List.append_nil _⟩ (by simp)
  | closeSession =>
    obtain ⟨-, h⟩ := Option.ite_none_right_eq_some.mp h
    obtain rfl := Option.some.inj h
    exact ⟨rfl, (List.append_nil _).symm, (List.append_nil _).symm, fun f hf => .inl hf,
      .inl ⟨by simp, rfl⟩, by simp⟩

end Link

/-! ## Two ends

Each end is a `Link` with its queue, and a step of the conversation is a step of one of them. The
sequences of what was taken, queued and written are compared with each other, which is what the
order of the texts comes down to. -/

def Outgoing.call (f : Outgoing) : Call := ⟨f.who.typ, f.who.payload, f.buf⟩

/-- The text that a user has sent with the frame. -/
def Outgoing.text (f : Outgoing) : Option Bytes :=
  match f.who with
  | .send text | .broadcast text => some text
  | .keepalive | .pong | .disconnect | .shutdown => none

/-- One end of a connection: its goroutines, the frames that `writeLoop` has taken off the queue,
and those it has written that the other end has not read. `frames` and `queued` are records of
what has been sealed and of what has been put on the queue, and of who did. -/
structure Port where
  link : Link
  taken : List Bytes := []
  wire : List Bytes := []
  frames : List Outgoing := []
  queued : List Outgoing := []

namespace Port

/-- The end after an action that has led to `l`. -/
def step (p : Port) (a : LoopAct) (l : Link) : Port where
  link := l
  taken := p.taken ++ p.link.takenBy a
  wire := p.wire ++ p.link.writtenBy a
  frames := p.frames ++ p.link.sealedBy a
  queued := p.queued ++ p.link.queuedBy a

/-- What is under way has been sealed, nothing above the limit, and leaves in the order in which it
was queued. -/
structure Sound (p : Port) : Prop where
  fits : ∀ f ∈ p.frames, f.who.payload.length ≤ maxPlaintext
  held : ∀ f ∈ p.link.held, f ∈ p.frames
  queued : ∀ f ∈ p.queued, f ∈ p.frames
  order : p.queued.map Outgoing.buf = p.taken ++ p.link.queue
  wire : ∀ b ∈ p.wire, b ∈ p.taken

/-- `Seal` takes no payload above the limit, so every frame on record is within it. -/
theorem fits_of_sealedBy {l : Link} {a : LoopAct} {f : Outgoing} (hf : f ∈ l.sealedBy a) :
    f.who.payload.length ≤ maxPlaintext := by
  cases a with
  | sealing who rand =>
    obtain ⟨buf, hbuf, rfl⟩ := List.mem_map.mp hf
    by_contra hbig
    -- a closed session refuses it too
    have hrefused : ∃ e, (l.sess.sealFrame who.typ who.payload rand).2 = .error e := by
      unfold Session.sealFrame
      split_ifs with hclosed
      · exact ⟨_, rfl⟩
      · exact ⟨_, rfl⟩
      · exact absurd (not_le.mp hbig) ‹_›
    obtain ⟨e, he⟩ := hrefused
    rw [he] at hbuf
    exact absurd hbuf (by simp [Except.toOption])
  | recv _ | recvErr | tick | offer _ _ | write _ | drop | closeSession =>
    exact absurd hf List.not_mem_nil

theorem held_of_queuedBy {l : Link} {a : LoopAct} {f : Outgoing} (hf : f ∈ l.queuedBy a) :
    f ∈ l.held := by
  cases a with
  | offer k pick =>
    exact List.mem_of_getElem? (Option.mem_toList.mp (List.mem_filter.mp hf).1)
  | recv _ | recvErr | tick | sealing _ _ | write _ | drop | closeSession =>
    exact absurd hf List.not_mem_nil

theorem takenBy_append_queueAfter (l : Link) (a : LoopAct) :
    l.takenBy a ++ l.queueAfter a = l.queue ++ (l.queuedBy a).map Outgoing.buf := by
  cases a with
  | write ok =>
    simp only [Link.takenBy, Link.queueAfter, Link.queuedBy, List.map_nil, List.append_nil]
    rw [← List.drop_one, List.take_append_drop]
  | recv _ | recvErr | tick | sealing _ _ | offer _ _ | drop | closeSession => rfl

theorem writtenBy_cases (l : Link) (a : LoopAct) :
    l.writtenBy a = l.takenBy a ∨ (a = .write false ∧ l.writtenBy a = []) := by
  cases a with
  | write ok =>
    cases ok with
    | true => exact .inl rfl
    | false => exact .inr ⟨rfl, rfl⟩
  | recv _ | recvErr | tick | sealing _ _ | offer _ _ | drop | closeSession => exact .inl rfl

/-- A step of the end keeps it sound: what is put on the queue was held, what is held was sealed,
and the queue is first in, first out. -/
theorem Sound.step {p : Port} {a : LoopAct} {l : Link} (h : p.Sound) (hd : Link.Does p.link a l) :
    (p.step a l).Sound where
  fits f hf := by
    rcases List.mem_append.mp hf with hf | hf
    · exact h.fits f hf
    · exact fits_of_sealedBy hf
  held f hf := by
    rcases hd.held f hf with hf | hf
    · exact List.mem_append_left _ (h.held f hf)
    · exact List.mem_append_right _ hf
  queued f hf := by
    rcases List.mem_append.mp hf with hf | hf
    · exact List.mem_append_left _ (h.queued f hf)
    · exact List.mem_append_left _ (h.held f (held_of_queuedBy hf))
  order := by
    simp only [Port.step, List.map_append, h.order, hd.queue, List.append_assoc,
      takenBy_append_queueAfter]
  wire b hb := by
    rcases List.mem_append.mp hb with hb | hb
    · exact List.mem_append_left _ (h.wire b hb)
    · rcases writtenBy_cases p.link a with heq | ⟨-, heq⟩
      · exact List.mem_append_right _ (heq ▸ hb)
      · rw [heq] at hb
        exact absurd hb List.not_mem_nil

theorem Sound.taken {p : Port} (h : p.Sound) {b : Bytes} (hb : b ∈ p.taken) :
    ∃ f ∈ p.queued, f.buf = b :=
  List.mem_map.mp (h.order ▸ List.mem_append_left _ hb)

end Port

/-- Both ends, `true` being the initiator. -/
structure Talk where
  port : Bool → Port

inductive TalkAct where
  /-- A step of a goroutine of end `w`. A buffer that it reads is the attacker's. -/
  | loop (w : Bool) (a : LoopAct)
  /-- `Recv` returns the next frame of the wire to `readLoop` of end `w`. -/
  | deliver (w : Bool)

/-- The attacker has no part in the action. -/
def TalkAct.alone : TalkAct → Bool
  | .loop _ (.recv _) => false
  | _ => true

namespace Talk

def start (a b : Session) : Talk := ⟨fun w => { link := { sess := if w then a else b } }⟩

def setPort (t : Talk) (w : Bool) (p : Port) : Talk := ⟨Function.update t.port w p⟩

def next (t : Talk) : TalkAct → Option Talk
  | .loop w a => ((t.port w).link.next a).map fun l => t.setPort w ((t.port w).step a l)
  | .deliver w =>
    match (t.port (!w)).wire with
    | [] => none
    | buf :: rest => ((t.port w).link.next (.recv buf)).map fun l =>
      (t.setPort (!w) { t.port (!w) with wire := rest }).setPort w ((t.port w).step (.recv buf) l)

/-- The sessions and the calls made on them, with what has been opened. -/
def channel (t : Talk) (opened : Bool → List Call) : Channel where
  side w := (t.port w).link.sess
  sealed w := (t.port w).frames.map Outgoing.call
  opened := opened

/-- The ideal AEAD: if a buffer authenticates under any message key of the two sessions, an end has
taken it off its queue to write it. -/
def Ideal (root : Bytes) (t : Talk) (buf : Bytes) : Prop :=
  ∀ f d epoch seq pt, parseFrame buf = .ok f →
    openBlob (messageKeyOf root d epoch seq) (marshalHeaderOnly f) f.blob = .ok pt →
    ∃ v, marshalHeaderOnly f ++ f.blob ∈ (t.port v).taken

/-- One step, with an attacker on the wire: what it makes up is bound by the AEAD. -/
def Step (root : Bytes) (t : Talk) (a : TalkAct) (t' : Talk) : Prop :=
  t.next a = some t' ∧ ∀ w buf, a = .loop w (.recv buf) → t.Ideal root buf

/-- One step, with nobody on the wire. -/
def StepAlone (t : Talk) (a : TalkAct) (t' : Talk) : Prop :=
  t.next a = some t' ∧ a.alone = true

/-- With nobody on the wire there is nothing for the AEAD to let through. -/
theorem StepAlone.step {root : Bytes} {t t' : Talk} {a : TalkAct} (h : t.StepAlone a t') :
    t.Step root a t' := by
  refine ⟨h.1, fun w buf ha => ?_⟩
  have halone := h.2
  rw [ha] at halone
  exact absurd halone (by simp [TalkAct.alone])

/-! ## The sessions below

Below the goroutines there are two sessions on which `Seal` and `Open` are called, the `Channel`.
Every step of a conversation is a step of it or none, so what is known of channels is known of
conversations. -/

/-- The text of an opened call. -/
def chat (r : Call) : Option Bytes :=
  if r.typ = typeChat then (decodeChat r.plaintext).toOption else none

theorem chat_call {f : Outgoing} (h : f.who.payload.length ≤ maxPlaintext) :
    chat f.call = f.text := by
  obtain ⟨who, buf⟩ := f
  have htext : ∀ text : Bytes, (encodeChatPayload text).length ≤ maxPlaintext →
      (decodeChat (encodeChatPayload text)).toOption = some text := fun text hle => by
    rw [decodeChat_of_le hle]
    rfl
  cases who with
  | send text => exact htext text h
  | broadcast text => exact htext text h
  | keepalive | pong | disconnect | shutdown => rfl

theorem next_opening_eq (c : Channel) (w : Bool) (buf : Bytes) :
    ∃ calls, c.next (.opening w buf) =
        { c.setSide w ((c.side w).openFrame buf).1 with
          opened := Function.update c.opened w (c.opened w ++ calls) } ∧
      calls.filterMap chat = Link.shownOf ((c.side w).openFrame buf).2 ∧
      (calls = [] ∨ ∃ r, calls = [r] ∧ r.wire = buf) := by
  rw [Channel.next]
  rcases (c.side w).openFrame buf with ⟨sess, e | ⟨typ, pt⟩⟩
  · refine ⟨[], ?_, rfl, .inl rfl⟩
    rw [List.append_nil, Function.update_eq_self]
    rfl
  · refine ⟨[⟨typ, pt, buf⟩], rfl, ?_, .inr ⟨_, rfl, rfl⟩⟩
    rw [Link.shownOf, List.filterMap_cons, List.filterMap_nil, chat]
    dsimp only
    split_ifs
    · rcases decodeChat pt with e | text <;> rfl
    · rfl

def below (w : Bool) : LoopAct → Option ChannelAct
  | .recv buf => some (.opening w buf)
  | .sealing who rand => some (.sealing w who.typ who.payload rand)
  | .closeSession => some (.closing w)
  | _ => none

variable {root : Bytes} {t t' : Talk} {c : Channel} {w : Bool} {a : LoopAct} {l : Link}

/-- The channel after a step of an end, which is the channel before with one side replaced. -/
theorem channel_setPort (t : Talk) (o : Bool → List Call) (w : Bool) (p : Port) :
    (t.setPort w p).channel o =
      { t.channel o with
        side := Function.update (t.channel o).side w p.link.sess
        sealed := Function.update (t.channel o).sealed w (p.frames.map Outgoing.call) } := by
  -- both fields are functions of the end, of which one value changes
  have hside : (fun v => (Function.update t.port w p v).link.sess)
      = Function.update (fun v => (t.port v).link.sess) w p.link.sess := by
    funext v
    by_cases hv : v = w
    · rw [hv, Function.update_self, Function.update_self]
    · rw [Function.update_of_ne hv, Function.update_of_ne hv]
  have hsealed : (fun v => (Function.update t.port w p v).frames.map Outgoing.call)
      = Function.update (fun v => (t.port v).frames.map Outgoing.call) w
        (p.frames.map Outgoing.call) := by
    funext v
    by_cases hv : v = w
    · rw [hv, Function.update_self, Function.update_self]
    · rw [Function.update_of_ne hv, Function.update_of_ne hv]
  rw [channel, setPort, hside, hsealed]
  rfl

/-- **Every step of an end is a step of the channel, or none.** What is opened by it is what
`readLoop` shows. -/
theorem next_below (t : Talk) (o : Bool → List Call) (w : Bool)
    (hd : Link.Does (t.port w).link a l) :
    ∃ calls : List Call,
      (t.setPort w ((t.port w).step a l)).channel (Function.update o w (o w ++ calls)) =
        ((below w a).map (t.channel o).next).getD (t.channel o) ∧
      calls.filterMap chat = (t.port w).link.shown a ∧ ∀ r ∈ calls, a = .recv r.wire := by
  -- the record of an end that seals nothing is as it was
  have hquiet : (t.port w).link.sealedBy a = [] →
      Function.update (t.channel o).sealed w (((t.port w).step a l).frames.map Outgoing.call)
        = (t.channel o).sealed := fun hnone => by
    rw [Port.step, hnone, List.append_nil]
    exact Function.update_eq_self w (t.channel o).sealed
  have hnone : Function.update o w (o w ++ []) = o := by
    rw [List.append_nil, Function.update_eq_self]
  have hsess := hd.sess
  cases a with
  | recv buf =>
    obtain ⟨calls, hnext, hchat, hwire⟩ := next_opening_eq (t.channel o) w buf
    refine ⟨calls, ?_, hchat, fun r hr => ?_⟩
    · rw [below, Option.map_some, Option.getD_some, hnext, channel_setPort]
      rw [show (t.channel (Function.update o w (o w ++ calls))).sealed
        = (t.channel o).sealed from rfl,
        hquiet rfl, Port.step, hsess]
      rfl
    · obtain rfl | ⟨r', rfl, rfl⟩ := hwire
      · exact absurd hr List.not_mem_nil
      · rw [List.mem_singleton.mp hr]
  | sealing who rand =>
    refine ⟨[], ?_, rfl, by simp⟩
    rw [hnone, below, Option.map_some, Option.getD_some, channel_setPort, Port.step, hsess,
      Link.sessAfter, Link.sealedBy, Channel.next]
    rw [show (t.channel o).side w = (t.port w).link.sess from rfl]
    rcases (t.port w).link.sess.sealFrame who.typ who.payload rand with ⟨sess, e | buf⟩
    · simp only [Except.toOption, Option.toList_none, List.map_nil, List.append_nil]
      rw [show (t.port w).frames.map Outgoing.call = (t.channel o).sealed w from rfl,
        Function.update_eq_self]
      rfl
    · simp only [Except.toOption, Option.toList_some, List.map_cons, List.map_nil, List.map_append]
      rfl
  | closeSession =>
    refine ⟨[], ?_, rfl, by simp⟩
    rw [hnone, below, Option.map_some, Option.getD_some, channel_setPort, hquiet rfl, Port.step,
      hsess]
    rfl
  | recvErr | tick | offer _ _ | write _ | drop =>
    refine ⟨[], ?_, rfl, by simp⟩
    rw [hnone, channel_setPort, hquiet rfl, Port.step, hsess]
    show { t.channel o with
      side := Function.update (t.channel o).side w ((t.channel o).side w) } = t.channel o
    rw [Function.update_eq_self]

/-- **The refinement relation.** The channel has the sessions and their calls, and what an end has
shown is what it has opened. -/
structure Rel (t : Talk) (c : Channel) : Prop where
  channel : c = t.channel c.opened
  texts : ∀ v, (t.port v).link.texts = (c.opened v).filterMap chat
  sound : ∀ v, (t.port v).Sound

/-- An end takes a step, and is as it should be afterwards. What the step opens has come in by
it. -/
theorem Rel.loop (h : Rel t c) (hd : Link.Does (t.port w).link a l)
    (hideal : ∀ buf, a = .recv buf → c.IdealAead root buf) :
    ∃ c', Rel (t.setPort w ((t.port w).step a l)) c' ∧ (c' = c ∨ ∃ b, Channel.Step root c b c') ∧
      ∀ v, ∀ r ∈ c'.opened v, r ∈ c.opened v ∨ a = .recv r.wire := by
  obtain ⟨calls, hchan, hchat, hcalls⟩ := next_below t c.opened w hd
  refine ⟨(t.setPort w ((t.port w).step a l)).channel
    (Function.update c.opened w (c.opened w ++ calls)),
    ⟨rfl, fun v => ?_, fun v => ?_⟩, ?_, fun v r hr => ?_⟩
  · by_cases hv : v = w
    · subst hv
      simp only [setPort, Talk.channel, Function.update_self, Port.step, List.filterMap_append,
        hchat, hd.texts, h.texts]
    · simp only [setPort, Talk.channel, Function.update_of_ne hv, h.texts]
  · by_cases hv : v = w
    · subst hv
      simpa only [setPort, Function.update_self] using (h.sound v).step hd
    · simpa only [setPort, Function.update_of_ne hv] using h.sound v
  · rw [← h.channel] at hchan
    cases hb : below w a with
    | none =>
      rw [hb] at hchan
      exact .inl hchan
    | some b =>
      rw [hb] at hchan
      refine .inr ⟨b, fun v buf heq => ?_, hchan.symm⟩
      -- only `readLoop` opens
      subst heq
      cases a with
      | recv buf' =>
        obtain ⟨-, rfl⟩ := ChannelAct.opening.inj (Option.some.inj hb)
        exact hideal buf' rfl
      | sealing _ _ | closeSession => exact absurd hb (by simp [below])
      | recvErr | tick | offer _ _ | write _ | drop => exact absurd hb (by simp [below])
  · by_cases hv : v = w
    · subst hv
      simp only [Talk.channel, Function.update_self] at hr
      exact (List.mem_append.mp hr).imp_right (hcalls r)
    · simp only [Talk.channel, Function.update_of_ne hv] at hr
      exact .inl hr

theorem Rel.take (h : Rel t c) {buf : Bytes} {rest : List Bytes}
    (hwire : (t.port w).wire = buf :: rest) :
    Rel (t.setPort w { t.port w with wire := rest }) c := by
  -- the channel is the same, the texts are the same, and there is less on the wire
  refine ⟨?_, fun v => ?_, fun v => ?_⟩
  · rw [channel_setPort]
    refine h.channel.trans ?_
    show _ = { t.channel c.opened with
      side := Function.update (t.channel c.opened).side w ((t.channel c.opened).side w)
      sealed := Function.update (t.channel c.opened).sealed w ((t.channel c.opened).sealed w) }
    rw [Function.update_eq_self, Function.update_eq_self]
  · by_cases hv : v = w
    · subst hv
      simpa only [setPort, Function.update_self] using h.texts v
    · simpa only [setPort, Function.update_of_ne hv] using h.texts v
  · by_cases hv : v = w
    · subst hv
      have hv := h.sound v
      simp only [setPort, Function.update_self]
      exact ⟨hv.fits, hv.held, hv.queued, hv.order,
        fun b hb => hv.wire b (hwire ▸ List.mem_cons_of_mem _ hb)⟩
    · simpa only [setPort, Function.update_of_ne hv] using h.sound v

theorem Rel.sealed_of_taken (h : Rel t c) {buf : Bytes} (hbuf : buf ∈ (t.port w).taken) :
    ∃ f ∈ (t.port w).queued, f.buf = buf ∧ f.call ∈ c.sealed w := by
  obtain ⟨f, hf, rfl⟩ := (h.sound w).taken hbuf
  refine ⟨f, hf, rfl, ?_⟩
  rw [h.channel]
  exact List.mem_map_of_mem ((h.sound w).queued f hf)

theorem Rel.idealAead (h : Rel t c) {buf : Bytes} (hideal : t.Ideal root buf) :
    c.IdealAead root buf := by
  intro f d epoch seq pt hp ho
  obtain ⟨v, hv⟩ := hideal f d epoch seq pt hp ho
  obtain ⟨g, -, hbuf, hg⟩ := h.sealed_of_taken hv
  exact ⟨v, g.call, hg, hbuf⟩

/-- What is on the wire the AEAD lets through, since it was taken off the queue. So an honest
delivery needs no assumption. -/
theorem Rel.ideal (h : Rel t c) {buf : Bytes} (hbuf : buf ∈ (t.port w).wire) :
    t.Ideal root buf := by
  intro f d epoch seq pt hp _
  refine ⟨w, ?_⟩
  have hwire := (h.sound w).wire buf hbuf
  rwa [(parseFrame_eq_ok.mp hp).1, marshalFrame_eq] at hwire

theorem ideal_of_opened (h : c.Inv root) {r : Call} (hr : r ∈ c.opened w)
    (hideal : t.Ideal root r.wire) :
    ∃ v, r.wire ∈ (t.port v).taken := by
  obtain ⟨S, -, hmem⟩ := h.window w
  obtain ⟨f, hp, -⟩ := hmem r hr
  obtain ⟨q, e, n, hwire⟩ := h.sealed (!w) r (h.opened w hr)
  obtain ⟨hbuf, hlen, -⟩ := parseFrame_eq_ok.mp hp
  have hf : f = sealedFrame root (sendDir (!w)) r.typ q e n r.plaintext :=
    marshalFrame_inj hlen (length_sessionIDOf root) (hbuf.symm.trans hwire)
  have hopen := openBlob_sealedFrame root (sendDir (!w)) r.typ q e n r.plaintext
  rw [← hf] at hopen
  obtain ⟨v, hv⟩ := hideal f _ _ _ _ hp hopen
  rw [← marshalFrame_eq, ← hbuf] at hv
  exact ⟨v, hv⟩

/-- The relation along a run, with what is known of the channel, and every opened call taken off a
queue. -/
structure Follows (root : Bytes) (t : Talk) (c : Channel) : Prop extends Rel t c where
  inv : c.Inv root
  opened : ∀ v, ∀ r ∈ c.opened v, ∃ v', r.wire ∈ (t.port v').taken

theorem taken_setPort {v : Bool} {b : Bytes} (hb : b ∈ (t.port v).taken) :
    b ∈ ((t.setPort w ((t.port w).step a l)).port v).taken := by
  by_cases hv : v = w
  · subst hv
    simp only [setPort, Function.update_self, Port.step]
    exact List.mem_append_left _ hb
  · simpa only [setPort, Function.update_of_ne hv] using hb

/-- A step of an end, which reads a buffer that the AEAD lets through if it reads any. -/
theorem Follows.loop (h : Follows root t c) (hd : Link.Does (t.port w).link a l)
    (hideal : ∀ buf, a = .recv buf → t.Ideal root buf) :
    ∃ c', Follows root (t.setPort w ((t.port w).step a l)) c' ∧
      (c' = c ∨ ∃ b, Channel.Step root c b c') := by
  have hlower : ∀ buf, a = .recv buf → c.IdealAead root buf :=
    fun buf ha => h.toRel.idealAead (hideal buf ha)
  obtain ⟨c', hrel, hstep, hopened⟩ := h.toRel.loop hd hlower
  have hinv : c'.Inv root := by
    rcases hstep with rfl | ⟨b, hb⟩
    · exact h.inv
    · exact h.inv.step hb
  refine ⟨c', ⟨hrel, hinv, fun v r hr => ?_⟩, hstep⟩
  obtain ⟨v', hv'⟩ : ∃ v', r.wire ∈ (t.port v').taken := by
    rcases hopened v r hr with hold | ha
    · exact h.opened v r hold
    · exact ideal_of_opened hinv hr (hideal r.wire ha)
  exact ⟨v', taken_setPort hv'⟩

theorem taken_setWire (t : Talk) (w v : Bool) (rest : List Bytes) :
    ((t.setPort w { t.port w with wire := rest }).port v).taken = (t.port v).taken := by
  by_cases hv : v = w
  · subst hv
    simp only [setPort, Function.update_self]
  · simp only [setPort, Function.update_of_ne hv]

theorem Follows.take (h : Follows root t c) {buf : Bytes} {rest : List Bytes}
    (hwire : (t.port w).wire = buf :: rest) :
    Follows root (t.setPort w { t.port w with wire := rest }) c := by
  refine ⟨h.toRel.take hwire, h.inv, fun v r hr => ?_⟩
  obtain ⟨v', hv'⟩ := h.opened v r hr
  exact ⟨v', by rwa [taken_setWire]⟩

theorem next_deliver (hnext : t.next (.deliver w) = some t') :
    ∃ buf rest l, (t.port (!w)).wire = buf :: rest ∧ Link.Does (t.port w).link (.recv buf) l ∧
      t' = (t.setPort (!w) { t.port (!w) with wire := rest }).setPort w
        ((t.port w).step (.recv buf) l) := by
  rw [next] at hnext
  rcases hwire : (t.port (!w)).wire with _ | ⟨buf, rest⟩
  · rw [hwire] at hnext
    exact absurd hnext (by simp)
  · rw [hwire] at hnext
    obtain ⟨l, hl, rfl⟩ := Option.map_eq_some_iff.mp hnext
    exact ⟨buf, rest, l, rfl, Link.does_of_next hl, rfl⟩

theorem port_setPort_not (t : Talk) (w : Bool) (p : Port) :
    (t.setPort (!w) p).port w = t.port w := by
  cases w <;> rfl

/-- **Each step is followed below**, by one step or by none. A delivery takes a frame off one wire
and gives it to the other end. -/
theorem Follows.step {a : TalkAct} (h : Follows root t c) (hs : t.Step root a t') :
    ∃ c', Follows root t' c' ∧ (c' = c ∨ ∃ b, Channel.Step root c b c') := by
  obtain ⟨hnext, hideal⟩ := hs
  cases a with
  | loop w a =>
    obtain ⟨l, hl, rfl⟩ := Option.map_eq_some_iff.mp hnext
    exact h.loop (Link.does_of_next hl) fun buf ha => hideal w buf (by rw [ha])
  | deliver w =>
    obtain ⟨buf, rest, l, hwire, hd, rfl⟩ := next_deliver hnext
    have hbuf : t.Ideal root buf :=
      h.toRel.ideal (w := !w) (by rw [hwire]; exact List.mem_cons_self)
    -- the frame is gone from the wire when it is read, but still on record as taken
    have hloop := (h.take hwire).loop (w := w) (a := .recv buf) (l := l)
      (by rw [port_setPort_not]; exact hd)
    rw [port_setPort_not] at hloop
    refine hloop fun buf' heq => ?_
    obtain rfl := LoopAct.recv.inj heq
    intro f d epoch seq pt hp ho
    obtain ⟨v, hv⟩ := hbuf f d epoch seq pt hp ho
    exact ⟨v, by rwa [taken_setWire]⟩

/-- At first nothing has been sent, and the sessions are those of the handshake. -/
theorem Follows.start {shared transcript : Bytes} {a b : Session}
    (ha : newSession shared transcript true = .ok a)
    (hb : newSession shared transcript false = .ok b) :
    Follows (rootOf shared transcript) (start a b) (Channel.start a b) := by
  obtain ⟨-, rfl⟩ := newSession_eq_ok ha
  obtain ⟨-, rfl⟩ := newSession_eq_ok hb
  have hnil : ∀ {α : Type} {P : α → Prop}, ∀ x ∈ ([] : List α), P x :=
    fun x hx => absurd hx List.not_mem_nil
  exact ⟨⟨rfl, fun v => rfl, fun v => ⟨hnil, hnil, hnil, rfl, hnil⟩⟩,
    Channel.Inv.start (length_rootOf shared transcript), fun v => hnil⟩

/-- **A conversation refines the channel** of its two sessions: a run of one comes with a run of
the other that it follows. -/
theorem refines {shared transcript : Bytes} {a b : Session}
    (ha : newSession shared transcript true = .ok a)
    (hb : newSession shared transcript false = .ok b) {acts : List TalkAct}
    (hrun : Run (Step (rootOf shared transcript)) (start a b) acts t) :
    ∃ calls c, Run (Channel.Step (rootOf shared transcript)) (Channel.start a b) calls c ∧
      Follows (rootOf shared transcript) t c :=
  hrun.simulates (Follows.start ha hb) fun _ _ _ _ h hs => h.step hs

theorem call_of_wire (h : c.Inv root) {r r' : Call} (hr : r ∈ c.sealed w) (hr' : r' ∈ c.sealed w)
    (hwire : r.wire = r'.wire) : r = r' := by
  obtain ⟨q, e, n, hw⟩ := h.sealed w r hr
  obtain ⟨q', e', n', hw'⟩ := h.sealed w r' hr'
  have hframe := marshalFrame_inj (length_sessionIDOf root) (length_sessionIDOf root)
    (hw.symm.trans (hwire.trans hw'))
  have htyp : r.typ = r'.typ := by
    have htyp := congrArg Frame.typ hframe
    rwa [sealedFrame_typ, sealedFrame_typ] at htyp
  have hopen := openBlob_sealedFrame root (sendDir w) r.typ q e n r.plaintext
  rw [congrArg Frame.blob hframe] at hopen
  have hplain := (openBlob_sealedFrame_inv hopen).2
  cases r
  cases r'
  simp_all

/-- What an end has opened was queued at the other end, each frame once. A frame may be sealed and
then not be queued, and it is not opened then. -/
theorem Follows.opened_subperm (h : Follows root t c) (w : Bool) :
    (c.opened w).Subperm ((t.port (!w)).queued.map Outgoing.call) := by
  refine List.subperm_of_subset ((h.inv.nodup w).of_map _) fun r hr => ?_
  obtain ⟨v, hv⟩ := h.opened w r hr
  obtain ⟨f, hf, hbuf, hcall⟩ := h.toRel.sealed_of_taken hv
  by_cases hvw : v = w
  · -- nobody opens a frame of its own
    subst hvw
    exact absurd hbuf.symm (h.inv.not_own hr hcall)
  · obtain rfl : v = !w := by
      revert hvw
      cases v <;> cases w <;> decide
    rw [call_of_wire h.inv (h.inv.opened w hr) hcall hbuf.symm]
    exact List.mem_map_of_mem hf

/-- The texts among frames that were queued, as they are opened and as they were sent. -/
theorem Follows.queued_texts (h : Follows root t c) (w : Bool) {fs : List Outgoing}
    (hfs : ∀ f ∈ fs, f ∈ (t.port w).queued) :
    (fs.map Outgoing.call).filterMap chat = fs.filterMap Outgoing.text := by
  rw [List.filterMap_map]
  refine List.filterMap_congr fun f hf => ?_
  exact chat_call ((h.sound w).fits f ((h.sound w).queued f (hfs f hf)))

end Talk

/-- **What is shown was sent.** In every run of the two ends of a connection, with an attacker
who may drop, repeat, reorder and make up what is read: the texts an end has shown to its user,
each counted as often as it was shown, are among the texts that `Send` and `Broadcast` have put
on the queue of the other end. A call that did not get that far counts for nothing. -/
theorem shown_was_sent {shared transcript : Bytes} {a b : Session}
    (ha : newSession shared transcript true = .ok a)
    (hb : newSession shared transcript false = .ok b) {acts : List TalkAct} {t : Talk}
    (hrun : Run (Talk.Step (rootOf shared transcript)) (Talk.start a b) acts t) (w : Bool) :
    (t.port w).link.texts.Subperm ((t.port (!w)).queued.filterMap Outgoing.text) := by
  obtain ⟨-, c, -, h⟩ := Talk.refines ha hb hrun
  obtain ⟨l, hperm, hsub⟩ := h.opened_subperm w
  rw [h.texts w, ← h.queued_texts (!w) fun f hf => hf]
  exact ⟨l.filterMap Talk.chat, hperm.filterMap _, hsub.filterMap _⟩

/-! ## The order -/

namespace Port

/-- What the other end has shown comes, in order, from the frames it has read; the next ones are on
the wire, then those that a failed write has lost, then the queue. -/
def Ordered (p : Port) (texts : List Bytes) : Prop :=
  ∃ done rest : List Outgoing, ∃ lost : List Bytes, p.queued = done ++ rest ∧
    texts.Sublist (done.filterMap Outgoing.text) ∧
    rest.map Outgoing.buf = p.wire ++ lost ++ p.link.queue ∧ (p.link.writing = true → lost = [])

variable {p : Port} {texts : List Bytes} {a : LoopAct} {l : Link}

/-- A step of the end that sends. What it queues goes to the end of what is to come, and what it
writes moves from the queue to the wire, or is lost for good. -/
theorem Ordered.step (h : p.Ordered texts) (hd : Link.Does p.link a l) :
    (p.step a l).Ordered texts := by
  obtain ⟨done, rest, lost, hqueued, htexts, hrest, hlost⟩ := h
  have hmap : (rest ++ p.link.queuedBy a).map Outgoing.buf
      = p.wire ++ lost ++ (p.link.takenBy a ++ p.link.queueAfter a) := by
    rw [List.map_append, hrest, takenBy_append_queueAfter, List.append_assoc _ p.link.queue]
  -- a write finds the queue right behind the wire
  have hwire : p.wire ++ lost ++ p.link.takenBy a = p.wire ++ p.link.takenBy a ++ lost := by
    cases a with
    | write ok =>
      rw [hlost (hd.canWrite ok rfl).1, List.append_nil, List.append_nil]
    | recv _ | recvErr | tick | sealing _ _ | offer _ _ | drop | closeSession =>
      simp only [Link.takenBy, List.append_nil]
  refine ⟨done, rest ++ p.link.queuedBy a, ?_⟩
  have hq : (p.step a l).queued = done ++ (rest ++ p.link.queuedBy a) := by
    rw [Port.step, hqueued, List.append_assoc]
  rcases hd.writing with ⟨hnot, hwriting⟩ | ⟨rfl, hwriting⟩
  · have hwritten : p.link.writtenBy a = p.link.takenBy a :=
      (writtenBy_cases p.link a).resolve_right fun hc => hnot hc.1
    refine ⟨lost, hq, htexts, ?_, fun hw => hlost (hwriting ▸ hw)⟩
    rw [hmap, ← List.append_assoc, hwire, Port.step, hd.queue, hwritten]
  · refine ⟨lost ++ p.link.takenBy (.write false), hq, htexts, ?_, fun hw => ?_⟩
    · rw [hmap, Port.step, hd.queue]
      simp only [Link.writtenBy, List.append_nil, List.append_assoc]
    · exact absurd (hwriting.symm.trans hw) (by simp)

/-- The other end reads a frame, and shows its text or nothing. The frame is the first of those
that are to come. -/
theorem Ordered.read (h : p.Ordered texts) {b : Bytes} {wire : List Bytes}
    (hwire : p.wire = b :: wire)
    {more : List Bytes}
    (hmore : ∀ f ∈ p.queued, f.buf = b → more.Sublist f.text.toList) :
    Port.Ordered { p with wire := wire } (texts ++ more) := by
  obtain ⟨done, rest, lost, hqueued, htexts, hrest, hlost⟩ := h
  -- the wire is not empty, so there is such a frame
  rcases rest with _ | ⟨f, rest⟩
  · rw [hwire] at hrest
    exact absurd hrest (by simp)
  · rw [hwire, List.map_cons, List.cons_append, List.cons_append, List.cons.injEq] at hrest
    have hf : f ∈ p.queued := by
      rw [hqueued]
      exact List.mem_append_right _ List.mem_cons_self
    refine ⟨done ++ [f], rest, lost, by rw [hqueued, List.append_assoc]; rfl, ?_, hrest.2, hlost⟩
    rw [List.filterMap_append]
    refine htexts.append ?_
    have htext : [f].filterMap Outgoing.text = f.text.toList := by
      rw [List.filterMap_cons, List.filterMap_nil]
      cases f.text <;> rfl
    rw [htext]
    exact hmore f hf hrest.1

end Port

namespace Talk

variable {root : Bytes} {t t' : Talk} {c : Channel} {w : Bool}

theorem Follows.shown (h : Follows root t c) {f : Outgoing} (hf : f ∈ (t.port (!w)).queued)
    (hwire : f.buf ∈ (t.port (!w)).wire) :
    ((t.port w).link.shown (.recv f.buf)).Sublist f.text.toList := by
  have hsound := h.sound (!w)
  have hframe := hsound.queued f hf
  have hcall : f.call ∈ c.sealed (!w) := by
    rw [h.channel]
    exact List.mem_map_of_mem hframe
  have hinv := h.inv.opening (w := w) (h.toRel.idealAead (h.toRel.ideal hwire))
  obtain ⟨calls, hnext, hchat, hcalls⟩ := next_opening_eq c w f.buf
  have hside : (c.side w).openFrame f.buf = (t.port w).link.sess.openFrame f.buf := by
    rw [h.channel]
    rfl
  rw [Link.shown, ← hside, ← hchat]
  obtain rfl | ⟨r, rfl, hr⟩ := hcalls
  · exact List.nil_sublist _
  · -- the channel has accepted it, so it is the frame that was sealed
    have hmem : r ∈ (c.next (.opening w f.buf)).opened w := by
      rw [hnext]
      simp only [Function.update_self]
      exact List.mem_append_right _ (List.mem_singleton_self r)
    have hsealed : r ∈ c.sealed (!w) := by
      have hsealed := hinv.opened w hmem
      rw [hnext] at hsealed
      exact hsealed
    rw [call_of_wire h.inv hsealed hcall hr, List.filterMap_cons, List.filterMap_nil,
      chat_call (hsound.fits f hframe)]
    cases f.text <;> exact List.Sublist.refl _

/-- The order in both directions. -/
def Ordered (t : Talk) : Prop := ∀ w, (t.port (!w)).Ordered (t.port w).link.texts

/-- Without an attacker frames arrive as they were written, up to a write that fails, after which
`writeLoop` writes nothing. So what is shown is in the order of the queue. -/
theorem Ordered.step {a : TalkAct} (ho : t.Ordered) (h : Follows root t c) (hs : t.StepAlone a t') :
    t'.Ordered := by
  obtain ⟨hnext, halone⟩ := hs
  cases a with
  | loop v a =>
    obtain ⟨l, hl, rfl⟩ := Option.map_eq_some_iff.mp hnext
    have hd := Link.does_of_next hl
    intro w
    by_cases hv : v = w
    · -- an end that reads nothing shows nothing
      subst hv
      have hshown : (t.port v).link.shown a = [] := by
        cases a with
        | recv buf => exact absurd halone (by simp [TalkAct.alone])
        | sealing _ _ | closeSession | recvErr | tick | offer _ _ | write _ | drop => rfl
      have htexts : l.texts = (t.port v).link.texts := by
        rw [hd.texts, hshown, List.append_nil]
      simp only [setPort, Function.update_self, Port.step, htexts]
      rw [Function.update_of_ne (by simp)]
      exact ho v
    · obtain rfl : v = !w := by
        revert hv
        cases v <;> cases w <;> decide
      simp only [setPort, Function.update_self]
      rw [Function.update_of_ne (by simp)]
      exact (ho w).step hd
  | deliver v =>
    obtain ⟨buf, rest, l, hwire, hd, rfl⟩ := next_deliver hnext
    intro w
    by_cases hv : v = w
    · subst hv
      simp only [setPort, Function.update_self, Port.step, hd.texts]
      rw [Function.update_of_ne (by simp), Function.update_self]
      refine (ho v).read hwire fun f hf hbuf => ?_
      rw [← hbuf]
      exact h.shown hf (by rw [hbuf, hwire]; exact List.mem_cons_self)
    · obtain rfl : v = !w := by
        revert hv
        cases v <;> cases w <;> decide
      simp only [setPort, Bool.not_not, Function.update_self]
      rw [Function.update_of_ne (by simp), Function.update_self]
      exact (ho w).step hd

end Talk

/-- **Texts are shown in the order in which they were queued.** In every run of the two ends of a
connection with nobody in between, what an end has shown to its user is a subsequence of what `Send`
and `Broadcast` have put on the queue of the other end. -/
theorem shown_in_order {shared transcript : Bytes} {a b : Session}
    (ha : newSession shared transcript true = .ok a)
    (hb : newSession shared transcript false = .ok b) {acts : List TalkAct} {t : Talk}
    (hrun : Run Talk.StepAlone (Talk.start a b) acts t) (w : Bool) :
    (t.port w).link.texts.Sublist ((t.port (!w)).queued.filterMap Outgoing.text) := by
  have hinv : t.Ordered ∧ ∃ c, Talk.Follows (rootOf shared transcript) t c := by
    refine hrun.invariant (fun t => t.Ordered ∧ ∃ c, Talk.Follows (rootOf shared transcript) t c)
      ⟨fun v => ⟨[], [], [], rfl, List.Sublist.refl _, rfl, fun _ => rfl⟩,
        _, Talk.Follows.start ha hb⟩ ?_
    rintro t act t' ⟨ho, c, hc⟩ hs
    obtain ⟨c', hc', -⟩ := hc.step hs.step
    exact ⟨ho.step hc hs, c', hc'⟩
  obtain ⟨done, rest, lost, hqueued, htexts, -, -⟩ := hinv.1 w
  rw [hqueued, List.filterMap_append]
  exact htexts.trans (List.sublist_append_left _ _)

theorem length_demoNonce : (List.replicate 12 (0 : UInt8)).length = nonceSize := rfl

/-- Two texts, sealed in one order, queued in the other and shown as they were queued. -/
def overtaking : List TalkAct :=
  let nonce : Option Nonce := some ⟨List.replicate 12 0, length_demoNonce⟩
  [.loop true (.sealing (.send (lits [104, 105])) nonce),
    .loop true (.sealing (.broadcast (lits [121, 111])) nonce),
    .loop true (.offer 1 false), .loop true (.offer 0 false),
    .loop true (.write true), .loop true (.write true), .deliver false, .deliver false]

theorem overtaking_shown :
    ∃ t, Run Talk.StepAlone (Talk.start (demoPair.side true) (demoPair.side false)) overtaking t ∧
      (t.port false).link.texts = [lits [121, 111], lits [104, 105]] :=
  exists_run_guarded _ (by decide +kernel)

theorem shown_was_sent_overtaking :
    ∃ t, Run (Talk.Step (rootOf (lits [7]) []))
        (Talk.start (demoPair.side true) (demoPair.side false)) overtaking t ∧
      (t.port false).link.texts = [lits [121, 111], lits [104, 105]] ∧
      (t.port false).link.texts.Subperm ((t.port true).queued.filterMap Outgoing.text) := by
  obtain ⟨t, hrun, htexts⟩ := overtaking_shown
  have hstep : Run (Talk.Step (rootOf (lits [7]) [])) _ overtaking t :=
    hrun.mono fun _ _ _ h => h.step
  exact ⟨t, hstep, htexts,
    shown_was_sent newSession_demo (newSession_eq (by simp) _ _) hstep false⟩

theorem shown_in_order_overtaking :
    ∃ t, Run Talk.StepAlone (Talk.start (demoPair.side true) (demoPair.side false)) overtaking t ∧
      (t.port false).link.texts = [lits [121, 111], lits [104, 105]] ∧
      (t.port false).link.texts.Sublist ((t.port true).queued.filterMap Outgoing.text) := by
  obtain ⟨t, hrun, htexts⟩ := overtaking_shown
  exact ⟨t, hrun, htexts,
    shown_in_order newSession_demo (newSession_eq (by simp) _ _) hrun false⟩

end Heimdall.Sessions
