/-
One direction of a WebSocket connection: `WSConn.Write` at one end, `WSConn.Read` at the other.

A write puts its bytes on the connection, or a part of them if it fails. The reader is in the middle
of a frame or between two. What is on the connection is the rest of the current payload, masked as
it was, and then whole frames, up to bytes of the last one that were never written (`Stream`).

`Hop` says what follows for the two ends: what was read, together with what can still be read, is a
prefix of what the writer was given, and all of it as long as nothing has failed. Every write keeps
it if no write before it has failed partway, and every read does (`Hop.write`, `Hop.read`,
`Hop.moved`).
-/
import Heimdall.WebSocket

set_option autoImplicit false

namespace Heimdall.Rendezvous

/-! ## The reader -/

/-- The part of `WSConn` that `Read` uses; `client` is the field `mask`. -/
structure Reader where
  client : Bool
  rem : ℕ := 0
  rmask : List UInt8 := []
  rmasked : Bool := false
  rmaskPos : ℕ := 0

/-- What comes of one round of `nextFrame`. -/
inductive Advance where
  /-- It waits for more bytes. -/
  | blocked
  /-- It returns an error, or EOF. -/
  | stopped
  | moved (r : Reader) (rest : List UInt8)

namespace Reader

variable (r : Reader)

def unmask (bs : List UInt8) : List UInt8 :=
  if r.rmasked then xorMask r.rmask r.rmaskPos bs else bs

def read (k : ℕ) : Reader :=
  { r with rem := r.rem - k, rmaskPos := if r.rmasked then r.rmaskPos + k else r.rmaskPos }

def start (length : ℕ) (key : List UInt8) (masked : Bool) : Reader :=
  { r with rem := length, rmask := key, rmasked := masked, rmaskPos := 0 }

/-- One round of `nextFrame` on the bytes that have arrived. A ping is answered, and an answer that
cannot be sent is an error. -/
def advance (bs : List UInt8) (pongOk : Bool) : Advance :=
  match (nextFrame r.client).run bs with
  | .error .short => .blocked
  | .error (.failed _) => .stopped
  | .ok (.data length key masked, rest) => .moved (r.start length key masked) rest
  | .ok (.ping _, rest) => if pongOk then .moved r rest else .stopped
  | .ok (.pong, rest) => .moved r rest
  | .ok (.close, _) => .stopped

end Reader

/-! ## What the frames carry -/

def WSFrame.data (f : WSFrame) : List UInt8 := if f.op = .binary then f.payload else []

/-- What a reader gets out of these frames: the data, until a close frame. -/
def content : List WSFrame → List UInt8
  | [] => []
  | f :: fs => if f.op = .close then [] else f.data ++ content fs

/-- There is a close frame. -/
def shut (fs : List WSFrame) : Bool := fs.any fun f => f.op = .close

theorem content_append (fs : List WSFrame) (f : WSFrame) :
    content (fs ++ [f]) = content fs ++ if shut fs then [] else f.data := by
  induction fs with
  | nil =>
    by_cases hop : f.op = .close <;> simp [content, shut, WSFrame.data, hop]
  | cons g fs ih =>
    by_cases hop : g.op = .close
    · simp [content, shut, hop]
    · simp only [List.cons_append, content, if_neg hop, ih, List.append_assoc]
      simp [shut, hop]

theorem shut_append (fs : List WSFrame) (f : WSFrame) :
    shut (fs ++ [f]) = (shut fs || decide (f.op = .close)) := by
  simp [shut]

/-- **What is on a connection**: the rest `cur` of the current payload, and the frames `fs`. -/
structure Stream (r : Reader) (s : List UInt8) (cur : List UInt8) (fs : List WSFrame) : Prop where
  rem : cur.length = r.rem
  fits : ∀ f ∈ fs, f.Fits r.client
  bytes : s = r.unmask cur ++ fs.flatMap WSFrame.bytes

namespace Stream

variable {r : Reader} {s cur : List UInt8} {fs : List WSFrame}

theorem length_unmask (r : Reader) (bs : List UInt8) : (r.unmask bs).length = bs.length := by
  unfold Reader.unmask
  split_ifs
  · exact length_xorMask _ _ _
  · rfl

theorem unmask_unmask (r : Reader) (bs : List UInt8) : r.unmask (r.unmask bs) = bs := by
  unfold Reader.unmask
  split_ifs
  · exact xorMask_xorMask _ _ _
  · rfl

theorem unmask_append (r : Reader) (as bs : List UInt8) :
    r.unmask (as ++ bs) = r.unmask as ++ (r.read as.length).unmask bs := by
  unfold Reader.unmask Reader.read
  cases r.rmasked
  · rfl
  · exact xorMask_append _ _ _ _

theorem read (h : Stream r s cur fs) {k : ℕ} (hk : k ≤ r.rem) :
    r.unmask (s.take k) = cur.take k ∧ Stream (r.read k) (s.drop k) (cur.drop k) fs := by
  have hlen : (cur.take k).length = k := by
    rw [List.length_take, h.rem]
    omega
  -- the current payload is what is read and what is left of it
  have hsplit : r.unmask cur = r.unmask (cur.take k) ++ (r.read k).unmask (cur.drop k) := by
    have happ := unmask_append r (cur.take k) (cur.drop k)
    rwa [List.take_append_drop, hlen] at happ
  have hfront : (r.unmask (cur.take k)).length = k := by rw [length_unmask, hlen]
  have hs : s = r.unmask (cur.take k) ++
      ((r.read k).unmask (cur.drop k) ++ fs.flatMap WSFrame.bytes) := by
    rw [h.bytes, hsplit, List.append_assoc]
  constructor
  · rw [hs, List.take_append_of_le_length (by omega), List.take_of_length_le (by omega),
      unmask_unmask]
  · constructor
    · rw [List.length_drop, h.rem]
      rfl
    · exact h.fits
    · rw [hs, List.drop_append_of_le_length (by omega), List.drop_of_length_le (by omega),
        List.nil_append]

theorem bytes_nil (h : Stream r s [] fs) : s = fs.flatMap WSFrame.bytes := by
  rw [h.bytes]
  unfold Reader.unmask
  split_ifs <;> rfl

theorem snoc (h : Stream r s cur fs) {f : WSFrame} (hf : f.Fits r.client) :
    Stream r (s ++ f.bytes) cur (fs ++ [f]) where
  rem := h.rem
  fits g hg := by
    rcases List.mem_append.mp hg with hg | hg
    · exact h.fits g hg
    · rw [List.mem_singleton.mp hg]
      exact hf
  bytes := by
    rw [h.bytes, List.flatMap_append, List.append_assoc]
    simp

theorem unmask_start (r : Reader) (f : WSFrame) :
    (r.start f.payload.length f.keyBytes f.key.isSome).unmask f.payload = f.body := by
  unfold Reader.unmask Reader.start WSFrame.body WSFrame.keyBytes
  cases f.key <;> rfl

end Stream

/-! ## The two ends of a connection -/

/-- What was read, what is on the connection and what the writer was given. `writing` says that the
writer goes on with its data, `closed` that it may have written a close frame, `broken` that a write
has failed partway, and `faulty` that something has failed, or data came after a close frame. -/
def Hop (r : Reader) (bytes read out : List UInt8) (writing closed broken faulty : Bool) : Prop :=
  ∃ x cur fs, Stream r (bytes ++ x) cur fs ∧
    read ++ (cur ++ content fs) <+: out ∧
    (broken = false → x = []) ∧
    (writing = true → broken = false → shut fs = true ∨ read ++ (cur ++ content fs) = out) ∧
    (faulty = false → broken = false ∧ (shut fs = true → closed = true) ∧
      read ++ (cur ++ content fs) = out)

namespace Hop

variable {r : Reader} {bytes read out : List UInt8} {writing closed broken faulty : Bool}

theorem empty (client writing closed : Bool) :
    Hop { client := client } [] [] [] writing closed false false :=
  ⟨[], [], [], ⟨rfl, nofun, rfl⟩, List.prefix_refl _, fun _ => rfl, fun _ _ => .inr rfl,
    fun _ => ⟨rfl, nofun, rfl⟩⟩

/-- What was read is a prefix of what was written. A write may fail with part of a frame on the
wire, but with the rest of it added there would be frames only. -/
theorem read_le (h : Hop r bytes read out writing closed broken faulty) : read <+: out := by
  obtain ⟨x, cur, fs, -, hle, -⟩ := h
  exact (List.prefix_append _ _).trans hle

theorem not_broken (h : Hop r bytes read out writing closed broken false) : broken = false := by
  obtain ⟨x, cur, fs, -, -, -, -, hfaulty⟩ := h
  exact (hfaulty rfl).1

theorem weaken (h : Hop r bytes read out writing closed broken faulty)
    {writing' closed' faulty' : Bool} (hw : writing' = true → writing = true)
    (hc : closed = true → closed' = true) (hf : faulty' = false → faulty = false) :
    Hop r bytes read out writing' closed' broken faulty' := by
  obtain ⟨x, cur, fs, hs, hle, hx, hwriting, hfaulty⟩ := h
  refine ⟨x, cur, fs, hs, hle, hx, fun h => hwriting (hw h), fun h => ?_⟩
  obtain ⟨hbroken, hshut, hout⟩ := hfaulty (hf h)
  exact ⟨hbroken, fun h => hc (hshut h), hout⟩

/-- **A frame is written**, or `n` bytes of it. The writer of data stops if it fails. Nothing has
failed if all of it is written, a close frame is noted, and it is not data after one. -/
theorem write (h : Hop r bytes read out writing closed false faulty) {f : WSFrame}
    (hfit : f.Fits r.client) (hdata : f.op = .binary → writing = true) (n : ℕ)
    {writing' closed' faulty' : Bool}
    (hw : writing' = true → writing = true ∧ (f.op = .binary → f.bytes.length ≤ n))
    (hc : faulty' = false → closed = true ∨ f.op = .close → closed' = true)
    (hf : faulty' = false →
      faulty = false ∧ f.bytes.length ≤ n ∧ (f.op = .binary → closed = false)) :
    Hop r (bytes ++ f.bytes.take n) read (out ++ f.data) writing' closed'
      (decide (0 < n ∧ n < f.bytes.length)) faulty' := by
  obtain ⟨x, cur, fs, hs, hle, hx, hwriting, hfaulty⟩ := h
  obtain rfl := hx rfl
  rw [List.append_nil] at hs
  have hsnoc := hs.snoc hfit
  -- if everything so far is on the connection, then so is the new frame's payload
  have heq : shut fs = false → read ++ (cur ++ content fs) = out →
      read ++ (cur ++ content (fs ++ [f])) = out ++ f.data := by
    intro hshut hout
    rw [content_append, hshut, ← hout]
    simp [List.append_assoc]
  have hle' : read ++ (cur ++ content (fs ++ [f])) <+: out ++ f.data := by
    by_cases hshut : shut fs = true
    · rw [content_append, if_pos hshut, List.append_nil]
      exact hle.trans (List.prefix_append _ _)
    · by_cases hop : f.op = .binary
      · rcases hwriting (hdata hop) rfl with hshut' | hout
        · exact absurd hshut' hshut
        · rw [heq (by simpa using hshut) hout]
      · have hnone : f.data = [] := if_neg hop
        rw [content_append, hnone, List.append_nil]
        simpa using hle
  by_cases hall : f.bytes.length ≤ n
  · -- all of it is written
    rw [List.take_of_length_le hall]
    refine ⟨[], cur, fs ++ [f], by rwa [List.append_nil], hle', fun _ => rfl, ?_, ?_⟩
    · intro hwr _
      rw [shut_append]
      rcases hwriting (hw hwr).1 rfl with hshut | hout
      · exact .inl (by simp [hshut])
      · by_cases hshut : shut fs = true
        · exact .inl (by simp [hshut])
        · exact .inr (heq (by simpa using hshut) hout)
    · intro hok
      obtain ⟨hok', -, hop⟩ := hf hok
      obtain ⟨-, hclosed, hout⟩ := hfaulty hok'
      refine ⟨decide_eq_false fun h => absurd hall (by omega), fun hshut => ?_, ?_⟩
      · rw [shut_append, Bool.or_eq_true, decide_eq_true_iff] at hshut
        exact hc hok (hshut.imp_left hclosed)
      · by_cases hshut : shut fs = true
        · -- what comes after a close frame is not data
          have hnone : f.data = [] :=
            if_neg fun h => absurd (hclosed hshut) (by rw [hop h]; exact nofun)
          rw [content_append, if_pos hshut, hnone, List.append_nil, List.append_nil]
          exact hout
        · exact heq (by simpa using hshut) hout
  · have hbad : faulty' ≠ false := fun hok => hall (hf hok).2.1
    by_cases hn : 0 < n
    · -- the rest of the frame is what was never written
      refine ⟨f.bytes.drop n, cur, fs ++ [f], ?_, hle', ?_, ?_, fun hok => absurd hok hbad⟩
      · rwa [List.append_assoc, List.take_append_drop]
      · intro hbroken
        exact absurd (decide_eq_false_iff_not.mp hbroken) (by simp [hn]; omega)
      · intro _ hbroken
        exact absurd (decide_eq_false_iff_not.mp hbroken) (by simp [hn]; omega)
    · -- nothing of it is written
      have hzero : n = 0 := by omega
      subst hzero
      refine ⟨[], cur, fs, by simpa using hs, hle.trans (List.prefix_append _ _), fun _ => rfl, ?_,
        fun hok => absurd hok hbad⟩
      intro hwr _
      obtain ⟨hwr', hop⟩ := hw hwr
      have hnone : f.data = [] := if_neg fun h => hall (hop h)
      rw [hnone, List.append_nil]
      exact hwriting hwr' rfl

/-- **Bytes of the current frame are read**: they move from what is on the connection to what was
read, and the two together stay the same. -/
theorem read_data (h : Hop r bytes read out writing closed broken faulty) {k : ℕ} (hk : k ≤ r.rem)
    (hlen : k ≤ bytes.length) :
    Hop (r.read k) (bytes.drop k) (read ++ r.unmask (bytes.take k)) out writing closed broken
      faulty := by
  obtain ⟨x, cur, fs, hs, hle, hx, hwriting, hfaulty⟩ := h
  obtain ⟨htake, hdrop⟩ := hs.read hk
  rw [List.take_append_of_le_length hlen] at htake
  rw [List.drop_append_of_le_length hlen] at hdrop
  -- what was read, what is left of the frame and the frames behind it
  have hsame : read ++ r.unmask (bytes.take k) ++ (cur.drop k ++ content fs) =
      read ++ (cur ++ content fs) := by
    rw [htake, List.append_assoc, ← List.append_assoc (cur.take k), List.take_append_drop]
  refine ⟨x, cur.drop k, fs, hdrop, ?_, hx, ?_, ?_⟩
  · rw [hsame]
    exact hle
  · rw [hsame]
    exact hwriting
  · rw [hsame]
    exact hfaulty

/-- What `nextFrame` finds between two frames: the next one of those that are on the connection.
The part of a frame that is missing does not matter, as the parser would have waited for it. -/
theorem nextFrame_eq {x : List UInt8} {fs : List WSFrame} (hs : Stream r (bytes ++ x) [] fs)
    {inc : Incoming} {rest : List UInt8} (hrun : (nextFrame r.client).run bytes = .ok (inc, rest)) :
    ∃ f fs', fs = f :: fs' ∧ inc = f.incoming ∧
      rest ++ x = (if f.op = .binary then f.body else []) ++ fs'.flatMap WSFrame.bytes := by
  have hfull := (stable_nextFrame r.client).ok x hrun
  have hbytes := hs.bytes_nil
  cases fs with
  | nil =>
    -- there are no bytes, but a frame takes two at least
    have hnil := List.append_eq_nil_iff.mp hbytes
    have heats := eats_nextFrame r.client _ _ _ hrun
    rw [hnil.1, List.length_nil] at heats
    omega
  | cons f fs' =>
    rw [hbytes, List.flatMap_cons, WSFrame.nextFrame_bytes (hs.fits f List.mem_cons_self)] at hfull
    obtain ⟨hinc, hrest⟩ := Prod.mk.inj (Except.ok.inj hfull)
    refine ⟨f, fs', rfl, hinc.symm, ?_⟩
    rw [← hrest]
    split_ifs <;> rfl

theorem cur_eq_nil {x cur : List UInt8} {fs : List WSFrame} (hs : Stream r (bytes ++ x) cur fs)
    (hrem : r.rem = 0) : cur = [] :=
  List.length_eq_zero_iff.mp (hs.rem.trans hrem)

/-- **The reader goes on to the next frame.** It has consumed two bytes at least, so a loop of
such rounds ends. -/
theorem moved (h : Hop r bytes read out writing closed broken faulty) (hrem : r.rem = 0)
    {pongOk : Bool} {r' : Reader} {rest : List UInt8}
    (hadv : r.advance bytes pongOk = .moved r' rest) :
    Hop r' rest read out writing closed broken faulty ∧ rest.length + 2 ≤ bytes.length := by
  obtain ⟨x, cur, fs, hs, hle, hx, hwriting, hfaulty⟩ := h
  obtain rfl := cur_eq_nil hs hrem
  unfold Reader.advance at hadv
  rcases hrun : (nextFrame r.client).run bytes with (_ | e) | ⟨inc, rest'⟩
  · rw [hrun] at hadv
    exact absurd hadv nofun
  · rw [hrun] at hadv
    exact absurd hadv nofun
  · have heats := eats_nextFrame r.client _ _ _ hrun
    obtain ⟨f, fs', rfl, rfl, hrest⟩ := nextFrame_eq hs hrun
    rw [hrun] at hadv
    have hfits : ∀ g ∈ fs', g.Fits r.client := fun g hg => hs.fits g (List.mem_cons_of_mem _ hg)
    unfold WSFrame.incoming at hadv
    -- a control frame leaves the reader where it is
    have hcontrol : f.op ≠ .binary → f.op ≠ .close →
        Hop r rest' read out writing closed broken faulty := by
      intro hbin hclose
      have hcontent : content (f :: fs') = content fs' := by
        simp [content, hclose, WSFrame.data, hbin]
      have hshut : shut (f :: fs') = shut fs' := by simp [shut, hclose]
      rw [hcontent] at hle hwriting hfaulty
      rw [hshut] at hwriting hfaulty
      refine ⟨x, [], fs', ⟨hs.rem, hfits, ?_⟩, hle, hx, hwriting, hfaulty⟩
      rw [hrest, if_neg hbin]
      unfold Reader.unmask
      split_ifs <;> rfl
    cases hop : f.op with
    | binary =>
      rw [hop] at hadv
      cases hadv
      refine ⟨?_, heats⟩
      have hcontent : content (f :: fs') = f.payload ++ content fs' := by
        simp [content, hop, WSFrame.data]
      have hshut : shut (f :: fs') = shut fs' := by simp [shut, hop]
      rw [List.nil_append, hcontent] at hle hwriting hfaulty
      rw [hshut] at hwriting hfaulty
      refine ⟨x, f.payload, fs', ⟨rfl, hfits, ?_⟩, hle, hx, hwriting, hfaulty⟩
      rw [Stream.unmask_start, hrest, if_pos hop]
    | close =>
      rw [hop] at hadv
      exact absurd hadv nofun
    | ping =>
      rw [hop] at hadv
      cases pongOk with
      | false => exact absurd hadv nofun
      | true =>
        cases hadv
        exact ⟨hcontrol (by simp [hop]) (by simp [hop]), heats⟩
    | pong =>
      rw [hop] at hadv
      cases hadv
      exact ⟨hcontrol (by simp [hop]) (by simp [hop]), heats⟩

/-- **The reader stops** only if something has failed, or at a close frame, when it has read
everything: it never finds a malformed frame. -/
theorem stopped (h : Hop r bytes read out writing closed broken faulty) (hrem : r.rem = 0)
    {pongOk : Bool} (hok : (faulty || !pongOk) = false) (hadv : r.advance bytes pongOk = .stopped) :
    closed = true ∧ read = out := by
  obtain ⟨hno, hpong⟩ := Bool.or_eq_false_iff.mp hok
  obtain ⟨x, cur, fs, hs, -, -, -, hfaulty⟩ := h
  obtain rfl := cur_eq_nil hs hrem
  unfold Reader.advance at hadv
  rcases hrun : (nextFrame r.client).run bytes with (_ | e) | ⟨inc, rest⟩
  · rw [hrun] at hadv
    exact absurd hadv nofun
  · -- the reader would fail on the whole stream, but that is made of frames
    exfalso
    have hfull := (stable_nextFrame r.client).failed x hrun
    rw [hs.bytes_nil] at hfull
    cases fs with
    | nil => exact absurd hfull nofun
    | cons f fs =>
      rw [List.flatMap_cons, WSFrame.nextFrame_bytes (hs.fits f List.mem_cons_self)] at hfull
      exact absurd hfull nofun
  · obtain ⟨f, fs', rfl, rfl, -⟩ := nextFrame_eq hs hrun
    rw [hrun] at hadv
    unfold WSFrame.incoming at hadv
    cases hop : f.op with
    | binary | pong =>
      rw [hop] at hadv
      exact absurd hadv nofun
    | close =>
      obtain ⟨-, hclosed, hout⟩ := hfaulty hno
      refine ⟨hclosed (by simp [shut, hop]), ?_⟩
      -- nothing is read beyond a close frame
      simpa [content, hop] using hout
    | ping =>
      rw [hop] at hadv
      cases pongOk with
      | false => exact absurd hpong nofun
      | true => exact absurd hadv nofun

theorem rem_le (h : Hop r bytes read out writing closed broken false) : r.rem ≤ bytes.length := by
  obtain ⟨x, cur, fs, hs, -, hx, -, hfaulty⟩ := h
  obtain rfl := hx (hfaulty rfl).1
  have hlen := congrArg List.length hs.bytes
  rw [List.append_nil, List.length_append, Stream.length_unmask, hs.rem] at hlen
  omega

/-- **As long as nothing has failed**, a reader that waits between two frames has read
everything. -/
theorem eq_of_blocked (h : Hop r bytes read out writing closed broken false) (hrem : r.rem = 0)
    {pongOk : Bool} (hadv : r.advance bytes pongOk = .blocked) : read = out := by
  obtain ⟨x, cur, fs, hs, -, hx, -, hfaulty⟩ := h
  obtain ⟨hbroken, -, hout⟩ := hfaulty rfl
  obtain rfl := hx hbroken
  obtain rfl := cur_eq_nil hs hrem
  cases fs with
  | nil => simpa [content] using hout
  | cons f fs =>
    -- the next frame is there, so the reader does not wait
    exfalso
    have hbytes : bytes = f.bytes ++ fs.flatMap WSFrame.bytes := by
      rw [← List.flatMap_cons, ← hs.bytes_nil, List.append_nil]
    unfold Reader.advance at hadv
    rw [hbytes, WSFrame.nextFrame_bytes (hs.fits f List.mem_cons_self)] at hadv
    unfold WSFrame.incoming at hadv
    cases hop : f.op with
    | binary | close | pong =>
      rw [hop] at hadv
      exact absurd hadv nofun
    | ping =>
      rw [hop] at hadv
      cases pongOk <;> exact absurd hadv nofun

end Hop

end Heimdall.Rendezvous
