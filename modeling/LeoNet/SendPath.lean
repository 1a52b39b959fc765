import LeoNet.Callbacks
import LeoNet.Lib.Machine

namespace LeoNet

open Memory Circular Loop Machine

/-!
# The send path — runs of `on_write` over one session

`on_write` moves messages from the write queue to the write ring, and bytes from the write ring
to the socket.  Two promises of the send path fail, and each holds exactly as far as said here.

* `onWriteIter_spec` — one pass of the drain loop takes a message off the queue and leaves the
  ring alone: the encoder, offered a buffer of the message's own size, refuses it;
* `drain_spec` — hence the whole loop, and `nothingLost_iff_empty`: nothing is lost exactly when
  the queue is empty;
* `onWriteSession_spec` — sending leaves the ring alone as well, and hence `exactlyOnce_iff`:
  the output is sent exactly once exactly when nothing follows the first bytes accepted.
-/

/-! ### The drain loop -/

section Drain

variable {heap : Heap} {message : MessagePtr} {s : NetSession}

/-- An empty queue ends the loop. -/
theorem onWriteIter_stop (h : s.writeQueue.waiting = []) :
    onWriteIter heap message s = some (.stop s) := by
  have hpop := (s.writeQueue.popFront_spec isPow2_maxQueueLen message).2 h
  simp only [onWriteIter, NetSession.fetchFromWritequeue, hpop, if_true]

/-- The message that heads the queue leaves it.  What is encoded is the message the local
    variable happens to point to, and it is refused. -/
theorem onWriteIter_spec (heap : Heap) (message : MessagePtr) {p : MessagePtr}
    {ps : List MessagePtr} (h : s.writeQueue.waiting = p :: ps) :
    ∃ q : MessageQueue, q.waiting = ps ∧
      onWriteIter heap message s =
        heap[message]?.map fun _ => .next ⟨p, []⟩ { s with writeQueue := q } := by
  obtain ⟨hflag, hval, hrest⟩ :=
    (s.writeQueue.popFront_spec isPow2_maxQueueLen message).1 p ps h
  refine ⟨(s.writeQueue.popFront message).2.2, hrest, ?_⟩
  simp only [onWriteIter, NetSession.fetchFromWritequeue, hflag, hval]
  cases heap[message]? with
  | none => rfl
  | some nm =>
    have hzero : ¬ (0 : UInt32) > 0 := by decide
    simp only [Bool.true_eq_false, if_false, Option.bind_some, transformMessageToBuffer_realSize,
      Option.map_some, hzero, RingBuffer.setStorage_storage, List.drop_length]

/-- **The drain loop.**  Unless the local variable points to nothing, the loop empties the queue
    and leaves everything else as it was. -/
theorem drain_spec (hm : heap[message]?.isSome ∨ s.writeQueue.waiting = []) :
    ∃ q : MessageQueue, q.waiting = [] ∧
      drainWritequeue heap message s =
        some (s.writeQueue.waiting.map fun p => ⟨p, []⟩, { s with writeQueue := q }) := by
  unfold drainWritequeue
  rw [← StaticLockFreeQueue.waiting_length]
  -- induction on the messages still waiting
  generalize hw : s.writeQueue.waiting = ps
  induction ps generalizing s with
  | nil => exact ⟨s.writeQueue, hw, loop_stop (onWriteIter_stop hw) _⟩
  | cons p ps ih =>
    obtain ⟨q, hq, hiter⟩ := onWriteIter_spec heap message hw
    have hsome : heap[message]?.isSome := by
      apply hm.resolve_right
      intro hnil
      rw [hw] at hnil
      exact List.cons_ne_nil _ _ hnil
    obtain ⟨nm, hnm⟩ := Option.isSome_iff_exists.mp hsome
    rw [hnm, Option.map_some] at hiter
    obtain ⟨q', hq', hloop⟩ := ih (s := { s with writeQueue := q }) (Or.inl hsome) hq
    refine ⟨q', hq', ?_⟩
    rw [List.length_cons, loop_next hiter, hloop]
    rfl

/-- If it does point to nothing, the first message of the queue is the end of it. -/
theorem drain_garbage (hm : heap[message]? = none) (hw : s.writeQueue.waiting ≠ []) :
    drainWritequeue heap message s = none := by
  obtain ⟨p, ps, hps⟩ := List.exists_cons_of_ne_nil hw
  obtain ⟨q, -, hiter⟩ := onWriteIter_spec heap message hps
  rw [hm, Option.map_none] at hiter
  rw [drainWritequeue, loop, hiter]

end Drain

/-! ### What becomes of the messages -/

/-- The bytes are the message, encoded. -/
def IsFrameOf (ac : AboutCrypt) (nm : NetMessage) (bytes : List UInt8) : Prop :=
  ∃ (b b' : Block UInt8) (buf : ℕ) (bufLen : Int32) (len : UInt32), 0 < len.toNat ∧
    transformMessageToBuffer ac nm b buf bufLen = some (len, b') ∧
    bytes = load b'.byte buf len.toNat

/-- The promise of the drain loop: the messages it removes from the queue are appended to the
    ring, each as one whole frame and none over bytes still unread. -/
def NothingLost (heap : Heap) (message : MessagePtr) (s : NetSession) : Prop :=
  ∃ es s', drainWritequeue heap message s = some (es, s') ∧
    ∃ (removed : List MessagePtr) (frames : List (List UInt8)),
      s.writeQueue.waiting = removed ++ s'.writeQueue.waiting ∧
      s'.writeBuffer.contents = s.writeBuffer.contents ++ frames.flatten ∧
      List.Forall₂ (fun p bytes => ∃ nm, heap[p]? = some nm ∧ IsFrameOf s.crypt nm bytes)
        removed frames

section Lost

variable {heap : Heap} {message : MessagePtr} {s : NetSession}

/-- A frame is not empty. -/
theorem IsFrameOf.ne_nil {ac : AboutCrypt} {nm : NetMessage} {bytes : List UInt8}
    (h : IsFrameOf ac nm bytes) : bytes ≠ [] := by
  obtain ⟨b, b', buf, bufLen, len, hlen, -, rfl⟩ := h
  intro hnil
  have hzero := congrArg List.length hnil
  rw [load_length, List.length_nil] at hzero
  omega

/-- A message in the queue is lost. -/
theorem lost_of_waiting (hw : s.writeQueue.waiting ≠ []) : ¬ NothingLost heap message s := by
  rintro ⟨es, s', hdrain, removed, frames, hremoved, hcontents, hframes⟩
  have hm : heap[message]?.isSome := by
    by_contra hnone
    rw [drain_garbage (Option.not_isSome_iff_eq_none.mp hnone) hw] at hdrain
    cases hdrain
  obtain ⟨q, hq, hspec⟩ := drain_spec (s := s) (Or.inl hm)
  rw [hspec] at hdrain
  cases hdrain
  -- all messages were removed, and the ring is as it was
  rw [hq, List.append_nil] at hremoved
  have hnil : frames.flatten = [] := List.self_eq_append_right.mp hcontents
  obtain ⟨p, ps, hps⟩ := List.exists_cons_of_ne_nil hw
  rw [← hremoved, hps] at hframes
  cases hframes with
  | cons hframe hrest =>
    obtain ⟨nm, -, hbytes⟩ := hframe
    rw [List.flatten_cons, List.append_eq_nil_iff] at hnil
    exact hbytes.ne_nil hnil.1

end Lost

/-- **Nothing is lost exactly when there is nothing to lose.** -/
theorem nothingLost_iff_empty (heap : Heap) (message : MessagePtr) (s : NetSession) :
    NothingLost heap message s ↔ s.writeQueue.isEmpty = true := by
  rw [StaticLockFreeQueue.isEmpty_iff_waiting]
  constructor
  · intro h
    by_contra hw
    exact lost_of_waiting hw h
  · intro hw
    obtain ⟨q, hq, hspec⟩ :=
      drain_spec (Or.inr hw : heap[message]?.isSome ∨ s.writeQueue.waiting = [])
    refine ⟨_, _, hspec, [], [], ?_, ?_, List.Forall₂.nil⟩
    · rw [hw]
      exact hq.symm
    · exact (List.append_nil _).symm

/-- A session with one empty message in its write queue. -/
def oneMessage : NetSession :=
  { NetSession.keyed 0 fun _ => 1 with
    writeQueue := (StaticLockFreeQueue.pushBack (.initQueue 0) 0).2 }

/-- Even when the local variable happens to point to the queued message, the message is lost. -/
theorem nothingLost_fails : ¬ NothingLost [NetMessage.new] 0 oneMessage :=
  lost_of_waiting (by decide)

/-! ### What becomes of the bytes -/

/-- One call of `on_write`: the messages there are, what its local variable holds, and what
    `send` returns. -/
structure WriteCall where
  heap : Heap
  message : MessagePtr
  result : SendResult

/-- One call of `on_write`, as a step of the session. -/
def writeStep (s : NetSession) (c : WriteCall) : Option (WriteOutcome × NetSession) :=
  onWriteSession c.heap c.message c.result s

/-- How many bytes the socket takes from this ring. -/
def WriteCall.took (c : WriteCall) (wb : RingBuffer) : ℕ :=
  match c.result with
  | .accepted n => min n wb.used.toNat
  | .error => 0

/-- The bytes the call moved the write counter over. -/
def WriteOutcome.committed (o : WriteOutcome) : List UInt8 := (o.drained.map (·.committed)).flatten

/-- From here on every byte is sent once: `stream` is what has been written to the ring and
    `sent` what the socket has taken, each `send` is offered the bytes behind `sent`, and `sent`
    stays a prefix of `stream`.  `r` is the read counter where the stream starts. -/
def SentOnce (r : UInt32) : List UInt8 → List UInt8 → List WriteOutcome → Prop
  | _, _, [] => True
  | stream, sent, o :: os =>
    o.offset = r + UInt32.ofNat sent.length ∧
      sent ++ o.sent <+: stream ++ o.committed ∧
      SentOnce r (stream ++ o.committed) (sent ++ o.sent) os

instance decidableSentOnce (r : UInt32) :
    (stream sent : List UInt8) → (os : List WriteOutcome) → Decidable (SentOnce r stream sent os)
  | _, _, [] => inferInstanceAs (Decidable True)
  | stream, sent, o :: os =>
    @instDecidableAnd _ _ inferInstance <|
      @instDecidableAnd _ _ inferInstance <|
        decidableSentOnce r (stream ++ o.committed) (sent ++ o.sent) os

/-- The promise of the send path: every byte of the ring, and every byte `on_write` commits to
    it, is sent once and in order. -/
def ExactlyOnce (s : NetSession) (calls : List WriteCall) : Prop :=
  ∃ os t, run writeStep s calls = some (os, t) ∧
    SentOnce s.writeBuffer.readP s.writeBuffer.contents [] os

section Sent

variable {s : NetSession} {c : WriteCall} {calls : List WriteCall}

/-- The local variable points to a message, or no message is taken. -/
def WriteCall.Ready (c : WriteCall) (s : NetSession) : Prop :=
  c.heap[c.message]?.isSome ∨ s.writeQueue.waiting = []

/-- The bytes the socket takes lie before the end of the storage. -/
def WriteCall.InStorage (c : WriteCall) (s : NetSession) : Prop :=
  s.writeBuffer.readPtr + c.took s.writeBuffer ≤ s.writeBuffer.cap

theorem took_le (wb : RingBuffer) : c.took wb ≤ wb.used.toNat := by
  unfold WriteCall.took
  split
  · exact Nat.min_le_right _ _
  · exact Nat.zero_le _

/-- The socket reads what it takes from the storage linearly. -/
theorem netSocketSend_eq (wb : RingBuffer) :
    netSocketSend wb c.result = wb.storage.read wb.readPtr (c.took wb) := by
  unfold WriteCall.took
  cases c.result with
  | accepted n => rfl
  | error =>
    have hin : wb.readPtr + 0 ≤ wb.storage.size := wb.readPtr_lt.le
    exact (Block.read_eq_some hin).symm

/-- **One call of `on_write`.**  It empties the queue, commits no byte to the ring, and leaves
    the ring's counters as they were, whatever the socket takes. -/
theorem onWriteSession_spec (hready : c.Ready s) :
    ∃ (q : MessageQueue) (ds : List DrainEvent), q.waiting = [] ∧
      (ds.map (·.committed)).flatten = [] ∧
      writeStep s c =
        (s.writeBuffer.storage.read s.writeBuffer.readPtr (c.took s.writeBuffer)).map fun sent =>
          (⟨ds, s.writeBuffer.readP, s.writeBuffer.used, sent,
            decide (0 < sent.length) && s.writeBuffer.empty⟩, { s with writeQueue := q }) := by
  obtain ⟨q, hq, hdrain⟩ := drain_spec hready
  refine ⟨q, s.writeQueue.waiting.map fun p => ⟨p, []⟩, hq, ?_, ?_⟩
  · rw [List.map_map, List.flatten_eq_nil_iff]
    intro l hl
    obtain ⟨p, -, rfl⟩ := List.mem_map.mp hl
    rfl
  · rw [writeStep, onWriteSession, hdrain, Option.bind_some, ← netSocketSend_eq]

/-- Without a message to point to, a call that takes a message is not defined. -/
theorem writeStep_garbage (h : ¬ c.Ready s) : writeStep s c = none := by
  obtain ⟨hm, hw⟩ := not_or.mp h
  rw [writeStep, onWriteSession, drain_garbage (Option.not_isSome_iff_eq_none.mp hm) hw]
  rfl

/-- What the socket takes before the end of the storage are the oldest bytes of the ring. -/
theorem load_prefix_contents (h : c.InStorage s) :
    load s.writeBuffer.ringBuffer s.writeBuffer.readPtr (c.took s.writeBuffer) <+:
      s.writeBuffer.contents := by
  have hle := took_le (c := c) s.writeBuffer
  unfold WriteCall.InStorage at h
  rw [RingBuffer.readPtr_eq] at h ⊢
  rw [← window_eq_load _ h, ← window_take _ _ _ hle]
  exact List.take_prefix _ _

/-- A call whose output is sent once is ready, and takes bytes from inside the storage. -/
theorem ExactlyOnce.head (h : ExactlyOnce s (c :: calls)) : c.Ready s ∧ c.InStorage s := by
  obtain ⟨os, t, hrun, -⟩ := h
  obtain ⟨o, u, os', hstep, -, -⟩ := run_cons_eq_some.mp hrun
  have hready : c.Ready s := by
    by_contra hnot
    rw [writeStep_garbage hnot] at hstep
    cases hstep
  obtain ⟨q, ds, -, -, hspec⟩ := onWriteSession_spec hready
  rw [hspec, Option.map_eq_some_iff] at hstep
  obtain ⟨sent, hread, -⟩ := hstep
  exact ⟨hready, Block.read_le hread⟩

/-- After such a call the ring is as it was, and what it took counts as sent. -/
theorem exactlyOnce_cons (calls : List WriteCall) (hready : c.Ready s) (hin : c.InStorage s) :
    ∃ q : MessageQueue, q.waiting = [] ∧
      (ExactlyOnce s (c :: calls) ↔
        ∃ os t, run writeStep { s with writeQueue := q } calls = some (os, t) ∧
          SentOnce s.writeBuffer.readP s.writeBuffer.contents
            (load s.writeBuffer.ringBuffer s.writeBuffer.readPtr (c.took s.writeBuffer)) os) := by
  obtain ⟨q, ds, hq, hds, hspec⟩ := onWriteSession_spec hready
  rw [Block.read_eq_some hin, Option.map_some] at hspec
  refine ⟨q, hq, ?_⟩
  -- the call commits nothing: all it does to the session is to empty the queue
  constructor
  · rintro ⟨os, t, hrun, honce⟩
    obtain ⟨o, u, os', hstep, hrun', rfl⟩ := run_cons_eq_some.mp hrun
    rw [hspec] at hstep
    cases hstep
    have hrest := honce.2.2
    rw [WriteOutcome.committed, hds, List.append_nil, List.nil_append] at hrest
    exact ⟨os', t, hrun', hrest⟩
  · rintro ⟨os, t, hrun, honce⟩
    refine ⟨_, t, run_cons_eq_some.mpr ⟨_, _, os, hspec, hrun, rfl⟩, ?_⟩
    refine ⟨(UInt32.add_zero _).symm, ?_, ?_⟩
    · rw [WriteOutcome.committed, hds, List.append_nil, List.nil_append]
      exact load_prefix_contents hin
    · rw [WriteOutcome.committed, hds, List.append_nil, List.nil_append]
      exact honce

/-- Once the socket has taken a byte, any further call offers it again. -/
theorem not_exactlyOnce_of_took {c' : WriteCall} (htook : c.took s.writeBuffer ≠ 0) :
    ¬ ExactlyOnce s (c :: c' :: calls) := by
  intro h
  obtain ⟨hready, hin⟩ := h.head
  obtain ⟨q, hq, hiff⟩ := exactlyOnce_cons (c' :: calls) hready hin
  obtain ⟨os, t, hrun, honce⟩ := hiff.mp h
  obtain ⟨o, u, os', hstep, -, rfl⟩ := run_cons_eq_some.mp hrun
  obtain ⟨q', ds, -, -, hspec⟩ :=
    onWriteSession_spec (c := c') (s := { s with writeQueue := q }) (Or.inr hq)
  rw [hspec, Option.map_eq_some_iff] at hstep
  obtain ⟨sent, -, heq⟩ := hstep
  cases heq
  -- the read counter has not moved past the bytes taken
  have hoffset := congrArg UInt32.toNat honce.1
  have hle := took_le (c := c) s.writeBuffer
  have hused := s.writeBuffer.used_toNat_le
  have hcap := s.writeBuffer.cap_le
  rw [load_length, UInt32.toNat_add, UInt32.toNat_ofNat'] at hoffset
  have hlt := s.writeBuffer.readP.toNat_lt
  change s.writeBuffer.readP.toNat = _ at hoffset
  omega

end Sent

/-- **The output is sent exactly once exactly when nothing follows the first bytes accepted.**
    The first call takes no message, or its local variable points to one; every call but the
    last has no byte accepted; and those the last has accepted lie before the end of the
    storage. -/
theorem exactlyOnce_iff (s : NetSession) (calls : List WriteCall) :
    ExactlyOnce s calls ↔
      (∀ c ∈ calls.head?, c.Ready s) ∧ (∀ c ∈ calls.dropLast, c.took s.writeBuffer = 0) ∧
        ∀ c ∈ calls.getLast?, c.InStorage s := by
  induction calls generalizing s with
  | nil =>
    refine iff_of_true ⟨[], s, rfl, trivial⟩ ⟨?_, ?_, ?_⟩ <;> intro c hc <;> cases hc
  | cons c calls ih =>
    cases calls with
    | nil =>
      -- one call: nothing follows it
      simp only [List.head?_cons, Option.mem_some_iff, forall_eq', List.dropLast_singleton,
        List.not_mem_nil, false_implies, implies_true, List.getLast?_singleton, true_and]
      constructor
      · exact ExactlyOnce.head
      · rintro ⟨hready, hin⟩
        obtain ⟨q, -, hiff⟩ := exactlyOnce_cons [] hready hin
        exact hiff.mpr ⟨[], _, rfl, trivial⟩
    | cons c' calls =>
      rw [List.dropLast_cons_cons, List.forall_mem_cons, List.getLast?_cons_cons]
      simp only [List.head?_cons, Option.mem_some_iff, forall_eq']
      by_cases htook : c.took s.writeBuffer = 0
      · -- nothing taken: the rest of the run starts from the same ring
        constructor
        · intro h
          obtain ⟨hready, hin⟩ := h.head
          obtain ⟨q, hq, hiff⟩ := exactlyOnce_cons (c' :: calls) hready hin
          rw [htook] at hiff
          have hrest := (ih { s with writeQueue := q }).mp (hiff.mp h)
          exact ⟨hready, ⟨htook, hrest.2.1⟩, hrest.2.2⟩
        · rintro ⟨hready, ⟨-, hzero⟩, hlast⟩
          have hin : c.InStorage s := by
            unfold WriteCall.InStorage
            rw [htook]
            exact s.writeBuffer.readPtr_lt.le
          obtain ⟨q, hq, hiff⟩ := exactlyOnce_cons (c' :: calls) hready hin
          rw [htook] at hiff
          -- the queue is empty now: the next call is ready
          refine hiff.mpr ((ih { s with writeQueue := q }).mpr ⟨?_, hzero, hlast⟩)
          intro d _
          exact Or.inr hq
      · exact iff_of_false (not_exactlyOnce_of_took htook) fun h => htook h.2.1.1

/-- A session with the byte `01` in its write ring. -/
def oneByte : NetSession :=
  let s := NetSession.keyed 0 fun _ => 1
  { s with writeBuffer := (s.writeBuffer.kfifoPut (fun _ => 1) 1).2 }

/-- Two calls of `on_write`, each with room for one byte at the socket, send the one byte of the
    ring twice. -/
theorem exactlyOnce_fails :
    ¬ ExactlyOnce oneByte [⟨[], 0, .accepted 1⟩, ⟨[], 0, .accepted 1⟩] := by
  rintro ⟨os, t, hrun, honce⟩
  have hbad : ((run writeStep oneByte [⟨[], 0, .accepted 1⟩, ⟨[], 0, .accepted 1⟩]).map fun r =>
      decide (SentOnce oneByte.writeBuffer.readP oneByte.writeBuffer.contents [] r.1)) =
      some false := by decide +kernel
  rw [hrun, Option.map_some, Option.some_inj, decide_eq_false_iff_not] at hbad
  exact hbad honce

end LeoNet
