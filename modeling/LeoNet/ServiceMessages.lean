import LeoNet.ServiceRuns

namespace LeoNet

open Memory Loop Machine EventLoop

/-!
# The messages of the network service

`on_read` allocates a message for every frame, and nobody frees one.  The read queues of all sessions
hold pointers into one heap.

* `loop_messages` — the messages of the frames that one call takes are the next ones of the heap, as
  the constructor left them;
* `messages_step` — what a call does to the queues and to the heap is one `MessageMove`;
* `OwnsMessages.move` — no message is in two queues, or twice in one, or in one after it was fetched;
* `messages_owned` — so it is in every run, when the sessions' memory held empty read queues.
-/

/-- The messages that wait in the read queue of each session, and those fetched before: each of them
    was allocated when the heap held `n` messages or more, it is as the constructor left it, and it
    is in one place only. -/
structure OwnsMessages (n : ℕ) (fetched : List MessagePtr) (queued : SessionPtr → List MessagePtr)
    (heap : Heap) : Prop where
  nodup : ∀ p, (queued p).Nodup
  apart : ∀ p q, p ≠ q → ∀ m ∈ queued p, m ∉ queued q
  once : fetched.Nodup
  gone : ∀ m ∈ fetched, ∀ p, m ∉ queued p
  blank : ∀ m, (m ∈ fetched ∨ ∃ p, m ∈ queued p) → n ≤ m ∧ heap[m]? = some NetMessage.new
  heap : n ≤ heap.length

/-- The messages that the calls took off the read queues. -/
def fetchedOf (os : List ServiceOut) : List MessagePtr :=
  os.flatMap fun
    | .fetched removed => removed.toList
    | _ => []

/-- The messages of the frames that the calls took while the read queue was full. -/
def droppedOf (os : List ServiceOut) : List MessagePtr :=
  os.flatMap fun
    | .read frames => (frames.filter (!·.stored)).map (·.message)
    | _ => []

/-- What a call with the result `o` does to the messages that wait in the read queues, and to the
    heap. -/
inductive MessageMove (queued : SessionPtr → List MessagePtr) (heap : Heap) :
    ServiceOut → (SessionPtr → List MessagePtr) → Heap → Prop
  /-- no message moves -/
  | still {o : ServiceOut} (hfetched : fetchedOf [o] = []) (hdropped : droppedOf [o] = []) :
    MessageMove queued heap o queued heap
  /-- every frame gets a message, and those that are stored get in line -/
  | read (p : SessionPtr) {es : List FrameEvent}
    (hnew : es.map (·.message) = List.range' heap.length es.length) :
    MessageMove queued heap (.read es)
      (Function.update queued p (queued p ++ (es.filter (·.stored)).map (·.message)))
      (heap ++ List.replicate es.length NetMessage.new)
  /-- the first message leaves its queue -/
  | fetch (p : SessionPtr) {v : MessagePtr} {vs : List MessagePtr} (hp : queued p = v :: vs) :
    MessageMove queued heap (.fetched (some v)) (Function.update queued p vs) heap

section Messages

variable {table : UInt8 → UInt32} {st t : ReadState}

/-- The messages of the frames that the loop takes. -/
theorem loop_messages {n : ℕ} {es : List FrameEvent}
    (h : loop (onReadIter table) n st = some (es, t)) :
    es.map (·.message) = List.range' st.heap.length es.length ∧
      t.heap = st.heap ++ List.replicate es.length NetMessage.new := by
  induction n generalizing st es with
  | zero => cases h
  | succ n ih =>
    rcases hb : onReadIter table st with _ | ⟨u⟩ | ⟨e, u⟩
    · rw [loop, hb] at h
      cases h
    · rw [loop_stop hb] at h
      cases h
      rw [(onReadIter_eq_stop hb).2]
      exact ⟨rfl, (List.append_nil _).symm⟩
    · rw [loop_next hb, Option.map_eq_some_iff] at h
      obtain ⟨⟨es', t'⟩, hrest, heq⟩ := h
      cases heq
      obtain ⟨-, rfl, d, hd, rfl⟩ := onReadIter_eq_next hb
      -- the decoder returns the message as it was
      have hheap : (st.afterFrame d).heap = st.heap ++ [NetMessage.new] := by
        show st.heap ++ [d.message] = _
        rw [(transformBufferToMessage_spec hd).2.1]
      obtain ⟨hmsgs, ht⟩ := ih hrest
      rw [hheap, List.length_append, List.length_singleton] at hmsgs
      rw [List.map_cons, hmsgs, ht, hheap, List.length_cons, List.range'_succ, List.append_assoc,
          List.replicate_succ]
      exact ⟨rfl, rfl⟩

/-- What one call of `on_read` adds to the read queue, and to the heap. -/
theorem onReadSession_messages {result : RecvResult} {es : List FrameEvent}
    (h : onReadSession table st result = some (es, t)) :
    t.session.readQueue.waiting =
        st.session.readQueue.waiting ++ (es.filter (·.stored)).map (·.message) ∧
      es.map (·.message) = List.range' st.heap.length es.length ∧
      t.heap = st.heap ++ List.replicate es.length NetMessage.new := by
  rcases result with (_ | ⟨b, bs⟩) | _
  · cases h
    exact ⟨(List.append_nil _).symm, rfl, (List.append_nil _).symm⟩
  · have hloop := (onReadBytes_eq (onReadBytes_linear h)).symm.trans h
    have hmessages := loop_messages hloop
    exact ⟨onReadBytes_waiting h, hmessages⟩
  · cases h
    exact ⟨(List.append_nil _).symm, rfl, (List.append_nil _).symm⟩

end Messages

/-! ### Moving messages -/

namespace OwnsMessages

variable {n : ℕ} {fetched : List MessagePtr} {queued : SessionPtr → List MessagePtr} {heap : Heap}

/-- A message that is somewhere lies on the heap. -/
theorem lt (h : OwnsMessages n fetched queued heap) {m : MessagePtr}
    (hm : m ∈ fetched ∨ ∃ p, m ∈ queued p) : m < heap.length :=
  (List.getElem?_eq_some_iff.1 (h.blank m hm).2).1

/-- New messages at the end of one queue. -/
theorem append (h : OwnsMessages n fetched queued heap) (p : SessionPtr) {added : List MessagePtr}
    {k : ℕ} (hnodup : added.Nodup)
    (hnew : ∀ m ∈ added, heap.length ≤ m ∧ m < heap.length + k) :
    OwnsMessages n fetched (Function.update queued p (queued p ++ added))
      (heap ++ List.replicate k NetMessage.new) := by
  -- what is in a queue now was there before, or is new
  have hmem (q : SessionPtr) (m : MessagePtr)
      (hm : m ∈ Function.update queued p (queued p ++ added) q) :
      m ∈ queued q ∨ q = p ∧ m ∈ added := by
    by_cases hq : q = p
    · rw [hq, Function.update_self, List.mem_append] at hm
      rw [hq]
      exact hm.imp_right fun hm => ⟨rfl, hm⟩
    · rw [Function.update_of_ne hq] at hm
      exact Or.inl hm
  have hfresh (m : MessagePtr) (hm : m ∈ added) : ∀ q, m ∉ queued q := fun q hq =>
    absurd (h.lt (Or.inr ⟨q, hq⟩)) (not_lt.2 (hnew m hm).1)
  refine ⟨fun q => ?_, fun q r hne m hm hm' => ?_, h.once, fun m hm q hq => ?_, fun m hm => ?_, ?_⟩
  · by_cases hq : q = p
    · rw [hq, Function.update_self, List.nodup_append]
      exact ⟨h.nodup p, hnodup, fun a ha b hb hab => hfresh b hb p (hab ▸ ha)⟩
    · rw [Function.update_of_ne hq]
      exact h.nodup q
  · rcases hmem q m hm with hold | ⟨rfl, hnew'⟩
    · rcases hmem r m hm' with hold' | ⟨-, hnew'⟩
      · exact h.apart q r hne m hold hold'
      · exact hfresh m hnew' q hold
    · rcases hmem r m hm' with hold' | ⟨rfl, -⟩
      · exact hfresh m hnew' r hold'
      · exact hne rfl
  · rcases hmem q m hq with hold | ⟨-, hnew'⟩
    · exact h.gone m hm q hold
    · exact absurd (h.lt (Or.inl hm)) (not_lt.2 (hnew m hnew').1)
  · have hwhere : (m ∈ fetched ∨ ∃ q, m ∈ queued q) ∨ m ∈ added := by
      rcases hm with hm | ⟨q, hq⟩
      · exact Or.inl (Or.inl hm)
      · exact (hmem q m hq).imp (fun hold => Or.inr ⟨q, hold⟩) fun hnew' => hnew'.2
    rcases hwhere with hold | hnew'
    · obtain ⟨hle, hget⟩ := h.blank m hold
      exact ⟨hle, by rw [List.getElem?_append_left (h.lt hold)]; exact hget⟩
    · obtain ⟨hge, hlt⟩ := hnew m hnew'
      refine ⟨h.heap.trans hge, ?_⟩
      rw [List.getElem?_append_right hge, List.getElem?_replicate,
          if_pos (Nat.sub_lt_left_of_lt_add hge hlt)]
  · rw [List.length_append]
    exact h.heap.trans (Nat.le_add_right _ _)

/-- The message that heads a queue is fetched. -/
theorem take (h : OwnsMessages n fetched queued heap) (p : SessionPtr) {v : MessagePtr}
    {vs : List MessagePtr} (hp : queued p = v :: vs) :
    OwnsMessages n (fetched ++ [v]) (Function.update queued p vs) heap := by
  have hsub (q : SessionPtr) (m : MessagePtr) (hm : m ∈ Function.update queued p vs q) :
      m ∈ queued q := by
    by_cases hq : q = p
    · rw [hq, Function.update_self] at hm
      rw [hq, hp]
      exact List.mem_cons_of_mem _ hm
    · rwa [Function.update_of_ne hq] at hm
  have hhead : v ∈ queued p := by
    rw [hp]
    exact List.mem_cons_self
  have hnodup := h.nodup p
  rw [hp, List.nodup_cons] at hnodup
  refine ⟨fun q => ?_, fun q r hne m hm hm' => h.apart q r hne m (hsub q m hm) (hsub r m hm'), ?_,
    fun m hm q hq => ?_, fun m hm => ?_, h.heap⟩
  · by_cases hq : q = p
    · rw [hq, Function.update_self]
      exact hnodup.2
    · rw [Function.update_of_ne hq]
      exact h.nodup q
  · rw [List.nodup_append]
    refine ⟨h.once, List.pairwise_singleton _ v, fun a ha b hb hab => ?_⟩
    rw [List.mem_singleton] at hb
    exact h.gone a ha p (by rwa [hab, hb])
  · rcases List.mem_append.1 hm with hm | hm
    · exact h.gone m hm q (hsub q m hq)
    · -- it headed the queue of `p`, so it is neither behind itself nor in another queue
      rw [List.mem_singleton] at hm
      subst hm
      by_cases hqp : q = p
      · rw [hqp, Function.update_self] at hq
        exact hnodup.1 hq
      · exact h.apart q p hqp m (hsub q m hq) hhead
  · apply h.blank
    rcases hm with hm | ⟨q, hq⟩
    · rcases List.mem_append.1 hm with hm | hm
      · exact Or.inl hm
      · rw [List.mem_singleton] at hm
        exact Or.inr ⟨p, hm ▸ hhead⟩
    · exact Or.inr ⟨q, hsub q m hq⟩

/-- **One move** keeps the messages apart. -/
theorem move (h : OwnsMessages n fetched queued heap) {o : ServiceOut}
    {queued' : SessionPtr → List MessagePtr} {heap' : Heap}
    (hmove : MessageMove queued heap o queued' heap') :
    OwnsMessages n (fetched ++ fetchedOf [o]) queued' heap' := by
  cases hmove with
  | still hfetched =>
    rwa [hfetched, List.append_nil]
  | @read p es hnew =>
    have hsub : ((es.filter (·.stored)).map (·.message)).Sublist (es.map (·.message)) :=
      List.filter_sublist.map _
    rw [hnew] at hsub
    rw [show fetchedOf [.read es] = [] from rfl, List.append_nil]
    exact h.append p (hsub.nodup List.nodup_range') fun m hm =>
      List.mem_range'_1.1 (hsub.subset hm)
  | fetch p hp => exact h.take p hp

end OwnsMessages

/-! ### Runs -/

section Runs

variable {lib : EventLibrary NetEvent} {table : UInt8 → UInt32} {s t : NetService lib}

/-- The messages that wait in each session's read queue. -/
def NetService.queued (s : NetService lib) (p : SessionPtr) : List MessagePtr :=
  (s.server.manager.mallocSession p).readQueue.waiting

/-- A call on one session may change its own read queue alone. -/
theorem queued_setSession (s : NetService lib) (p : SessionPtr) (st : ReadState) :
    (s.setSession p st).queued = Function.update s.queued p st.session.readQueue.waiting := by
  funext q
  show ((s.server.manager.modifySession p fun _ => st.session).mallocSession q).readQueue.waiting = _
  by_cases hq : q = p
  · rw [hq, SessionManager.modifySession_self, Function.update_self]
  · rw [SessionManager.modifySession_of_ne hq, Function.update_of_ne hq]
    rfl

/-- A call that leaves the read queue of its session alone leaves them all. -/
theorem queued_setSession_of_eq {p : SessionPtr} {st : ReadState}
    (h : st.session.readQueue.waiting = s.queued p) : (s.setSession p st).queued = s.queued := by
  rw [queued_setSession, h, Function.update_eq_self]

/-- The logic thread finds no message, or gets the first one. -/
theorem fetchFromReadqueue_cases (s : NetService lib) (p : SessionPtr) (nm : MessagePtr) :
    let waiting := ((s.server.manager.mallocSession p).fetchFromReadqueue nm).2.readQueue.waiting
    (s.queued p = [] ∧ (s.fetchFromReadqueue p nm).1 = none ∧ waiting = []) ∨
      ∃ v vs, s.queued p = v :: vs ∧ (s.fetchFromReadqueue p nm).1 = some v ∧ waiting = vs := by
  obtain ⟨hsome, hnone⟩ := (s.server.manager.mallocSession p).readQueue.popFront_spec
    isPow2_maxQueueLen nm
  unfold NetService.fetchFromReadqueue NetSession.fetchFromReadqueue
  dsimp only
  cases hq : s.queued p with
  | nil =>
    have hempty : (s.server.manager.mallocSession p).readQueue.waiting = [] := hq
    refine Or.inl ⟨rfl, ?_⟩
    rw [hnone hq]
    exact ⟨rfl, hempty⟩
  | cons v vs =>
    have hhead : (s.server.manager.mallocSession p).readQueue.waiting = v :: vs := hq
    obtain ⟨hflag, -, hleft⟩ := hsome v vs hq
    refine Or.inr ⟨v, vs, rfl, ?_, hleft⟩
    rw [hflag, hhead]
    rfl

/-- **One call** moves messages in one of these ways. -/
theorem messages_step {a : ServiceAct} {o : ServiceOut} (hinv : s.Inv) (hfrom : s.FromSystem a)
    (hstep : s.step table a = some (o, t)) :
    MessageMove s.queued s.server.heap o t.queued t.server.heap := by
  cases a with
  | accept fd memRead memWrite added rand row =>
    rcases NetService.step_accept hinv hfrom hstep with
      ⟨-, rfl, rfl⟩ | ⟨-, -, -, c, g, evRead, evWrite, base, hon, -, rfl, rfl⟩
    · exact .still rfl rfl
    · -- an accept sets the socket and the keys of a session
      have hsame : (s.afterAccept fd g evRead evWrite base).queued = s.queued ∧ g.heap = s.server.heap := by
        rcases NetService.onAccept_cases hon with ⟨-, rfl⟩ | ⟨first, rest, -, -, -, hheap, hmalloc⟩
        · exact ⟨rfl, rfl⟩
        · refine ⟨funext fun p => ?_, hheap⟩
          show (g.manager.mallocSession p).readQueue.waiting = _
          rw [hmalloc]
          split <;> rfl
      show MessageMove s.queued s.server.heap _ _ g.heap
      rw [hsame.1, hsame.2]
      exact .still rfl rfl
  | readable fd result =>
    rcases NetService.step_readable hinv hfrom hstep with
      ⟨-, rfl, rfl⟩ | ⟨p, es, st, -, hread, rfl, rfl⟩
    · exact .still rfl rfl
    · obtain ⟨hwaiting, hmessages, hheap⟩ := onReadSession_messages hread
      rw [queued_setSession, hwaiting]
      show MessageMove s.queued s.server.heap _ _ st.heap
      rw [hheap]
      exact .read p hmessages
  | writable fd message result deleted =>
    rcases NetService.step_writable hinv hfrom hstep with
      ⟨-, rfl, rfl⟩ | ⟨p, q, -, -, rfl, rfl⟩
    · exact .still rfl rfl
    · rw [queued_setSession_of_eq rfl]
      exact .still rfl rfl
  | push p nm added =>
    obtain ⟨rfl, base, -, rfl, -⟩ := NetService.step_push hinv hstep
    rw [queued_setSession_of_eq (s := { s with base }) rfl]
    exact .still rfl rfl
  | fetch p nm =>
    obtain ⟨rfl, rfl⟩ := NetService.step_fetch hstep
    show MessageMove s.queued s.server.heap _ _ s.server.heap
    rcases fetchFromReadqueue_cases s p nm with ⟨hq, hout, hleft⟩ | ⟨v, vs, hq, hout, hleft⟩
    · rw [queued_setSession_of_eq (hleft.trans hq.symm), hout]
      exact .still rfl rfl
    · rw [queued_setSession, hleft, hout]
      exact .fetch p hq

/-- What was fetched, call after call. -/
theorem fetchedOf_append (past os : List ServiceOut) :
    fetchedOf (past ++ os) = fetchedOf past ++ fetchedOf os :=
  List.flatMap_append

/-- What was dropped, call after call. -/
theorem droppedOf_append (past os : List ServiceOut) :
    droppedOf (past ++ os) = droppedOf past ++ droppedOf os :=
  List.flatMap_append

/-- At the start, the read queues hold what the memory of the sessions held. -/
theorem queued_start {mem : SessionPtr → RawSession} {heap : Heap} (h : s.Starts mem heap) :
    s.queued = (fun p => (mem p).readQueue.waiting) ∧ s.server.heap = heap := by
  obtain ⟨hserver, -⟩ := NetService.starts_spec h
  unfold NetService.queued
  rw [hserver]
  exact ⟨rfl, rfl⟩

end Runs

/-- **Messages have one owner.**  When the memory of the sessions held empty read queues, then in
    every run, all messages that wait in read queues or were fetched from them are different ones;
    each was allocated by `on_read`, and is as the constructor left it: no message has the data of
    a frame. -/
theorem messages_owned {lib : EventLibrary NetEvent} (table : UInt8 → UInt32)
    (mem : SessionPtr → RawSession) (heap : Heap) (s t : NetService lib) (acts : List ServiceAct)
    (os : List ServiceOut) (hmem : ∀ p, (mem p).readQueue.isEmpty = true)
    (hstart : s.Starts mem heap)
    (hfrom : AllSteps (NetService.step table) NetService.FromSystem s acts)
    (hrun : run (NetService.step table) s acts = some (os, t)) :
    OwnsMessages heap.length (fetchedOf os) t.queued t.server.heap := by
  obtain ⟨hqueued, hheap⟩ := queued_start hstart
  have hempty (p : SessionPtr) : s.queued p = [] := by
    rw [hqueued]
    exact (StaticLockFreeQueue.isEmpty_iff_waiting _).1 (hmem p)
  have hown : OwnsMessages heap.length (fetchedOf []) s.queued s.server.heap := by
    rw [hheap]
    refine ⟨fun p => ?_, fun p q _ m hm => ?_, List.nodup_nil, nofun, fun m hm => ?_, le_refl _⟩
    · rw [hempty]
      exact List.nodup_nil
    · rw [hempty] at hm
      cases hm
    · rcases hm with hm | ⟨p, hm⟩
      · cases hm
      · rw [hempty] at hm
        cases hm
  refine (run_inv_history (J := fun past (s : NetService lib) => s.Inv ∧
    OwnsMessages heap.length (fetchedOf past) s.queued s.server.heap) ?_
    ⟨NetService.inv_start hstart, hown⟩ hfrom hrun).2
  rintro past s a o t ⟨hinv, hown⟩ hf hstep
  refine ⟨NetService.inv_step hinv hf hstep, ?_⟩
  rw [fetchedOf_append]
  exact hown.move (messages_step hinv hf hstep)

/-- In the run with one connection, the message of its frame is fetched. -/
theorem messages_owned_one : ∃ os t, run (NetService.step initialCrc32Table)
    (NetService.listService [NetMessage.new]) NetService.oneConnection = some (os, t) ∧
      OwnsMessages 1 (fetchedOf os) t.queued t.server.heap := by
  obtain ⟨os, t, hrun⟩ := NetService.oneConnection_run
  exact ⟨os, t, hrun, messages_owned _ _ _ _ _ _ _ (fun _ => rfl)
    (NetService.listService_starts _) NetService.oneConnection_fromSystem hrun⟩

end LeoNet
