import LeoNet.SendPath

namespace LeoNet

open Memory Loop Machine

/-!
# The write event — `push_to_writequeue` against `on_write`

The logic thread tests whether the write ring is empty, then calls `add_write_event`, then pushes.
The network thread drains the queue message by message, sends, tests, and calls
`del_write_event`.  Each of these is one step here, and the two threads' steps come in any order.
The session's `ev_write` exists, so that the two calls arm and disarm it.

* `run_pushToWritequeue` / `run_onWriteSession` — calls that nobody interrupts are those of
  `NetSession` and `Callbacks`;
* `WriteSound` — nothing waits without the event being armed (`pending_armed`);
* `writeEventStep_spec` — every step keeps that, and none but the end of an `on_write` that has
  nothing left leaves the event armed for nothing;
* `armingMatches_iff` — hence no wake-up is lost, and what a run needs for the event not to stay
  armed.
-/

/-- Where the logic thread is inside `push_to_writequeue(nm)`. -/
inductive LogicPc where
  | idle
  /-- the ring was empty: about to call `add_write_event` -/
  | arm (nm : MessagePtr)
  /-- about to call `push_back` -/
  | push (nm : MessagePtr)

/-- Where the network thread is inside `on_write`. -/
inductive NetPc where
  | idle
  /-- about to call `fetch_from_writequeue` -/
  | fetch
  /-- a message was fetched: about to encode it and to move the write counter -/
  | encode
  /-- about to call `send` -/
  | send
  /-- `send` returned `len`: about to test it and the ring -/
  | check (len : ℕ)
  /-- about to call `del_write_event` -/
  | disarm

/-- The session, its write event, both threads, and whether an `on_write` has returned yet. -/
structure WriteState where
  session : NetSession
  armed : Bool
  logic : LogicPc
  net : NetPc
  returned : Bool

/-- A step of one of the threads.  The local variable `message` is never set, so what `encode`
    finds behind it may be any message. -/
inductive WriteAct where
  | test (nm : MessagePtr)
  | arm
  | push
  | begin
  | fetch (message : MessagePtr)
  | encode (nm : NetMessage)
  | send (result : SendResult)
  | check
  | disarm

/-- What the step does; it is not defined when its thread is elsewhere. -/
def writeEventStep (s : WriteState) : WriteAct → Option (Unit × WriteState)
  | .test nm =>
    match s.logic with
    | .idle =>
      some ((), { s with logic := if s.session.writeBuffer.empty then .arm nm else .push nm })
    | _ => none
  | .arm =>
    match s.logic with
    | .arm nm => some ((), { s with armed := true, logic := .push nm })
    | _ => none
  | .push =>
    match s.logic with
    | .push nm =>
      let q := (s.session.writeQueue.pushBack nm).2
      some ((), { s with session := { s.session with writeQueue := q }, logic := .idle })
    | _ => none
  | .begin =>
    match s.net with
    | .idle => some ((), { s with net := .fetch })
    | _ => none
  | .fetch message =>
    match s.net with
    | .fetch =>
      let r := s.session.fetchFromWritequeue message
      some ((), { s with session := r.2, net := if r.1 then .encode else .send })
    | _ => none
  | .encode nm =>
    match s.net with
    | .encode =>
      let wb := s.session.writeBuffer
      (transformMessageToBuffer s.session.crypt nm wb.storage wb.writePtr
        nm.realSize.toUInt32.toInt32).map fun e =>
          let wb' := wb.setStorage e.2
          let wb' := if e.1 > 0 then (wb'.seekWrite e.1).2 else wb'
          ((), { s with session := { s.session with writeBuffer := wb' }, net := .fetch })
    | _ => none
  | .send result =>
    match s.net with
    | .send =>
      (netSocketSend s.session.writeBuffer result).map fun sent =>
        ((), { s with net := .check sent.length })
    | _ => none
  | .check =>
    match s.net with
    | .check len =>
      if 0 < len ∧ s.session.writeBuffer.empty = true then some ((), { s with net := .disarm })
      else some ((), { s with net := .idle, returned := true })
    | _ => none
  | .disarm =>
    match s.net with
    | .disarm => some ((), { s with armed := false, net := .idle, returned := true })
    | _ => none

/-- There is output: in the write queue, or in the write ring. -/
def WriteState.Pending (s : WriteState) : Prop :=
  s.session.writeQueue.isEmpty = false ∨ s.session.writeBuffer.empty = false

/-- No call is in progress. -/
def WriteState.Quiet (s : WriteState) : Prop := s.logic = .idle ∧ s.net = .idle

/-- The promise of the write event: with no call in progress, and after an `on_write`, the event
    is armed if and only if there is output. -/
def ArmingMatches (s : WriteState) : Prop :=
  s.returned = true → s.Quiet → (s.armed = true ↔ s.Pending)

/-- `on_write` is about to return without disarming, nobody is pushing, and the event is armed
    with nothing left in the queue. -/
def Strands (s : WriteState) : WriteAct → Prop
  | .check => s.logic = .idle ∧ s.armed = true ∧ s.session.writeQueue.isEmpty = true
  | _ => False

/-! ### Calls that nobody interrupts -/

section Calls

variable {s t : NetSession}

/-- A push that nobody interrupts. -/
theorem run_pushToWritequeue (s : NetSession) (nm : MessagePtr) (armed : Bool) (net : NetPc)
    (returned : Bool) :
    ∃ acts os, run writeEventStep ⟨s, armed, .idle, net, returned⟩ acts =
      some (os, ⟨(s.pushToWritequeue nm).2.2, armed || (s.pushToWritequeue nm).1, .idle, net,
        returned⟩) := by
  cases hempty : s.writeBuffer.empty with
  | true =>
    refine ⟨[.test nm, .arm, .push], [(), (), ()], ?_⟩
    simp [run, writeEventStep, NetSession.pushToWritequeue, hempty]
  | false =>
    refine ⟨[.test nm, .push], [(), ()], ?_⟩
    simp [run, writeEventStep, NetSession.pushToWritequeue, hempty]

/-- The drain loop, step by step. -/
theorem run_drain (armed : Bool) (logic : LogicPc) (returned : Bool) {heap : Heap}
    {message : MessagePtr} {n : ℕ} {es : List DrainEvent}
    (h : loop (onWriteIter heap message) n s = some (es, t)) :
    ∃ acts os, run writeEventStep ⟨s, armed, logic, .fetch, returned⟩ acts =
      some (os, ⟨t, armed, logic, .send, returned⟩) := by
  induction n generalizing s es with
  | zero => cases h
  | succ n ih =>
    rcases hb : onWriteIter heap message s with _ | ⟨u⟩ | ⟨e, u⟩
    · rw [loop, hb] at h
      cases h
    · -- the queue is empty
      rw [loop_stop hb] at h
      cases h
      refine ⟨[.fetch message], [()], ?_⟩
      simp only [onWriteIter] at hb
      split at hb
      case isTrue hfalse =>
        cases hb
        simp [run, writeEventStep, hfalse]
      case isFalse =>
        obtain ⟨nm, -, hb⟩ := Option.bind_eq_some_iff.mp hb
        obtain ⟨e, -, hb⟩ := Option.map_eq_some_iff.mp hb
        cases hb
    · rw [loop_next hb, Option.map_eq_some_iff] at h
      obtain ⟨⟨es', t'⟩, hrest, heq⟩ := h
      cases heq
      obtain ⟨acts, os, hrun⟩ := ih hrest
      simp only [onWriteIter] at hb
      split at hb
      case isTrue => cases hb
      case isFalse htrue =>
        obtain ⟨nm, -, hb⟩ := Option.bind_eq_some_iff.mp hb
        obtain ⟨d, hd, hb⟩ := Option.map_eq_some_iff.mp hb
        rw [Bool.not_eq_false] at htrue
        have hu := (Pass.next.inj hb).2
        -- one pass of the loop is the two steps `fetch` and `encode`
        refine ⟨.fetch message :: .encode nm :: acts, () :: () :: os, ?_⟩
        refine run_cons_eq_some.mpr ⟨(), ⟨(s.fetchFromWritequeue message).2, armed, logic, .encode,
          returned⟩, () :: os, ?_, ?_, rfl⟩
        · simp [writeEventStep, htrue]
        · refine run_cons_eq_some.mpr ⟨(), ⟨u, armed, logic, .fetch, returned⟩, os, ?_, hrun, rfl⟩
          have hd' : transformMessageToBuffer (s.fetchFromWritequeue message).2.crypt nm
              (s.fetchFromWritequeue message).2.writeBuffer.storage
              (s.fetchFromWritequeue message).2.writeBuffer.writePtr
              nm.realSize.toUInt32.toInt32 = some d := hd
          simp only [writeEventStep, hd', Option.map_some]
          rw [hu]

/-- An `on_write` that nobody interrupts. -/
theorem run_onWriteSession (armed : Bool) (logic : LogicPc) (returned : Bool) {heap : Heap}
    {message : MessagePtr} {result : SendResult} {o : WriteOutcome}
    (h : onWriteSession heap message result s = some (o, t)) :
    ∃ acts os, run writeEventStep ⟨s, armed, logic, .idle, returned⟩ acts =
      some (os, ⟨t, armed && !o.disarmed, logic, .idle, true⟩) := by
  obtain ⟨⟨es, u⟩, hdrain, h⟩ := Option.bind_eq_some_iff.mp h
  obtain ⟨sent, hsent, h⟩ := Option.map_eq_some_iff.mp h
  cases h
  obtain ⟨acts, os, hrun⟩ := run_drain armed logic returned hdrain
  by_cases hdisarm : 0 < sent.length ∧ u.writeBuffer.empty = true
  · refine ⟨.begin :: (acts ++ [.send result, .check, .disarm]), () :: (os ++ [(), (), ()]),
      run_cons_eq_some.mpr ⟨(), _, _, rfl, run_append_eq_some hrun ?_, rfl⟩⟩
    simp [run, writeEventStep, hsent, hdisarm]
  · refine ⟨.begin :: (acts ++ [.send result, .check]), () :: (os ++ [(), ()]),
      run_cons_eq_some.mpr ⟨(), _, _, rfl, run_append_eq_some hrun ?_, rfl⟩⟩
    have hkept : (decide (0 < sent.length) && u.writeBuffer.empty) = false := by
      rw [← Bool.not_eq_true, Bool.and_eq_true, decide_eq_true_eq]
      exact hdisarm
    simp [run, writeEventStep, hsent, hdisarm, hkept]

end Calls

/-! ### Every order of steps -/

/-- What holds whatever the order of the steps: the write ring stays empty, nothing waits or is
    about to be pushed without the event being armed, and `send` sends nothing. -/
structure WriteSound (s : WriteState) : Prop where
  ring : s.session.writeBuffer.empty = true
  queue : s.session.writeQueue.isEmpty = false → s.armed = true
  push : ∀ nm, s.logic = .push nm → s.armed = true
  check : ∀ len, s.net = .check len → len = 0
  disarm : s.net ≠ .disarm

section Steps

variable {s t : WriteState} {a : WriteAct} {o : Unit}

/-- A pushed queue is not empty, whether or not it took the message. -/
theorem pushBack_not_empty (q : MessageQueue) (nm : MessagePtr) :
    (q.pushBack nm).2.isEmpty = false := by
  have hspec := q.pushBack_spec isPow2_maxQueueLen nm
  rw [← Bool.not_eq_true, StaticLockFreeQueue.isEmpty_iff_waiting]
  by_cases hroom : q.size < MAX_QUEUE_LEN.toNat
  · rw [(hspec.1 hroom).2]
    exact List.append_ne_nil_of_right_ne_nil _ (List.cons_ne_nil _ _)
  · -- it was full
    rw [hspec.2 hroom, ← List.length_eq_zero_iff, StaticLockFreeQueue.waiting_length]
    have hlen : MAX_QUEUE_LEN.toNat = 128 := rfl
    show ¬ q.size = 0
    omega

/-- What waits after a fetch waited before. -/
theorem popFront_not_empty {q : MessageQueue} {message : MessagePtr}
    (h : (q.popFront message).2.2.isEmpty = false) : q.isEmpty = false := by
  by_contra hne
  rw [Bool.not_eq_false, StaticLockFreeQueue.isEmpty_iff_waiting] at hne
  rw [(q.popFront_spec isPow2_maxQueueLen message).2 hne, ← Bool.not_eq_true,
      StaticLockFreeQueue.isEmpty_iff_waiting] at h
  exact h hne

/-- From an empty ring the socket takes nothing. -/
theorem netSocketSend_empty {wb : RingBuffer} {result : SendResult} {sent : List UInt8}
    (hring : wb.empty = true) (h : netSocketSend wb result = some sent) : sent.length = 0 := by
  rw [RingBuffer.empty_iff] at hring
  rcases result with n | _
  · rw [netSocketSend, hring, Nat.min_zero, Block.read_eq_some wb.readPtr_lt.le] at h
    cases h
    rfl
  · cases h
    rfl

/-- With the ring empty and nothing waiting unarmed, the promise is broken exactly by an event
    armed with nothing left in the queue. -/
theorem armed_iff_pending (h : WriteSound s) :
    (s.armed = true ↔ s.Pending) ↔ ¬ (s.armed = true ∧ s.session.writeQueue.isEmpty = true) := by
  have hring := h.ring
  have hqueue := h.queue
  unfold WriteState.Pending
  rw [hring]
  cases hq : s.session.writeQueue.isEmpty with
  | true => simp
  | false => simp [hqueue hq]

/-- **One step of either thread.**  It keeps the invariant; and the promise holds after it unless
    it ends an `on_write` that strands the event. -/
theorem writeEventStep_spec (h : WriteSound s) (hstep : writeEventStep s a = some (o, t)) :
    WriteSound t ∧ (ArmingMatches t ↔ ¬ Strands s a) := by
  obtain ⟨session, armed, logic, net, returned⟩ := s
  obtain ⟨hring, hqueue, hpush, hcheck, hdisarm⟩ := h
  simp only at hring hqueue hpush hcheck hdisarm
  cases a with
  | test nm =>
    cases logic with
    | idle =>
      -- the ring is empty: the call goes on to arm the event
      have hlogic : (if session.writeBuffer.empty then LogicPc.arm nm else .push nm) = .arm nm :=
        if_pos hring
      simp only [writeEventStep, hlogic] at hstep
      cases hstep
      exact ⟨⟨hring, hqueue, fun _ hl => (nomatch hl), hcheck, hdisarm⟩,
        iff_of_true (fun _ hq => (nomatch hq.1)) not_false⟩
    | _ => cases hstep
  | arm =>
    cases logic with
    | arm nm =>
      cases hstep
      exact ⟨⟨hring, fun _ => rfl, fun _ _ => rfl, hcheck, hdisarm⟩,
        iff_of_true (fun _ hq => (nomatch hq.1)) not_false⟩
    | _ => cases hstep
  | push =>
    cases logic with
    | push nm =>
      cases hstep
      have harmed : armed = true := hpush nm rfl
      have hfull := pushBack_not_empty session.writeQueue nm
      refine ⟨⟨hring, fun _ => harmed, fun _ hl => (nomatch hl), hcheck, hdisarm⟩,
        iff_of_true (fun _ _ => ?_) not_false⟩
      exact iff_of_true harmed (Or.inl hfull)
    | _ => cases hstep
  | begin =>
    cases net with
    | idle =>
      cases hstep
      exact ⟨⟨hring, hqueue, hpush, fun _ hn => (nomatch hn), fun hn => (nomatch hn)⟩,
        iff_of_true (fun _ hq => (nomatch hq.2)) not_false⟩
    | _ => cases hstep
  | fetch message =>
    cases net with
    | fetch =>
      cases hstep
      -- on to the encoder, or to `send`
      obtain ⟨n, hn, hgoes⟩ : ∃ n, (if (session.fetchFromWritequeue message).1
          then NetPc.encode else .send) = n ∧ (n = .encode ∨ n = .send) := by
        refine ⟨_, rfl, ?_⟩
        split
        · exact Or.inl rfl
        · exact Or.inr rfl
      rw [hn]
      refine ⟨⟨hring, fun hq => hqueue (popFront_not_empty hq), hpush, fun len hlen => ?_,
        fun hd => ?_⟩, iff_of_true (fun _ hq => ?_) not_false⟩
      · rcases hgoes with rfl | rfl <;> cases hlen
      · rcases hgoes with rfl | rfl <;> cases hd
      · rcases hgoes with rfl | rfl <;> cases hq.2
    | _ => cases hstep
  | encode nm =>
    cases net with
    | encode =>
      -- the encoder refuses the message
      simp only [writeEventStep, transformMessageToBuffer_realSize, Option.map_some] at hstep
      cases hstep
      exact ⟨⟨hring, hqueue, hpush, fun _ hn => (nomatch hn), fun hn => (nomatch hn)⟩,
        iff_of_true (fun _ hq => (nomatch hq.2)) not_false⟩
    | _ => cases hstep
  | send result =>
    cases net with
    | send =>
      obtain ⟨sent, hsent, heq⟩ := Option.map_eq_some_iff.mp hstep
      cases heq
      refine ⟨⟨hring, hqueue, hpush, fun len hn => ?_, fun hn => (nomatch hn)⟩,
        iff_of_true (fun _ hq => (nomatch hq.2)) not_false⟩
      cases hn
      exact netSocketSend_empty hring hsent
    | _ => cases hstep
  | check =>
    cases net with
    | check len =>
      obtain rfl := hcheck len rfl
      cases hstep
      have hsound : WriteSound ⟨session, armed, logic, .idle, true⟩ :=
        ⟨hring, hqueue, hpush, fun _ hn => (nomatch hn), fun hn => (nomatch hn)⟩
      refine ⟨hsound, ?_⟩
      constructor
      · rintro hmatches ⟨hidle, hstranded⟩
        exact (armed_iff_pending hsound).mp (hmatches rfl ⟨hidle, rfl⟩) hstranded
      · intro hnot _ hquiet
        exact (armed_iff_pending hsound).mpr fun hstranded => hnot ⟨hquiet.1, hstranded⟩
    | _ => cases hstep
  | disarm =>
    cases net with
    | disarm => exact absurd rfl hdisarm
    | _ => cases hstep

/-- Whatever waits is waiting with the event armed. -/
theorem pending_armed (h : WriteSound s) (hp : s.Pending) : s.armed = true := by
  rcases hp with hq | hr
  · exact h.queue hq
  · rw [h.ring] at hr
    cases hr

end Steps

/-- **Arming against pending output.**  In every run of both threads' steps, from a state in which
    nothing waits unarmed (a fresh session's, for one), no wake-up is lost: output never waits
    without the event being armed.  And with no call in progress, after an `on_write`, the event
    is armed only for output exactly when no `on_write` returns, nobody pushing, with the event
    armed and the queue empty. -/
theorem armingMatches_iff (s t : WriteState) (acts : List WriteAct) (os : List Unit)
    (hsound : WriteSound s) (hrun : run writeEventStep s acts = some (os, t)) :
    AllTransitions writeEventStep (fun _ _ _ t => t.Pending → t.armed = true) s acts ∧
      (AllTransitions writeEventStep (fun _ _ _ t => ArmingMatches t) s acts ↔
        AllSteps writeEventStep (fun s a => ¬ Strands s a) s acts) := by
  constructor
  · refine AllTransitions.of_allSteps (I := WriteSound) (C := fun _ _ => True) ?_ hsound
      (AllSteps.of_forall (fun _ _ => trivial) s acts)
    intro u a o v hu _ hstep
    have hv := (writeEventStep_spec hu hstep).1
    exact ⟨pending_armed hv, hv⟩
  · refine allTransitions_iff_allSteps (I := WriteSound) (V := fun _ _ => True) ?_ hsound
      (AllSteps.of_forall (fun _ _ => trivial) s acts) hrun
    intro u a o v hu _ hstep
    obtain ⟨hv, hiff⟩ := writeEventStep_spec hu hstep
    exact ⟨hiff, fun _ => hv⟩

/-- A fresh session with initialised queues, its write event not armed. -/
def freshWriteState : WriteState := ⟨.new .zeroed, false, .idle, .idle, false⟩

theorem writeSound_fresh : WriteSound freshWriteState where
  ring := by decide
  queue := fun h => absurd h (by decide)
  push := fun _ h => (nomatch h)
  check := fun _ h => (nomatch h)
  disarm := fun h => (nomatch h)

/-- One push, then an `on_write` that takes its message. -/
def pushThenWrite : List WriteAct :=
  [.test 0, .arm, .push, .begin, .fetch 0, .encode NetMessage.new, .fetch 0, .send (.accepted 0),
    .check]

theorem armingMatches_iff_push :
    ∃ os t, run writeEventStep freshWriteState pushThenWrite = some (os, t) ∧
      AllTransitions writeEventStep (fun _ _ _ t => t.Pending → t.armed = true)
        freshWriteState pushThenWrite ∧
      (AllTransitions writeEventStep (fun _ _ _ t => ArmingMatches t)
          freshWriteState pushThenWrite ↔
        AllSteps writeEventStep (fun s a => ¬ Strands s a) freshWriteState pushThenWrite) := by
  obtain ⟨⟨os, t⟩, hrun⟩ : ∃ r, run writeEventStep freshWriteState pushThenWrite = some r :=
    Option.isSome_iff_exists.mp (by decide +kernel)
  exact ⟨os, t, hrun, armingMatches_iff _ _ _ _ writeSound_fresh hrun⟩

/-- After one push and one `on_write` nothing is left, and the event stays armed. -/
theorem armingMatches_fails :
    ¬ ∀ (t : WriteState) (acts : List WriteAct) (os : List Unit),
      run writeEventStep freshWriteState acts = some (os, t) → ArmingMatches t := by
  intro h
  obtain ⟨⟨os, t⟩, hrun⟩ : ∃ r, run writeEventStep freshWriteState pushThenWrite = some r :=
    Option.isSome_iff_exists.mp (by decide +kernel)
  -- `send` has taken nothing, so the call returns without disarming, and yet nothing is left
  have hend : ((run writeEventStep freshWriteState pushThenWrite).map fun r =>
      (r.2.returned, r.2.armed, r.2.session.writeQueue.isEmpty, r.2.session.writeBuffer.empty)) =
      some (true, true, true, true) := by decide +kernel
  have hquiet : ((run writeEventStep freshWriteState pushThenWrite).map fun r =>
      (match r.2.logic, r.2.net with
        | .idle, .idle => true
        | _, _ => false)) = some true := by decide +kernel
  rw [hrun, Option.map_some, Option.some_inj] at hend hquiet
  simp only [Prod.mk.injEq] at hend
  obtain ⟨hreturned, harmed, hqueue, hring⟩ := hend
  have hidle : t.Quiet := by
    unfold WriteState.Quiet
    split at hquiet
    case h_1 hl hn => exact ⟨hl, hn⟩
    case h_2 => cases hquiet
  rcases (h t _ _ hrun hreturned hidle).mp harmed with hq | hr
  · rw [hqueue] at hq
    cases hq
  · rw [hring] at hr
    cases hr

end LeoNet
