import LeoNet.ReceivePath

namespace LeoNet

open Memory Loop Machine

/-!
# Back-pressure — `on_read` against the logic thread's fetches

`on_read` takes a frame off the ring and only then offers its message to the read queue, whose
answer it does not look at.  Its steps here are the call of `recv` and the passes of the frame
loop; the logic thread fetches whenever it likes, between any two of them.

* `run_onReadBytes` — a call that nobody interrupts is `onReadBytes`;
* `receiveStep_admits` — a step is in order when the frame it takes, if any, passes the checks of
  the decoder exactly if the queue has room;
* `keepsFrames_iff_admits` — and that is what a run needs for its valid frames to be the ones
  stored.
-/

variable {table : UInt8 → UInt32}

/-- The session and the heap, and whether the frame loop is running. -/
structure ReceiveState where
  st : ReadState
  running : Bool

/-- A step of one of the threads. -/
inductive ReceiveAct where
  | recv (result : RecvResult)
  | pass
  | fetch (nm : MessagePtr)

/-- What the step does; it returns the frame it took off the ring, if any. -/
def receiveStep (table : UInt8 → UInt32) (s : ReceiveState) :
    ReceiveAct → Option (List FrameEvent × ReceiveState)
  | .recv result =>
    if s.running then none
    else
      match result with
      | .bytes (b :: bs) =>
        (netSocketRecv s.st.session.readBuffer (b :: bs)).map fun rb =>
          let rb := (rb.seekWrite (UInt32.ofNat (b :: bs).length)).2
          ([], ⟨{ s.st with session := { s.st.session with readBuffer := rb } }, true⟩)
      | _ => some ([], s)
  | .pass =>
    if s.running then
      (onReadIter table s.st).map fun
        | .stop t => ([], ⟨t, false⟩)
        | .next e t => ([e], ⟨t, true⟩)
    else none
  | .fetch nm =>
    some ([], { s with st := { s.st with session := (s.st.session.fetchFromReadqueue nm).2 } })

/-- The promise of back-pressure, of the frames taken off the ring: a valid frame is stored, and
    as many frames are valid as messages were accepted. -/
def KeepsFrames (table : UInt8 → UInt32) (frames : List FrameEvent) : Prop :=
  (∀ e ∈ frames, e.authentic table = true → e.stored = true) ∧
    frames.countP (·.authentic table) = frames.countP (·.stored)

/-- If the step is about to take a frame, the frame is valid exactly if the queue has room. -/
def Admits (table : UInt8 → UInt32) (s : ReceiveState) : ReceiveAct → Prop
  | .pass => s.st.session.HeadComplete →
      (s.st.frameEvent.authentic table = true ↔
        s.st.session.readQueue.size < MAX_QUEUE_LEN.toNat)
  | _ => True

instance (table : UInt8 → UInt32) (s : ReceiveState) : DecidablePred (Admits table s) := fun a =>
  match a with
  | .pass => inferInstanceAs (Decidable (_ → (_ ↔ _)))
  | .recv _ => inferInstanceAs (Decidable True)
  | .fetch _ => inferInstanceAs (Decidable True)

section Steps

variable {s t : ReceiveState} {a : ReceiveAct} {es : List FrameEvent}

/-- One more pass of a running loop. -/
theorem receiveStep_pass (st : ReadState) :
    receiveStep table ⟨st, true⟩ .pass =
      (onReadIter table st).map fun
        | .stop t => ([], ⟨t, false⟩)
        | .next e t => ([e], ⟨t, true⟩) := rfl

/-- A loop that nobody interrupts is its passes, one after the other. -/
theorem run_passes {st t : ReadState} {n : ℕ} (h : loop (onReadIter table) n st = some (es, t)) :
    ∃ k, run (receiveStep table) ⟨st, true⟩ (List.replicate (k + 1) .pass) =
      some (es.map (fun e => [e]) ++ [[]], ⟨t, false⟩) := by
  induction n generalizing st es with
  | zero => cases h
  | succ n ih =>
    rcases hb : onReadIter table st with _ | ⟨u⟩ | ⟨e, u⟩
    · rw [loop, hb] at h
      cases h
    · rw [loop_stop hb] at h
      cases h
      refine ⟨0, run_cons_eq_some.mpr ⟨[], ⟨_, false⟩, [], ?_, run_nil _, rfl⟩⟩
      rw [receiveStep_pass, hb, Option.map_some]
    · rw [loop_next hb, Option.map_eq_some_iff] at h
      obtain ⟨⟨es', t'⟩, hrest, heq⟩ := h
      cases heq
      obtain ⟨k, hk⟩ := ih hrest
      refine ⟨k + 1, run_cons_eq_some.mpr ⟨[e], ⟨u, true⟩, _, ?_, hk, rfl⟩⟩
      rw [receiveStep_pass, hb, Option.map_some]

/-- A call of `on_read` that nobody interrupts is `onReadBytes`. -/
theorem run_onReadBytes {st t : ReadState} {bytes : List UInt8} (hne : bytes ≠ [])
    (h : onReadBytes table st bytes = some (es, t)) :
    ∃ k oss, run (receiveStep table) ⟨st, false⟩
        (.recv (.bytes bytes) :: List.replicate (k + 1) .pass) = some (oss, ⟨t, false⟩) ∧
      oss.flatten = es := by
  obtain ⟨b, bs, rfl⟩ := List.exists_cons_of_ne_nil hne
  rw [onReadBytes, Option.bind_eq_some_iff] at h
  obtain ⟨rb, hrb, hloop⟩ := h
  obtain ⟨k, hk⟩ := run_passes hloop
  refine ⟨k, _, run_cons_eq_some.mpr ⟨[], _, _, ?_, hk, rfl⟩, ?_⟩
  · simp only [receiveStep, Bool.false_eq_true, if_false, hrb, Option.map_some]
  · simp [← List.flatMap_def]

/-- `recv` takes no frame off the ring. -/
theorem receiveStep_recv {result : RecvResult}
    (h : receiveStep table s (.recv result) = some (es, t)) : es = [] := by
  obtain ⟨st, running⟩ := s
  cases running with
  | true => cases h
  | false =>
    rcases result with (_ | ⟨b, bs⟩) | _
    · cases h
      rfl
    · simp only [receiveStep, Bool.false_eq_true, if_false] at h
      obtain ⟨rb, -, heq⟩ := Option.map_eq_some_iff.mp h
      exact (congrArg Prod.fst heq).symm
    · cases h
      rfl

/-- A step's frame is valid exactly if it is stored, when the step is in order. -/
theorem receiveStep_admits (h : receiveStep table s a = some (es, t)) :
    (∀ e ∈ es, e.authentic table = true ↔ e.stored = true) ↔ Admits table s a := by
  -- `recv` and the end of a call put no event out; a pass puts one out if it takes a frame
  rcases a with result | _ | nm
  · have hnil : es = [] := receiveStep_recv h
    subst hnil
    exact iff_of_true (fun e he => absurd he List.not_mem_nil) trivial
  · obtain ⟨st, running⟩ := s
    cases running with
    | false => cases h
    | true =>
      rw [receiveStep_pass, Option.map_eq_some_iff] at h
      obtain ⟨p, hp, heq⟩ := h
      rcases p with u | ⟨e, u⟩
      · -- the pass that ends the loop: the head of the ring is not a complete frame
        cases heq
        exact iff_of_true (fun e he => absurd he List.not_mem_nil)
          fun hc => absurd hc (onReadIter_eq_stop hp).1
      · -- a pass that takes a frame is in order exactly when it may store it
        obtain ⟨hc, rfl, -⟩ := onReadIter_eq_next hp
        cases heq
        show _ ↔ (_ → _)
        rw [List.forall_mem_singleton, frameEvent_stored]
        exact ⟨fun h _ => h, fun h => h hc⟩
  · cases h
    exact iff_of_true (fun e he => absurd he List.not_mem_nil) trivial

end Steps

/-- Of two tests the first of which implies the second, both count the same exactly if they are
    the same. -/
theorem countP_eq_iff {α : Type*} {p q : α → Bool} {l : List α} :
    ((∀ a ∈ l, p a = true → q a = true) ∧ l.countP p = l.countP q) ↔
      ∀ a ∈ l, p a = true ↔ q a = true := by
  constructor
  · rintro ⟨himp, hcount⟩
    induction l with
    | nil => exact fun a ha => absurd ha List.not_mem_nil
    | cons x l ih =>
      rw [List.forall_mem_cons] at himp ⊢
      have hle : l.countP p ≤ l.countP q := List.countP_mono_left himp.2
      rw [List.countP_cons, List.countP_cons] at hcount
      cases hp : p x with
      | true =>
        have hq := himp.1 hp
        rw [if_pos hp, if_pos hq] at hcount
        exact ⟨iff_of_true rfl hq, ih himp.2 (by omega)⟩
      | false =>
        -- a further `q` would make the second count larger
        have hq : q x = false := by
          cases hqx : q x with
          | false => rfl
          | true =>
            simp only [hp, hqx, Bool.false_eq_true, if_false, if_true] at hcount
            omega
        simp only [hp, hq, Bool.false_eq_true, if_false] at hcount
        exact ⟨by rw [hq], ih himp.2 (by omega)⟩
  · intro h
    refine ⟨fun a ha => (h a ha).mp, List.countP_congr h⟩

/-- **Which interleavings keep the frames.**  Whatever the queue and the ring hold at the start,
    a run of `on_read` against fetches keeps its frames exactly when every pass that takes a
    frame meets a valid one while the queue has room, or another one while it has none. -/
theorem keepsFrames_iff_admits (table : UInt8 → UInt32) (s t : ReceiveState)
    (acts : List ReceiveAct) (oss : List (List FrameEvent))
    (hrun : run (receiveStep table) s acts = some (oss, t)) :
    KeepsFrames table oss.flatten ↔ AllSteps (receiveStep table) (Admits table) s acts := by
  unfold KeepsFrames
  rw [countP_eq_iff, ← forall_outputs_iff (fun _ _ _ _ => receiveStep_admits) hrun]
  constructor
  · intro h es hes e he
    exact h e (List.mem_flatten.mpr ⟨es, hes, he⟩)
  · intro h e he
    obtain ⟨es, hes, he⟩ := List.mem_flatten.mp he
    exact h es hes e he

/-- One valid frame, and a fetch between the passes of the loop. -/
theorem keepsFrames_iff_admits_one :
    ∃ oss t, run (receiveStep initialCrc32Table) ⟨⟨.keyed 0 fun _ => 1, []⟩, false⟩
        [.recv (.bytes emptyFrame), .pass, .fetch 0, .pass] = some (oss, t) ∧
      (KeepsFrames initialCrc32Table oss.flatten ↔
        AllSteps (receiveStep initialCrc32Table) (Admits initialCrc32Table)
          ⟨⟨.keyed 0 fun _ => 1, []⟩, false⟩
          [.recv (.bytes emptyFrame), .pass, .fetch 0, .pass]) := by
  obtain ⟨⟨oss, t⟩, hrun⟩ : ∃ r, run (receiveStep initialCrc32Table)
      ⟨⟨.keyed 0 fun _ => 1, []⟩, false⟩ [.recv (.bytes emptyFrame), .pass, .fetch 0, .pass] =
        some r := Option.isSome_iff_exists.mp (by decide +kernel)
  exact ⟨oss, t, hrun, keepsFrames_iff_admits _ _ _ _ _ hrun⟩

/-- A session whose read queue is full. -/
def fullQueue : NetSession :=
  { NetSession.keyed 0 fun _ => 1 with readQueue := ⟨fun i => i, MAX_QUEUE_LEN, 0⟩ }

/-- With a full read queue, a valid frame is taken off the ring and its message dropped. -/
theorem keepsFrames_fails :
    ¬ ∀ (s t : ReceiveState) (acts : List ReceiveAct) (oss : List (List FrameEvent)),
      run (receiveStep initialCrc32Table) s acts = some (oss, t) →
      KeepsFrames initialCrc32Table oss.flatten := by
  intro h
  obtain ⟨⟨oss, t⟩, hrun⟩ : ∃ r, run (receiveStep initialCrc32Table) ⟨⟨fullQueue, []⟩, false⟩
      [.recv (.bytes emptyFrame), .pass, .pass] = some r :=
    Option.isSome_iff_exists.mp (by decide +kernel)
  have hcount : ((run (receiveStep initialCrc32Table) ⟨⟨fullQueue, []⟩, false⟩
      [.recv (.bytes emptyFrame), .pass, .pass]).map fun r =>
        (r.1.flatten.countP (·.authentic initialCrc32Table),
          r.1.flatten.countP (·.stored))) = some (1, 0) := by decide +kernel
  rw [hrun, Option.map_some, Option.some_inj, Prod.mk.injEq] at hcount
  have hkeeps := (h _ _ _ _ hrun).2
  rw [hcount.1, hcount.2] at hkeeps
  cases hkeeps

end LeoNet
