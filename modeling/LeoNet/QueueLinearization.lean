import LeoNet.LockFreeQueueConcurrent
import LeoNet.Lib.Linearization

namespace LeoNet

open Circular Counter Linearization StaticLockFreeQueue

/-!
# `push_back` and `pop_front` take effect at one step each

`push_back` tests two indexes and writes a slot before it increments, `pop_front` likewise, and the
other thread may run between any two of these steps.  Still each call has the result of a call that
nothing interrupts, made at one of its own steps:

* a call that succeeds, when it stores its own index;
* a `push_back` that finds the queue full, when it loads `pop_index`;
* a `pop_front` that finds it empty, when it loads `push_index` — one step before it returns, and
  by then the producer may have pushed.

`spsc_linearizable` says so for every schedule.
-/

variable {α : Type*} {n : UInt32}

/-- A call of the queue. -/
inductive QueueOp (α : Type*) where
  | pushBack (t : α)
  | popFront
  deriving DecidableEq

/-- What a call returns; `popped none` is the flag `false`. -/
inductive QueueReply (α : Type*) where
  | pushed (ok : Bool)
  | popped (v : Option α)
  deriving DecidableEq

/-- A whole call, uninterrupted; `zero` is what the reference given to `pop_front` held. -/
def StaticLockFreeQueue.perform (zero : α) (q : StaticLockFreeQueue α n) :
    QueueOp α → QueueReply α × StaticLockFreeQueue α n
  | .pushBack t => (.pushed (q.pushBack t).1, (q.pushBack t).2)
  | .popFront =>
      (.popped (if (q.popFront zero).1 then some (q.popFront zero).2.1 else none),
        (q.popFront zero).2.2)

/-- The two threads. -/
inductive SpscThread where
  | producer
  | consumer
  deriving DecidableEq

/-- Whose step it is. -/
def SpscAct.thread : SpscAct α → SpscThread
  | .produce _ => .producer
  | .consume => .consumer

namespace Spsc

/-! ### Where the calls take effect -/

/-- What the next step of the producer does to its call. -/
def pushMove (s : Spsc α n) (t : α) : Move (QueueOp α) (QueueReply α) :=
  match s.push with
  | .idle => .begins (.pushBack t)
  | .testPop t a =>
      if a - s.queue.popIndex < n then .silent else .ends (.pushBack t) (.pushed false)
  | .storeIncr t _ => .ends (.pushBack t) (.pushed true)
  | .testPush _ | .subscript _ | .storeSlot _ _ | .loadIncr _ => .silent

/-- What the next step of the consumer does to its call. -/
def popMove (s : Spsc α n) : Move (QueueOp α) (QueueReply α) :=
  match s.pop with
  | .idle => .begins .popFront
  | .testPush =>
      if s.queue.pushIndex = s.queue.popIndex then .effect .popFront (.popped none) else .silent
  | .testPop a => if a = s.queue.popIndex then .returns (.popped none) else .silent
  | .storeIncr v _ => .ends .popFront (.popped (some v))
  | .subscript | .loadSlot _ | .loadIncr _ => .silent

/-- What the producer is doing. -/
def pushPhase (s : Spsc α n) : Phase (QueueOp α) (QueueReply α) :=
  match s.push with
  | .idle => .idle
  | .testPush t | .testPop t _ | .subscript t | .storeSlot t _ | .loadIncr t | .storeIncr t _ =>
      .before (.pushBack t)

/-- What the consumer is doing; once it has seen equal indexes its call is over. -/
def popPhase (s : Spsc α n) : Phase (QueueOp α) (QueueReply α) :=
  match s.pop with
  | .idle => .idle
  | .testPop a => if a = s.queue.popIndex then .after .popFront (.popped none) else .before .popFront
  | .testPush | .subscript | .loadSlot _ | .loadIncr _ | .storeIncr _ _ => .before .popFront

/-- The queue and its two threads as a concurrent object. -/
def object : ConcurrentObject (Spsc α n) (SpscAct α) SpscThread (QueueOp α) (QueueReply α) where
  step := step
  thread := SpscAct.thread
  move s
    | .produce t => s.pushMove t
    | .consume => s.popMove
  phase s
    | .producer => s.pushPhase
    | .consumer => s.popPhase

/-! ### Each step moves its own thread -/

theorem pushStep_moves (s : Spsc α n) (t : α) :
    s.pushPhase.Moves (s.pushMove t) (s.pushStep t).pushPhase := by
  unfold pushPhase pushMove pushStep
  cases s.push with
  | idle => exact .begins _
  | testPop t a =>
    by_cases hroom : a - s.queue.popIndex < n
    · simp only [if_pos hroom]
      exact .silent _
    · simp only [if_neg hroom]
      exact .ends _ _
  | storeIncr t d => exact .ends _ _
  | testPush t => exact .silent _
  | subscript t => exact .silent _
  | storeSlot t c => exact .silent _
  | loadIncr t => exact .silent _

/-- What the next step of the consumer does to its call. -/
theorem popStep_moves (s : Spsc α n) : s.popPhase.Moves s.popMove s.popStep.popPhase := by
  unfold popPhase popMove popStep
  cases s.pop with
  | idle => exact .begins _
  | testPush =>
    by_cases hempty : s.queue.pushIndex = s.queue.popIndex
    · simp only [if_pos hempty]
      exact .effect _ _
    · simp only [if_neg hempty]
      exact .silent _
  | testPop a =>
    by_cases hempty : a = s.queue.popIndex
    · simp only [hempty, bne_self_eq_false, Bool.false_eq_true, if_false, if_true]
      exact .returns _ _
    · simp only [if_neg hempty, bne_iff_ne.2 hempty, if_true]
      exact .silent _
  | storeIncr v d => exact .ends _ _
  | subscript => exact .silent _
  | loadSlot c => exact .silent _
  | loadIncr v => exact .silent _

/-- The producer leaves alone what the consumer's phase is about, its own index. -/
theorem pushStep_popPhase (s : Spsc α n) (t : α) : (s.pushStep t).popPhase = s.popPhase := by
  unfold pushStep
  cases s.push with
  | testPop t a =>
    by_cases hroom : a - s.queue.popIndex < n
    · simp only [if_pos hroom]
      rfl
    · simp only [if_neg hroom]
      rfl
  | idle => rfl
  | testPush t => rfl
  | subscript t => rfl
  | storeSlot t c => rfl
  | loadIncr t => rfl
  | storeIncr t d => rfl

/-- The consumer leaves the call of the producer alone. -/
theorem popStep_push (s : Spsc α n) : s.popStep.push = s.push := by
  unfold popStep
  cases s.pop with
  | testPop a =>
    by_cases hne : a != s.queue.popIndex
    · simp only [if_pos hne]
    · simp only [if_neg hne]
  | idle => rfl
  | testPush => rfl
  | subscript => rfl
  | loadSlot c => rfl
  | loadIncr v => rfl
  | storeIncr v d => rfl

/-- Every step of a thread moves the thread's own call, and leaves the other one's. -/
theorem object_moves (hn : IsPow2 n) : (object (α := α) (n := n)).Moves Inv where
  inv s i h := step_inv hn h i
  own s i _ := by
    cases i with
    | produce t => exact s.pushStep_moves t
    | consume => exact s.popStep_moves
  others s i t _ ht := by
    cases i with
    | produce v =>
      cases t with
      | producer => exact absurd rfl ht
      | consumer => exact s.pushStep_popPhase v
    | consume =>
      cases t with
      | consumer => exact absurd rfl ht
      | producer =>
        show s.popStep.pushPhase = s.pushPhase
        rw [pushPhase, popStep_push, pushPhase]

/-! ### The calls that take effect -/

/-- The values pushed and not yet popped. -/
def pending (s : Spsc α n) : List α := s.pushed.drop s.popped.length

/-- They are the values the shared queue stands for. -/
theorem Inv.waiting {s : Spsc α n} (hn : IsPow2 n) (h : s.Inv) : s.queue.waiting = s.pending := by
  have hle := hn.le
  have hrw := h.chan.r_le_w
  have hwr := h.chan.w_le
  have hsize : s.queue.size = s.chan.w - s.chan.r := by
    rw [size, h.pushIndex, h.popIndex, ofNat_sub_ofNat hrw (by omega)]
  rw [StaticLockFreeQueue.waiting, hsize, h.popIndex]
  calc window n.toNat s.queue.queue (UInt32.ofNat s.chan.r).toNat (s.chan.w - s.chan.r)
      = window n.toNat s.queue.queue s.chan.r (s.chan.w - s.chan.r) :=
        window_mod_start _ _ (ofNat_mod hn _)
    _ = s.pending := h.chan.window_eq

/-- With room, an uninterrupted `push_back` appends. -/
theorem perform_pushBack (hn : IsPow2 n) (zero t : α) {q : StaticLockFreeQueue α n}
    (h : q.waiting.length < n.toNat) : (perform zero q (.pushBack t)).1 = .pushed true ∧
      (perform zero q (.pushBack t)).2.waiting = q.waiting ++ [t] := by
  rw [waiting_length] at h
  obtain ⟨hok, hwaiting⟩ := (pushBack_spec hn q t).1 h
  exact ⟨congrArg QueueReply.pushed hok, hwaiting⟩

/-- A push to a full queue fails, and changes nothing. -/
theorem perform_pushBack_full (hn : IsPow2 n) (zero t : α) {q : StaticLockFreeQueue α n}
    (h : ¬ q.waiting.length < n.toNat) : perform zero q (.pushBack t) = (.pushed false, q) := by
  rw [waiting_length] at h
  rw [perform, (pushBack_spec hn q t).2 h]

/-- An uninterrupted `pop_front` takes the oldest value. -/
theorem perform_popFront (hn : IsPow2 n) (zero v : α) {vs : List α} {q : StaticLockFreeQueue α n}
    (h : q.waiting = v :: vs) : (perform zero q .popFront).1 = .popped (some v) ∧
      (perform zero q .popFront).2.waiting = vs := by
  obtain ⟨hok, hv, hwaiting⟩ := (popFront_spec hn q zero).1 v vs h
  refine ⟨?_, hwaiting⟩
  rw [perform, hok, hv, if_pos rfl]

/-- So does a pop from an empty one. -/
theorem perform_popFront_empty (hn : IsPow2 n) (zero : α) {q : StaticLockFreeQueue α n}
    (h : q.waiting = []) : perform zero q .popFront = (.popped none, q) := by
  rw [perform, (popFront_spec hn q zero).2 h]
  rfl

/-- What a step of the producer does to the values waiting. -/
theorem pushStep_leaves (hn : IsPow2 n) (zero t : α) {s : Spsc α n} {q : StaticLockFreeQueue α n}
    (h : s.Inv) (hq : q.waiting = s.pending) :
    (s.pushMove t).Leaves (perform zero) q (fun q' => q'.waiting = (s.pushStep t).pending) := by
  have hpush := h.push
  have hpow := hn.le
  have hrw := h.chan.r_le_w
  have hwr := h.chan.w_le
  have hlen : q.waiting.length = s.chan.w - s.chan.r := by
    rw [hq, pending, List.length_drop]
    rfl
  unfold pushMove pushStep
  cases hpc : s.push with
  | idle => exact hq
  | testPush t => exact hq
  | testPop t a =>
    rw [hpc] at hpush
    obtain rfl : a = s.queue.pushIndex := hpush
    by_cases hroom : s.queue.pushIndex - s.queue.popIndex < n
    · simp only [if_pos hroom]
      exact hq
    · -- the push index is the producer's own, so the queue is full now
      have hfull : ¬ q.waiting.length < n.toNat := by
        rw [UInt32.lt_iff_toNat_lt, h.pushIndex, h.popIndex,
            ofNat_sub_ofNat hrw (by omega)] at hroom
        rw [hlen]
        exact hroom
      have hperform := perform_pushBack_full hn zero t hfull
      simp only [if_neg hroom]
      exact ⟨congrArg Prod.fst hperform, by rw [hperform]; exact hq⟩
  | subscript t => exact hq
  | storeSlot t c => exact hq
  | loadIncr t => exact hq
  | storeIncr t d =>
    rw [hpc] at hpush
    obtain ⟨_, hroom, _⟩ := hpush
    obtain ⟨hok, hwaiting⟩ := perform_pushBack hn zero t (q := q) (by omega)
    refine ⟨hok, ?_⟩
    have hle : s.popped.length ≤ s.pushed.length := hrw
    show _ = (s.pushed ++ [t]).drop s.popped.length
    rw [hwaiting, hq, pending, List.drop_append_of_le_length hle]

/-- What a step of the consumer does to the values waiting. -/
theorem popStep_leaves (hn : IsPow2 n) (zero : α) {s : Spsc α n} {q : StaticLockFreeQueue α n}
    (h : s.Inv) (hq : q.waiting = s.pending) :
    s.popMove.Leaves (perform zero) q (fun q' => q'.waiting = s.popStep.pending) := by
  have hpop := h.pop
  unfold popMove popStep
  cases hpc : s.pop with
  | idle => exact hq
  | testPush =>
    by_cases hempty : s.queue.pushIndex = s.queue.popIndex
    · -- the pop index is the consumer's own, so the queue is empty now
      have hnone : q.waiting = [] := by
        rw [hq, ← h.waiting hn, ← isEmpty_iff_waiting, isEmpty, hempty]
        exact beq_self_eq_true _
      have hperform := perform_popFront_empty hn zero hnone
      simp only [if_pos hempty]
      exact ⟨congrArg Prod.fst hperform, by rw [hperform]; exact hq⟩
    · simp only [if_neg hempty]
      exact hq
  | testPop a =>
    by_cases hempty : a = s.queue.popIndex
    · simp only [hempty, bne_self_eq_false, Bool.false_eq_true, if_false, if_true]
      exact hq
    · simp only [if_neg hempty, bne_iff_ne.2 hempty, if_true]
      exact hq
  | subscript => exact hq
  | loadSlot c => exact hq
  | loadIncr v => exact hq
  | storeIncr v d =>
    rw [hpc] at hpop
    obtain ⟨_, hlt, hv⟩ := hpop
    -- what it read is still the oldest value waiting
    have hhead : q.waiting = v :: s.pushed.drop (s.popped.length + 1) := by
      have hv : s.pushed[s.popped.length]? = some v := hv
      rw [hq, pending, List.drop_eq_getElem?_toList_append, hv]
      rfl
    obtain ⟨hok, hwaiting⟩ := perform_popFront hn zero v hhead
    refine ⟨hok, ?_⟩
    show _ = s.pushed.drop (s.popped ++ [v]).length
    rw [hwaiting, List.length_append, List.length_singleton]

/-- **Linearization points.**  The step at which a call takes effect does to the queue what the
    whole call does, and the other steps do nothing to it. -/
theorem object_refines (hn : IsPow2 n) (zero : α) :
    (object (α := α) (n := n)).Refines Inv (perform zero)
      fun s (q : StaticLockFreeQueue α n) => q.waiting = s.pending := by
  intro s i q h hq
  cases i with
  | produce t => exact pushStep_leaves hn zero t h hq
  | consume => exact popStep_leaves hn zero h hq

end Spsc

/-- **The queue is linearizable.**  For every schedule of atomic steps from `init_queue` the calls,
    in the order in which they take effect, return what uninterrupted calls return, and the shared
    queue holds in the end what those leave behind. -/
theorem spsc_linearizable (hn : IsPow2 n) (zero : α) (sched : List (SpscAct α)) :
    ∃ q : StaticLockFreeQueue α n,
      Linearized (perform zero) (initQueue zero)
        (history Spsc.object (Spsc.init (n := n) zero) sched) q ∧
      q.waiting = (sched.foldl Spsc.step (Spsc.init (n := n) zero)).queue.waiting := by
  have hinit := Spsc.init_inv (n := n) zero
  have hstart : (initQueue zero : StaticLockFreeQueue α n).waiting =
      (Spsc.init zero : Spsc α n).pending := waiting_initQueue zero
  have hidle (t : SpscThread) : Spsc.object.phase (Spsc.init zero : Spsc α n) t = .idle := by
    cases t <;> rfl
  obtain ⟨q, hq, hwaiting⟩ :=
    linearized (Spsc.object_moves hn) (Spsc.object_refines hn zero) sched hinit hstart hidle
  exact ⟨q, hq, hwaiting.trans ((Spsc.run_inv hn hinit sched).waiting hn).symm⟩

/-- A `pop_front` that sees an empty queue returns without a value although a `push_back` has
    succeeded in between. -/
theorem spsc_linearizable_two :
    let sched : List (SpscAct ℕ) :=
      List.replicate 2 .consume ++ List.replicate 7 (.produce 5) ++ [.consume]
    ∃ q : StaticLockFreeQueue ℕ 2,
      Linearized (perform 0) (initQueue 0) (history Spsc.object (Spsc.init (n := 2) 0) sched) q ∧
      q.waiting = (sched.foldl Spsc.step (Spsc.init (n := 2) 0)).queue.waiting :=
  spsc_linearizable ⟨1, by decide, rfl⟩ 0 _

end LeoNet
