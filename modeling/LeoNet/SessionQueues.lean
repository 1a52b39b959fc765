import LeoNet.NetSession
import LeoNet.Lib.Machine

namespace LeoNet

open Machine

/-!
# The session's queues — `push_to_…` and `fetch_from_…` of `leo_net_session.h`

The four wrappers hand their pointer to the queue's own `push_back` and `pop_front`.  The fetch
wrappers take it by value, so that the caller never sees what `pop_front` stored.

* `queueStep_push` / `queueStep_fetch` — a call is one operation of the queue it is about;
* `queueStep_failed` — a call that fails leaves the session as it was;
* `queueStep_conserves` — while callers already hold what they fetch, nothing is lost or made up
  on its way through a queue;
* `deliversPushed_iff_held` — and only then does the law of the queues hold.
-/

/-- The two queues of a session. -/
inductive QueueName where
  | read
  | write
  deriving DecidableEq

/-- `__read_queue` or `__write_queue`. -/
def NetSession.queue (s : NetSession) : QueueName → MessageQueue
  | .read => s.readQueue
  | .write => s.writeQueue

/-- The session with another queue in its place. -/
def NetSession.setQueue (s : NetSession) : QueueName → MessageQueue → NetSession
  | .read, q => { s with readQueue := q }
  | .write, q => { s with writeQueue := q }

/-- The session after `init_queue` of both queues. -/
def NetSession.initQueues (s : NetSession) (null : MessagePtr) : NetSession :=
  { s with
    readQueue := .initQueue null
    writeQueue := .initQueue null }

/-- A call of one of the four wrappers; `nm` is what the caller's variable holds. -/
inductive QueueCall where
  | push (which : QueueName) (nm : MessagePtr)
  | fetch (which : QueueName) (nm : MessagePtr)

/-- A call that returned: its flag, and what the caller's variable holds now. -/
structure QueueEvent where
  call : QueueCall
  ok : Bool
  nm : MessagePtr

/-- One call.  Every wrapper takes its pointer by value, so `nm` is what the caller keeps. -/
def queueStep (s : NetSession) : QueueCall → Option (QueueEvent × NetSession)
  | .push .read nm =>
    some (⟨.push .read nm, (s.pushToReadqueue nm).1, nm⟩, (s.pushToReadqueue nm).2)
  | .push .write nm =>
    some (⟨.push .write nm, (s.pushToWritequeue nm).2.1, nm⟩, (s.pushToWritequeue nm).2.2)
  | .fetch .read nm =>
    some (⟨.fetch .read nm, (s.fetchFromReadqueue nm).1, nm⟩, (s.fetchFromReadqueue nm).2)
  | .fetch .write nm =>
    some (⟨.fetch .write nm, (s.fetchFromWritequeue nm).1, nm⟩, (s.fetchFromWritequeue nm).2)

/-- What the call pushed to the queue `w`. -/
def QueueEvent.pushed (w : QueueName) (e : QueueEvent) : List MessagePtr :=
  match e.call with
  | .push which nm => if which = w ∧ e.ok then [nm] else []
  | .fetch _ _ => []

/-- What the caller got from the queue `w`. -/
def QueueEvent.fetched (w : QueueName) (e : QueueEvent) : List MessagePtr :=
  match e.call with
  | .push _ _ => []
  | .fetch which _ => if which = w ∧ e.ok then [e.nm] else []

/-- The law of the queues: callers get from each queue what was pushed to it, in order, and a
    call that fails leaves the session as it was. -/
def DeliversPushed (s : NetSession) (calls : List QueueCall) : Prop :=
  ∃ es t, run queueStep s calls = some (es, t) ∧
    (∀ w, es.flatMap (·.fetched w) <+: es.flatMap (·.pushed w)) ∧
    AllTransitions queueStep (fun s _ e t => e.ok = false → t = s) s calls

/-- Whoever fetches from a queue that is not empty already holds the pointer that heads it. -/
def Held (s : NetSession) : QueueCall → Prop
  | .push _ _ => True
  | .fetch w nm => ∀ v ∈ (s.queue w).waiting.head?, nm = v

section Calls

variable {s t : NetSession} {c : QueueCall} {e : QueueEvent}

/-- The queue that was set. -/
@[simp] theorem queue_setQueue (s : NetSession) (w : QueueName) (q : MessageQueue) :
    (s.setQueue w q).queue w = q := by
  cases w <;> rfl

/-- The other queue is left alone. -/
theorem queue_setQueue_of_ne {w w' : QueueName} (h : w ≠ w') (q : MessageQueue) :
    (s.setQueue w q).queue w' = s.queue w' := by
  cases w <;> cases w' <;> first | rfl | exact absurd rfl h

@[simp] theorem setQueue_queue (s : NetSession) (w : QueueName) : s.setQueue w (s.queue w) = s := by
  cases w <;> rfl

/-- A push, as a step. -/
theorem queueStep_push (s : NetSession) (w : QueueName) (nm : MessagePtr) :
    queueStep s (.push w nm) =
      some (⟨.push w nm, ((s.queue w).pushBack nm).1, nm⟩,
        s.setQueue w ((s.queue w).pushBack nm).2) := by
  cases w <;> rfl

/-- What `pop_front` stored, its second result, is dropped. -/
theorem queueStep_fetch (s : NetSession) (w : QueueName) (nm : MessagePtr) :
    queueStep s (.fetch w nm) =
      some (⟨.fetch w nm, ((s.queue w).popFront nm).1, nm⟩,
        s.setQueue w ((s.queue w).popFront nm).2.2) := by
  cases w <;> rfl

/-- A call that fails leaves the session as it was. -/
theorem queueStep_failed (h : queueStep s c = some (e, t)) (hok : e.ok = false) : t = s := by
  cases c with
  | push w nm =>
    have hspec := (s.queue w).pushBack_spec isPow2_maxQueueLen nm
    rw [queueStep_push] at h
    cases h
    by_cases hroom : (s.queue w).size < MAX_QUEUE_LEN.toNat
    · exact absurd (hok.symm.trans (hspec.1 hroom).1) Bool.false_ne_true
    · rw [hspec.2 hroom, setQueue_queue]
  | fetch w nm =>
    have hspec := (s.queue w).popFront_spec isPow2_maxQueueLen nm
    rw [queueStep_fetch] at h
    cases h
    rcases hw : (s.queue w).waiting with _ | ⟨v, vs⟩
    · rw [hspec.2 hw, setQueue_queue]
    · exact absurd (hok.symm.trans (hspec.1 v vs hw).1) Bool.false_ne_true

/-- While callers already hold what they fetch, what was waiting and what is pushed is what is
    fetched and what waits afterwards. -/
theorem queueStep_conserves (h : queueStep s c = some (e, t)) (hheld : Held s c) (w : QueueName) :
    (s.queue w).waiting ++ e.pushed w = e.fetched w ++ (t.queue w).waiting := by
  cases c with
  | push w' nm =>
    have hspec := (s.queue w').pushBack_spec isPow2_maxQueueLen nm
    rw [queueStep_push] at h
    cases h
    by_cases hw : w' = w
    · subst hw
      -- a full queue refuses, and then nothing is pushed
      by_cases hroom : (s.queue w').size < MAX_QUEUE_LEN.toNat
      · simp [QueueEvent.pushed, QueueEvent.fetched, (hspec.1 hroom).1, (hspec.1 hroom).2]
      · simp [QueueEvent.pushed, QueueEvent.fetched, hspec.2 hroom]
    · rw [queue_setQueue_of_ne hw]
      simp [QueueEvent.pushed, QueueEvent.fetched, hw]
  | fetch w' nm =>
    have hspec := (s.queue w').popFront_spec isPow2_maxQueueLen nm
    rw [queueStep_fetch] at h
    cases h
    by_cases hw : w' = w
    · subst hw
      -- an empty queue has nothing to fetch; otherwise the oldest pointer is removed
      rcases hwait : (s.queue w').waiting with _ | ⟨v, vs⟩
      · simp [QueueEvent.pushed, QueueEvent.fetched, hspec.2 hwait, hwait]
      · obtain ⟨hflag, -, hrest⟩ := hspec.1 v vs hwait
        obtain rfl : nm = v := hheld v (by rw [hwait]; rfl)
        simp [QueueEvent.pushed, QueueEvent.fetched, hflag, hrest]
    · rw [queue_setQueue_of_ne hw]
      simp [QueueEvent.pushed, QueueEvent.fetched, hw]

/-- A caller that did not hold the pointer it fetched is left with another one. -/
theorem queueStep_not_held (h : queueStep s c = some (e, t)) (hnot : ¬ Held s c) :
    ∃ w v vs nm, (s.queue w).waiting = v :: vs ∧ e.fetched w = [nm] ∧ e.pushed w = [] ∧
      nm ≠ v := by
  cases c with
  | push w nm => exact absurd trivial hnot
  | fetch w nm =>
    have hspec := (s.queue w).popFront_spec isPow2_maxQueueLen nm
    rw [queueStep_fetch] at h
    cases h
    rcases hwait : (s.queue w).waiting with _ | ⟨v, vs⟩
    · refine absurd (fun v hv => ?_) hnot
      rw [hwait] at hv
      cases hv
    · refine ⟨w, v, vs, nm, hwait, ?_, rfl, fun hv => hnot fun u hu => ?_⟩
      · simp [QueueEvent.fetched, (hspec.1 v vs hwait).1]
      · rw [hwait, List.head?_cons, Option.mem_some_iff] at hu
        rw [hv, hu]

/-- Every call returns. -/
theorem queueStep_total (s : NetSession) (c : QueueCall) :
    ∃ e t, queueStep s c = some (e, t) := by
  cases c with
  | push w nm => exact ⟨_, _, queueStep_push s w nm⟩
  | fetch w nm => exact ⟨_, _, queueStep_fetch s w nm⟩

/-- From books that balance, `acc` having been pushed and `del` fetched so far, a run keeps the
    order of what is pushed exactly when callers hold what they fetch. -/
theorem prefix_iff_held {calls : List QueueCall} {es : List QueueEvent}
    {acc del : QueueName → List MessagePtr} (hbooks : ∀ w, acc w = del w ++ (s.queue w).waiting)
    (hrun : run queueStep s calls = some (es, t)) :
    (∀ w, del w ++ es.flatMap (·.fetched w) <+: acc w ++ es.flatMap (·.pushed w)) ↔
      AllSteps queueStep Held s calls := by
  -- the balance of the books is what the induction carries
  induction calls generalizing s es acc del with
  | nil =>
    cases hrun
    refine iff_of_true (fun w => ?_) trivial
    rw [List.flatMap_nil, List.flatMap_nil, List.append_nil, List.append_nil, hbooks w]
    exact List.prefix_append _ _
  | cons c calls ih =>
    obtain ⟨e, u, es', hstep, hrun', rfl⟩ := run_cons_eq_some.mp hrun
    by_cases hheld : Held s c
    · -- the books balance after the call as well
      have hbooks' : ∀ w, acc w ++ e.pushed w = (del w ++ e.fetched w) ++ (u.queue w).waiting := by
        intro w
        rw [hbooks w, List.append_assoc, queueStep_conserves hstep hheld, List.append_assoc]
      rw [AllSteps, hstep]
      simp only [List.flatMap_cons, ← List.append_assoc, hheld, true_and]
      exact ih hbooks' hrun'
    · refine iff_of_false (fun hall => ?_) (fun hall => hheld hall.head)
      -- in that queue the pointer fetched and the one that was due are both next in the order
      obtain ⟨w, v, vs, nm, hwait, hfetched, hpushed, hne⟩ := queueStep_not_held hstep hheld
      have hw := hall w
      rw [List.flatMap_cons, List.flatMap_cons, hfetched, hpushed, hbooks w, hwait,
          List.append_assoc, List.prefix_append_right_inj, List.singleton_append,
          List.cons_append, List.cons_prefix_cons] at hw
      exact hne hw.1

/-- A run of calls always returns, and those that fail leave the session as it was. -/
theorem run_queueStep (s : NetSession) (calls : List QueueCall) :
    (∃ es t, run queueStep s calls = some (es, t)) ∧
      AllTransitions queueStep (fun s _ e t => e.ok = false → t = s) s calls := by
  constructor
  · apply run_defined
    intro c _ s
    exact queueStep_total s c
  · apply AllTransitions.of_forall
    intro s c e t hstep
    exact queueStep_failed hstep

end Calls

/-- **The law of the queues holds exactly as far as callers know what they fetch.**  After the
    queues have been initialised, callers get what was pushed exactly when, at every fetch from
    a queue that is not empty, their variable already holds the pointer that heads it. -/
theorem deliversPushed_iff_held (s : NetSession) (null : MessagePtr) (calls : List QueueCall) :
    DeliversPushed (s.initQueues null) calls ↔
      AllSteps queueStep Held (s.initQueues null) calls := by
  obtain ⟨⟨es, t, hrun⟩, hfailed⟩ := run_queueStep (s.initQueues null) calls
  have hempty : ∀ w, ([] : List MessagePtr) = [] ++ ((s.initQueues null).queue w).waiting := by
    intro w
    cases w <;> exact (StaticLockFreeQueue.waiting_initQueue null).symm
  rw [← prefix_iff_held hempty hrun]
  constructor
  · rintro ⟨es', t', hrun', hprefix, -⟩
    rw [hrun] at hrun'
    cases hrun'
    exact hprefix
  · intro hprefix
    exact ⟨es, t, hrun, hprefix, hfailed⟩

/-- The pointer `1` is pushed to the read queue; who fetches it with a variable that holds `0`
    is left with `0`. -/
theorem deliversPushed_fails :
    ¬ DeliversPushed ((NetSession.new .zeroed).initQueues 0) [.push .read 1, .fetch .read 0] := by
  rintro ⟨es, t, hrun, hprefix, -⟩
  have hbad : ((run queueStep ((NetSession.new .zeroed).initQueues 0)
      [.push .read 1, .fetch .read 0]).map fun r =>
        (r.1.flatMap (·.pushed .read), r.1.flatMap (·.fetched .read))) = some ([1], [0]) := by
    decide
  rw [hrun, Option.map_some, Option.some_inj, Prod.mk.injEq] at hbad
  have hread := hprefix .read
  rw [hbad.1, hbad.2] at hread
  exact absurd hread (by decide)

end LeoNet
