import LeoNet.ServiceMessages
import Mathlib.Algebra.BigOperators.Group.Finset.Basic
import Mathlib.Algebra.Order.Group.Multiset
import Mathlib.Data.Fintype.Basic
import Mathlib.Tactic.Abel

namespace LeoNet

open Machine EventLoop

/-!
# Where the messages of the network service are

Every message that `on_read` allocates is accounted for: it waits in a read queue, was fetched from
one, or was dropped because its queue was full.  Nothing frees those dropped.

* `sum_update` — the messages of all queues, when one queue changes;
* `Accounted.move` — a `MessageMove` keeps the account;
* `messages_accounted` — so it is right in every run.
-/

/-- What the queues held when the heap held `n` messages, `first`, and the messages allocated since
    then are those fetched, those in the queues and those dropped, each as often. -/
structure Accounted (n : ℕ) (first : Multiset MessagePtr) (fetched dropped : List MessagePtr)
    (queued : SessionPtr → List MessagePtr) (heap : Heap) : Prop where
  le : n ≤ heap.length
  account : first + List.range' n (heap.length - n) =
    fetched + ∑ p, (queued p : Multiset MessagePtr) + dropped

section Account

variable {queued : SessionPtr → List MessagePtr}

/-- The messages of all queues, before and after the queue of `p` became `xs`. -/
theorem sum_update (queued : SessionPtr → List MessagePtr) (p : SessionPtr) (xs : List MessagePtr) :
    ∃ rest : Multiset MessagePtr, ∑ q, (queued q : Multiset MessagePtr) = queued p + rest ∧
      ∑ q, (Function.update queued p xs q : Multiset MessagePtr) = xs + rest := by
  have hsplit (f : SessionPtr → List MessagePtr) : ∑ q, (f q : Multiset MessagePtr) =
      f p + ∑ q ∈ Finset.univ.erase p, (f q : Multiset MessagePtr) :=
    (Finset.add_sum_erase _ _ (Finset.mem_univ p)).symm
  refine ⟨_, hsplit queued, ?_⟩
  rw [hsplit, Function.update_self]
  congr 1
  refine Finset.sum_congr rfl fun q hq => ?_
  rw [Function.update_of_ne (Finset.ne_of_mem_erase hq)]

/-- What `on_read` allocates is stored or dropped. -/
theorem stored_add_dropped (es : List FrameEvent) :
    (es.map (·.message) : Multiset MessagePtr) =
      ((es.filter (·.stored)).map (·.message) : List MessagePtr) +
        ((es.filter (!·.stored)).map (·.message) : List MessagePtr) := by
  rw [Multiset.coe_add, ← List.map_append]
  exact Multiset.coe_eq_coe.2 ((List.filter_append_perm (·.stored) es).map _).symm

namespace Accounted

variable {n : ℕ} {first : Multiset MessagePtr} {fetched dropped : List MessagePtr} {heap : Heap}

/-- **One move** keeps the account. -/
theorem move (h : Accounted n first fetched dropped queued heap) {o : ServiceOut}
    {queued' : SessionPtr → List MessagePtr} {heap' : Heap}
    (hmove : MessageMove queued heap o queued' heap') :
    Accounted n first (fetched ++ fetchedOf [o]) (dropped ++ droppedOf [o]) queued' heap' := by
  obtain ⟨hle, haccount⟩ := h
  cases hmove with
  | still hfetched hdropped =>
    rw [hfetched, hdropped, List.append_nil, List.append_nil]
    exact ⟨hle, haccount⟩
  | @read p es hnew =>
    have hfetched : fetchedOf [.read es] = [] := rfl
    have hdropped : droppedOf [.read es] = (es.filter (!·.stored)).map (·.message) :=
      List.append_nil _
    obtain ⟨rest, hold, hall⟩ := sum_update queued p
      (queued p ++ (es.filter (·.stored)).map (·.message))
    rw [hold] at haccount
    refine ⟨?_, ?_⟩
    · rw [List.length_append]
      exact hle.trans (Nat.le_add_right _ _)
    · have hlen : (heap ++ List.replicate es.length NetMessage.new).length - n =
          heap.length - n + es.length := by
        rw [List.length_append, List.length_replicate]
        omega
      have hend : n + 1 * (heap.length - n) = heap.length := by omega
      -- the new messages follow those that the account held before
      rw [hfetched, hdropped, List.append_nil, hall, hlen, ← List.range'_append, hend,
          ← Multiset.coe_add, ← add_assoc, haccount, ← hnew, stored_add_dropped, ← Multiset.coe_add,
          ← Multiset.coe_add]
      abel
  | @fetch p v vs hp =>
    have hfetched : fetchedOf [.fetched (some v)] = [v] := rfl
    have hdropped : droppedOf [.fetched (some v)] = [] := rfl
    obtain ⟨rest, hold, hall⟩ := sum_update queued p vs
    rw [hold, hp, ← List.singleton_append, ← Multiset.coe_add] at haccount
    refine ⟨hle, ?_⟩
    rw [hfetched, hdropped, List.append_nil, hall, haccount, ← Multiset.coe_add]
    abel

end Accounted

end Account

/-- **Messages are accounted for.**  In every run, what the read queues held at the start and the
    messages that `on_read` has allocated are, each as often, those fetched, those that wait in read
    queues and those of the frames that were taken while the read queue was full. -/
theorem messages_accounted {lib : EventLibrary NetEvent} (table : UInt8 → UInt32)
    (mem : SessionPtr → RawSession) (heap : Heap) (s t : NetService lib) (acts : List ServiceAct)
    (os : List ServiceOut) (hstart : s.Starts mem heap)
    (hfrom : AllSteps (NetService.step table) NetService.FromSystem s acts)
    (hrun : run (NetService.step table) s acts = some (os, t)) :
    Accounted heap.length (∑ p, ((mem p).readQueue.waiting : Multiset MessagePtr)) (fetchedOf os)
      (droppedOf os) t.queued t.server.heap := by
  set first := ∑ p, ((mem p).readQueue.waiting : Multiset MessagePtr) with hfirst
  have haccount : Accounted heap.length first (fetchedOf []) (droppedOf []) s.queued
      s.server.heap := by
    obtain ⟨hqueued, hheap⟩ := queued_start hstart
    rw [hqueued, hheap]
    refine ⟨le_refl _, ?_⟩
    rw [Nat.sub_self, hfirst]
    show _ + 0 = 0 + _ + 0
    rw [zero_add]
  refine (run_inv_history (J := fun past (s : NetService lib) => s.Inv ∧
    Accounted heap.length first (fetchedOf past) (droppedOf past) s.queued s.server.heap) ?_
    ⟨NetService.inv_start hstart, haccount⟩ hfrom hrun).2
  rintro past s a o t ⟨hinv, haccount⟩ hf hstep
  refine ⟨NetService.inv_step hinv hf hstep, ?_⟩
  rw [fetchedOf_append, droppedOf_append]
  exact haccount.move (messages_step hinv hf hstep)

/-- Memory whose read queues hold 127 messages, and so have room for one. -/
def crowdedMem (_ : SessionPtr) : RawSession :=
  { RawSession.zeroed with readQueue := ⟨fun i => i, MAX_QUEUE_LEN - 1, 0⟩ }

/-- The messages that wait there. -/
def crowdedHeap : Heap := List.replicate 127 NetMessage.new

/-- The service that starts with them. -/
def crowdedService : ListService :=
  (NetService.start _ 3 crowdedMem crowdedHeap true true).get rfl

/-- A connection that receives two frames at once, and of which a message is fetched. -/
def twoFrames : List ServiceAct :=
  [.accept 5 true true true 0 fun _ => 0, .readable 5 (.bytes [4, 0, 0, 0, 4, 0, 0, 0]),
    .fetch NetService.firstSession 0]

/-- The message of the second frame is dropped, and the first of those that waited is fetched. -/
theorem messages_accounted_crowded : ∃ os t,
    run (NetService.step initialCrc32Table) crowdedService twoFrames = some (os, t) ∧
      droppedOf os = [128] ∧ fetchedOf os = [0] ∧
      Accounted crowdedHeap.length (∑ p, ((crowdedMem p).readQueue.waiting : Multiset MessagePtr))
        (fetchedOf os) (droppedOf os) t.queued t.server.heap := by
  obtain ⟨⟨os, t⟩, hrun, hmoved⟩ : ∃ r,
      run (NetService.step initialCrc32Table) crowdedService twoFrames = some r ∧
        decide (droppedOf r.1 = [128] ∧ fetchedOf r.1 = [0]) = true :=
    (Option.any_eq_true _ _).mp (by decide +kernel)
  obtain ⟨hdropped, hfetched⟩ := of_decide_eq_true hmoved
  exact ⟨os, t, hrun, hdropped, hfetched, messages_accounted _ _ _ _ _ _ _ ⟨3, true, true, rfl⟩
    (by decide +kernel) hrun⟩

end LeoNet
