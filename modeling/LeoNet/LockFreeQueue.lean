import LeoNet.Lib.Circular
import LeoNet.Lib.Counter

namespace LeoNet

open Circular Counter

/-!
# `static_lock_free_queue` — the queue of `leo_lock_free_queue.h`

An array of `n` slots and two free-running `unsigned int` indexes; `n` is a template `int` that
has to be a power of two.  The class has no constructor: only `init_queue` sets the indexes, so
a queue nobody initialised has whatever indexes its memory held.

`waiting` is the list of values a queue stands for; `pushBack_spec` and `popFront_spec` say what
one call does to it.
-/

/-- `template <typename t, int n> class static_lock_free_queue`. -/
structure StaticLockFreeQueue (α : Type*) (n : UInt32) where
  queue : ℕ → α
  pushIndex : UInt32
  popIndex : UInt32

namespace StaticLockFreeQueue

variable {α : Type*} {n : UInt32}

/-- `init_queue()`: indexes to zero, every slot to the all-zero value. -/
def initQueue (zero : α) : StaticLockFreeQueue α n := ⟨fun _ => zero, 0, 0⟩

/-- `push_back(_t)`. -/
def pushBack (q : StaticLockFreeQueue α n) (t : α) : Bool × StaticLockFreeQueue α n :=
  if q.pushIndex - q.popIndex < n then
    (true,
      { q with
        queue := Function.update q.queue (q.pushIndex &&& (n - 1)).toNat t
        pushIndex := q.pushIndex + 1 })
  else (false, q)

/-- `pop_front(t& _t)`: the flag, what `_t` refers to afterwards, the queue. -/
def popFront (q : StaticLockFreeQueue α n) (t : α) : Bool × α × StaticLockFreeQueue α n :=
  if q.pushIndex != q.popIndex then
    (true, q.queue (q.popIndex &&& (n - 1)).toNat, { q with popIndex := q.popIndex + 1 })
  else (false, t, q)

/-- `empty()`, which empties the queue. -/
def empty (q : StaticLockFreeQueue α n) : StaticLockFreeQueue α n :=
  { q with
    pushIndex := 0
    popIndex := 0 }

/-- `is_empty()`. -/
def isEmpty (q : StaticLockFreeQueue α n) : Bool := q.pushIndex == q.popIndex

/-! ### The values a queue stands for -/

/-- The number of values between the indexes. -/
def size (q : StaticLockFreeQueue α n) : ℕ := (q.pushIndex - q.popIndex).toNat

/-- The values between the indexes, oldest first. -/
def waiting (q : StaticLockFreeQueue α n) : List α :=
  window n.toNat q.queue q.popIndex.toNat q.size

/-- As many elements wait as the indexes say. -/
@[simp] theorem waiting_length (q : StaticLockFreeQueue α n) : q.waiting.length = q.size :=
  window_length _ _ _ _

/-- The queue is empty when its indexes agree. -/
theorem isEmpty_iff (q : StaticLockFreeQueue α n) : q.isEmpty = true ↔ q.size = 0 := by
  have := q.pushIndex.toNat_lt
  have := q.popIndex.toNat_lt
  rw [isEmpty, beq_iff_eq, size, ← UInt32.toNat_inj, UInt32.toNat_sub]
  omega

/-- The queue is empty when nothing waits. -/
theorem isEmpty_iff_waiting (q : StaticLockFreeQueue α n) :
    q.isEmpty = true ↔ q.waiting = [] := by
  rw [isEmpty_iff, ← waiting_length, List.length_eq_zero_iff]

/-- Nothing waits in a new queue. -/
@[simp] theorem waiting_initQueue (zero : α) :
    (initQueue zero : StaticLockFreeQueue α n).waiting = [] :=
  (isEmpty_iff_waiting _).mp rfl

/-- The cell of the push index is `size` places after the cell of the pop index. -/
theorem pushIndex_mod (hn : IsPow2 n) (q : StaticLockFreeQueue α n) :
    (q.pushIndex &&& (n - 1)).toNat = (q.popIndex.toNat + q.size) % n.toNat := by
  have hpush : q.pushIndex = q.popIndex + (q.pushIndex - q.popIndex) := by
    apply UInt32.toNat_inj.mp
    have := q.pushIndex.toNat_lt
    have := q.popIndex.toNat_lt
    rw [UInt32.toNat_add, UInt32.toNat_sub]
    omega
  rw [mask_toNat hn, hpush, add_mod hn]
  rfl

/-- `push_back` appends when fewer than `n` values wait, and otherwise changes nothing. -/
theorem pushBack_spec (hn : IsPow2 n) (q : StaticLockFreeQueue α n) (t : α) :
    (q.size < n.toNat → (q.pushBack t).1 = true ∧ (q.pushBack t).2.waiting = q.waiting ++ [t]) ∧
      (¬ q.size < n.toNat → q.pushBack t = (false, q)) := by
  have hiff : q.pushIndex - q.popIndex < n ↔ q.size < n.toNat := UInt32.lt_iff_toNat_lt
  unfold pushBack
  constructor
  · intro hlt
    rw [if_pos (hiff.mpr hlt)]
    refine ⟨rfl, ?_⟩
    have hle := hn.le
    -- the indices run free and wrap, but their difference does not
    have hsize : (q.pushIndex + 1 - q.popIndex).toNat = q.size + 1 := by
      have := q.pushIndex.toNat_lt
      have := q.popIndex.toNat_lt
      simp only [size, UInt32.toNat_sub, UInt32.toNat_add, UInt32.toNat_one] at *
      omega
    rw [waiting, size]
    show window _ (Function.update q.queue (q.pushIndex &&& (n - 1)).toNat t) _
      (q.pushIndex + 1 - q.popIndex).toNat = _
    rw [hsize, pushIndex_mod hn, window_update_next q.queue t hlt]
    rfl
  · intro hlt
    rw [if_neg (fun h => hlt (hiff.mp h))]

/-- `pop_front` hands over the oldest value and removes it; on an empty queue it changes
    nothing. -/
theorem popFront_spec (hn : IsPow2 n) (q : StaticLockFreeQueue α n) (t : α) :
    (∀ v vs, q.waiting = v :: vs →
      (q.popFront t).1 = true ∧ (q.popFront t).2.1 = v ∧ (q.popFront t).2.2.waiting = vs) ∧
      (q.waiting = [] → q.popFront t = (false, t, q)) := by
  have hne : (q.pushIndex != q.popIndex) = true ↔ q.waiting ≠ [] := by
    rw [ne_eq, ← isEmpty_iff_waiting, isEmpty, bne]
    simp
  unfold popFront
  constructor
  · intro v vs hw
    rw [if_pos (hne.mpr (by rw [hw]; exact List.cons_ne_nil v vs))]
    obtain ⟨k, hk⟩ : ∃ k, q.size = 1 + k := by
      have hlen := congrArg List.length hw
      rw [waiting_length, List.length_cons] at hlen
      exact ⟨vs.length, by omega⟩
    have hsize : (q.pushIndex - (q.popIndex + 1)).toNat = k := by
      have := q.pushIndex.toNat_lt
      have := q.popIndex.toNat_lt
      simp only [size, UInt32.toNat_sub, UInt32.toNat_add, UInt32.toNat_one] at *
      omega
    -- the oldest value stands in the cell of `pop_index`, the others behind it
    have hsplit : v :: vs = q.queue (q.popIndex.toNat % n.toNat) ::
        window n.toNat q.queue (q.popIndex.toNat + 1) k := by
      rw [← hw, waiting, hk, window_add, window_one]
      rfl
    obtain ⟨rfl, rfl⟩ := List.cons.inj hsplit
    refine ⟨rfl, by rw [mask_toNat hn], ?_⟩
    show window _ q.queue (q.popIndex + 1).toNat (q.pushIndex - (q.popIndex + 1)).toNat = _
    rw [hsize]
    exact window_mod_start _ _ (add_mod hn _ _)
  · intro hw
    rw [if_neg (fun h => hne.mp h hw)]

end StaticLockFreeQueue

end LeoNet
