import LeoNet.RingBuffer
import LeoNet.Lib.BoundedFifo
import LeoNet.Lib.Machine

namespace LeoNet

open Memory Circular Counter

/-!
# `ring_buffer` refines a bounded byte queue

* `RingOp` / `RingBuffer.perform` — the operations of the class as the inputs of one machine;
* `fifoPerform` — the same operations on a `BoundedFifo`, the statement of what a ring is for.
  It is defined on every operation except a `seek_write` of more than the last `peek_write`
  left behind the queue;
* `Represents` — the ring stores the queue, and the staged bytes right behind it;
* `ringBuffer_refines_fifo` — every permitted sequence of operations gives the same results on
  both and leaves the ring storing the queue's bytes, however often the counters wrap.
-/

/-- The public operations of `ring_buffer`. -/
inductive RingOp where
  | kfifoPut (buffer : ℕ → UInt8) (len : UInt32)
  | kfifoGet (len : UInt32)
  | peekRead (len : UInt32)
  | seekRead (len : UInt32)
  | peekWrite (buffer : ℕ → UInt8) (len : UInt32)
  | seekWrite (len : UInt32)
  | clear

/-- What an operation hands back: a length, a length and the bytes stored to the caller's
    buffer, or a flag. -/
inductive RingResult where
  | count (n : ℕ)
  | bytes (n : ℕ) (bs : List UInt8)
  | ok (b : Bool)
  | done
  deriving DecidableEq

/-- One operation on the ring. -/
def RingBuffer.perform (r : RingBuffer) : RingOp → RingResult × RingBuffer
  | .kfifoPut buffer len =>
      let (n, r') := r.kfifoPut buffer len
      (.count n.toNat, r')
  | .kfifoGet len =>
      let (n, bs, r') := r.kfifoGet len
      (.bytes n.toNat bs, r')
  | .peekRead len =>
      let (n, bs) := r.peekRead len
      (.bytes n.toNat bs, r)
  | .seekRead len =>
      let (b, r') := r.seekRead len
      (.ok b, r')
  | .peekWrite buffer len =>
      let (n, r') := r.peekWrite buffer len
      (.count n.toNat, r')
  | .seekWrite len =>
      let (b, r') := r.seekWrite len
      (.ok b, r')
  | .clear => (.done, r.clear)

/-- The ring as a machine. -/
def ringStep (r : RingBuffer) (op : RingOp) : Option (RingResult × RingBuffer) :=
  some (r.perform op)

/-- One operation on the abstract queue. -/
def fifoPerform (q : BoundedFifo UInt8) : RingOp → Option (RingResult × BoundedFifo UInt8)
  | .kfifoPut buffer len =>
      some (.count (min len.toNat q.free), q.put (load buffer 0 len.toNat))
  | .kfifoGet len =>
      let n := min len.toNat q.items.length
      some (.bytes n (q.items.take n), q.drop n)
  | .peekRead len =>
      if len.toNat ≤ q.items.length then some (.bytes len.toNat (q.items.take len.toNat), q)
      else some (.bytes 0 [], q)
  | .seekRead len =>
      if len.toNat ≤ q.items.length then some (.ok true, q.drop len.toNat)
      else some (.ok false, q)
  | .peekWrite buffer len =>
      if q.items.length + len.toNat ≤ q.cap then
        some (.count len.toNat, q.stage (load buffer 0 len.toNat))
      else some (.count 0, q.stage [])
  | .seekWrite len => (q.commit len.toNat).map fun q' => (.ok true, q')
  | .clear => some (.done, q.clear)

/-- The ring stores the queue's bytes, and the staged ones right behind them. -/
structure Represents (r : RingBuffer) (q : BoundedFifo UInt8) : Prop where
  cap : q.cap = r.cap
  items : r.contents = q.items
  staged : window r.cap r.ringBuffer r.writeP.toNat q.staged.length = q.staged

namespace Represents

variable {r : RingBuffer} {q : BoundedFifo UInt8}

/-- As many items as the counters say. -/
theorem length (h : Represents r q) : q.items.length = r.used.toNat := by
  rw [← h.items, RingBuffer.contents_length]

/-- A ring whose queue has nothing staged behind it. -/
theorem of_unstaged {q' : BoundedFifo UInt8} (hcap : q'.cap = r.cap)
    (hitems : r.contents = q'.items) (hstaged : q'.staged = []) : Represents r q' :=
  ⟨hcap, hitems, by rw [hstaged]; rfl⟩

/-- Operations that only move the read counter leave the staged bytes where they are. -/
theorem of_read {r' : RingBuffer} {k : ℕ} (h : Represents r q)
    (hc : r'.bufferSize = r.bufferSize) (hm : r'.ringBuffer = r.ringBuffer)
    (hw : r'.writeP = r.writeP) (hr : r'.contents = r.contents.drop k) :
    Represents r' (q.drop k) where
  cap := by
    rw [RingBuffer.cap, hc]
    exact h.cap
  items := by
    rw [hr, h.items]
    rfl
  staged := by
    rw [RingBuffer.cap, hc, hm, hw]
    exact h.staged

/-- `put` accepts as much as there is room for. -/
theorem kfifoPut (h : Represents r q) (buffer : ℕ → UInt8) (len : UInt32) :
    (r.kfifoPut buffer len).1.toNat = min len.toNat q.free ∧
      Represents (r.kfifoPut buffer len).2 (q.put (load buffer 0 len.toNat)) := by
  have hfree : q.free = r.cap - r.used.toNat := by rw [BoundedFifo.free, h.cap, h.length]
  obtain ⟨hn, hcon⟩ := r.kfifoPut_spec buffer len
  rw [← hfree] at hn hcon
  refine ⟨hn, of_unstaged ?_ ?_ rfl⟩
  · rw [RingBuffer.cap, RingBuffer.kfifoPut_bufferSize]
    exact h.cap
  · rw [hcon, h.items, ← load_take]
    rfl

/-- `get` takes as much as there is. -/
theorem kfifoGet (h : Represents r q) (len : UInt32) :
    (r.kfifoGet len).1.toNat = min len.toNat q.items.length ∧
      (r.kfifoGet len).2.1 = q.items.take (min len.toNat q.items.length) ∧
      Represents (r.kfifoGet len).2.2 (q.drop (min len.toNat q.items.length)) := by
  obtain ⟨hn, hbs, hcon⟩ := r.kfifoGet_spec len
  rw [h.length]
  refine ⟨hn, by rw [hbs, h.items], h.of_read ?_ ?_ ?_ hcon⟩ <;>
    · unfold RingBuffer.kfifoGet
      split <;> rfl

/-- `seek_read` drops items. -/
theorem seekRead (h : Represents r q) {len : UInt32} (hlen : len.toNat ≤ q.items.length) :
    (r.seekRead len).1 = true ∧ Represents (r.seekRead len).2 (q.drop len.toNat) := by
  rw [h.length] at hlen
  obtain ⟨hok, hcon⟩ := (r.seekRead_spec len).1 hlen
  refine ⟨hok, h.of_read ?_ ?_ ?_ hcon⟩ <;>
    · unfold RingBuffer.seekRead
      split <;> rfl

/-- `peek_write` stages items behind those of the queue. -/
theorem peekWrite (h : Represents r q) (buffer : ℕ → UInt8) {len : UInt32}
    (hlen : q.items.length + len.toNat ≤ q.cap) :
    (r.peekWrite buffer len).1 = len ∧
      Represents (r.peekWrite buffer len).2 (q.stage (load buffer 0 len.toNat)) := by
  have hlen' : r.used.toNat + len.toNat ≤ r.cap := by rwa [← h.cap, ← h.length]
  obtain ⟨hn, hcon, hwin⟩ := (r.peekWrite_spec buffer len).1 hlen'
  have hfit : q.items.length + (load buffer 0 len.toNat).length ≤ q.cap := by simpa using hlen
  refine ⟨hn, ?_⟩
  rw [BoundedFifo.stage, dif_pos hfit]
  have hcap : (r.peekWrite buffer len).2.cap = r.cap := by
    rw [RingBuffer.cap, RingBuffer.peekWrite_bufferSize]
    rfl
  have hwp : (r.peekWrite buffer len).2.writeP = r.writeP := by
    unfold RingBuffer.peekWrite
    split <;> rfl
  exact ⟨by rw [hcap]; exact h.cap, by rw [hcon]; exact h.items,
    by rw [hcap, hwp, load_length]; exact hwin⟩

/-- `seek_write` commits what was staged. -/
theorem seekWrite (h : Represents r q) {len : UInt32} {q' : BoundedFifo UInt8}
    (hcommit : q.commit len.toNat = some q') :
    (r.seekWrite len).1 = true ∧ Represents (r.seekWrite len).2 q' := by
  unfold BoundedFifo.commit at hcommit
  split at hcommit
  case isFalse => cases hcommit
  case isTrue hk =>
    have hbound := q.bound
    have hlen : r.used.toNat + len.toNat ≤ r.cap := by
      rw [← h.cap, ← h.length]
      omega
    obtain ⟨hok, hcon⟩ := (r.seekWrite_spec len).1 hlen
    have hr : (r.seekWrite len).2.bufferSize = r.bufferSize ∧
        (r.seekWrite len).2.ringBuffer = r.ringBuffer ∧
        (r.seekWrite len).2.writeP = r.writeP + len := by
      unfold RingBuffer.seekWrite at hok ⊢
      split at hok
      · cases hok
      · rename_i hfree
        rw [dif_neg hfree]
        exact ⟨rfl, rfl, rfl⟩
    obtain ⟨hc, hm, hw⟩ := hr
    cases hcommit
    -- the first `len` staged bytes join the queue, the others stay behind it
    refine ⟨hok, ?_, ?_, ?_⟩
    · rw [RingBuffer.cap, hc]
      exact h.cap
    · rw [hcon, h.items, ← window_take _ _ _ hk, h.staged]
    · have hdrop := window_drop r.cap r.ringBuffer r.writeP.toNat hk
      rw [h.staged] at hdrop
      rw [RingBuffer.cap, hc, hm, hw, List.length_drop]
      exact (window_mod_start _ _ (add_mod r.pow2 _ _)).trans hdrop.symm

/-- Every step of the queue is matched by the ring, with the same result. -/
theorem perform (h : Represents r q) {op : RingOp} {res : RingResult} {q' : BoundedFifo UInt8}
    (hop : fifoPerform q op = some (res, q')) :
    ∃ r', ringStep r op = some (res, r') ∧ Represents r' q' := by
  cases op with
  | kfifoPut buffer len =>
    cases hop
    obtain ⟨hn, hrep⟩ := h.kfifoPut buffer len
    exact ⟨_, by rw [← hn]; rfl, hrep⟩
  | kfifoGet len =>
    cases hop
    obtain ⟨hn, hbs, hrep⟩ := h.kfifoGet len
    exact ⟨_, by rw [← hbs, ← hn]; rfl, hrep⟩
  | peekRead len =>
    have hpeek := r.peekRead_spec len
    rw [h.items, ← h.length] at hpeek
    simp only [fifoPerform] at hop
    refine ⟨r, ?_, ?_⟩
    · simp only [ringStep, RingBuffer.perform, hpeek]
      split at hop <;> cases hop <;> rename_i hlen <;> simp [hlen]
    · split at hop <;> cases hop <;> exact h
  | seekRead len =>
    simp only [fifoPerform] at hop
    split at hop
    case isTrue hlen =>
      cases hop
      obtain ⟨hok, hrep⟩ := h.seekRead hlen
      exact ⟨_, by rw [← hok]; rfl, hrep⟩
    case isFalse hlen =>
      cases hop
      rw [h.length] at hlen
      refine ⟨r, ?_, h⟩
      rw [ringStep, RingBuffer.perform, (r.seekRead_spec len).2 hlen]
  | peekWrite buffer len =>
    simp only [fifoPerform] at hop
    split at hop
    case isTrue hlen =>
      cases hop
      obtain ⟨hn, hrep⟩ := h.peekWrite buffer hlen
      exact ⟨_, by simp only [ringStep, RingBuffer.perform, hn], hrep⟩
    case isFalse hlen =>
      cases hop
      rw [h.length, h.cap] at hlen
      -- refused: the ring is as it was, and nothing counts as staged
      refine ⟨r, ?_, ?_⟩
      · rw [ringStep, RingBuffer.perform, (r.peekWrite_spec buffer len).2 hlen]
        rfl
      · have hnil : q.items.length + ([] : List UInt8).length ≤ q.cap := q.length_le
        rw [BoundedFifo.stage, dif_pos hnil]
        exact of_unstaged h.cap h.items rfl
  | seekWrite len =>
    obtain ⟨q'', hcommit, hq⟩ := Option.map_eq_some_iff.mp hop
    cases hq
    obtain ⟨hok, hrep⟩ := h.seekWrite hcommit
    exact ⟨_, by rw [← hok]; rfl, hrep⟩
  | clear =>
    cases hop
    exact ⟨_, rfl, of_unstaged h.cap (RingBuffer.contents_clear r) rfl⟩

end Represents

/-- No operation changes the capacity. -/
theorem RingBuffer.perform_bufferSize (r : RingBuffer) (op : RingOp) :
    (r.perform op).2.bufferSize = r.bufferSize := by
  cases op with
  | kfifoPut buffer len => exact r.kfifoPut_bufferSize buffer len
  | kfifoGet len =>
    simp only [perform, RingBuffer.kfifoGet]
    split <;> rfl
  | peekRead len => rfl
  | seekRead len =>
    simp only [perform, RingBuffer.seekRead]
    split <;> rfl
  | peekWrite buffer len => exact r.peekWrite_bufferSize buffer len
  | seekWrite len =>
    simp only [perform, RingBuffer.seekWrite]
    split <;> rfl
  | clear => rfl

/-- **Refinement.**  From the constructor, every sequence of operations the queue permits gives
    the queue's results on the ring, and the ring then stores exactly the queue's bytes.  A
    `seek_read` of more than is stored, or a `peek_write` of more than is free, leaves the whole
    ring as it was. -/
theorem ringBuffer_refines_fifo {size : UInt32} (hsize : IsPow2 size) (storage : ℕ → UInt8)
    (ops : List RingOp) (results : List RingResult) (q : BoundedFifo UInt8)
    (hrun : Machine.run fifoPerform (BoundedFifo.empty UInt8 size.toNat) ops = some (results, q)) :
    ∃ r, Machine.run ringStep (RingBuffer.new size hsize storage) ops = some (results, r) ∧
      r.contents = q.items ∧ r.used.toNat = q.items.length ∧ r.used.toNat ≤ size.toNat ∧
      r.available.toNat = size.toNat - r.used.toNat ∧
      (∀ len, q.items.length < len.toNat → r.seekRead len = (false, r)) ∧
      ∀ buffer len, q.free < len.toNat → r.peekWrite buffer len = (0, r) := by
  -- the simulation relation also remembers the capacity, which no operation changes
  have hsim : ∀ r q op res q', Represents r q ∧ r.bufferSize = size →
      fifoPerform q op = some (res, q') →
      ∃ r', ringStep r op = some (res, r') ∧ Represents r' q' ∧ r'.bufferSize = size := by
    intro r q op res q' h hop
    obtain ⟨r', hstep, hrep⟩ := h.1.perform hop
    have hr' : (r.perform op).2 = r' := congrArg Prod.snd (Option.some.inj hstep)
    exact ⟨r', hstep, hrep, by rw [← hr', RingBuffer.perform_bufferSize, h.2]⟩
  have hstart : Represents (RingBuffer.new size hsize storage)
      (BoundedFifo.empty UInt8 size.toNat) ∧
      (RingBuffer.new size hsize storage).bufferSize = size :=
    ⟨Represents.of_unstaged rfl (RingBuffer.contents_new _ _ _) rfl, rfl⟩
  obtain ⟨r, hring, hrep, hcap⟩ := Machine.simulation hsim hstart hrun
  have hle := r.used_toNat_le
  have havail := r.available_toNat
  rw [RingBuffer.cap, hcap] at hle havail
  refine ⟨r, hring, hrep.items, hrep.length.symm, hle, havail, ?_, ?_⟩
  · intro len hlen
    rw [hrep.length] at hlen
    exact (r.seekRead_spec len).2 (by omega)
  · intro buffer len hlen
    rw [BoundedFifo.free, hrep.cap, hrep.length] at hlen
    exact (r.peekWrite_spec buffer len).2 (by omega)

/-- The refinement on a ring of four bytes: three bytes in, two out, three more across the
    physical end of which two are committed, and a read that asks for too much. -/
theorem ringBuffer_refines_fifo_four :
    ∃ r, Machine.run ringStep (RingBuffer.new 4 ⟨2, by decide, rfl⟩ fun _ => 0)
        [.kfifoPut (fun i => UInt8.ofNat (i + 1)) 3, .kfifoGet 2,
          .peekWrite (fun i => UInt8.ofNat (i + 7)) 3, .seekWrite 2, .peekRead 4, .peekRead 3]
        = some ([.count 3, .bytes 2 [1, 2], .count 3, .ok true, .bytes 0 [],
          .bytes 3 [3, 7, 8]], r) ∧
      r.contents = [3, 7, 8] ∧ r.used.toNat = 3 ∧ r.used.toNat ≤ 4 ∧
      r.available.toNat = 4 - r.used.toNat ∧
      (∀ len : UInt32, 3 < len.toNat → r.seekRead len = (false, r)) ∧
      ∀ (buffer : ℕ → UInt8) (len : UInt32), 1 < len.toNat → r.peekWrite buffer len = (0, r) :=
  ringBuffer_refines_fifo ⟨2, by decide, rfl⟩ (fun _ => 0) _ _
    ⟨4, [3, 7, 8], [9], by decide⟩ rfl

end LeoNet
