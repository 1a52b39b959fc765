import LeoNet.LockFreeQueueConcurrent
import LeoNet.RingBufferConcurrent

namespace LeoNet

open Memory Circular Counter

/-!
# Calls that nothing interrupts

Both shared objects are modelled twice: as functions on the object, and as programs of atomic
steps for two threads.  A call whose steps all run in one piece is the function:

* `Spsc.push_alone` / `Spsc.pop_alone` — `push_back` and `pop_front`;
* `Kfifo.putCopy_inOrder` / `Kfifo.getCopy_inOrder` — a `memcpy` whose bytes are copied first to
  last is a `store` of a `load`;
* `Kfifo.put_alone` / `Kfifo.get_alone` — `kfifo_put` and `kfifo_get`.
-/

/-! ### The queue -/

namespace Spsc

variable {α : Type*} {n : UInt32}

/-- `push_back(t)` in one piece. -/
theorem push_alone (s : Spsc α n) (hs : s.push = .idle) (t : α) :
    ∃ k, (List.replicate k (SpscAct.produce t)).foldl Spsc.step s =
      { s with
        queue := (s.queue.pushBack t).2
        pushed := s.pushed ++ if (s.queue.pushBack t).1 then [t] else [] } := by
  obtain ⟨queue, push, pop, pushed, popped⟩ := s
  obtain rfl : push = .idle := hs
  by_cases h : queue.pushIndex - queue.popIndex < n
  · refine ⟨7, ?_⟩
    simp [List.replicate, step, pushStep, StaticLockFreeQueue.pushBack, h]
  · -- a full queue is left after the test
    refine ⟨3, ?_⟩
    simp [List.replicate, step, pushStep, StaticLockFreeQueue.pushBack, h]

/-- `pop_front(t)` in one piece. -/
theorem pop_alone (s : Spsc α n) (hs : s.pop = .idle) (t : α) :
    ∃ k, (List.replicate k SpscAct.consume).foldl Spsc.step s =
      { s with
        queue := (s.queue.popFront t).2.2
        popped := s.popped ++
          if (s.queue.popFront t).1 then [(s.queue.popFront t).2.1] else [] } := by
  obtain ⟨queue, push, pop, pushed, popped⟩ := s
  obtain rfl : pop = .idle := hs
  by_cases h : queue.pushIndex = queue.popIndex
  · -- so is an empty one
    refine ⟨3, ?_⟩
    simp [List.replicate, step, popStep, StaticLockFreeQueue.popFront, h]
  · refine ⟨7, ?_⟩
    simp [List.replicate, step, popStep, StaticLockFreeQueue.popFront, h]

end Spsc

/-! ### The ring -/

namespace Kfifo

variable {n : UInt32} {buffer got : ℕ → UInt8} {len : UInt32} {act : ℕ → KfifoAct}
  {s t u : Kfifo n}

/-- Steps of one thread alone lead from `s` to `t`; `act i` is its step when it is to copy
    byte `i`. -/
def Runs (act : ℕ → KfifoAct) (s t : Kfifo n) : Prop :=
  ∃ is : List ℕ, (is.map act).foldl step s = t

theorem Runs.trans (h : Runs act s t) (h' : Runs act t u) : Runs act s u := by
  obtain ⟨is, rfl⟩ := h
  obtain ⟨js, rfl⟩ := h'
  exact ⟨is ++ js, by rw [List.map_append, List.foldl_append]⟩

/-- What is left of a copy after its first byte. -/
theorem todo_next (a k : ℕ) :
    (List.range' a (k + 1)).filter (· ≠ a) = List.range' (a + 1) k := by
  rw [List.range'_succ, List.filter_cons_of_neg (by simp), List.filter_eq_self]
  intro x hx
  have hlt := (List.mem_range'_1.mp hx).1
  simp
  omega

/-- The writer inside a `memcpy` from `buffer + src` to offset `dst`, when its bytes are copied
    first to last.  `pc` is the program point, by what is left to copy. -/
theorem putCopy_inOrder (pc : List ℕ → PutPc) (dst src : ℕ)
    (hpc : ∀ (u : Kfifo n) (todo : List ℕ) (i : ℕ), u.put = pc todo → i ∈ todo →
      u.putStep buffer len i =
        { u with
          ringBuffer := Function.update u.ringBuffer (dst + i) (buffer (src + i))
          put := pc (todo.filter (· ≠ i)) })
    {a k : ℕ} (hs : s.put = pc (List.range' a k)) :
    Runs (.put buffer len) s
      { s with
        ringBuffer := store s.ringBuffer (dst + a) (load buffer (src + a) k)
        put := pc [] } := by
  refine ⟨List.range' a k, ?_⟩
  -- induction on the bytes left; each is the first of those still to do
  induction k generalizing a s with
  | zero =>
    rw [load_zero, store_nil, ← show s.put = pc [] from hs]
    rfl
  | succ k ih =>
    have hstep := hpc s _ a hs (List.mem_range'_1.mpr ⟨le_refl a, by omega⟩)
    rw [todo_next] at hstep
    rw [List.range'_succ, List.map_cons, List.foldl_cons]
    show List.foldl step (s.putStep buffer len a) _ = _
    rw [hstep, ih rfl, load_succ, store_cons]
    rfl

/-- The reader inside a `memcpy` from offset `src` to `got + dst`, likewise. -/
theorem getCopy_inOrder (pc : (ℕ → UInt8) → List ℕ → GetPc) (dst src : ℕ) {g : ℕ → UInt8}
    (hpc : ∀ (u : Kfifo n) (got : ℕ → UInt8) (todo : List ℕ) (i : ℕ), u.get = pc got todo →
      i ∈ todo →
      u.getStep g len i =
        { u with
          get := pc (Function.update got (dst + i) (u.ringBuffer (src + i)))
            (todo.filter (· ≠ i)) })
    {a k : ℕ} (hs : s.get = pc got (List.range' a k)) :
    Runs (.get g len) s
      { s with get := pc (store got (dst + a) (load s.ringBuffer (src + a) k)) [] } := by
  refine ⟨List.range' a k, ?_⟩
  -- the bytes in the order of their addresses; `memcpy` may copy them in any
  induction k generalizing a s got with
  | zero =>
    rw [load_zero, store_nil, ← show s.get = pc got [] from hs]
    rfl
  | succ k ih =>
    have hstep := hpc s got _ a hs (List.mem_range'_1.mpr ⟨le_refl a, by omega⟩)
    rw [todo_next] at hstep
    rw [List.range'_succ, List.map_cons, List.foldl_cons]
    show List.foldl step (s.getStep g len a) _ = _
    rw [hstep, ih rfl, load_succ, store_cons]
    rfl

/-- The first `memcpy` of `kfifo_put`, and the step to the second. -/
theorem put_copyFirst {m iLen : UInt32} {d : ℕ}
    (hs : s.put = .copyFirst buffer m iLen d (List.range iLen.toNat)) :
    Runs (.put buffer len) s
      { s with
        ringBuffer := memcpy s.ringBuffer d buffer 0 iLen.toNat
        put := .copyRest buffer m iLen (List.range (m - iLen).toNat) } := by
  rw [List.range_eq_range'] at hs
  refine (putCopy_inOrder (PutPc.copyFirst buffer m iLen d) d 0 ?_ hs).trans
    ⟨[0], by simp [step, putStep, memcpy]⟩
  intro u todo i hu hi
  simp [putStep, hu, hi, List.ne_nil_of_mem hi]

/-- The second `memcpy` of `kfifo_put`, and the step behind it. -/
theorem put_copyRest {m iLen : UInt32}
    (hs : s.put = .copyRest buffer m iLen (List.range (m - iLen).toNat)) :
    Runs (.put buffer len) s
      { s with
        ringBuffer := memcpy s.ringBuffer 0 buffer iLen.toNat (m - iLen).toNat
        put := .loadAdd buffer m } := by
  rw [List.range_eq_range'] at hs
  refine (putCopy_inOrder (PutPc.copyRest buffer m iLen) 0 iLen.toNat ?_ hs).trans
    ⟨[0], by simp [step, putStep, memcpy]⟩
  intro u todo i hu hi
  simp [putStep, hu, hi, List.ne_nil_of_mem hi]

/-- The first `memcpy` of `kfifo_get`, and the step to the second. -/
theorem get_copyFirst {m iLen : UInt32} {d : ℕ} {g : ℕ → UInt8}
    (hs : s.get = .copyFirst got m iLen d (List.range iLen.toNat)) :
    Runs (.get g len) s
      { s with
        get := .copyRest (memcpy got 0 s.ringBuffer d iLen.toNat) m iLen
          (List.range (m - iLen).toNat) } := by
  rw [List.range_eq_range'] at hs
  refine (getCopy_inOrder (fun got => GetPc.copyFirst got m iLen d) 0 d ?_ hs).trans
    ⟨[0], by simp [step, getStep, memcpy]⟩
  intro u got todo i hu hi
  simp [getStep, hu, hi, List.ne_nil_of_mem hi]

/-- The second `memcpy` of `kfifo_get`, and the step behind it. -/
theorem get_copyRest {m iLen : UInt32} {g : ℕ → UInt8}
    (hs : s.get = .copyRest got m iLen (List.range (m - iLen).toNat)) :
    Runs (.get g len) s
      { s with
        get := .loadAdd (memcpy got iLen.toNat s.ringBuffer 0 (m - iLen).toNat) m } := by
  rw [List.range_eq_range'] at hs
  refine (getCopy_inOrder (fun got => GetPc.copyRest got m iLen) iLen.toNat 0 ?_ hs).trans
    ⟨[0], by simp [step, getStep, memcpy]⟩
  intro u got todo i hu hi
  simp [getStep, hu, hi, List.ne_nil_of_mem hi]

/-- The shared memory is the ring `r`. -/
structure IsRing (s : Kfifo n) (r : RingBuffer) : Prop where
  bufferSize : n = r.bufferSize
  ringBuffer : s.ringBuffer = r.ringBuffer
  writeP : s.writeP = r.writeP
  readP : s.readP = r.readP

/-- `kfifo_put(buffer, len)` in one piece. -/
theorem put_alone {r : RingBuffer} (hr : s.IsRing r) (hs : s.put = .idle) (buffer : ℕ → UInt8)
    (len : UInt32) :
    Runs (.put buffer len) s
      { s with
        ringBuffer := (r.kfifoPut buffer len).2.ringBuffer
        writeP := (r.kfifoPut buffer len).2.writeP
        accepted := s.accepted ++ load buffer 0 (r.kfifoPut buffer len).1.toNat } := by
  obtain ⟨ringBuffer, writeP, readP, put, get, accepted, returned⟩ := s
  obtain ⟨rfl, rfl, rfl, rfl⟩ := hr
  obtain rfl : put = .idle := hs
  by_cases h : len = 0
  · refine ⟨[0], ?_⟩
    simp [step, putStep, RingBuffer.kfifoPut, h]
  · -- up to the first `memcpy`
    refine Runs.trans ⟨List.replicate 5 0, rfl⟩ ?_
    simp only [List.replicate, List.map_cons, List.map_nil, List.foldl_cons, List.foldl_nil, step,
      putStep, beq_iff_eq, h, if_false]
    refine (put_copyFirst rfl).trans ((put_copyRest rfl).trans ⟨[0, 0], ?_⟩)
    simp [step, putStep, RingBuffer.kfifoPut, RingBuffer.copyIn, h]

/-- What both calls of `memcpy` leave in the caller's buffer is what `copyOut` lists. -/
theorem copyOut_eq_load (r : RingBuffer) (got : ℕ → UInt8) (m : UInt32) :
    let iLen := umin m (r.bufferSize - (r.readP &&& (r.bufferSize - 1)))
    let d := (r.readP &&& (r.bufferSize - 1)).toNat
    load (memcpy (memcpy got 0 r.ringBuffer d iLen.toNat) iLen.toNat r.ringBuffer 0
      (m - iLen).toNat) 0 m.toNat = r.copyOut m := by
  intro iLen d
  have hle : iLen.toNat ≤ m.toNat := by
    rw [umin_toNat]
    exact Nat.min_le_left _ _
  have hsum : m.toNat = iLen.toNat + (m - iLen).toNat := by
    rw [UInt32.toNat_sub_of_le _ _ (UInt32.le_iff_toNat_le.mpr hle)]
    omega
  have hstored := load_store_self got 0
    (load r.ringBuffer d iLen.toNat ++ load r.ringBuffer 0 (m - iLen).toNat)
  rw [List.length_append, load_length, load_length, ← hsum, store_append, load_length,
      Nat.zero_add] at hstored
  exact hstored

/-- `kfifo_get(got, len)` in one piece. -/
theorem get_alone {r : RingBuffer} (hr : s.IsRing r) (hs : s.get = .idle) (got : ℕ → UInt8)
    (len : UInt32) :
    Runs (.get got len) s
      { s with
        readP := (r.kfifoGet len).2.2.readP
        returned := s.returned ++ (r.kfifoGet len).2.1 } := by
  obtain ⟨ringBuffer, writeP, readP, put, get, accepted, returned⟩ := s
  obtain ⟨rfl, rfl, rfl, rfl⟩ := hr
  obtain rfl : get = .idle := hs
  by_cases h : r.writeP - r.readP = 0
  · refine ⟨[0, 0, 0], ?_⟩
    simp [step, getStep, RingBuffer.kfifoGet, RingBuffer.empty, RingBuffer.used, h]
  · have hempty : ¬ r.empty = true := by simpa [RingBuffer.empty, RingBuffer.used] using h
    have hreadP : (r.kfifoGet len).2.2.readP = r.readP + umin len (r.writeP - r.readP) := by
      rw [RingBuffer.kfifoGet, if_neg hempty]
    have hbytes : (r.kfifoGet len).2.1 = r.copyOut (umin len (r.writeP - r.readP)) := by
      rw [RingBuffer.kfifoGet, if_neg hempty]
    rw [hreadP, hbytes, ← copyOut_eq_load r got]
    -- up to the first `memcpy`
    refine Runs.trans ⟨List.replicate 7 0, rfl⟩ ?_
    simp only [List.replicate, List.map_cons, List.map_nil, List.foldl_cons, List.foldl_nil, step,
      getStep, beq_iff_eq, h, if_false]
    exact (get_copyFirst rfl).trans ((get_copyRest rfl).trans ⟨[0, 0], rfl⟩)

end Kfifo

end LeoNet
