import LeoNet.LockFreeQueue
import LeoNet.Lib.Channel

namespace LeoNet

open Circular Counter

/-!
# `static_lock_free_queue` under one producer and one consumer

The two threads as programs over shared memory, one atomic step for each load or store of an
index or a slot.  `PushPc` and `PopPc` are the points of `push_back` and `pop_front` between two
such steps, with the locals that are live there; a schedule is any list of `SpscAct`s.

* `Spsc.Inv` — the shared memory is a valid `Channel` whose counters are the indexes, and each
  thread's locals are what its program point says (`PushFacts`, `PopFacts`);
* `pushStep_inv` / `popStep_inv` — every step of either thread keeps it;
* `spsc_fifo` — hence what was popped is a prefix of what was pushed, no slot is overwritten
  before it has been read, and at most `n` values are outstanding, for every schedule.
-/

variable {α : Type*} {n : UInt32}

/-- Where the producer is inside `push_back(t)`. -/
inductive PushPc (α : Type*) where
  | idle
  /-- about to load `__push_index` for the test -/
  | testPush (t : α)
  /-- about to load `__pop_index` for the test; `a` is the push index seen -/
  | testPop (t : α) (a : UInt32)
  /-- about to load `__push_index` for the subscript -/
  | subscript (t : α)
  /-- about to store `t` to the slot of index `c` -/
  | storeSlot (t : α) (c : UInt32)
  /-- about to load `__push_index` for the increment -/
  | loadIncr (t : α)
  /-- about to store `d + 1` to `__push_index` -/
  | storeIncr (t : α) (d : UInt32)

/-- Where the consumer is inside `pop_front`. -/
inductive PopPc (α : Type*) where
  | idle
  /-- about to load `__push_index` for the test -/
  | testPush
  /-- about to load `__pop_index` for the test; `a` is the push index seen -/
  | testPop (a : UInt32)
  /-- about to load `__pop_index` for the subscript -/
  | subscript
  /-- about to load the slot of index `c` -/
  | loadSlot (c : UInt32)
  /-- about to load `__pop_index` for the increment; `v` is the value read -/
  | loadIncr (v : α)
  /-- about to store `d + 1` to `__pop_index` -/
  | storeIncr (v : α) (d : UInt32)

/-- The shared queue, both threads, and the values of the successful calls so far. -/
structure Spsc (α : Type*) (n : UInt32) where
  queue : StaticLockFreeQueue α n
  push : PushPc α
  pop : PopPc α
  pushed : List α
  popped : List α

namespace Spsc

/-- After `init_queue`, both threads idle. -/
def init (zero : α) : Spsc α n := ⟨.initQueue zero, .idle, .idle, [], []⟩

/-- One step of the producer; from `idle` it calls `push_back(t)`. -/
def pushStep (s : Spsc α n) (t : α) : Spsc α n :=
  match s.push with
  | .idle => { s with push := .testPush t }
  | .testPush t => { s with push := .testPop t s.queue.pushIndex }
  | .testPop t a =>
      if a - s.queue.popIndex < n then { s with push := .subscript t }
      else { s with push := .idle }
  | .subscript t => { s with push := .storeSlot t s.queue.pushIndex }
  | .storeSlot t c =>
      { s with
        queue := { s.queue with
          queue := Function.update s.queue.queue (c &&& (n - 1)).toNat t }
        push := .loadIncr t }
  | .loadIncr t => { s with push := .storeIncr t s.queue.pushIndex }
  | .storeIncr t d =>
      { s with
        queue := { s.queue with pushIndex := d + 1 }
        push := .idle
        pushed := s.pushed ++ [t] }

/-- One step of the consumer; from `idle` it calls `pop_front`. -/
def popStep (s : Spsc α n) : Spsc α n :=
  match s.pop with
  | .idle => { s with pop := .testPush }
  | .testPush => { s with pop := .testPop s.queue.pushIndex }
  | .testPop a =>
      if a != s.queue.popIndex then { s with pop := .subscript }
      else { s with pop := .idle }
  | .subscript => { s with pop := .loadSlot s.queue.popIndex }
  | .loadSlot c => { s with pop := .loadIncr (s.queue.queue (c &&& (n - 1)).toNat) }
  | .loadIncr v => { s with pop := .storeIncr v s.queue.popIndex }
  | .storeIncr v d =>
      { s with
        queue := { s.queue with popIndex := d + 1 }
        pop := .idle
        popped := s.popped ++ [v] }

end Spsc

/-- Which thread the scheduler runs; an idle producer is given the value to push. -/
inductive SpscAct (α : Type*) where
  | produce (t : α)
  | consume

/-- One step of the scheduled thread. -/
def Spsc.step (s : Spsc α n) : SpscAct α → Spsc α n
  | .produce t => s.pushStep t
  | .consume => s.popStep

/-! ### What holds at each program point -/

/-- The producer's facts: it may write the slot of position `w`, and has done so from
    `loadIncr` on. -/
def PushFacts (n pushIndex : UInt32) (c : Channel α) : PushPc α → Prop
  | .idle => True
  | .testPush _ => True
  | .testPop _ a => a = pushIndex
  | .subscript _ => c.w < c.r + n.toNat
  | .storeSlot _ i => i = pushIndex ∧ c.w < c.r + n.toNat
  | .loadIncr t => c.w < c.r + n.toNat ∧ c.cells (c.w % n.toNat) = t
  | .storeIncr t d => d = pushIndex ∧ c.w < c.r + n.toNat ∧ c.cells (c.w % n.toNat) = t

/-- The consumer's facts: the push index it saw counts a position between `r` and `w`, and the
    value it read is the one sent at position `r`. -/
def PopFacts (popIndex : UInt32) (c : Channel α) : PopPc α → Prop
  | .idle => True
  | .testPush => True
  | .testPop a => ∃ k, c.r ≤ k ∧ k ≤ c.w ∧ a = UInt32.ofNat k
  | .subscript => c.r < c.w
  | .loadSlot i => i = popIndex ∧ c.r < c.w
  | .loadIncr v => c.r < c.w ∧ c.sent[c.r]? = some v
  | .storeIncr v d => d = popIndex ∧ c.r < c.w ∧ c.sent[c.r]? = some v

/-- The producer's facts survive a step of the consumer, which can only make more room. -/
theorem PushFacts.mono {pushIndex : UInt32} {c c' : Channel α} {pc : PushPc α}
    (hcells : c'.cells = c.cells) (hw : c'.w = c.w) (hr : c.r ≤ c'.r)
    (h : PushFacts n pushIndex c pc) : PushFacts n pushIndex c' pc := by
  -- before the test of `pop_index` nothing is known, after it that there is room
  cases pc with
  | idle => trivial
  | testPush t => trivial
  | testPop t a => exact h
  | subscript t =>
    show c'.w < c'.r + n.toNat
    have h : c.w < c.r + n.toNat := h
    omega
  | storeSlot t i =>
    obtain ⟨hi, h⟩ := h
    exact ⟨hi, by omega⟩
  | loadIncr t =>
    obtain ⟨h, ht⟩ := h
    exact ⟨by omega, by rw [hcells, hw]; exact ht⟩
  | storeIncr t d =>
    obtain ⟨hd, h, ht⟩ := h
    exact ⟨hd, by omega, by rw [hcells, hw]; exact ht⟩

/-- The consumer's facts survive a step of the producer, which can only send more. -/
theorem PopFacts.mono {popIndex : UInt32} {c c' : Channel α} {pc : PopPc α}
    (hr : c'.r = c.r) (hsent : c.sent <+: c'.sent) (h : PopFacts popIndex c pc) :
    PopFacts popIndex c' pc := by
  have hw : c.w ≤ c'.w := hsent.length_le
  -- what was sent stays sent
  have hget : ∀ v, c.sent[c.r]? = some v → c'.sent[c'.r]? = some v := by
    intro v hv
    obtain ⟨rest, hrest⟩ := hsent
    rw [hr, ← hrest, List.getElem?_append_left (List.getElem?_eq_some_iff.mp hv).1]
    exact hv
  cases pc with
  | idle => trivial
  | testPush => trivial
  | testPop a =>
    obtain ⟨k, hk, hk', ha⟩ := h
    exact ⟨k, by omega, by omega, ha⟩
  | subscript =>
    show c'.r < c'.w
    have h : c.r < c.w := h
    omega
  | loadSlot i =>
    obtain ⟨hi, h⟩ := h
    exact ⟨hi, by omega⟩
  | loadIncr v =>
    obtain ⟨h, hv⟩ := h
    exact ⟨by omega, hget v hv⟩
  | storeIncr v d =>
    obtain ⟨hd, h, hv⟩ := h
    exact ⟨hd, by omega, hget v hv⟩

namespace Spsc

/-- The channel a state stands for. -/
def chan (s : Spsc α n) : Channel α := ⟨s.queue.queue, s.pushed, s.popped⟩

/-- The invariant of every interleaving. -/
structure Inv (s : Spsc α n) : Prop where
  chan : Channel.Valid n.toNat s.chan
  pushIndex : s.queue.pushIndex = UInt32.ofNat s.chan.w
  popIndex : s.queue.popIndex = UInt32.ofNat s.chan.r
  push : PushFacts n s.queue.pushIndex s.chan s.push
  pop : PopFacts s.queue.popIndex s.chan s.pop

/-- A new queue has the invariant. -/
theorem init_inv (zero : α) : (init zero : Spsc α n).Inv where
  chan := Channel.valid_empty _ _
  pushIndex := rfl
  popIndex := rfl
  push := trivial
  pop := trivial

/-- A step of the producer that moves only its program point. -/
theorem Inv.movePush {s : Spsc α n} (h : s.Inv) {pc : PushPc α}
    (hpc : PushFacts n s.queue.pushIndex s.chan pc) : ({ s with push := pc } : Spsc α n).Inv :=
  ⟨h.chan, h.pushIndex, h.popIndex, hpc, h.pop⟩

/-- A step of the consumer that moves only its program point. -/
theorem Inv.movePop {s : Spsc α n} (h : s.Inv) {pc : PopPc α}
    (hpc : PopFacts s.queue.popIndex s.chan pc) : ({ s with pop := pc } : Spsc α n).Inv :=
  ⟨h.chan, h.pushIndex, h.popIndex, h.push, hpc⟩

/-- The slot of the push index is the cell of position `w`. -/
theorem Inv.pushSlot {s : Spsc α n} (h : s.Inv) (hn : IsPow2 n) :
    (s.queue.pushIndex &&& (n - 1)).toNat = s.chan.w % n.toNat := by
  rw [mask_toNat hn, h.pushIndex, ofNat_mod hn]

/-- The slot of the pop index is the cell of position `r`. -/
theorem Inv.popSlot {s : Spsc α n} (h : s.Inv) (hn : IsPow2 n) :
    (s.queue.popIndex &&& (n - 1)).toNat = s.chan.r % n.toNat := by
  rw [mask_toNat hn, h.popIndex, ofNat_mod hn]

/-- **Each step of the producer** keeps the invariant. -/
theorem pushStep_inv (hn : IsPow2 n) {s : Spsc α n} (h : s.Inv) (t : α) : (s.pushStep t).Inv := by
  have hpush := h.push
  have hle := hn.le
  unfold pushStep
  cases hpc : s.push with
  | idle => exact h.movePush trivial
  | testPush t => exact h.movePush rfl
  | testPop t a =>
    rw [hpc] at hpush
    obtain rfl : a = s.queue.pushIndex := hpush
    show Inv (if s.queue.pushIndex - s.queue.popIndex < n then _ else _)
    split
    case isTrue hlt =>
      -- the distance of the indexes is the number of outstanding values, wrap or not
      have hrw := h.chan.r_le_w
      have hwr := h.chan.w_le
      rw [UInt32.lt_iff_toNat_lt, h.pushIndex, h.popIndex,
          ofNat_sub_ofNat hrw (by omega)] at hlt
      apply h.movePush
      show s.chan.w < s.chan.r + n.toNat
      omega
    case isFalse => exact h.movePush trivial
  | subscript t =>
    rw [hpc] at hpush
    exact h.movePush ⟨rfl, hpush⟩
  | storeSlot t c =>
    rw [hpc] at hpush
    obtain ⟨rfl, hroom⟩ := hpush
    -- the slot is the cell of position `w`, which no value still to be popped uses
    have hslot := h.pushSlot hn
    refine ⟨?_, h.pushIndex, h.popIndex, ⟨hroom, ?_⟩, ?_⟩
    · show Channel.Valid n.toNat ⟨Function.update s.queue.queue _ t, s.pushed, s.popped⟩
      rw [hslot]
      exact h.chan.write t (le_refl _) hroom
    · show Function.update s.queue.queue _ t (s.chan.w % n.toNat) = t
      rw [hslot, Function.update_self]
    · exact h.pop.mono rfl List.prefix_rfl
  | loadIncr t =>
    rw [hpc] at hpush
    exact h.movePush ⟨rfl, hpush⟩
  | storeIncr t d =>
    rw [hpc] at hpush
    obtain ⟨rfl, hroom, ht⟩ := hpush
    -- the increment publishes the slot
    have hsent : Channel.Valid n.toNat ⟨s.queue.queue, s.pushed ++ [t], s.popped⟩ := by
      apply h.chan.send [t] hroom
      intro i hi
      obtain rfl : i = 0 := by simpa using hi
      rw [Nat.add_zero, ht]
      rfl
    have hfacts : PopFacts s.queue.popIndex ⟨s.queue.queue, s.pushed ++ [t], s.popped⟩ s.pop :=
      PopFacts.mono (c := s.chan) rfl (List.prefix_append _ _) h.pop
    refine ⟨hsent, ?_, h.popIndex, trivial, hfacts⟩
    show s.queue.pushIndex + 1 = UInt32.ofNat (s.pushed ++ [t]).length
    rw [h.pushIndex, ofNat_add, List.length_append]
    rfl

/-- **Each step of the consumer** keeps the invariant. -/
theorem popStep_inv (hn : IsPow2 n) {s : Spsc α n} (h : s.Inv) : s.popStep.Inv := by
  have hpop := h.pop
  have hle := hn.le
  unfold popStep
  cases hpc : s.pop with
  | idle => exact h.movePop trivial
  | testPush => exact h.movePop ⟨s.chan.w, h.chan.r_le_w, le_refl _, h.pushIndex⟩
  | testPop a =>
    rw [hpc] at hpop
    obtain ⟨k, hk, hk', rfl⟩ := hpop
    show Inv (if UInt32.ofNat k != s.queue.popIndex then _ else _)
    split
    case isTrue hne =>
      -- the stale push index differs from the pop index, so it counts a later position
      have hkr : k ≠ s.chan.r := by
        rintro rfl
        rw [h.popIndex] at hne
        simp at hne
      apply h.movePop
      show s.chan.r < s.chan.w
      omega
    case isFalse => exact h.movePop trivial
  | subscript =>
    rw [hpc] at hpop
    exact h.movePop ⟨rfl, hpop⟩
  | loadSlot c =>
    rw [hpc] at hpop
    obtain ⟨rfl, hlt⟩ := hpop
    -- the slot shows what was pushed at position `r`, and `pushed` only grows
    refine h.movePop ⟨hlt, ?_⟩
    rw [h.popSlot hn]
    exact h.chan.read (i := 0) hlt
  | loadIncr v =>
    rw [hpc] at hpop
    exact h.movePop ⟨rfl, hpop⟩
  | storeIncr v d =>
    rw [hpc] at hpop
    obtain ⟨rfl, hlt, hv⟩ := hpop
    -- the increment gives the slot back to the producer
    have hreceived : Channel.Valid n.toNat ⟨s.queue.queue, s.pushed, s.popped ++ [v]⟩ := by
      apply h.chan.receive [v] hlt
      intro i hi
      obtain rfl : i = 0 := by simpa using hi
      exact hv
    have hmore : s.chan.r ≤ (s.popped ++ [v]).length := by
      rw [List.length_append]
      exact Nat.le_add_right _ _
    have hfacts : PushFacts n s.queue.pushIndex ⟨s.queue.queue, s.pushed, s.popped ++ [v]⟩ s.push :=
      PushFacts.mono (c := s.chan) rfl rfl hmore h.push
    refine ⟨hreceived, h.pushIndex, ?_, hfacts, trivial⟩
    show s.queue.popIndex + 1 = UInt32.ofNat (s.popped ++ [v]).length
    rw [h.popIndex, ofNat_add, List.length_append]
    rfl

/-- So does every step. -/
theorem step_inv (hn : IsPow2 n) {s : Spsc α n} (h : s.Inv) (a : SpscAct α) : (s.step a).Inv := by
  cases a with
  | produce t => exact pushStep_inv hn h t
  | consume => exact popStep_inv hn h

/-- The invariant holds after every schedule. -/
theorem run_inv (hn : IsPow2 n) {s : Spsc α n} (h : s.Inv) (sched : List (SpscAct α)) :
    (sched.foldl step s).Inv := by
  induction sched generalizing s with
  | nil => exact h
  | cons a sched ih => exact ih (step_inv hn h a)

end Spsc

/-- **The queue is a single-producer single-consumer FIFO.**  After every schedule of atomic
    steps from `init_queue`, the values popped are a prefix of the values pushed, a slot about to
    be overwritten is not the slot of a value still to be popped, and at most `n` values are
    outstanding. -/
theorem spsc_fifo (hn : IsPow2 n) (zero : α) (sched : List (SpscAct α)) (s : Spsc α n)
    (hs : sched.foldl Spsc.step (Spsc.init zero) = s) :
    s.popped <+: s.pushed ∧
      (∀ t c, s.push = .storeSlot t c →
        ∀ p, s.popped.length ≤ p → p < s.pushed.length → p % n.toNat ≠ (c &&& (n - 1)).toNat) ∧
      s.pushed.length ≤ s.popped.length + n.toNat := by
  have h : s.Inv := hs ▸ Spsc.run_inv hn (Spsc.init_inv zero) sched
  refine ⟨h.chan.received_prefix, ?_, h.chan.w_le⟩
  intro t c hpc p hp hp'
  have hpush := h.push
  rw [hpc] at hpush
  obtain ⟨rfl, hroom⟩ := hpush
  rw [h.pushSlot hn]
  exact Channel.cell_ne (c := s.chan) (le_refl _) hroom hp hp'

/-- Two values through a queue of one slot: the second push is refused until the first value is
    popped. -/
theorem spsc_fifo_one :
    let sched : List (SpscAct ℕ) :=
      List.replicate 7 (.produce 5) ++ List.replicate 3 (.produce 6) ++
        List.replicate 7 .consume ++ List.replicate 5 (.produce 7)
    let s : Spsc ℕ 1 := sched.foldl Spsc.step (Spsc.init 0)
    s.popped <+: s.pushed ∧
      (∀ t c, s.push = .storeSlot t c →
        ∀ p, s.popped.length ≤ p → p < s.pushed.length →
          p % (1 : UInt32).toNat ≠ (c &&& (1 - 1)).toNat) ∧
      s.pushed.length ≤ s.popped.length + (1 : UInt32).toNat :=
  spsc_fifo ⟨0, by decide, rfl⟩ 0 _ _ rfl

end LeoNet
