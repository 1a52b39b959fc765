import LeoNet.Lib.Circular
import LeoNet.Lib.Counter

namespace LeoNet

open Memory Circular Counter

/-!
# `ring_buffer` — the byte ring of `ring_buffer.h` / `ring_buffer.cpp`

The storage is a linear array of `__buffer_size` bytes; `__write_p` and `__read_p` are
free-running `unsigned int` counters that are masked on every access.  The capacity is an `int`
that the constructor asserts to be a power of two; every expression that uses it converts it to
`unsigned int`, which is how it is stored here.

A `RingBuffer` carries two facts as fields: the asserted shape of the capacity and
`used() <= __buffer_size`.  Every operation below has to re-establish them, so no value of the
type is an impossible ring.  `contents` is the queue a ring stands for, and one lemma for each
operation says what it does to it.
-/

/-- `class ring_buffer`. -/
@[ext]
structure RingBuffer where
  bufferSize : UInt32
  ringBuffer : ℕ → UInt8
  writeP : UInt32
  readP : UInt32
  pow2 : IsPow2 bufferSize
  used_le : writeP - readP ≤ bufferSize

namespace RingBuffer

/-! ### Counter arithmetic behind the invariant -/

/-- Moving the write counter by at most the free space keeps `used() <= __buffer_size`. -/
theorem sub_le_of_add {size w r len : UInt32} (hs : IsPow2 size) (hu : w - r ≤ size)
    (hl : ¬ size - (w - r) < len) : w + len - r ≤ size := by
  have hs := hs.le
  simp only [UInt32.le_iff_toNat_le, UInt32.lt_iff_toNat_lt, UInt32.toNat_sub,
    UInt32.toNat_add] at *
  have := w.toNat_lt
  have := r.toNat_lt
  have := len.toNat_lt
  omega

/-- Moving the read counter by at most the used space keeps `used() <= __buffer_size`. -/
theorem sub_le_of_sub {size w r len : UInt32} (hu : w - r ≤ size) (hl : ¬ w - r < len) :
    w - (r + len) ≤ size := by
  simp only [UInt32.le_iff_toNat_le, UInt32.lt_iff_toNat_lt, UInt32.toNat_sub,
    UInt32.toNat_add] at *
  have := w.toNat_lt
  have := r.toNat_lt
  have := len.toNat_lt
  omega

/-- The clamp of `kfifo_put` and `peek_write` is the free space. -/
theorem sub_add_eq_free (size w r : UInt32) : size - w + r = size - (w - r) := by
  apply UInt32.toNat_inj.mp
  simp only [UInt32.toNat_sub, UInt32.toNat_add]
  have := w.toNat_lt
  have := r.toNat_lt
  omega

/-- A minimum is not above its second argument. -/
theorem not_lt_umin_right (a b : UInt32) : ¬ b < umin a b := by
  have := umin_le_right a b
  rw [UInt32.lt_iff_toNat_lt]
  omega

/-! ### The class -/

/-- `is_power_of_2(x)`. -/
def isPowerOf2 (x : UInt32) : Bool := x != 0 && (x &&& (x - 1)) == 0

/-- What the constructor asserts of a size that is not negative is `IsPow2`. -/
theorem isPowerOf2_iff {bufSize : UInt32} (h : bufSize.toNat < 2 ^ 31) :
    isPowerOf2 bufSize = true ↔ IsPow2 bufSize := by
  rw [isPow2_iff h, isPowerOf2, Bool.and_eq_true, bne_iff_ne, beq_iff_eq]

/-- The constructor; `new char[buf_size]` leaves the storage as it finds it. -/
def new (bufSize : UInt32) (h : IsPow2 bufSize) (storage : ℕ → UInt8) : RingBuffer where
  bufferSize := bufSize
  ringBuffer := storage
  writeP := 0
  readP := 0
  pow2 := h
  used_le := by
    rw [UInt32.le_iff_toNat_le]
    exact Nat.zero_le _

/-- `clear()`. -/
def clear (r : RingBuffer) : RingBuffer :=
  { r with
    writeP := 0
    readP := 0
    used_le := by
      rw [UInt32.le_iff_toNat_le]
      exact Nat.zero_le _ }

/-- `available()`. -/
def available (r : RingBuffer) : UInt32 := r.bufferSize - (r.writeP - r.readP)

/-- `used()`. -/
def used (r : RingBuffer) : UInt32 := r.writeP - r.readP

/-- `empty()`. -/
def empty (r : RingBuffer) : Bool := r.used == 0

/-- `full()`. -/
def full (r : RingBuffer) : Bool := r.bufferSize == r.used

/-- `write_p()`, as an offset into the storage. -/
def writePtr (r : RingBuffer) : ℕ := (r.writeP &&& (r.bufferSize - 1)).toNat

/-- `read_p()`, as an offset into the storage. -/
def readPtr (r : RingBuffer) : ℕ := (r.readP &&& (r.bufferSize - 1)).toNat

/-- The two `memcpy` calls of `peek_read` and `kfifo_get`: `len` bytes from the read position,
    first up to the end of the storage, then the rest from its beginning. -/
def copyOut (r : RingBuffer) (len : UInt32) : List UInt8 :=
  let iLen := umin len (r.bufferSize - (r.readP &&& (r.bufferSize - 1)))
  load r.ringBuffer (r.readP &&& (r.bufferSize - 1)).toNat iLen.toNat ++
    load r.ringBuffer 0 (len - iLen).toNat

/-- The two `memcpy` calls of `peek_write` and `kfifo_put`: `len` bytes of `buffer` to the write
    position, first up to the end of the storage, then the rest to its beginning. -/
def copyIn (r : RingBuffer) (buffer : ℕ → UInt8) (len : UInt32) : ℕ → UInt8 :=
  let iLen := umin len (r.bufferSize - (r.writeP &&& (r.bufferSize - 1)))
  let m := memcpy r.ringBuffer (r.writeP &&& (r.bufferSize - 1)).toNat buffer 0 iLen.toNat
  memcpy m 0 buffer iLen.toNat (len - iLen).toNat

/-- `peek_read(buffer, len)`: the returned length and the bytes stored to `buffer`. -/
def peekRead (r : RingBuffer) (len : UInt32) : UInt32 × List UInt8 :=
  if r.empty || r.used < len then (0, [])
  else
    let len := umin len (r.writeP - r.readP)
    (len, r.copyOut len)

/-- `seek_read(len)`. -/
def seekRead (r : RingBuffer) (len : UInt32) : Bool × RingBuffer :=
  if h : r.used < len then (false, r)
  else (true, { r with readP := r.readP + len, used_le := sub_le_of_sub r.used_le h })

/-- `peek_write(buffer, len)`. -/
def peekWrite (r : RingBuffer) (buffer : ℕ → UInt8) (len : UInt32) : UInt32 × RingBuffer :=
  if len == 0 || r.available < len then (0, r)
  else
    let len := umin len (r.bufferSize - r.writeP + r.readP)
    (len, { r with ringBuffer := r.copyIn buffer len })

/-- `seek_write(len)`. -/
def seekWrite (r : RingBuffer) (len : UInt32) : Bool × RingBuffer :=
  if h : r.available < len then (false, r)
  else (true, { r with writeP := r.writeP + len, used_le := sub_le_of_add r.pow2 r.used_le h })

/-- `kfifo_get(buffer, len)`: the returned length, the bytes stored to `buffer`, the ring. -/
def kfifoGet (r : RingBuffer) (len : UInt32) : UInt32 × List UInt8 × RingBuffer :=
  if r.empty then (0, [], r)
  else
    let n := umin len (r.writeP - r.readP)
    (n, r.copyOut n,
      { r with
        readP := r.readP + n
        used_le := sub_le_of_sub r.used_le (not_lt_umin_right _ _) })

/-- `kfifo_put(buffer, len)`. -/
def kfifoPut (r : RingBuffer) (buffer : ℕ → UInt8) (len : UInt32) : UInt32 × RingBuffer :=
  if len == 0 then (0, r)
  else
    let n := umin len (r.bufferSize - r.writeP + r.readP)
    (n,
      { r with
        ringBuffer := r.copyIn buffer n
        writeP := r.writeP + n
        used_le := sub_le_of_add r.pow2 r.used_le
          (by rw [← sub_add_eq_free]; exact not_lt_umin_right _ _) })

/-! ### The queue a ring stands for -/

/-- `__buffer_size` as a number. -/
def cap (r : RingBuffer) : ℕ := r.bufferSize.toNat

/-- `__ring_buffer`, the object that the windows handed out by `write_p()` and `read_p()` lie
    in. -/
def storage (r : RingBuffer) : Block UInt8 := ⟨r.cap, r.ringBuffer⟩

/-- The ring after somebody wrote through one of these windows. -/
def setStorage (r : RingBuffer) (b : Block UInt8) : RingBuffer := { r with ringBuffer := b.byte }

/-- The bytes stored between `__read_p` and `__write_p`. -/
def contents (r : RingBuffer) : List UInt8 :=
  window r.cap r.ringBuffer r.readP.toNat r.used.toNat

/-- As many bytes are stored as the counters say. -/
@[simp] theorem contents_length (r : RingBuffer) : r.contents.length = r.used.toNat :=
  window_length _ _ _ _

@[simp] theorem storage_size (r : RingBuffer) : r.storage.size = r.cap := rfl

@[simp] theorem setStorage_storage (r : RingBuffer) : r.setStorage r.storage = r := rfl

/-- There is at least one cell. -/
theorem cap_pos (r : RingBuffer) : 0 < r.cap := r.pow2.pos

/-- Powers of two below `2 ^ 31` are at most `2 ^ 30`. -/
theorem cap_le (r : RingBuffer) : r.cap ≤ 2 ^ 30 := r.pow2.le

/-- At most `cap` bytes are stored. -/
theorem used_toNat_le (r : RingBuffer) : r.used.toNat ≤ r.cap :=
  UInt32.le_iff_toNat_le.mp r.used_le

/-- The rest of the cells is available. -/
theorem available_toNat (r : RingBuffer) : r.available.toNat = r.cap - r.used.toNat :=
  UInt32.toNat_sub_of_le _ _ r.used_le

/-- The ring is empty when no byte is stored. -/
theorem empty_iff (r : RingBuffer) : r.empty = true ↔ r.used.toNat = 0 := by
  rw [empty, beq_iff_eq, ← UInt32.toNat_inj]
  rfl

/-- Masking the write counter is taking it modulo `cap`. -/
theorem writePtr_eq (r : RingBuffer) : r.writePtr = r.writeP.toNat % r.cap :=
  mask_toNat r.pow2 _

/-- Masking the read counter is taking it modulo `cap`. -/
theorem readPtr_eq (r : RingBuffer) : r.readPtr = r.readP.toNat % r.cap :=
  mask_toNat r.pow2 _

/-- The read pointer lies inside the storage. -/
theorem readPtr_lt (r : RingBuffer) : r.readPtr < r.cap := mask_lt r.pow2 _

/-- The write counter is the read counter plus the used bytes. -/
theorem readP_add_used (r : RingBuffer) : r.readP + r.used = r.writeP := by
  apply UInt32.toNat_inj.mp
  simp only [used, UInt32.toNat_sub, UInt32.toNat_add]
  have := r.writeP.toNat_lt
  have := r.readP.toNat_lt
  omega

/-- The cell of the write counter is `used` places after the cell of the read counter. -/
theorem writeP_mod (r : RingBuffer) :
    r.writeP.toNat % r.cap = (r.readP.toNat + r.used.toNat) % r.cap := by
  rw [← r.readP_add_used]
  exact add_mod r.pow2 _ _

/-- The room before the physical end, as `__buffer_size - (p & (__buffer_size - 1))`. -/
theorem room_toNat (r : RingBuffer) (p : UInt32) :
    (r.bufferSize - (p &&& (r.bufferSize - 1))).toNat = room r.cap p.toNat := by
  have hlt := mask_lt r.pow2 p
  rw [UInt32.toNat_sub_of_le _ _ (UInt32.le_iff_toNat_le.mpr hlt.le), mask_toNat r.pow2]
  rfl

/-- The length of the second `memcpy`. -/
theorem rest_toNat (a b : UInt32) : (a - umin a b).toNat = a.toNat - min a.toNat b.toNat := by
  have hle : (umin a b).toNat ≤ a.toNat := by
    rw [umin_toNat]
    exact Nat.min_le_left _ _
  rw [UInt32.toNat_sub_of_le _ _ (UInt32.le_iff_toNat_le.mpr hle), umin_toNat]

/-- Both reading `memcpy` calls together read a window of the stream. -/
theorem copyOut_eq (r : RingBuffer) {len : UInt32} (h : len.toNat ≤ r.cap) :
    r.copyOut len = window r.cap r.ringBuffer r.readP.toNat len.toNat := by
  simp only [copyOut]
  rw [rest_toNat, umin_toNat, room_toNat, mask_toNat r.pow2]
  exact load_split r.cap_pos h r.ringBuffer

/-- Both writing `memcpy` calls together are one split write. -/
theorem copyIn_eq (r : RingBuffer) (buffer : ℕ → UInt8) {len : UInt32} :
    r.copyIn buffer len =
      storeSplit r.cap r.ringBuffer r.writeP.toNat (load buffer 0 len.toNat) := by
  simp only [copyIn, memcpy, storeSplit]
  rw [rest_toNat, umin_toNat, room_toNat, mask_toNat r.pow2]
  -- whether the data reaches the physical end of the ring
  obtain ⟨h, h'⟩ | ⟨h, h'⟩ :
      (len.toNat ≤ room r.cap r.writeP.toNat ∧
        min len.toNat (room r.cap r.writeP.toNat) = len.toNat) ∨
      (room r.cap r.writeP.toNat ≤ len.toNat ∧
        min len.toNat (room r.cap r.writeP.toNat) = room r.cap r.writeP.toNat) := by
    rcases Nat.le_total len.toNat (room r.cap r.writeP.toNat) with h | h
    · exact Or.inl ⟨h, min_eq_left h⟩
    · exact Or.inr ⟨h, min_eq_right h⟩
  · -- all before the physical end: the second `memcpy` copies nothing
    rw [h', Nat.sub_self, load_zero, List.take_of_length_le (by simpa using h),
        List.drop_of_length_le (by simpa using h)]
    rfl
  · obtain ⟨b, hb⟩ := Nat.exists_eq_add_of_le h
    rw [h', hb, Nat.add_sub_cancel_left, load_add, List.take_left' (by simp),
        List.drop_left' (by simp)]
    simp only [Nat.zero_add]
    rfl

/-- Copying at most the free space in does not disturb what is stored. -/
theorem contents_copyIn (r : RingBuffer) (buffer : ℕ → UInt8) {len : UInt32}
    (h : r.used.toNat + len.toNat ≤ r.cap) :
    window r.cap (r.copyIn buffer len) r.readP.toNat r.used.toNat = r.contents := by
  rw [copyIn_eq, storeSplit_mod_start _ _ r.writeP_mod]
  exact window_storeSplit_before r.cap_pos (by simpa using h) _

/-- The copied bytes stand right behind what is stored. -/
theorem window_copyIn (r : RingBuffer) (buffer : ℕ → UInt8) {len : UInt32}
    (h : len.toNat ≤ r.cap) :
    window r.cap (r.copyIn buffer len) r.writeP.toNat len.toNat = load buffer 0 len.toNat := by
  rw [copyIn_eq]
  have hlen : (load buffer 0 len.toNat).length ≤ r.cap := by rwa [load_length]
  have hw := window_storeSplit (p := r.writeP.toNat) r.cap_pos hlen r.ringBuffer
  rwa [load_length] at hw

/-! ### What each operation does to the queue -/

/-- A new ring holds no bytes. -/
@[simp] theorem contents_new (bufSize : UInt32) (h : IsPow2 bufSize) (storage : ℕ → UInt8) :
    (new bufSize h storage).contents = [] := by
  simp [contents, used, new]

/-- A new ring is empty. -/
@[simp] theorem empty_new (bufSize : UInt32) (h : IsPow2 bufSize) (storage : ℕ → UInt8) :
    (new bufSize h storage).empty = true := by
  simp [empty, used, new]

/-- A cleared ring holds no bytes. -/
@[simp] theorem contents_clear (r : RingBuffer) : r.clear.contents = [] := by
  simp [contents, used, clear]

/-- `used()` after the write counter moved by `n`, within the free space. -/
theorem used_of_write {r r' : RingBuffer} {n : UInt32} (hw : r'.writeP = r.writeP + n)
    (hr : r'.readP = r.readP) (h : r.used.toNat + n.toNat ≤ r.cap) :
    r'.used.toNat = r.used.toNat + n.toNat := by
  have hcap := r.cap_le
  have hused : r'.used = r.used + n := by
    apply UInt32.toNat_inj.mp
    simp only [used, hw, hr, UInt32.toNat_sub, UInt32.toNat_add]
    omega
  rw [hused, UInt32.toNat_add, Nat.mod_eq_of_lt (by omega)]

/-- `used()` after the read counter moved by `n`, within the used space. -/
theorem used_of_read {r r' : RingBuffer} {n : UInt32} (hw : r'.writeP = r.writeP)
    (hr : r'.readP = r.readP + n) (h : n.toNat ≤ r.used.toNat) :
    r'.used.toNat = r.used.toNat - n.toNat := by
  have hused : r'.used = r.used - n := by
    apply UInt32.toNat_inj.mp
    simp only [used, hw, hr, UInt32.toNat_sub, UInt32.toNat_add]
    have := r.writeP.toNat_lt
    have := r.readP.toNat_lt
    have := n.toNat_lt
    omega
  rw [hused, UInt32.toNat_sub_of_le _ _ (UInt32.le_iff_toNat_le.mpr h)]

/-- Moving the write counter appends the bytes found behind the stored ones. -/
theorem contents_of_write {r r' : RingBuffer} {n : UInt32} (hc : r'.bufferSize = r.bufferSize)
    (hw : r'.writeP = r.writeP + n) (hr : r'.readP = r.readP)
    (h : r.used.toNat + n.toNat ≤ r.cap) :
    r'.contents = window r.cap r'.ringBuffer r.readP.toNat r.used.toNat ++
      window r.cap r'.ringBuffer r.writeP.toNat n.toNat := by
  rw [window_mod_start _ n.toNat r.writeP_mod, ← window_add, ← used_of_write hw hr h, contents,
      cap, hc, hr]
  rfl

/-- Moving the read counter drops the oldest bytes. -/
theorem contents_of_read {r r' : RingBuffer} {n : UInt32} (hc : r'.bufferSize = r.bufferSize)
    (hm : r'.ringBuffer = r.ringBuffer) (hw : r'.writeP = r.writeP)
    (hr : r'.readP = r.readP + n) (h : n.toNat ≤ r.used.toNat) :
    r'.contents = r.contents.drop n.toNat := by
  have hdrop : r.contents.drop n.toNat = _ := window_drop _ _ _ h
  rw [hdrop, contents, cap, hc, hm, hr, used_of_read hw hr h]
  exact window_mod_start _ _ (add_mod r.pow2 _ _)

/-- `kfifo_put` appends the first `min(len, free)` bytes of its buffer and returns their
    number. -/
theorem kfifoPut_spec (r : RingBuffer) (buffer : ℕ → UInt8) (len : UInt32) :
    (r.kfifoPut buffer len).1.toNat = min len.toNat (r.cap - r.used.toNat) ∧
      (r.kfifoPut buffer len).2.contents =
        r.contents ++ load buffer 0 (min len.toNat (r.cap - r.used.toNat)) := by
  unfold kfifoPut
  by_cases h : len = 0
  · simp [h]
  · have hn : (umin len (r.bufferSize - r.writeP + r.readP)).toNat
        = min len.toNat (r.cap - r.used.toNat) := by
      rw [sub_add_eq_free, umin_toNat]
      exact congrArg _ r.available_toNat
    have hle := r.used_toNat_le
    simp only [beq_iff_eq, h, if_false]
    refine ⟨hn, ?_⟩
    have hroom : r.used.toNat + (umin len (r.bufferSize - r.writeP + r.readP)).toNat ≤ r.cap := by
      have := Nat.min_le_right len.toNat (r.cap - r.used.toNat)
      omega
    -- the counter moves over the bytes just copied in
    refine Eq.trans (contents_of_write (r := r) rfl rfl rfl hroom) ?_
    rw [contents_copyIn r buffer hroom, window_copyIn r buffer (by omega), hn]

/-- `kfifo_get` removes and returns the oldest `min(len, used)` bytes. -/
theorem kfifoGet_spec (r : RingBuffer) (len : UInt32) :
    (r.kfifoGet len).1.toNat = min len.toNat r.used.toNat ∧
      (r.kfifoGet len).2.1 = r.contents.take (min len.toNat r.used.toNat) ∧
      (r.kfifoGet len).2.2.contents = r.contents.drop (min len.toNat r.used.toNat) := by
  unfold kfifoGet
  by_cases h : r.empty = true
  · -- nothing is stored, and nothing is returned
    have hz := r.empty_iff.mp h
    simp [h, hz]
  · have hn : (umin len (r.writeP - r.readP)).toNat = min len.toNat r.used.toNat := umin_toNat _ _
    have hle : (umin len (r.writeP - r.readP)).toNat ≤ r.used.toNat := umin_le_right _ _
    have hcap := r.used_toNat_le
    simp only [h, Bool.false_eq_true, if_false]
    refine ⟨hn, ?_, ?_⟩
    · rw [copyOut_eq r (by omega), ← hn]
      exact (window_take _ _ _ hle).symm
    · rw [← hn]
      exact contents_of_read rfl rfl rfl rfl hle

/-- `peek_read` returns the oldest `len` bytes, or nothing when fewer are stored. -/
theorem peekRead_spec (r : RingBuffer) (len : UInt32) :
    r.peekRead len =
      if len.toNat ≤ r.used.toNat then (len, r.contents.take len.toNat) else (0, []) := by
  have hcap := r.used_toNat_le
  unfold peekRead
  -- what is not stored cannot be read
  by_cases h : r.used < len
  · have hlt : ¬ len.toNat ≤ r.used.toNat := by
      rw [UInt32.lt_iff_toNat_lt] at h
      omega
    simp [h, hlt]
  · have hle : len.toNat ≤ r.used.toNat := by
      rw [UInt32.lt_iff_toNat_lt] at h
      omega
    by_cases he : r.empty = true
    · -- the early return of an empty ring: only `len = 0` gets here, and `0` is right for it
      have hz := r.empty_iff.mp he
      have hlen : len = 0 := UInt32.toNat_inj.mp (by rw [UInt32.toNat_zero]; omega)
      simp [he, hlen]
    · have hmin : umin len (r.writeP - r.readP) = len := by
        apply UInt32.toNat_inj.mp
        rw [umin_toNat]
        exact min_eq_left hle
      simp only [he, h, decide_false, Bool.or_self, Bool.false_eq_true, if_false, hle, if_true,
        hmin]
      rw [copyOut_eq r (by omega)]
      exact congrArg _ (window_take _ _ _ hle).symm

/-- `seek_read` drops exactly `len` bytes, or fails and changes nothing. -/
theorem seekRead_spec (r : RingBuffer) (len : UInt32) :
    (len.toNat ≤ r.used.toNat → (r.seekRead len).1 = true ∧
      (r.seekRead len).2.contents = r.contents.drop len.toNat) ∧
    (¬ len.toNat ≤ r.used.toNat → r.seekRead len = (false, r)) := by
  have hiff : r.used < len ↔ ¬ len.toNat ≤ r.used.toNat := by
    rw [UInt32.lt_iff_toNat_lt]
    omega
  unfold seekRead
  constructor
  · intro hle
    have h : ¬ r.used < len := by
      rw [hiff]
      omega
    rw [dif_neg h]
    exact ⟨rfl, contents_of_read rfl rfl rfl rfl hle⟩
  · intro hlt
    rw [dif_pos (hiff.mpr hlt)]

/-- A `seek_read` that does not fail leaves `len` bytes fewer. -/
theorem seekRead_used (r : RingBuffer) {len : UInt32} (h : len.toNat ≤ r.used.toNat) :
    (r.seekRead len).2.used.toNat = r.used.toNat - len.toNat := by
  have hused := congrArg List.length ((r.seekRead_spec len).1 h).2
  rwa [contents_length, List.length_drop, contents_length] at hused

/-- `seek_write` moves over exactly `len` bytes behind the stored ones, or fails and changes
    nothing. -/
theorem seekWrite_spec (r : RingBuffer) (len : UInt32) :
    (r.used.toNat + len.toNat ≤ r.cap → (r.seekWrite len).1 = true ∧
      (r.seekWrite len).2.contents =
        r.contents ++ window r.cap r.ringBuffer r.writeP.toNat len.toNat) ∧
    (¬ r.used.toNat + len.toNat ≤ r.cap → r.seekWrite len = (false, r)) := by
  have hcap := r.used_toNat_le
  have hiff : r.available < len ↔ ¬ r.used.toNat + len.toNat ≤ r.cap := by
    rw [UInt32.lt_iff_toNat_lt, available_toNat]
    omega
  unfold seekWrite
  constructor
  · intro hle
    have h : ¬ r.available < len := by
      rw [hiff]
      omega
    rw [dif_neg h]
    exact ⟨rfl, contents_of_write rfl rfl rfl hle⟩
  · intro hlt
    rw [dif_pos (hiff.mpr hlt)]

/-- A `seek_read` that goes through moves the read counter. -/
theorem seekRead_readP (r : RingBuffer) {len : UInt32} (h : len.toNat ≤ r.used.toNat) :
    (r.seekRead len).2.readP = r.readP + len := by
  have hnlt : ¬ r.used < len := by
    rw [UInt32.lt_iff_toNat_lt]
    omega
  rw [seekRead, dif_neg hnlt]

/-- `seek_read` touches nothing but the read counter. -/
theorem seekRead_frame (r : RingBuffer) (len : UInt32) :
    (r.seekRead len).2.bufferSize = r.bufferSize ∧
      (r.seekRead len).2.ringBuffer = r.ringBuffer ∧ (r.seekRead len).2.writeP = r.writeP := by
  unfold seekRead
  split <;> exact ⟨rfl, rfl, rfl⟩

/-- A `seek_write` that goes through moves the write counter. -/
theorem seekWrite_writeP (r : RingBuffer) {len : UInt32}
    (h : r.used.toNat + len.toNat ≤ r.cap) : (r.seekWrite len).2.writeP = r.writeP + len := by
  have hcap := r.used_toNat_le
  have hnlt : ¬ r.available < len := by
    rw [UInt32.lt_iff_toNat_lt, available_toNat]
    omega
  rw [seekWrite, dif_neg hnlt]

/-- `seek_write` touches nothing but the write counter. -/
theorem seekWrite_frame (r : RingBuffer) (len : UInt32) :
    (r.seekWrite len).2.bufferSize = r.bufferSize ∧
      (r.seekWrite len).2.ringBuffer = r.ringBuffer ∧ (r.seekWrite len).2.readP = r.readP := by
  unfold seekWrite
  split
  · exact ⟨rfl, rfl, rfl⟩
  · exact ⟨rfl, rfl, rfl⟩

/-- `peek_write` never changes the queue; when the bytes fit they are left right behind it. -/
theorem peekWrite_spec (r : RingBuffer) (buffer : ℕ → UInt8) (len : UInt32) :
    (r.used.toNat + len.toNat ≤ r.cap → (r.peekWrite buffer len).1 = len ∧
      (r.peekWrite buffer len).2.contents = r.contents ∧
      window r.cap (r.peekWrite buffer len).2.ringBuffer r.writeP.toNat len.toNat
        = load buffer 0 len.toNat) ∧
    (¬ r.used.toNat + len.toNat ≤ r.cap → r.peekWrite buffer len = (0, r)) := by
  have hcap := r.used_toNat_le
  have hiff : r.available < len ↔ ¬ r.used.toNat + len.toNat ≤ r.cap := by
    rw [UInt32.lt_iff_toNat_lt, available_toNat]
    omega
  unfold peekWrite
  constructor
  · intro hle
    have h : ¬ r.available < len := by
      rw [hiff]
      omega
    by_cases hz : len = 0
    · subst hz
      simp
    · -- the clamp to the free bytes has no effect, since the test has been passed
      have hmin : umin len (r.bufferSize - r.writeP + r.readP) = len := by
        apply UInt32.toNat_inj.mp
        rw [sub_add_eq_free, umin_toNat]
        apply min_eq_left
        have := r.available_toNat
        unfold available at this
        omega
      simp only [beq_iff_eq, hz, h, decide_false, Bool.or_false, if_false, hmin]
      exact ⟨trivial, contents_copyIn r buffer hle, window_copyIn r buffer (by omega)⟩
  · intro hlt
    simp [hiff.mpr hlt]

/-- A put leaves the size of the ring alone. -/
theorem kfifoPut_bufferSize (r : RingBuffer) (buffer : ℕ → UInt8) (len : UInt32) :
    (r.kfifoPut buffer len).2.bufferSize = r.bufferSize := by
  unfold kfifoPut
  split <;> rfl

/-- So does `peek_write`. -/
theorem peekWrite_bufferSize (r : RingBuffer) (buffer : ℕ → UInt8) (len : UInt32) :
    (r.peekWrite buffer len).2.bufferSize = r.bufferSize := by
  unfold peekWrite
  split <;> rfl

end RingBuffer

end LeoNet
