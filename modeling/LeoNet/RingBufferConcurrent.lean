import LeoNet.RingBuffer
import LeoNet.Lib.Channel

namespace LeoNet

open Memory Circular Counter

/-!
# `ring_buffer` under one reader and one writer

The contract comment of `kfifo_put` / `kfifo_get`: with one concurrent reader and one concurrent
writer no lock is needed.  Both calls are programs over the shared storage and counters, one
atomic step for each load or store of a counter and for each byte copied.  A `memcpy` copies its
bytes in any order: the schedule says which byte comes next, and `todo` is what is left.

* `Kfifo.Inv` — the storage is a valid `Channel` whose counters are `__write_p` and `__read_p`,
  and each thread's locals are what its program point says (`PutFacts`, `GetFacts`);
* `putStep_inv` / `getStep_inv` — every step of either thread keeps it;
* `kfifo_spsc` — hence, for every schedule, the bytes returned are a prefix of the bytes
  accepted, and no byte the reader still needs is written.
-/

variable {n : UInt32}

/-- Where the writer is inside `kfifo_put(buffer, len)`. -/
inductive PutPc where
  | idle
  /-- about to load `__write_p` for the clamp -/
  | clampWrite (buffer : ℕ → UInt8) (len : UInt32)
  /-- about to load `__read_p` for the clamp; `w` is the write counter seen -/
  | clampRead (buffer : ℕ → UInt8) (len w : UInt32)
  /-- about to load `__write_p` for the length of the first piece -/
  | piece (buffer : ℕ → UInt8) (len : UInt32)
  /-- about to load `__write_p` for the destination of the first `memcpy` -/
  | dest (buffer : ℕ → UInt8) (len iLen : UInt32)
  /-- inside the first `memcpy`, to offset `d` -/
  | copyFirst (buffer : ℕ → UInt8) (len iLen : UInt32) (d : ℕ) (todo : List ℕ)
  /-- inside the second `memcpy`, to offset `0` -/
  | copyRest (buffer : ℕ → UInt8) (len iLen : UInt32) (todo : List ℕ)
  /-- about to load `__write_p` for `+=` -/
  | loadAdd (buffer : ℕ → UInt8) (len : UInt32)
  /-- about to store `e + len` to `__write_p` -/
  | storeAdd (buffer : ℕ → UInt8) (len e : UInt32)

/-- Where the reader is inside `kfifo_get(buffer, len)`; `got` is the caller's buffer. -/
inductive GetPc where
  | idle
  /-- about to load `__write_p` for `empty()` -/
  | emptyWrite (got : ℕ → UInt8) (len : UInt32)
  /-- about to load `__read_p` for `empty()`; `w` is the write counter seen -/
  | emptyRead (got : ℕ → UInt8) (len w : UInt32)
  /-- about to load `__write_p` for the clamp -/
  | clampWrite (got : ℕ → UInt8) (len : UInt32)
  /-- about to load `__read_p` for the clamp; `w` is the write counter seen -/
  | clampRead (got : ℕ → UInt8) (len w : UInt32)
  /-- about to load `__read_p` for the length of the first piece -/
  | piece (got : ℕ → UInt8) (len : UInt32)
  /-- about to load `__read_p` for the source of the first `memcpy` -/
  | src (got : ℕ → UInt8) (len iLen : UInt32)
  /-- inside the first `memcpy`, from offset `d` -/
  | copyFirst (got : ℕ → UInt8) (len iLen : UInt32) (d : ℕ) (todo : List ℕ)
  /-- inside the second `memcpy`, from offset `0` -/
  | copyRest (got : ℕ → UInt8) (len iLen : UInt32) (todo : List ℕ)
  /-- about to load `__read_p` for `+=` -/
  | loadAdd (got : ℕ → UInt8) (len : UInt32)
  /-- about to store `e + len` to `__read_p` -/
  | storeAdd (got : ℕ → UInt8) (len e : UInt32)

/-- The shared ring of capacity `n`, both threads, and the bytes of the finished calls. -/
structure Kfifo (n : UInt32) where
  ringBuffer : ℕ → UInt8
  writeP : UInt32
  readP : UInt32
  put : PutPc
  get : GetPc
  accepted : List UInt8
  returned : List UInt8

namespace Kfifo

/-- After the constructor, both threads idle. -/
def init (storage : ℕ → UInt8) : Kfifo n := ⟨storage, 0, 0, .idle, .idle, [], []⟩

/-- One step of the writer; from `idle` it calls `kfifo_put(buffer, len)`, inside a `memcpy` it
    copies byte `i`. -/
def putStep (s : Kfifo n) (buffer : ℕ → UInt8) (len : UInt32) (i : ℕ) : Kfifo n :=
  match s.put with
  | .idle => if len == 0 then s else { s with put := .clampWrite buffer len }
  | .clampWrite buffer len => { s with put := .clampRead buffer len s.writeP }
  | .clampRead buffer len w => { s with put := .piece buffer (umin len (n - w + s.readP)) }
  | .piece buffer len =>
      { s with put := .dest buffer len (umin len (n - (s.writeP &&& (n - 1)))) }
  | .dest buffer len iLen =>
      { s with
        put := .copyFirst buffer len iLen (s.writeP &&& (n - 1)).toNat (List.range iLen.toNat) }
  | .copyFirst buffer len iLen d todo =>
      if todo = [] then { s with put := .copyRest buffer len iLen (List.range (len - iLen).toNat) }
      else if i ∈ todo then
        { s with
          ringBuffer := Function.update s.ringBuffer (d + i) (buffer i)
          put := .copyFirst buffer len iLen d (todo.filter (· ≠ i)) }
      else s
  | .copyRest buffer len iLen todo =>
      if todo = [] then { s with put := .loadAdd buffer len }
      else if i ∈ todo then
        { s with
          ringBuffer := Function.update s.ringBuffer i (buffer (iLen.toNat + i))
          put := .copyRest buffer len iLen (todo.filter (· ≠ i)) }
      else s
  | .loadAdd buffer len => { s with put := .storeAdd buffer len s.writeP }
  | .storeAdd buffer len e =>
      { s with
        writeP := e + len
        put := .idle
        accepted := s.accepted ++ load buffer 0 len.toNat }

/-- One step of the reader; from `idle` it calls `kfifo_get(got, len)`, inside a `memcpy` it
    copies byte `i`. -/
def getStep (s : Kfifo n) (got : ℕ → UInt8) (len : UInt32) (i : ℕ) : Kfifo n :=
  match s.get with
  | .idle => { s with get := .emptyWrite got len }
  | .emptyWrite got len => { s with get := .emptyRead got len s.writeP }
  | .emptyRead got len w =>
      if w - s.readP == 0 then { s with get := .idle } else { s with get := .clampWrite got len }
  | .clampWrite got len => { s with get := .clampRead got len s.writeP }
  | .clampRead got len w => { s with get := .piece got (umin len (w - s.readP)) }
  | .piece got len => { s with get := .src got len (umin len (n - (s.readP &&& (n - 1)))) }
  | .src got len iLen =>
      { s with
        get := .copyFirst got len iLen (s.readP &&& (n - 1)).toNat (List.range iLen.toNat) }
  | .copyFirst got len iLen d todo =>
      if todo = [] then { s with get := .copyRest got len iLen (List.range (len - iLen).toNat) }
      else if i ∈ todo then
        { s with
          get := .copyFirst (Function.update got i (s.ringBuffer (d + i))) len iLen d
            (todo.filter (· ≠ i)) }
      else s
  | .copyRest got len iLen todo =>
      if todo = [] then { s with get := .loadAdd got len }
      else if i ∈ todo then
        { s with
          get := .copyRest (Function.update got (iLen.toNat + i) (s.ringBuffer i)) len iLen
            (todo.filter (· ≠ i)) }
      else s
  | .loadAdd got len => { s with get := .storeAdd got len s.readP }
  | .storeAdd got len e =>
      { s with
        readP := e + len
        get := .idle
        returned := s.returned ++ load got 0 len.toNat }

/-- The storage byte the writer's next step stores to, when it copies byte `i`. -/
def putTarget (s : Kfifo n) (i : ℕ) : Option ℕ :=
  match s.put with
  | .copyFirst _ _ _ d todo => if i ∈ todo then some (d + i) else none
  | .copyRest _ _ _ todo => if i ∈ todo then some i else none
  | _ => none

end Kfifo

/-- Which thread the scheduler runs, what it calls if it is idle, and the byte it copies if it
    is inside a `memcpy`. -/
inductive KfifoAct where
  | put (buffer : ℕ → UInt8) (len : UInt32) (i : ℕ)
  | get (got : ℕ → UInt8) (len : UInt32) (i : ℕ)

/-- One step of the scheduled thread. -/
def Kfifo.step (s : Kfifo n) : KfifoAct → Kfifo n
  | .put buffer len i => s.putStep buffer len i
  | .get got len i => s.getStep got len i

/-! ### What holds at each program point -/

/-- The bytes of `buffer` that satisfy `P` stand in their cells behind what was sent. -/
def Copied (N : ℕ) (c : Channel UInt8) (buffer : ℕ → UInt8) (P : ℕ → Prop) : Prop :=
  ∀ i, P i → c.cells ((c.w + i) % N) = buffer i

/-- The bytes of `got` that satisfy `P` are those sent and still to be received. -/
def Fetched (c : Channel UInt8) (got : ℕ → UInt8) (P : ℕ → Prop) : Prop :=
  ∀ i, P i → c.sent[c.r + i]? = some (got i)

/-- What is left of the first `memcpy` lies in its range. -/
def FirstPiece (N p : ℕ) (len iLen : UInt32) (todo : List ℕ) : Prop :=
  iLen.toNat = min len.toNat (room N p) ∧ ∀ i ∈ todo, i < iLen.toNat

/-- What is left of the second `memcpy` lies in its range. -/
def RestPiece (N p : ℕ) (len iLen : UInt32) (todo : List ℕ) : Prop :=
  iLen.toNat = min len.toNat (room N p) ∧ ∀ i ∈ todo, iLen.toNat + i < len.toNat

/-- The bytes the first `memcpy` is done with. -/
def FirstDone (iLen : UInt32) (todo : List ℕ) (i : ℕ) : Prop := i < iLen.toNat ∧ i ∉ todo

/-- The bytes both calls of `memcpy` are done with, inside the second. -/
def RestDone (len iLen : UInt32) (todo : List ℕ) (i : ℕ) : Prop :=
  i < len.toNat ∧ (i < iLen.toNat ∨ i - iLen.toNat ∉ todo)

/-- The writer's facts. -/
def PutFacts (n writeP : UInt32) (c : Channel UInt8) : PutPc → Prop
  | .idle => True
  | .clampWrite _ _ => True
  | .clampRead _ _ w => w = writeP
  | .piece _ len => c.w + len.toNat ≤ c.r + n.toNat
  | .dest _ len iLen =>
      c.w + len.toNat ≤ c.r + n.toNat ∧ iLen.toNat = min len.toNat (room n.toNat c.w)
  | .copyFirst buffer len iLen d todo =>
      c.w + len.toNat ≤ c.r + n.toNat ∧ d = c.w % n.toNat ∧
        FirstPiece n.toNat c.w len iLen todo ∧ Copied n.toNat c buffer (FirstDone iLen todo)
  | .copyRest buffer len iLen todo =>
      c.w + len.toNat ≤ c.r + n.toNat ∧ RestPiece n.toNat c.w len iLen todo ∧
        Copied n.toNat c buffer (RestDone len iLen todo)
  | .loadAdd buffer len =>
      c.w + len.toNat ≤ c.r + n.toNat ∧ Copied n.toNat c buffer (· < len.toNat)
  | .storeAdd buffer len e =>
      e = writeP ∧ c.w + len.toNat ≤ c.r + n.toNat ∧ Copied n.toNat c buffer (· < len.toNat)

/-- A counter value seen some time ago: it counts a position between `r` and `w`. -/
def Seen (c : Channel UInt8) (w : UInt32) : Prop := ∃ k, c.r ≤ k ∧ k ≤ c.w ∧ w = UInt32.ofNat k

/-- The reader's facts. -/
def GetFacts (n readP : UInt32) (c : Channel UInt8) : GetPc → Prop
  | .idle => True
  | .emptyWrite _ _ => True
  | .emptyRead _ _ _ => True
  | .clampWrite _ _ => True
  | .clampRead _ _ w => Seen c w
  | .piece _ len => c.r + len.toNat ≤ c.w
  | .src _ len iLen => c.r + len.toNat ≤ c.w ∧ iLen.toNat = min len.toNat (room n.toNat c.r)
  | .copyFirst got len iLen d todo =>
      c.r + len.toNat ≤ c.w ∧ d = c.r % n.toNat ∧
        FirstPiece n.toNat c.r len iLen todo ∧ Fetched c got (FirstDone iLen todo)
  | .copyRest got len iLen todo =>
      c.r + len.toNat ≤ c.w ∧ RestPiece n.toNat c.r len iLen todo ∧
        Fetched c got (RestDone len iLen todo)
  | .loadAdd got len => c.r + len.toNat ≤ c.w ∧ Fetched c got (· < len.toNat)
  | .storeAdd got len e =>
      e = readP ∧ c.r + len.toNat ≤ c.w ∧ Fetched c got (· < len.toNat)

/-- The writer's facts survive a step of the reader, which can only make more room. -/
theorem PutFacts.mono {writeP : UInt32} {c c' : Channel UInt8} {pc : PutPc}
    (hcells : c'.cells = c.cells) (hw : c'.w = c.w) (hr : c.r ≤ c'.r)
    (h : PutFacts n writeP c pc) : PutFacts n writeP c' pc := by
  -- the room that the writer has found can only grow
  have hroom : ∀ {len : UInt32}, c.w + len.toNat ≤ c.r + n.toNat →
      c'.w + len.toNat ≤ c'.r + n.toNat := by
    intro len hlen
    omega
  -- the reader stores nothing, so what has been copied is still there
  have hcopied : ∀ {buffer P}, Copied n.toNat c buffer P → Copied n.toNat c' buffer P := by
    intro buffer P hc i hi
    rw [hcells, hw]
    exact hc i hi
  cases pc with
  | idle => trivial
  | clampWrite buffer len => trivial
  | clampRead buffer len w => exact h
  | piece buffer len => exact hroom h
  | dest buffer len iLen =>
    obtain ⟨hlen, hi⟩ := h
    exact ⟨hroom hlen, by rw [hw]; exact hi⟩
  | copyFirst buffer len iLen d todo =>
    obtain ⟨hlen, hd, hp, hc⟩ := h
    exact ⟨hroom hlen, by rw [hw]; exact hd, by rw [hw]; exact hp, hcopied hc⟩
  | copyRest buffer len iLen todo =>
    obtain ⟨hlen, hp, hc⟩ := h
    exact ⟨hroom hlen, by rw [hw]; exact hp, hcopied hc⟩
  | loadAdd buffer len =>
    obtain ⟨hlen, hc⟩ := h
    exact ⟨hroom hlen, hcopied hc⟩
  | storeAdd buffer len e =>
    obtain ⟨he, hlen, hc⟩ := h
    exact ⟨he, hroom hlen, hcopied hc⟩

/-- The reader's facts survive a step of the writer, which can only send more. -/
theorem GetFacts.mono {readP : UInt32} {c c' : Channel UInt8} {pc : GetPc}
    (hr : c'.r = c.r) (hsent : c.sent <+: c'.sent) (h : GetFacts n readP c pc) :
    GetFacts n readP c' pc := by
  have hw : c.w ≤ c'.w := hsent.length_le
  -- the bytes that the reader has found can only become more
  have hheld : ∀ {len : UInt32}, c.r + len.toNat ≤ c.w → c'.r + len.toNat ≤ c'.w := by
    intro len hlen
    omega
  -- what has been fetched was sent, and stays the same part of what is sent
  have hfetched : ∀ {got P}, Fetched c got P → Fetched c' got P := by
    intro got P hf i hi
    obtain ⟨rest, hrest⟩ := hsent
    have hget := hf i hi
    rw [hr, ← hrest, List.getElem?_append_left (List.getElem?_eq_some_iff.mp hget).1]
    exact hget
  cases pc with
  | idle => trivial
  | emptyWrite got len => trivial
  | emptyRead got len w => trivial
  | clampWrite got len => trivial
  | clampRead got len w =>
    obtain ⟨k, hk, hk', hw'⟩ := h
    exact ⟨k, by omega, by omega, hw'⟩
  | piece got len => exact hheld h
  | src got len iLen =>
    obtain ⟨hlen, hi⟩ := h
    exact ⟨hheld hlen, by rw [hr]; exact hi⟩
  | copyFirst got len iLen d todo =>
    obtain ⟨hlen, hd, hp, hf⟩ := h
    exact ⟨hheld hlen, by rw [hr]; exact hd, by rw [hr]; exact hp, hfetched hf⟩
  | copyRest got len iLen todo =>
    obtain ⟨hlen, hp, hf⟩ := h
    exact ⟨hheld hlen, by rw [hr]; exact hp, hfetched hf⟩
  | loadAdd got len =>
    obtain ⟨hlen, hf⟩ := h
    exact ⟨hheld hlen, hfetched hf⟩
  | storeAdd got len e =>
    obtain ⟨he, hlen, hf⟩ := h
    exact ⟨he, hheld hlen, hfetched hf⟩

/-! ### Pieces of a copy and the cells they stand for -/

section Pieces

variable {N p : ℕ} {len iLen : UInt32} {todo : List ℕ} {k : ℕ}

/-- A byte of the first piece goes to, or comes from, the offset linearly behind the start. -/
theorem FirstPiece.cell (h : FirstPiece N p len iLen todo) (hk : k ∈ todo) :
    (p + k) % N = p % N + k ∧ k < len.toNat := by
  have hlt := h.2 k hk
  have hmin := h.1
  have hroom : room N p = N - p % N := rfl
  exact ⟨cell_before_end (by omega), by omega⟩

/-- A byte of the second piece goes to, or comes from, the offset from the beginning. -/
theorem RestPiece.cell (h : RestPiece N p len iLen todo) (hlen : len.toNat ≤ N) (hk : k ∈ todo) :
    (p + (iLen.toNat + k)) % N = k := by
  have hlt := h.2 k hk
  have hmin := h.1
  have hiLen : iLen.toNat = room N p := by omega
  rw [hiLen]
  exact cell_after_end p (by omega)

/-- At its start, all bytes of the first copy are left to do. -/
theorem FirstPiece.start (h : iLen.toNat = min len.toNat (room N p)) :
    FirstPiece N p len iLen (List.range iLen.toNat) :=
  ⟨h, fun _ hi => List.mem_range.mp hi⟩

/-- One byte less is left in the first copy. -/
theorem FirstPiece.next (h : FirstPiece N p len iLen todo) :
    FirstPiece N p len iLen (todo.filter (· ≠ k)) :=
  ⟨h.1, fun i hi => h.2 i (List.mem_of_mem_filter hi)⟩

/-- Once the first piece is done the second has all its bytes to do. -/
theorem FirstPiece.finish (h : FirstPiece N p len iLen todo) :
    RestPiece N p len iLen (List.range (len - iLen).toNat) := by
  have hmin := h.1
  have hle : iLen.toNat ≤ len.toNat := by omega
  refine ⟨h.1, fun i hi => ?_⟩
  rw [List.mem_range, UInt32.toNat_sub_of_le _ _ (UInt32.le_iff_toNat_le.mpr hle)] at hi
  omega

/-- One byte less is left in the second copy. -/
theorem RestPiece.next (h : RestPiece N p len iLen todo) :
    RestPiece N p len iLen (todo.filter (· ≠ k)) :=
  ⟨h.1, fun i hi => h.2 i (List.mem_of_mem_filter hi)⟩

/-- At the start of the first copy, no byte is done. -/
theorem FirstDone.start {i : ℕ} : ¬ FirstDone iLen (List.range iLen.toNat) i := by
  rintro ⟨hi, hnot⟩
  exact hnot (List.mem_range.mpr hi)

/-- A byte that is done now was done before, or is the one that was just copied. -/
theorem FirstDone.next {i : ℕ} (h : FirstDone iLen (todo.filter (· ≠ k)) i) :
    FirstDone iLen todo i ∨ i = k := by
  obtain ⟨hi, hnot⟩ := h
  by_cases hik : i = k
  · exact Or.inr hik
  · refine Or.inl ⟨hi, fun hmem => hnot ?_⟩
    rw [List.mem_filter]
    exact ⟨hmem, by simpa using hik⟩

/-- At the start of the second copy, the first one is done. -/
theorem RestDone.start {i : ℕ} (hle : iLen.toNat ≤ len.toNat)
    (h : RestDone len iLen (List.range (len - iLen).toNat) i) : FirstDone iLen [] i := by
  obtain ⟨hi, hdone⟩ := h
  refine ⟨?_, List.not_mem_nil⟩
  rcases hdone with hlt | hnot
  · exact hlt
  · rw [List.mem_range, UInt32.toNat_sub_of_le _ _ (UInt32.le_iff_toNat_le.mpr hle)] at hnot
    omega

/-- The same as for the first copy. -/
theorem RestDone.next {i : ℕ} (h : RestDone len iLen (todo.filter (· ≠ k)) i) :
    RestDone len iLen todo i ∨ i = iLen.toNat + k := by
  obtain ⟨hi, hdone⟩ := h
  by_cases hik : i = iLen.toNat + k
  · exact Or.inr hik
  · refine Or.inl ⟨hi, ?_⟩
    rcases hdone with hlt | hnot
    · exact Or.inl hlt
    · by_cases hlt : i < iLen.toNat
      · exact Or.inl hlt
      · apply Or.inr
        intro hmem
        apply hnot
        rw [List.mem_filter]
        exact ⟨hmem, by simp; omega⟩

/-- At the end of the second copy, all bytes are done. -/
theorem RestDone.finish {i : ℕ} (hi : i < len.toNat) : RestDone len iLen [] i :=
  ⟨hi, Or.inr List.not_mem_nil⟩

end Pieces

section Copies

variable {N k : ℕ} {c : Channel UInt8} {buffer got : ℕ → UInt8} {P Q : ℕ → Prop}

/-- What was copied for more bytes was for fewer. -/
theorem Copied.weaken (h : Copied N c buffer P) (hQ : ∀ i, Q i → P i) : Copied N c buffer Q :=
  fun i hi => h i (hQ i hi)

/-- What was fetched for more bytes was for fewer. -/
theorem Fetched.weaken (h : Fetched c got P) (hQ : ∀ i, Q i → P i) : Fetched c got Q :=
  fun i hi => h i (hQ i hi)

/-- Copying one more byte in keeps those already copied. -/
theorem Copied.write (h : Copied N c buffer P) (hP : ∀ i, P i → i < N) (hk : k < N) :
    Copied N { c with cells := Function.update c.cells ((c.w + k) % N) (buffer k) } buffer
      (fun i => P i ∨ i = k) := by
  intro i hi
  show Function.update c.cells ((c.w + k) % N) (buffer k) ((c.w + i) % N) = buffer i
  by_cases hik : i = k
  · rw [hik, Function.update_self]
  · have hPi : P i := hi.resolve_right hik
    have hiN := hP i hPi
    -- two different bytes of one call go to different cells
    have hne : (c.w + i) % N ≠ (c.w + k) % N := by
      rcases Nat.lt_or_gt_of_ne hik with hlt | hgt
      · exact (cell_ne (by omega) (by omega)).symm
      · exact cell_ne (by omega) (by omega)
    rw [Function.update_of_ne hne]
    exact h i hPi

/-- Copying one more byte out keeps those already copied. -/
theorem Fetched.fetch (h : Fetched c got P) {v : UInt8} (hv : c.sent[c.r + k]? = some v) :
    Fetched c (Function.update got k v) (fun i => P i ∨ i = k) := by
  intro i hi
  by_cases hik : i = k
  · rw [hik, Function.update_self]
    exact hv
  · rw [Function.update_of_ne hik]
    exact h i (hi.resolve_right hik)

end Copies

namespace Kfifo

/-- The channel a state stands for. -/
def chan (s : Kfifo n) : Channel UInt8 := ⟨s.ringBuffer, s.accepted, s.returned⟩

/-- The invariant of every interleaving. -/
structure Inv (s : Kfifo n) : Prop where
  chan : Channel.Valid n.toNat s.chan
  writeP : s.writeP = UInt32.ofNat s.chan.w
  readP : s.readP = UInt32.ofNat s.chan.r
  put : PutFacts n s.writeP s.chan s.put
  get : GetFacts n s.readP s.chan s.get

/-- A new ring has the invariant. -/
theorem init_inv (storage : ℕ → UInt8) : (init storage : Kfifo n).Inv where
  chan := Channel.valid_empty _ _
  writeP := rfl
  readP := rfl
  put := trivial
  get := trivial

/-- A step of the writer that moves only its program point. -/
theorem Inv.movePut {s : Kfifo n} (h : s.Inv) {pc : PutPc} (hpc : PutFacts n s.writeP s.chan pc) :
    ({ s with put := pc } : Kfifo n).Inv :=
  ⟨h.chan, h.writeP, h.readP, hpc, h.get⟩

/-- A step of the reader that moves only its program point. -/
theorem Inv.moveGet {s : Kfifo n} (h : s.Inv) {pc : GetPc} (hpc : GetFacts n s.readP s.chan pc) :
    ({ s with get := pc } : Kfifo n).Inv :=
  ⟨h.chan, h.writeP, h.readP, h.put, hpc⟩

/-- A step of the writer that stores byte `k` of its buffer to the cell of position `w + k`. -/
theorem Inv.storeByte {s : Kfifo n} (h : s.Inv) {pc : PutPc} {v : UInt8} {k : ℕ}
    (hk : s.chan.w + k < s.chan.r + n.toNat)
    (hpc : PutFacts n s.writeP
      { s.chan with cells := Function.update s.ringBuffer ((s.chan.w + k) % n.toNat) v } pc) :
    ({ s with
      ringBuffer := Function.update s.ringBuffer ((s.chan.w + k) % n.toNat) v
      put := pc } : Kfifo n).Inv :=
  ⟨h.chan.write v (Nat.le_add_right _ _) hk, h.writeP, h.readP, hpc,
    GetFacts.mono (c := s.chan) rfl List.prefix_rfl h.get⟩

/-- The masked write counter is the cell of position `w`. -/
theorem Inv.writeCell {s : Kfifo n} (h : s.Inv) (hn : IsPow2 n) :
    (s.writeP &&& (n - 1)).toNat = s.chan.w % n.toNat := by
  rw [mask_toNat hn, h.writeP, ofNat_mod hn]

/-- The masked read counter is the cell of position `r`. -/
theorem Inv.readCell {s : Kfifo n} (h : s.Inv) (hn : IsPow2 n) :
    (s.readP &&& (n - 1)).toNat = s.chan.r % n.toNat := by
  rw [mask_toNat hn, h.readP, ofNat_mod hn]

/-- The length of the first piece, for a counter whose cell is that of position `p`. -/
theorem piece_toNat (hn : IsPow2 n) {q len : UInt32} {p : ℕ}
    (hq : (q &&& (n - 1)).toNat = p % n.toNat) :
    (umin len (n - (q &&& (n - 1)))).toNat = min len.toNat (room n.toNat p) := by
  have hlt := mask_lt hn q
  rw [umin_toNat, UInt32.toNat_sub_of_le _ _ (UInt32.le_iff_toNat_le.mpr hlt.le), hq]
  rfl

/-- The writer's clamp, with the read counter it has just seen. -/
theorem Inv.clampPut {s : Kfifo n} (h : s.Inv) (hn : IsPow2 n) (len : UInt32) :
    s.chan.w + (umin len (n - s.writeP + s.readP)).toNat ≤ s.chan.r + n.toNat := by
  have hle := hn.le
  have hrw := h.chan.r_le_w
  have hwr := h.chan.w_le
  -- the counters are `w` and `r` up to wrap-around, and their distance is below `2 ^ 32`
  have hfree : (n - s.writeP + s.readP).toNat = n.toNat - (s.chan.w - s.chan.r) := by
    have hsub : (s.writeP - s.readP).toNat = s.chan.w - s.chan.r := by
      rw [h.writeP, h.readP, ofNat_sub_ofNat hrw (by omega)]
    rw [RingBuffer.sub_add_eq_free, UInt32.toNat_sub_of_le, hsub]
    rw [UInt32.le_iff_toNat_le, hsub]
    omega
  have hmin := umin_le_right len (n - s.writeP + s.readP)
  omega

/-- The reader's clamp, with the write counter it saw before. -/
theorem Inv.clampGet {s : Kfifo n} (h : s.Inv) (hn : IsPow2 n) {w : UInt32}
    (hw : Seen s.chan w) (len : UInt32) :
    s.chan.r + (umin len (w - s.readP)).toNat ≤ s.chan.w := by
  have hle := hn.le
  have hwr := h.chan.w_le
  obtain ⟨k, hk, hk', rfl⟩ := hw
  have hused : (UInt32.ofNat k - s.readP).toNat = k - s.chan.r := by
    rw [h.readP, ofNat_sub_ofNat hk (by omega)]
  have hmin := umin_le_right len (UInt32.ofNat k - s.readP)
  omega

/-- **Each step of the producer** keeps the invariant. -/
theorem putStep_inv (hn : IsPow2 n) {s : Kfifo n} (h : s.Inv) (buffer : ℕ → UInt8)
    (len : UInt32) (i : ℕ) : (s.putStep buffer len i).Inv := by
  have hput := h.put
  have hrw := h.chan.r_le_w
  unfold putStep
  cases hpc : s.put with
  | idle =>
    show Inv (if len == 0 then s else { s with put := .clampWrite buffer len })
    split
    · exact h
    · exact h.movePut trivial
  | clampWrite buffer len => exact h.movePut rfl
  | clampRead buffer len w =>
    rw [hpc] at hput
    obtain rfl : w = s.writeP := hput
    -- the read counter may move on from here: that only makes more room
    exact h.movePut (h.clampPut hn len)
  | piece buffer len =>
    rw [hpc] at hput
    exact h.movePut ⟨hput, piece_toNat hn (h.writeCell hn)⟩
  | dest buffer len iLen =>
    rw [hpc] at hput
    obtain ⟨hlen, hi⟩ := hput
    exact h.movePut ⟨hlen, h.writeCell hn, FirstPiece.start hi,
      fun j hj => absurd hj FirstDone.start⟩
  | copyFirst buffer len iLen d todo =>
    rw [hpc] at hput
    obtain ⟨hlen, rfl, hp, hc⟩ := hput
    show Inv (if todo = [] then _ else _)
    split
    case isTrue hnil =>
      -- the first piece is copied, and all of the second is left
      subst hnil
      have hmin := hp.1
      exact h.movePut ⟨hlen, hp.finish, hc.weaken fun j hj => hj.start (by omega)⟩
    case isFalse =>
      split
      case isTrue hmem =>
        -- offset `d + i` is the cell of position `w + i`
        obtain ⟨hcell, hlt⟩ := hp.cell hmem
        rw [← hcell]
        refine h.storeByte (by omega) ⟨hlen, rfl, hp.next, ?_⟩
        have hmin := hp.1
        have hw := hc.write (k := i) (fun j hj => by have := hj.1; omega) (by omega)
        exact hw.weaken fun j hj => hj.next
      case isFalse => exact h
  | copyRest buffer len iLen todo =>
    rw [hpc] at hput
    obtain ⟨hlen, hp, hc⟩ := hput
    show Inv (if todo = [] then _ else _)
    split
    case isTrue hnil =>
      subst hnil
      exact h.movePut ⟨hlen, hc.weaken fun j hj => RestDone.finish hj⟩
    case isFalse =>
      split
      case isTrue hmem =>
        -- offset `i` is the cell of position `w + iLen + i`, past the physical end
        have hcell := hp.cell (by omega) hmem
        have hlt := hp.2 i hmem
        have hw := hc.write (k := iLen.toNat + i) (fun j hj => by have := hj.1; omega) (by omega)
        have hcopied := hw.weaken fun j (hj : RestDone len iLen (todo.filter (· ≠ i)) j) => hj.next
        have hstore := h.storeByte (k := iLen.toNat + i) (v := buffer (iLen.toNat + i)) (by omega)
          (show PutFacts n s.writeP _ (.copyRest buffer len iLen (todo.filter (· ≠ i))) from
            ⟨hlen, hp.next, hcopied⟩)
        rwa [hcell] at hstore
      case isFalse => exact h
  | loadAdd buffer len =>
    rw [hpc] at hput
    exact h.movePut ⟨rfl, hput⟩
  | storeAdd buffer len e =>
    rw [hpc] at hput
    obtain ⟨rfl, hlen, hc⟩ := hput
    -- the new counter publishes what the copies have left in the cells
    have hsent : Channel.Valid n.toNat
        ⟨s.ringBuffer, s.accepted ++ load buffer 0 len.toNat, s.returned⟩ := by
      apply h.chan.send _ (by rw [load_length]; exact hlen)
      intro j hj
      rw [load_length] at hj
      rw [load_getElem?, if_pos hj, Nat.zero_add, hc j hj]
    have hfacts : GetFacts n s.readP
        ⟨s.ringBuffer, s.accepted ++ load buffer 0 len.toNat, s.returned⟩ s.get :=
      GetFacts.mono (c := s.chan) rfl (List.prefix_append _ _) h.get
    refine ⟨hsent, ?_, h.readP, trivial, hfacts⟩
    show s.writeP + len = UInt32.ofNat (s.accepted ++ load buffer 0 len.toNat).length
    rw [h.writeP, ofNat_add, List.length_append, load_length]
    rfl

/-- **Each step of the consumer** keeps the invariant. -/
theorem getStep_inv (hn : IsPow2 n) {s : Kfifo n} (h : s.Inv) (got : ℕ → UInt8)
    (len : UInt32) (i : ℕ) : (s.getStep got len i).Inv := by
  have hget := h.get
  have hwr := h.chan.w_le
  unfold getStep
  cases hpc : s.get with
  | idle => exact h.moveGet trivial
  | emptyWrite got len => exact h.moveGet trivial
  | emptyRead got len w =>
    -- the test of `empty()` is not relied on: the clamp takes its own samples
    show Inv (if w - s.readP == 0 then _ else _)
    split
    · exact h.moveGet trivial
    · exact h.moveGet trivial
  | clampWrite got len => exact h.moveGet ⟨s.chan.w, h.chan.r_le_w, le_refl _, h.writeP⟩
  | clampRead got len w =>
    rw [hpc] at hget
    exact h.moveGet (h.clampGet hn hget len)
  | piece got len =>
    rw [hpc] at hget
    exact h.moveGet ⟨hget, piece_toNat hn (h.readCell hn)⟩
  | src got len iLen =>
    rw [hpc] at hget
    obtain ⟨hlen, hi⟩ := hget
    exact h.moveGet ⟨hlen, h.readCell hn, FirstPiece.start hi,
      fun j hj => absurd hj FirstDone.start⟩
  | copyFirst got len iLen d todo =>
    rw [hpc] at hget
    obtain ⟨hlen, rfl, hp, hf⟩ := hget
    show Inv (if todo = [] then _ else _)
    split
    case isTrue hnil =>
      subst hnil
      have hmin := hp.1
      exact h.moveGet ⟨hlen, hp.finish, hf.weaken fun j hj => hj.start (by omega)⟩
    case isFalse =>
      split
      case isTrue hmem =>
        -- the byte is still held: the writer has not been given its cell back
        obtain ⟨hcell, hlt⟩ := hp.cell hmem
        have hv := h.chan.read (i := i) (by omega)
        rw [hcell] at hv
        exact h.moveGet ⟨hlen, rfl, hp.next, (hf.fetch hv).weaken fun j hj => hj.next⟩
      case isFalse => exact h
  | copyRest got len iLen todo =>
    rw [hpc] at hget
    obtain ⟨hlen, hp, hf⟩ := hget
    show Inv (if todo = [] then _ else _)
    split
    case isTrue hnil =>
      subst hnil
      exact h.moveGet ⟨hlen, hf.weaken fun j hj => RestDone.finish hj⟩
    case isFalse =>
      split
      case isTrue hmem =>
        have hlt := hp.2 i hmem
        have hv := h.chan.read (i := iLen.toNat + i) (by omega)
        rw [hp.cell (by omega) hmem] at hv
        exact h.moveGet ⟨hlen, hp.next, (hf.fetch hv).weaken fun j hj => hj.next⟩
      case isFalse => exact h
  | loadAdd got len =>
    rw [hpc] at hget
    exact h.moveGet ⟨rfl, hget⟩
  | storeAdd got len e =>
    rw [hpc] at hget
    obtain ⟨rfl, hlen, hf⟩ := hget
    -- the new counter gives the cells back to the writer
    have hreceived : Channel.Valid n.toNat
        ⟨s.ringBuffer, s.accepted, s.returned ++ load got 0 len.toNat⟩ := by
      apply h.chan.receive _ (by rw [load_length]; exact hlen)
      intro j hj
      rw [load_length] at hj
      rw [load_getElem?, if_pos hj, Nat.zero_add]
      exact hf j hj
    have hmore : s.chan.r ≤ (s.returned ++ load got 0 len.toNat).length := by
      rw [List.length_append]
      exact Nat.le_add_right _ _
    have hfacts : PutFacts n s.writeP
        ⟨s.ringBuffer, s.accepted, s.returned ++ load got 0 len.toNat⟩ s.put :=
      PutFacts.mono (c := s.chan) rfl rfl hmore h.put
    refine ⟨hreceived, h.writeP, ?_, hfacts, trivial⟩
    show s.readP + len = UInt32.ofNat (s.returned ++ load got 0 len.toNat).length
    rw [h.readP, ofNat_add, List.length_append, load_length]
    rfl

/-- So does every step. -/
theorem step_inv (hn : IsPow2 n) {s : Kfifo n} (h : s.Inv) (a : KfifoAct) : (s.step a).Inv := by
  cases a with
  | put buffer len i => exact putStep_inv hn h buffer len i
  | get got len i => exact getStep_inv hn h got len i

/-- The invariant holds after every schedule. -/
theorem run_inv (hn : IsPow2 n) {s : Kfifo n} (h : s.Inv) (sched : List KfifoAct) :
    (sched.foldl step s).Inv := by
  induction sched generalizing s with
  | nil => exact h
  | cons a sched ih => exact ih (step_inv hn h a)

/-- A step of the writer changes no storage byte but its target. -/
theorem putStep_ringBuffer (s : Kfifo n) (buffer : ℕ → UInt8) (len : UInt32) (i x : ℕ)
    (hx : s.putTarget i ≠ some x) : (s.putStep buffer len i).ringBuffer x = s.ringBuffer x := by
  unfold putTarget at hx
  unfold putStep
  -- only the two `memcpy` calls store to the ring, one byte at a step
  cases hpc : s.put with
  | copyFirst buffer len iLen d todo =>
    rw [hpc] at hx
    show (if todo = [] then _ else _ : Kfifo n).ringBuffer x = _
    split
    · rfl
    · split
      case isTrue hmem =>
        change (if i ∈ todo then some (d + i) else none) ≠ some x at hx
        rw [if_pos hmem] at hx
        exact Function.update_of_ne (fun hxd => hx (by rw [hxd])) _ _
      case isFalse => rfl
  | copyRest buffer len iLen todo =>
    rw [hpc] at hx
    show (if todo = [] then _ else _ : Kfifo n).ringBuffer x = _
    split
    · rfl
    · split
      case isTrue hmem =>
        change (if i ∈ todo then some i else none) ≠ some x at hx
        rw [if_pos hmem] at hx
        exact Function.update_of_ne (fun hxi => hx (by rw [hxi])) _ _
      case isFalse => rfl
  | idle =>
    show (if len == 0 then s else _ : Kfifo n).ringBuffer x = _
    split <;> rfl
  | clampWrite buffer len => rfl
  | clampRead buffer len w => rfl
  | piece buffer len => rfl
  | dest buffer len iLen => rfl
  | loadAdd buffer len => rfl
  | storeAdd buffer len e => rfl

/-- The target of a writer's step is the cell of a position it may write. -/
theorem Inv.putTarget {s : Kfifo n} (h : s.Inv) {i x : ℕ} (hx : s.putTarget i = some x) :
    ∃ q, s.chan.w ≤ q ∧ q < s.chan.r + n.toNat ∧ q % n.toNat = x := by
  have hput := h.put
  have hrw := h.chan.r_le_w
  unfold Kfifo.putTarget at hx
  split at hx
  case h_1 buffer len iLen d todo hpc =>
    rw [hpc] at hput
    obtain ⟨hlen, rfl, hp, -⟩ := hput
    split at hx
    case isTrue hmem =>
      cases hx
      obtain ⟨hcell, hlt⟩ := hp.cell hmem
      exact ⟨s.chan.w + i, Nat.le_add_right _ _, by omega, hcell⟩
    case isFalse => cases hx
  case h_2 buffer len iLen todo hpc =>
    rw [hpc] at hput
    obtain ⟨hlen, hp, -⟩ := hput
    split at hx
    case isTrue hmem =>
      cases hx
      -- the second `memcpy` writes what the first one has left over
      have hlt := hp.2 i hmem
      exact ⟨s.chan.w + (iLen.toNat + i), Nat.le_add_right _ _, by omega,
        hp.cell (by omega) hmem⟩
    case isFalse => cases hx
  case h_3 => cases hx

end Kfifo

/-- **One reader and one writer need no lock.**  After every schedule of atomic steps from the
    constructor, the bytes returned by `kfifo_get` are a prefix of the bytes accepted by
    `kfifo_put`, and the storage byte the writer is about to store to is not the cell of a byte
    the reader has still to consume or is still copying. -/
theorem kfifo_spsc (hn : IsPow2 n) (storage : ℕ → UInt8) (sched : List KfifoAct) (s : Kfifo n)
    (hs : sched.foldl Kfifo.step (Kfifo.init storage) = s) :
    s.returned <+: s.accepted ∧
      ∀ i x, s.putTarget i = some x →
        ∀ p, s.returned.length ≤ p → p < s.accepted.length → p % n.toNat ≠ x := by
  have h : s.Inv := hs ▸ Kfifo.run_inv hn (Kfifo.init_inv storage) sched
  refine ⟨h.chan.received_prefix, ?_⟩
  intro i x hx p hp hp'
  obtain ⟨q, hq, hq', rfl⟩ := h.putTarget hx
  exact Channel.cell_ne (c := s.chan) hq hq' hp hp'

/-- Three bytes into a ring of two: the writer's bytes are copied last first, the reader starts
    in between. -/
theorem kfifo_spsc_two :
    let put : ℕ → KfifoAct := fun i => .put (fun j => UInt8.ofNat (j + 1)) 3 i
    let get : ℕ → KfifoAct := fun i => .get (fun _ => 0) 2 i
    let sched : List KfifoAct :=
      List.replicate 5 (put 0) ++ List.replicate 3 (get 0) ++ [put 1, put 0] ++
        List.replicate 4 (put 0) ++ List.replicate 7 (get 0) ++ [get 0, get 1] ++
        List.replicate 4 (get 0)
    let s : Kfifo 2 := sched.foldl Kfifo.step (Kfifo.init fun _ => 0)
    s.returned <+: s.accepted ∧
      ∀ i x, s.putTarget i = some x →
        ∀ p, s.returned.length ≤ p → p < s.accepted.length → p % (2 : UInt32).toNat ≠ x :=
  kfifo_spsc ⟨1, by decide, rfl⟩ _ _ _ rfl

end LeoNet
