import Mathlib.Data.List.Basic
import Mathlib.Data.List.Infix
import Mathlib.Logic.Function.Basic

namespace Memory

/-!
# Flat memory — linear loads and stores

A memory is a function from addresses to cells.  `load m p n` reads `n` consecutive cells,
`store m p xs` writes a list; `memcpy` is a store of a load.  A `Block` is a memory together
with the number of cells that belong to the object, for accesses that have to stay inside it:

* `store_apply_of_lt` / `store_apply_of_not` — the cells of a store hold what was written, and
  no others change;
* `store_append` / `store_cons` — a store of two pieces is the two stores, one after the other;
* `load_store_self` / `store_load_self` — what was stored is loaded again, and storing what was
  loaded changes nothing;
* `chunks` — a range cut into pieces of one length;
* `Block.read` / `Block.write`, and `Block.get` / `Block.set` for one cell — the checked accesses,
  `none` outside the object.
-/

variable {α : Type*}

/-- The `n` cells from address `p` on. -/
def load (m : ℕ → α) (p n : ℕ) : List α :=
  (List.range n).map fun i => m (p + i)

/-- Write `xs` to the cells from address `p` on. -/
def store (m : ℕ → α) (p : ℕ) (xs : List α) : ℕ → α :=
  fun a => if p ≤ a then (xs[a - p]?).getD (m a) else m a

/-- As many cells are read as asked for. -/
@[simp] theorem load_length (m : ℕ → α) (p n : ℕ) : (load m p n).length = n := by
  simp [load]

@[simp] theorem load_zero (m : ℕ → α) (p : ℕ) : load m p 0 = [] := rfl

@[simp] theorem store_nil (m : ℕ → α) (p : ℕ) : store m p [] = m := by
  funext a
  simp [store]

/-- The cell that is read at each place. -/
theorem load_getElem? (m : ℕ → α) (p n i : ℕ) :
    (load m p n)[i]? = if i < n then some (m (p + i)) else none := by
  by_cases h : i < n <;> simp [load, h]

/-- The same, with a default behind the end. -/
theorem load_getD (m : ℕ → α) (p : ℕ) {n i : ℕ} (h : i < n) (d : α) :
    (load m p n).getD i d = m (p + i) := by
  rw [List.getD_eq_getElem?_getD, load_getElem?, if_pos h, Option.getD_some]

/-- Ranges that hold the same cells are read alike. -/
theorem load_eq_load {m m' : ℕ → α} {p p' n : ℕ} (h : ∀ i < n, m (p + i) = m' (p' + i)) :
    load m p n = load m' p' n := by
  apply List.map_congr_left
  intro i hi
  exact h i (List.mem_range.1 hi)

/-- Memories that agree on a range are read alike there. -/
theorem load_congr {m m' : ℕ → α} {p n : ℕ} (h : ∀ i < n, m (p + i) = m' (p + i)) :
    load m p n = load m' p n :=
  load_eq_load h

/-- A longer load is a shorter one followed by the rest. -/
theorem load_add (m : ℕ → α) (p a b : ℕ) :
    load m p (a + b) = load m p a ++ load m (p + a) b := by
  simp [load, List.range_add, Nat.add_assoc]

/-- Reading less is reading a first part. -/
theorem load_take (m : ℕ → α) (p n k : ℕ) : (load m p n).take k = load m p (min n k) := by
  rcases Nat.le_total n k with h | h
  · rw [List.take_of_length_le (by simpa using h), min_eq_left h]
  · obtain ⟨b, rfl⟩ := Nat.exists_eq_add_of_le h
    rw [load_add, List.take_left' (load_length m p k), min_eq_right h]

/-- The cell `i` places into a stored list. -/
theorem store_apply_of_lt (m : ℕ → α) (p : ℕ) (xs : List α) {i : ℕ} (h : i < xs.length) :
    store m p xs (p + i) = xs[i] := by
  simp [store, h]

/-- Cells outside the stored range keep their value. -/
theorem store_apply_of_not (m : ℕ → α) (p : ℕ) (xs : List α) {a : ℕ}
    (h : a < p ∨ p + xs.length ≤ a) : store m p xs a = m a := by
  unfold store
  split
  · rename_i hp
    rw [List.getElem?_eq_none (by omega)]
    rfl
  · rfl

/-- A cell after a store. -/
theorem store_apply (m : ℕ → α) (p : ℕ) (xs : List α) (a : ℕ) :
    store m p xs a = if h : p ≤ a ∧ a < p + xs.length then xs[a - p] else m a := by
  by_cases h : p ≤ a ∧ a < p + xs.length
  · have hcell := store_apply_of_lt m p xs (i := a - p) (by omega)
    rw [dif_pos h, ← hcell, Nat.add_sub_cancel' h.1]
  · rw [dif_neg h, store_apply_of_not m p xs (by omega)]

/-- Storing a list is storing its two pieces in order. -/
theorem store_append (m : ℕ → α) (p : ℕ) (xs ys : List α) :
    store m p (xs ++ ys) = store (store m p xs) (p + xs.length) ys := by
  funext a
  by_cases hp : p ≤ a
  · by_cases hx : a < p + xs.length
    · -- the first piece, which the second store does not reach
      rw [store_apply_of_not _ (p + xs.length) ys (Or.inl hx)]
      have hi : a - p < xs.length := by omega
      simp [store, hp, List.getElem?_append_left hi]
    · -- the second piece, or behind both
      have hi : xs.length ≤ a - p := by omega
      have hq : p + xs.length ≤ a := by omega
      have hs : a - (p + xs.length) = a - p - xs.length := by omega
      simp [store, hp, hq, hs, List.getElem?_append_right hi, List.getElem?_eq_none hi]
  · rw [store_apply_of_not m p _ (by omega), store_apply_of_not _ _ ys (by omega),
        store_apply_of_not m p xs (by omega)]

/-- What was stored is loaded again. -/
theorem load_store_self (m : ℕ → α) (p : ℕ) (xs : List α) :
    load (store m p xs) p xs.length = xs := by
  apply List.ext_getElem (load_length _ _ _)
  intro i hi hi'
  simp only [load, List.getElem_map, List.getElem_range]
  exact store_apply_of_lt m p xs hi'

/-- The same, for a length that is known. -/
theorem load_store_of_length (m : ℕ → α) (p : ℕ) {n : ℕ} {xs : List α} (h : xs.length = n) :
    load (store m p xs) p n = xs := by
  rw [← h]
  exact load_store_self m p xs

/-- Reading one cell first. -/
theorem load_succ (m : ℕ → α) (p n : ℕ) : load m p (n + 1) = m p :: load m (p + 1) n := by
  rw [Nat.add_comm, load_add]
  simp [load]

/-- Storing a list is storing its first cell, then the others behind it. -/
theorem store_cons (m : ℕ → α) (p : ℕ) (x : α) (xs : List α) :
    store m p (x :: xs) = store (Function.update m p x) (p + 1) xs := by
  have hone : store m p [x] = Function.update m p x := by
    funext a
    rcases Nat.lt_trichotomy a p with hlt | rfl | hgt
    · rw [store_apply_of_not m p [x] (Or.inl hlt), Function.update_of_ne hlt.ne]
    · simp [store]
    · rw [store_apply_of_not m p [x] (Or.inr hgt), Function.update_of_ne hgt.ne']
  rw [← List.singleton_append, store_append, hone]
  rfl

/-- A field of what was stored, read back at its place. -/
theorem load_store_field (m : ℕ → α) (p : ℕ) {k n : ℕ} {xs ys : List α} (hxs : xs.length = k)
    (hys : ys.length = n) (zs : List α) : load (store m p (xs ++ (ys ++ zs))) (p + k) n = ys := by
  subst hxs hys
  rw [store_append, store_append]
  calc load (store (store (store m p xs) (p + xs.length) ys) (p + xs.length + ys.length) zs)
          (p + xs.length) ys.length
      = load (store (store m p xs) (p + xs.length) ys) (p + xs.length) ys.length :=
        load_congr fun i hi => store_apply_of_not _ _ _ (Or.inl (by omega))
    _ = ys := load_store_self _ _ _

/-- What was loaded is stored back. -/
theorem store_load_self (m : ℕ → α) (p n : ℕ) : store m p (load m p n) = m := by
  funext a
  rw [store_apply]
  split
  · next h =>
    simp only [load, List.getElem_map, List.getElem_range]
    rw [Nat.add_sub_cancel' h.1]
  · rfl

/-- A list stored over another one of its length. -/
theorem store_store_self (m : ℕ → α) (p : ℕ) {xs ys : List α} (h : xs.length = ys.length) :
    store (store m p xs) p ys = store m p ys := by
  funext a
  by_cases ha : p ≤ a ∧ a < p + ys.length
  · rw [store_apply _ p ys, dif_pos ha, store_apply m p ys, dif_pos ha]
  · rw [store_apply_of_not _ p ys (by omega), store_apply_of_not _ p ys (by omega),
        store_apply_of_not _ p xs (by omega)]

/-! ### Pieces of one length -/

/-- The `n` pieces of `k` cells each from address `p` on. -/
def chunks (m : ℕ → α) (p k : ℕ) : ℕ → List (List α)
  | 0 => []
  | n + 1 => load m p k :: chunks m (p + k) k n

/-- There are as many chunks as asked for. -/
@[simp] theorem chunks_length (m : ℕ → α) (p k n : ℕ) : (chunks m p k n).length = n := by
  induction n generalizing p with
  | zero => rfl
  | succ n ih => rw [chunks, List.length_cons, ih]

/-- Each chunk has the size asked for. -/
theorem length_of_mem_chunks {m : ℕ → α} {p k n : ℕ} {c : List α} (h : c ∈ chunks m p k n) :
    c.length = k := by
  induction n generalizing p with
  | zero => cases h
  | succ n ih =>
    rw [chunks, List.mem_cons] at h
    rcases h with rfl | h
    · exact load_length _ _ _
    · exact ih h

/-- Chunks behind chunks. -/
theorem chunks_add (m : ℕ → α) (p k n n' : ℕ) :
    chunks m p k (n + n') = chunks m p k n ++ chunks m (p + k * n) k n' := by
  induction n generalizing p with
  | zero => rw [Nat.zero_add, Nat.mul_zero, Nat.add_zero, chunks, List.nil_append]
  | succ n ih =>
    rw [show n + 1 + n' = n + n' + 1 by omega, chunks, ih, chunks, List.cons_append, Nat.mul_succ,
        show p + k + k * n = p + (k * n + k) by omega]

/-- The pieces of a range are those of the list read from it. -/
theorem flatten_chunks (m : ℕ → α) (p k n : ℕ) : (chunks m p k n).flatten = load m p (k * n) := by
  induction n generalizing p with
  | zero => rfl
  | succ n ih => rw [chunks, List.flatten_cons, ih, Nat.mul_succ, Nat.add_comm (k * n),
        load_add]

/-- Ranges that are read alike have the same pieces. -/
theorem chunks_eq_of_load_eq {m m' : ℕ → α} {p p' k n : ℕ}
    (h : load m p (k * n) = load m' p' (k * n)) : chunks m p k n = chunks m' p' k n := by
  induction n generalizing p p' with
  | zero => rfl
  | succ n ih =>
    rw [Nat.mul_succ, Nat.add_comm (k * n), load_add, load_add] at h
    obtain ⟨hfirst, hrest⟩ := List.append_inj h (by rw [load_length, load_length])
    rw [chunks, chunks, hfirst, ih hrest]

/-- The pieces of a range that reads like two others in a row are theirs. -/
theorem chunks_eq_append {m m₁ m₂ : ℕ → α} {p p₁ p₂ k n₁ n₂ : ℕ}
    (h : load m p (k * n₁ + k * n₂) = load m₁ p₁ (k * n₁) ++ load m₂ p₂ (k * n₂)) :
    chunks m p k (n₁ + n₂) = chunks m₁ p₁ k n₁ ++ chunks m₂ p₂ k n₂ := by
  rw [load_add] at h
  obtain ⟨hfirst, hsecond⟩ := List.append_inj h (by rw [load_length, load_length])
  rw [chunks_add, chunks_eq_of_load_eq hfirst, chunks_eq_of_load_eq hsecond]

/-- One of the pieces. -/
theorem chunks_getElem? (m : ℕ → α) (p k : ℕ) {n i : ℕ} (h : i < n) :
    (chunks m p k n)[i]? = some (load m (p + k * i) k) := by
  obtain ⟨n', rfl⟩ := Nat.exists_eq_add_of_lt h
  rw [show i + n' + 1 = i + (n' + 1) by omega, chunks_add,
      List.getElem?_append_right (by rw [chunks_length]), chunks_length, Nat.sub_self, chunks]
  rfl

/-- The last piece. -/
theorem chunks_getLast? (m : ℕ → α) (p k n : ℕ) :
    (chunks m p k (n + 1)).getLast? = some (load m (p + k * n) k) := by
  rw [chunks_add]
  exact List.getLast?_concat

/-- The number of cells in chunks of one size. -/
theorem length_flatten {k : ℕ} {cs : List (List α)} (h : ∀ c ∈ cs, c.length = k) :
    cs.flatten.length = k * cs.length := by
  induction cs with
  | nil => rfl
  | cons c cs ih =>
    rw [List.forall_mem_cons] at h
    rw [List.flatten_cons, List.length_append, h.1, ih h.2, List.length_cons, Nat.mul_succ,
        Nat.add_comm]

/-- Pieces that were stored are read back. -/
theorem chunks_store_flatten (m : ℕ → α) (p : ℕ) {k : ℕ} {cs : List (List α)}
    (h : ∀ c ∈ cs, c.length = k) : chunks (store m p cs.flatten) p k cs.length = cs := by
  induction cs generalizing m p with
  | nil => rfl
  | cons c cs ih =>
    rw [List.forall_mem_cons] at h
    obtain ⟨rfl, hcs⟩ := h
    rw [List.flatten_cons, List.length_cons, chunks, store_append, ih _ _ hcs]
    have hfirst : load (store (store m p c) (p + c.length) cs.flatten) p c.length = c := by
      rw [load_congr fun i hi => store_apply_of_not _ _ _ (Or.inl (by omega))]
      exact load_store_self m p c
    rw [hfirst]

/-- `memcpy(dst + d, src + s, n)`. -/
def memcpy (dst : ℕ → α) (d : ℕ) (src : ℕ → α) (s n : ℕ) : ℕ → α :=
  store dst d (load src s n)

/-! ### Blocks: memory with an end -/

/-- An object of `size` cells. -/
structure Block (α : Type*) where
  size : ℕ
  byte : ℕ → α

namespace Block

/-- Read `n` cells at offset `p`; `none` when the range leaves the object. -/
def read (b : Block α) (p n : ℕ) : Option (List α) :=
  if p + n ≤ b.size then some (load b.byte p n) else none

/-- Write `xs` at offset `p`; `none` when the range leaves the object. -/
def write (b : Block α) (p : ℕ) (xs : List α) : Option (Block α) :=
  if p + xs.length ≤ b.size then some { b with byte := store b.byte p xs } else none

/-- Read one cell; `none` outside the object. -/
def get (b : Block α) (p : ℕ) : Option α :=
  if p < b.size then some (b.byte p) else none

/-- The object with cell `p` replaced. -/
def put (b : Block α) (p : ℕ) (x : α) : Block α := { b with byte := Function.update b.byte p x }

/-- Write one cell; `none` outside the object. -/
def set (b : Block α) (p : ℕ) (x : α) : Option (Block α) :=
  if p < b.size then some (b.put p x) else none

/-- Writing a cell leaves the size alone. -/
@[simp] theorem put_size (b : Block α) (p : ℕ) (x : α) : (b.put p x).size = b.size := rfl

/-- The cell written holds what was written. -/
@[simp] theorem put_byte_self (b : Block α) (p : ℕ) (x : α) : (b.put p x).byte p = x :=
  Function.update_self _ _ _

/-- The other cells hold what they held. -/
theorem put_byte_of_ne (b : Block α) {p a : ℕ} (x : α) (h : a ≠ p) :
    (b.put p x).byte a = b.byte a :=
  Function.update_of_ne h _ _

/-- Of two writes to a cell, the second counts. -/
@[simp] theorem put_put (b : Block α) (p : ℕ) (x y : α) : (b.put p x).put p y = b.put p y := by
  simp [put]

/-- A cell inside the block can be read. -/
theorem get_eq_some {b : Block α} {p : ℕ} (h : p < b.size) : b.get p = some (b.byte p) := if_pos h

/-- A cell outside of it cannot be read. -/
theorem get_eq_none {b : Block α} {p : ℕ} (h : ¬ p < b.size) : b.get p = none := if_neg h

/-- A cell inside the block can be written. -/
theorem set_eq_some {b : Block α} {p : ℕ} (h : p < b.size) (x : α) :
    b.set p x = some (b.put p x) := if_pos h

/-- A cell outside of it cannot be written. -/
theorem set_eq_none {b : Block α} {p : ℕ} (h : ¬ p < b.size) (x : α) : b.set p x = none := if_neg h

/-- A cell just written is read back. -/
theorem put_get {b : Block α} {p : ℕ} (h : p < b.size) (x : α) : (b.put p x).get p = some x := by
  rw [get_eq_some (by rwa [put_size]), put_byte_self]

/-- A cell just written is written over. -/
theorem put_set {b : Block α} {p : ℕ} (h : p < b.size) (x y : α) :
    (b.put p x).set p y = some (b.put p y) := by
  rw [set_eq_some (by rwa [put_size]), put_put]

/-- Reading a range inside the block. -/
theorem read_eq_some {b : Block α} {p n : ℕ} (h : p + n ≤ b.size) :
    b.read p n = some (load b.byte p n) := if_pos h

/-- Writing a range inside the block. -/
theorem write_eq_some {b : Block α} {p : ℕ} {xs : List α} (h : p + xs.length ≤ b.size) :
    b.write p xs = some { b with byte := store b.byte p xs } := if_pos h

/-- A write that goes through lies inside the object, and leaves its size as it was. -/
theorem write_inv {b b' : Block α} {p : ℕ} {xs : List α} (h : b.write p xs = some b') :
    p + xs.length ≤ b.size ∧ b'.size = b.size := by
  unfold write at h
  split at h
  case isTrue hle =>
    cases h
    exact ⟨hle, rfl⟩
  case isFalse => cases h

/-- A read that goes through lies inside the object. -/
theorem read_le {b : Block α} {p n : ℕ} {xs : List α} (h : b.read p n = some xs) :
    p + n ≤ b.size := by
  unfold read at h
  split at h
  case isTrue hle => exact hle
  case isFalse => cases h

end Block

end Memory
