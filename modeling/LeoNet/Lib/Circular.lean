import LeoNet.Lib.Memory
import Mathlib.Data.Nat.ModEq
import Mathlib.Logic.Function.Basic

namespace Circular

open Memory

/-!
# Circular buffers — positions, windows and copies in two pieces

A buffer of `n` cells holds an unbounded stream: stream position `p` lives in cell `p % n`.
`window n m p k` is the list of the `k` values found from position `p` on.

* `cell_ne` — positions less than one turn apart live in different cells;
* `window_update_outside` / `window_congr` — what a window does not see;
* `load_split` — a read cut in two at the physical end is a window;
* `window_storeSplit` / `window_storeSplit_before` — a write cut in two at the physical end
  puts its list in the window it covers and leaves the window before it alone.
-/

variable {α : Type*}

/-- The values at the `k` stream positions from `p` on. -/
def window (n : ℕ) (m : ℕ → α) (p k : ℕ) : List α :=
  (List.range k).map fun i => m ((p + i) % n)

/-- A window has as many cells as asked for. -/
@[simp] theorem window_length (n : ℕ) (m : ℕ → α) (p k : ℕ) : (window n m p k).length = k := by
  simp [window]

@[simp] theorem window_zero (n : ℕ) (m : ℕ → α) (p : ℕ) : window n m p 0 = [] := rfl

/-- A window of one cell. -/
theorem window_one (n : ℕ) (m : ℕ → α) (p : ℕ) : window n m p 1 = [m (p % n)] := by
  simp [window]

/-- A longer window is a shorter one followed by the rest. -/
theorem window_add (n : ℕ) (m : ℕ → α) (p a b : ℕ) :
    window n m p (a + b) = window n m p a ++ window n m (p + a) b := by
  simp [window, List.range_add, Nat.add_assoc]

/-- A window with one more cell at its end. -/
theorem window_succ (n : ℕ) (m : ℕ → α) (p k : ℕ) :
    window n m p (k + 1) = window n m p k ++ [m ((p + k) % n)] := by
  rw [window_add, window_one]

/-- The cell at each place of a window. -/
theorem window_getElem (n : ℕ) (m : ℕ → α) (p k i : ℕ) (h : i < (window n m p k).length) :
    (window n m p k)[i] = m ((p + i) % n) := by
  simp [window]

/-- The first part of a window. -/
theorem window_take (n : ℕ) (m : ℕ → α) (p : ℕ) {a k : ℕ} (h : a ≤ k) :
    (window n m p k).take a = window n m p a := by
  obtain ⟨b, rfl⟩ := Nat.exists_eq_add_of_le h
  rw [window_add, List.take_left' (window_length n m p a)]

/-- The rest of a window. -/
theorem window_drop (n : ℕ) (m : ℕ → α) (p : ℕ) {a k : ℕ} (h : a ≤ k) :
    (window n m p k).drop a = window n m (p + a) (k - a) := by
  obtain ⟨b, rfl⟩ := Nat.exists_eq_add_of_le h
  rw [window_add, List.drop_left' (window_length n m p a), Nat.add_sub_cancel_left]

/-- Only the start's residue matters. -/
theorem window_mod_start {n p q : ℕ} (m : ℕ → α) (k : ℕ) (h : p % n = q % n) :
    window n m p k = window n m q k := by
  apply List.map_congr_left
  intro i _
  rw [Nat.add_mod p, Nat.add_mod q, h]

/-- Buffers that agree on the cells of a window show the same window. -/
theorem window_congr {n p k : ℕ} {m m' : ℕ → α}
    (h : ∀ i < k, m ((p + i) % n) = m' ((p + i) % n)) : window n m p k = window n m' p k :=
  List.map_congr_left fun i hi => h i (List.mem_range.mp hi)

/-- Positions less than one turn apart live in different cells. -/
theorem cell_ne {n p q : ℕ} (h : p < q) (h' : q < p + n) : q % n ≠ p % n := by
  intro heq
  have hdvd : n ∣ q - p := (Nat.modEq_iff_dvd' h.le).mp heq.symm
  have := Nat.le_of_dvd (by omega) hdvd
  omega

/-- Writing one cell outside a window, at most one turn past its start, leaves it alone. -/
theorem window_update_outside {n p k q : ℕ} (m : ℕ → α) (v : α) (hq : p + k ≤ q)
    (hq' : q < p + n) : window n (Function.update m (q % n) v) p k = window n m p k := by
  refine window_congr fun i hi => Function.update_of_ne ?_ v m
  exact (cell_ne (by omega) (by omega)).symm

/-- Writing the next cell after a window extends it. -/
theorem window_update_next {n p k : ℕ} (m : ℕ → α) (v : α) (hk : k < n) :
    window n (Function.update m ((p + k) % n) v) p (k + 1) = window n m p k ++ [v] := by
  rw [window_succ, window_update_outside m v (le_refl _) (by omega), Function.update_self]

/-! ### Copies cut at the physical end -/

/-- The room left before the physical end, from position `p`. -/
def room (n p : ℕ) : ℕ := n - p % n

/-- Before the physical end, cells follow each other linearly. -/
theorem cell_before_end {n p i : ℕ} (h : p % n + i < n) : (p + i) % n = p % n + i := by
  rw [Nat.add_mod, Nat.mod_eq_of_lt (a := i) (by omega), Nat.mod_eq_of_lt h]

/-- A window that does not reach the physical end is a linear read. -/
theorem window_eq_load {n p k : ℕ} (m : ℕ → α) (h : p % n + k ≤ n) :
    window n m p k = load m (p % n) k := by
  apply List.map_congr_left
  intro i hi
  have hi : i < k := List.mem_range.mp hi
  rw [cell_before_end (by omega)]

/-- The position of the first cell past the physical end has residue `0`. -/
theorem add_room_mod {n : ℕ} (hn : 0 < n) (p : ℕ) : (p + room n p) % n = 0 := by
  have hlt := Nat.mod_lt p hn
  have hdiv := Nat.div_add_mod p n
  have hsum : p + room n p = n * (p / n + 1) := by
    unfold room
    rw [Nat.mul_add, Nat.mul_one]
    omega
  rw [hsum, Nat.mul_mod_right]

/-- Past the physical end, cells start again from the beginning. -/
theorem cell_after_end {n i : ℕ} (p : ℕ) (h : i < n) : (p + (room n p + i)) % n = i := by
  rw [← Nat.add_assoc, Nat.add_mod, add_room_mod (by omega), Nat.zero_add, Nat.mod_mod,
      Nat.mod_eq_of_lt h]

/-- A read in two pieces, up to the physical end and from the beginning, is a window. -/
theorem load_split {n p k : ℕ} (hn : 0 < n) (hk : k ≤ n) (m : ℕ → α) :
    load m (p % n) (min k (room n p)) ++ load m 0 (k - min k (room n p)) = window n m p k := by
  have hlt := Nat.mod_lt p hn
  by_cases h : k ≤ room n p
  · have hfit : p % n + k ≤ n := by unfold room at h; omega
    rw [min_eq_left h, Nat.sub_self, load_zero, List.append_nil, window_eq_load m hfit]
  · -- the second piece starts at residue `0`
    have h : room n p ≤ k := by omega
    obtain ⟨b, rfl⟩ := Nat.exists_eq_add_of_le h
    have hfit : p % n + room n p ≤ n := by unfold room; omega
    rw [min_eq_right h, Nat.add_sub_cancel_left, window_add, window_eq_load m hfit]
    have hzero : (p + room n p) % n = 0 % n := by rw [add_room_mod hn, Nat.zero_mod]
    have hb : 0 % n + b ≤ n := by rw [Nat.zero_mod]; omega
    rw [window_mod_start m b hzero, window_eq_load m hb, Nat.zero_mod]

/-- The buffer after writing `xs` from position `p` on, in two pieces: `i` values up to the
    physical end and the others at the beginning. -/
def storeSplit (n : ℕ) (m : ℕ → α) (p : ℕ) (xs : List α) : ℕ → α :=
  store (store m (p % n) (xs.take (room n p))) 0 (xs.drop (room n p))

/-- A linear write that does not reach the physical end is a split write without a second
    piece. -/
theorem store_eq_storeSplit {n p : ℕ} (m : ℕ → α) {xs : List α} (h : p % n + xs.length ≤ n) :
    store m (p % n) xs = storeSplit n m p xs := by
  have hroom : xs.length ≤ room n p := by
    unfold room
    omega
  rw [storeSplit, List.take_of_length_le hroom, List.drop_of_length_le hroom, store_nil]

/-- Only the residue of the position matters to a split write. -/
theorem storeSplit_mod_start {n p q : ℕ} (m : ℕ → α) (xs : List α) (h : p % n = q % n) :
    storeSplit n m p xs = storeSplit n m q xs := by
  unfold storeSplit room
  rw [h]

/-- The cells a split write covers hold the written values. -/
theorem storeSplit_apply {n p : ℕ} {xs : List α} (hn : 0 < n) (hxs : xs.length ≤ n) (m : ℕ → α)
    {i : ℕ} (hi : i < xs.length) : storeSplit n m p xs ((p + i) % n) = xs[i] := by
  have hlt := Nat.mod_lt p hn
  have hroom : room n p = n - p % n := rfl
  unfold storeSplit
  by_cases h : i < room n p
  · -- the first piece; the second piece ends before it
    rw [cell_before_end (by omega), store_apply_of_not _ 0 _ (Or.inr (by simp; omega)),
        store_apply_of_lt m (p % n) _ (by simp; omega), List.getElem_take]
  · -- the second piece
    have hcell : (p + i) % n = 0 + (i - room n p) := by
      obtain ⟨j, rfl⟩ := Nat.exists_eq_add_of_le (Nat.le_of_not_lt h)
      rw [cell_after_end p (by omega), Nat.add_sub_cancel_left, Nat.zero_add]
    rw [hcell, store_apply_of_lt _ 0 _ (by simp; omega), List.getElem_drop]
    congr 1
    omega

/-- Cells of positions before the written range, less than one turn back, are untouched. -/
theorem storeSplit_before {n p : ℕ} {xs : List α} (hn : 0 < n) (m : ℕ → α) {q : ℕ} (hq : q < p)
    (hq' : p + xs.length ≤ q + n) : storeSplit n m p xs (q % n) = m (q % n) := by
  have hlt := Nat.mod_lt p hn
  have hroom : room n p = n - p % n := rfl
  have hcell : ∀ i, i < xs.length → q % n ≠ (p + i) % n := fun i hi =>
    (cell_ne (by omega) (by omega)).symm
  unfold storeSplit
  have hqn := Nat.mod_lt q hn
  -- the second piece ends before the cell of `q`, or it would have written it
  have hsnd : 0 + (xs.drop (room n p)).length ≤ q % n := by
    by_contra hcon
    simp only [List.length_drop, Nat.zero_add, not_le] at hcon
    exact hcell (room n p + q % n) (by omega) (cell_after_end p hqn).symm
  -- and the first piece does not cover it either
  have hfst : q % n < p % n ∨ p % n + (xs.take (room n p)).length ≤ q % n := by
    by_contra hcon
    simp only [not_or, not_lt, not_le, List.length_take] at hcon
    apply hcell (q % n - p % n) (by omega)
    rw [cell_before_end (by omega)]
    omega
  rw [store_apply_of_not _ 0 _ (Or.inr hsnd), store_apply_of_not m _ _ hfst]

/-- A split write puts its list in the window it covers. -/
theorem window_storeSplit {n p : ℕ} {xs : List α} (hn : 0 < n) (hxs : xs.length ≤ n) (m : ℕ → α) :
    window n (storeSplit n m p xs) p xs.length = xs :=
  List.ext_getElem (window_length _ _ _ _) fun i hi hi' => by
    rw [window_getElem, storeSplit_apply hn hxs m hi']

/-- A split write leaves the window before it alone. -/
theorem window_storeSplit_before {n p k : ℕ} {xs : List α} (hn : 0 < n) (hk : k + xs.length ≤ n)
    (m : ℕ → α) : window n (storeSplit n m (p + k) xs) p k = window n m p k :=
  window_congr fun i hi => storeSplit_before hn m (by omega) (by omega)

end Circular
