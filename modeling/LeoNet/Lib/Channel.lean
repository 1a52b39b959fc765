import LeoNet.Lib.Circular

open Circular

/-!
# Bounded channels over a circular buffer

The protocol pattern behind a single-producer single-consumer ring, on unbounded stream
positions.  A channel has `n` cells, the list of values sent so far and the list of values
received so far.  `Valid` says that the values still to be received stand in their cells.

The producer may only write cells of positions from `sent.length` on and less than one turn
ahead of `received.length` (`Valid.write`); it then publishes them (`Valid.send`).  The consumer
copies out values (`Valid.read`) and then gives the cells back (`Valid.receive`).  What the
consumer has copied stays true whatever the producer does in between, because it is stated
about `sent`, which only grows.
-/

/-- The cells, and what has gone in and out. -/
structure Channel (α : Type*) where
  cells : ℕ → α
  sent : List α
  received : List α

namespace Channel

variable {α : Type*} {n : ℕ} {c : Channel α}

/-- The number of values sent. -/
def w (c : Channel α) : ℕ := c.sent.length

/-- The number of values received. -/
def r (c : Channel α) : ℕ := c.received.length

/-- Every value sent and not yet received stands in the cell of its position. -/
structure Valid (n : ℕ) (c : Channel α) : Prop where
  r_le_w : c.r ≤ c.w
  w_le : c.w ≤ c.r + n
  received_prefix : c.received <+: c.sent
  held : ∀ p, c.r ≤ p → p < c.w → c.sent[p]? = some (c.cells (p % n))

/-- A fresh channel. -/
theorem valid_empty (n : ℕ) (cells : ℕ → α) : Valid n ⟨cells, [], []⟩ where
  r_le_w := le_refl _
  w_le := Nat.zero_le _
  received_prefix := List.prefix_rfl
  held := by
    intro p _ hp
    exact absurd hp (Nat.not_lt_zero p)

/-- The cell of a position the producer may write is not one the consumer still needs. -/
theorem cell_ne {p q : ℕ} (hq : c.w ≤ q) (hq' : q < c.r + n) (hp : c.r ≤ p) (hp' : p < c.w) :
    p % n ≠ q % n :=
  (Circular.cell_ne (by omega) (by omega)).symm

namespace Valid

/-- **Producer.**  Writing a cell ahead of what was sent, less than one turn ahead of what was
    received, loses nothing. -/
theorem write (h : Valid n c) {q : ℕ} (v : α) (hq : c.w ≤ q) (hq' : q < c.r + n) :
    Valid n { c with cells := Function.update c.cells (q % n) v } where
  r_le_w := h.r_le_w
  w_le := h.w_le
  received_prefix := h.received_prefix
  held := by
    intro p hp hp'
    show c.sent[p]? = some (Function.update c.cells (q % n) v (p % n))
    rw [Function.update_of_ne (cell_ne hq hq' hp hp')]
    exact h.held p hp hp'

/-- **Producer.**  Publishing values that stand in the next cells. -/
theorem send (h : Valid n c) (xs : List α) (hroom : c.w + xs.length ≤ c.r + n)
    (hxs : ∀ i, i < xs.length → xs[i]? = some (c.cells ((c.w + i) % n))) :
    Valid n { c with sent := c.sent ++ xs } where
  r_le_w := by
    have := h.r_le_w
    simp only [r, w, List.length_append] at *
    omega
  w_le := by
    simp only [r, w, List.length_append] at *
    omega
  received_prefix := h.received_prefix.trans (List.prefix_append _ _)
  held := by
    intro p hp hp'
    show (c.sent ++ xs)[p]? = some (c.cells (p % n))
    by_cases hpw : p < c.w
    · -- sent before
      rw [List.getElem?_append_left hpw]
      exact h.held p hp hpw
    · -- sent now, from the cells the producer has filled
      have hpw : c.w ≤ p := by omega
      obtain ⟨i, rfl⟩ := Nat.exists_eq_add_of_le hpw
      have hi : i < xs.length := by
        simp only [w, List.length_append] at hp'
        omega
      rw [List.getElem?_append_right hpw, ← hxs i hi]
      exact congrArg _ (Nat.add_sub_cancel_left _ _)

/-- **Consumer.**  The cell of a position that is held shows the value that was sent there. -/
theorem read (h : Valid n c) {i : ℕ} (hi : c.r + i < c.w) :
    c.sent[c.r + i]? = some (c.cells ((c.r + i) % n)) :=
  h.held (c.r + i) (Nat.le_add_right _ _) hi

/-- The cells show, from the first held position on, what is still to be received. -/
theorem window_eq (h : Valid n c) : window n c.cells c.r (c.w - c.r) = c.sent.drop c.r := by
  have hlen : (window n c.cells c.r (c.w - c.r)).length = (c.sent.drop c.r).length := by
    rw [window_length, List.length_drop, w]
  apply List.ext_getElem hlen
  intro i hi hi'
  rw [window_length] at hi
  rw [window_getElem, List.getElem_drop]
  have hheld := h.read (i := i) (by omega)
  rw [List.getElem?_eq_some_iff] at hheld
  obtain ⟨_, hheld⟩ := hheld
  exact hheld.symm

/-- **Consumer.**  Handing over values copied earlier gives their cells back. -/
theorem receive (h : Valid n c) (xs : List α) (hxs : c.r + xs.length ≤ c.w)
    (hcopy : ∀ i, i < xs.length → c.sent[c.r + i]? = xs[i]?) :
    Valid n { c with received := c.received ++ xs } where
  r_le_w := by
    simpa only [r, w, List.length_append] using hxs
  w_le := by
    have := h.w_le
    simp only [r, w, List.length_append] at *
    omega
  received_prefix := by
    obtain ⟨rest, hrest⟩ := h.received_prefix
    have hlen : c.received.length + rest.length = c.sent.length := by
      rw [← hrest, List.length_append]
    -- the values copied are the first of those still to be received
    have hxs' : xs <+: rest := by
      rw [List.prefix_iff_eq_take]
      apply List.ext_getElem?
      intro i
      by_cases hi : i < xs.length
      · rw [← hcopy i hi, List.getElem?_take_of_lt hi, ← hrest]
        show (c.received ++ rest)[c.received.length + i]? = rest[i]?
        rw [List.getElem?_append_right (Nat.le_add_right _ _), Nat.add_sub_cancel_left]
      · rw [List.getElem?_eq_none (by omega), List.getElem?_eq_none]
        rw [List.length_take]
        have := Nat.min_le_left xs.length rest.length
        omega
    obtain ⟨rest', rfl⟩ := hxs'
    exact ⟨rest', by rw [← hrest, List.append_assoc]⟩
  held := by
    intro p hp hp'
    refine h.held p ?_ hp'
    simp only [r, List.length_append] at hp
    simp only [r]
    omega

end Valid

end Channel
