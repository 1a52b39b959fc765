import Mathlib.Data.List.Basic

/-!
# Bounded queues with a staging area

The purpose of a ring buffer: a first-in first-out queue of at most `cap` values.  A producer
may also stage values behind the queue, where no consumer sees them, and commit a prefix of
them later.
-/

/-- A queue of at most `cap` values, and the values staged behind it. -/
structure BoundedFifo (α : Type*) where
  cap : ℕ
  items : List α
  staged : List α
  bound : items.length + staged.length ≤ cap

namespace BoundedFifo

variable {α : Type*}

/-- The empty queue of capacity `cap`. -/
def empty (α : Type*) (cap : ℕ) : BoundedFifo α := ⟨cap, [], [], Nat.zero_le _⟩

/-- The number of values that still fit. -/
def free (q : BoundedFifo α) : ℕ := q.cap - q.items.length

/-- No more items than there is room for. -/
theorem length_le (q : BoundedFifo α) : q.items.length ≤ q.cap :=
  Nat.le_trans (Nat.le_add_right _ _) q.bound

/-- Append the values that fit. -/
def put (q : BoundedFifo α) (xs : List α) : BoundedFifo α where
  cap := q.cap
  items := q.items ++ xs.take q.free
  staged := []
  bound := by
    have := q.length_le
    have := Nat.min_le_left q.free xs.length
    simp only [List.length_append, List.length_take, List.length_nil, free] at *
    omega

/-- Remove the `k` oldest values. -/
def drop (q : BoundedFifo α) (k : ℕ) : BoundedFifo α where
  cap := q.cap
  items := q.items.drop k
  staged := q.staged
  bound := by
    have := q.bound
    simp only [List.length_drop]
    omega

/-- Stage values, if they fit; whatever was staged before is forgotten. -/
def stage (q : BoundedFifo α) (xs : List α) : BoundedFifo α :=
  if h : q.items.length + xs.length ≤ q.cap then
    { q with
      staged := xs
      bound := h }
  else
    { q with
      staged := []
      bound := q.length_le }

/-- Append the first `k` staged values; undefined when fewer are staged. -/
def commit (q : BoundedFifo α) (k : ℕ) : Option (BoundedFifo α) :=
  if h : k ≤ q.staged.length then
    some
      { cap := q.cap
        items := q.items ++ q.staged.take k
        staged := q.staged.drop k
        bound := by
          have := q.bound
          simp only [List.length_append, List.length_take, List.length_drop]
          omega }
  else none

/-- Forget everything. -/
def clear (q : BoundedFifo α) : BoundedFifo α := empty α q.cap

end BoundedFifo
