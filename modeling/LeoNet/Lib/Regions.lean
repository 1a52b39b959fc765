import Mathlib.Algebra.BigOperators.Group.List.Basic
import Mathlib.Algebra.Order.Monoid.Canonical.Defs
import Mathlib.Order.Interval.Set.Basic

namespace Regions

/-!
# Regions handed out one behind the other

An allocator that only moves a cursor hands out regions each of which begins where the one before it
ended.  A region is its beginning and its size.

* `consecutive_concat` — one more region, at the end of the others;
* `Consecutive.le_end` — every region ends before the cursor;
* `Consecutive.pairwise_disjoint` — no two of them overlap.
-/

variable {M : Type*} [AddCommMonoid M]

/-- The sizes of all regions together. -/
def total (rs : List (M × M)) : M := (rs.map Prod.snd).sum

/-- The first region begins at `c`, and each of the others where the one before it ended. -/
def Consecutive (c : M) : List (M × M) → Prop
  | [] => True
  | r :: rs => r.1 = c ∧ Consecutive (c + r.2) rs

/-- The points of a region. -/
def points [Preorder M] (r : M × M) : Set M := Set.Ico r.1 (r.1 + r.2)

@[simp] theorem total_nil : total ([] : List (M × M)) = 0 := rfl

@[simp] theorem total_cons (r : M × M) (rs : List (M × M)) : total (r :: rs) = r.2 + total rs := by
  rw [total, List.map_cons, List.sum_cons, total]

/-- A range at the end counts as well. -/
@[simp] theorem total_concat (rs : List (M × M)) (r : M × M) :
    total (rs ++ [r]) = total rs + r.2 := by
  simp [total]

/-- A region behind the others begins where they end. -/
theorem consecutive_concat {c : M} {rs : List (M × M)} {r : M × M} :
    Consecutive c (rs ++ [r]) ↔ Consecutive c rs ∧ r.1 = c + total rs := by
  induction rs generalizing c with
  | nil => simp [Consecutive]
  | cons s rs ih =>
    rw [List.cons_append, Consecutive, Consecutive, ih, total_cons, and_assoc, add_assoc]

section Order

variable [PartialOrder M] [CanonicallyOrderedAdd M] {c : M}
  {rs : List (M × M)}

/-- **Bounds.**  A region lies between the beginning of the first and the end of the last one. -/
theorem Consecutive.le_end (h : Consecutive c rs) :
    ∀ r ∈ rs, c ≤ r.1 ∧ r.1 + r.2 ≤ c + total rs := by
  induction rs generalizing c with
  | nil => exact fun r hr => absurd hr List.not_mem_nil
  | cons s rs ih =>
    obtain ⟨rfl, hrest⟩ := h
    rw [List.forall_mem_cons, total_cons, ← add_assoc]
    refine ⟨⟨le_rfl, le_self_add⟩, fun r hr => ?_⟩
    obtain ⟨hbegin, hend⟩ := ih hrest r hr
    exact ⟨le_self_add.trans hbegin, hend⟩

/-- **Disjointness.**  No point belongs to two regions. -/
theorem Consecutive.pairwise_disjoint (h : Consecutive c rs) :
    rs.Pairwise fun r r' => ∀ x ∈ points r, x ∉ points r' := by
  induction rs generalizing c with
  | nil => exact List.Pairwise.nil
  | cons s rs ih =>
    obtain ⟨rfl, hrest⟩ := h
    refine List.Pairwise.cons (fun r hr => ?_) (ih hrest)
    -- `s` ends before `r` begins
    have hbegin := (hrest.le_end r hr).1
    intro x hx hx'
    exact absurd (hx.2.trans_le hbegin) (not_lt_of_ge hx'.1)

end Order

end Regions
