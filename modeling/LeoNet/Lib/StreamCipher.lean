import Mathlib.Data.Nat.Basic
import Mathlib.Logic.Function.Basic

namespace StreamCipher

/-!
# Stream ciphers in memory — a keystream over a range of cells

A stream cipher mixes the `i`-th symbol of its keystream into the `i`-th cell of a range, and leaves
all other cells alone.

* `mask_mask` — where mixing in a symbol twice takes it away, the cipher is its own inverse;
* `mask_comm` — where it does not matter which of two symbols is mixed in first, nor does it with two
  ciphers;
* `mask_eq_iff` — where different symbols give different cells, two keystreams do the same to a
  range exactly when they agree on its length.
-/

variable {α : Type*} {mix : α → α → α} {ks ks' : ℕ → α} {p n : ℕ}

/-- The keystream `ks` over the `n` cells from `p` on. -/
def mask (mix : α → α → α) (ks : ℕ → α) (p n : ℕ) (m : ℕ → α) (a : ℕ) : α :=
  if p ≤ a ∧ a < p + n then mix (m a) (ks (a - p)) else m a

/-- Inside the range, a cell is mixed with the key at its place. -/
theorem mask_inside (m : ℕ → α) {i : ℕ} (hi : i < n) :
    mask mix ks p n m (p + i) = mix (m (p + i)) (ks i) := by
  rw [mask, if_pos (by omega), Nat.add_sub_cancel_left]

/-- Outside of the range nothing changes. -/
theorem mask_outside (m : ℕ → α) {a : ℕ} (ha : ¬ (p ≤ a ∧ a < p + n)) :
    mask mix ks p n m a = m a := if_neg ha

/-- What the cipher leaves, cell by cell. -/
theorem eq_mask_iff (m m' : ℕ → α) :
    m' = mask mix ks p n m ↔ (∀ i < n, m' (p + i) = mix (m (p + i)) (ks i)) ∧
      ∀ a, ¬ (p ≤ a ∧ a < p + n) → m' a = m a := by
  constructor
  · rintro rfl
    exact ⟨fun i hi => mask_inside m hi, fun a ha => mask_outside m ha⟩
  · rintro ⟨hinside, houtside⟩
    ext a
    by_cases ha : p ≤ a ∧ a < p + n
    · obtain ⟨i, rfl⟩ := Nat.exists_eq_add_of_le ha.1
      have hi : i < n := by omega
      rw [mask_inside m hi, hinside i hi]
    · rw [mask_outside m ha, houtside a ha]

/-- **Inverse.**  The same keystream over the same range gives the cells back. -/
theorem mask_mask (hmix : ∀ x k, mix (mix x k) k = x) (m : ℕ → α) :
    mask mix ks p n (mask mix ks p n m) = m := by
  ext a
  by_cases ha : p ≤ a ∧ a < p + n
  · obtain ⟨i, rfl⟩ := Nat.exists_eq_add_of_le ha.1
    have hi : i < n := by omega
    rw [mask_inside _ hi, mask_inside _ hi, hmix]
  · rw [mask_outside _ ha, mask_outside _ ha]

/-- **Two ciphers.**  Where two symbols can be mixed in either way round, so can two keystreams, over
    any two ranges. -/
theorem mask_comm (hmix : ∀ x k k', mix (mix x k) k' = mix (mix x k') k) (q l : ℕ) (m : ℕ → α) :
    mask mix ks p n (mask mix ks' q l m) = mask mix ks' q l (mask mix ks p n m) := by
  ext a
  unfold mask
  by_cases hp : p ≤ a ∧ a < p + n
  · by_cases hq : q ≤ a ∧ a < q + l
    · rw [if_pos hp, if_pos hq, if_pos hq, if_pos hp, hmix]
    · rw [if_pos hp, if_neg hq, if_neg hq, if_pos hp]
  · rw [if_neg hp, if_neg hp]

/-- **Agreement.**  Two keystreams give the same cells exactly when they agree on the range. -/
theorem mask_eq_iff (hmix : ∀ x, Function.Injective (mix x)) (m : ℕ → α) :
    mask mix ks p n m = mask mix ks' p n m ↔ ∀ i < n, ks i = ks' i := by
  constructor
  · intro h i hi
    have hcell := congrFun h (p + i)
    rw [mask_inside _ hi, mask_inside _ hi] at hcell
    exact hmix _ hcell
  · intro h
    ext a
    by_cases ha : p ≤ a ∧ a < p + n
    · rw [mask, mask, if_pos ha, if_pos ha, h _ (by omega)]
    · rw [mask_outside _ ha, mask_outside _ ha]

end StreamCipher
