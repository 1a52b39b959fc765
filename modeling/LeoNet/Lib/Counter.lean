import Mathlib.Data.Nat.ModEq
import Mathlib.Tactic.Ring

namespace Counter

/-!
# Free-running 32-bit counters over a power-of-two capacity

A ring's read and write positions are `UInt32` counters that are only ever incremented and wrap
at `2 ^ 32`.  With a capacity that is a power of two the cell of a counter is its masked value,
and the wrap is invisible:

* `isPow2_iff` — the bit test for such a capacity;
* `mask_toNat` — `p & (n - 1)` is `p % n`;
* `add_mod` — adding to a counter moves its cell by as much, wrap or not;
* `ofNat_sub_ofNat` — the difference of two counters is the distance of the stream positions
  they count, as long as that distance is below `2 ^ 32`.
-/

/-- A positive `int` that is a power of two, as an `unsigned int`. -/
def IsPow2 (n : UInt32) : Prop := ∃ k, k ≤ 30 ∧ n.toNat = 2 ^ k

variable {n : UInt32}

/-- A power of two is positive. -/
theorem IsPow2.pos (h : IsPow2 n) : 0 < n.toNat := by
  obtain ⟨k, _, hk⟩ := h
  rw [hk]
  exact Nat.two_pow_pos k

/-- As an `int`, it is at most `2 ^ 30`. -/
theorem IsPow2.le (h : IsPow2 n) : n.toNat ≤ 2 ^ 30 := by
  obtain ⟨k, hk30, hk⟩ := h
  rw [hk]
  exact Nat.pow_le_pow_right (by omega) hk30

/-- It divides the number of counter values. -/
theorem IsPow2.dvd (h : IsPow2 n) : n.toNat ∣ 2 ^ 32 := by
  obtain ⟨k, hk30, hk⟩ := h
  rw [hk]
  exact Nat.pow_dvd_pow 2 (by omega)

/-- The mask of a positive number, without a wrap. -/
theorem sub_one_toNat (h : 0 < n.toNat) : (n - 1).toNat = n.toNat - 1 := by
  rw [UInt32.toNat_sub_of_le _ _ (by rw [UInt32.le_iff_toNat_le]; exact h)]
  rfl

/-- The bit test for a power of two, on an `unsigned int` that holds a positive `int`. -/
theorem isPow2_iff (h : n.toNat < 2 ^ 31) : IsPow2 n ↔ n ≠ 0 ∧ n &&& (n - 1) = 0 := by
  have hzero : n ≠ 0 ↔ n.toNat ≠ 0 := by
    rw [ne_eq, ← UInt32.toNat_inj]
    rfl
  rw [hzero, ← UInt32.toNat_inj, UInt32.toNat_and]
  constructor
  · intro hn
    have hpos := hn.pos
    obtain ⟨k, -, hk⟩ := hn
    refine ⟨by omega, ?_⟩
    rw [sub_one_toNat hpos]
    exact (Nat.and_sub_one_eq_zero_iff_isPowerOfTwo (by omega)).mpr ⟨k, hk⟩
  · rintro ⟨hne, hand⟩
    rw [sub_one_toNat (by omega)] at hand
    obtain ⟨k, hk⟩ := (Nat.and_sub_one_eq_zero_iff_isPowerOfTwo hne).mp hand
    refine ⟨k, ?_, hk⟩
    rw [hk] at h
    have hlt := (Nat.pow_lt_pow_iff_right (by omega)).mp h
    omega

/-- Masking a counter with `n - 1` gives its cell. -/
theorem mask_toNat (h : IsPow2 n) (p : UInt32) : (p &&& (n - 1)).toNat = p.toNat % n.toNat := by
  have hsub := sub_one_toNat h.pos
  obtain ⟨k, _, hk⟩ := h
  rw [UInt32.toNat_and, hsub, hk, Nat.and_two_pow_sub_one_eq_mod]

/-- A masked counter is a cell. -/
theorem mask_lt (h : IsPow2 n) (p : UInt32) : (p &&& (n - 1)).toNat < n.toNat := by
  rw [mask_toNat h]
  exact Nat.mod_lt _ h.pos

/-- The cell of a sum of counters, whether or not the sum wraps. -/
theorem add_mod (h : IsPow2 n) (p q : UInt32) :
    (p + q).toNat % n.toNat = (p.toNat + q.toNat) % n.toNat := by
  rw [UInt32.toNat_add, Nat.mod_mod_of_dvd _ h.dvd]

/-- The cell of the counter of stream position `w`. -/
theorem ofNat_mod (h : IsPow2 n) (w : ℕ) : (UInt32.ofNat w).toNat % n.toNat = w % n.toNat := by
  rw [UInt32.toNat_ofNat', Nat.mod_mod_of_dvd _ h.dvd]

/-- Counters measure distances of stream positions. -/
theorem ofNat_sub_ofNat {r w : ℕ} (h : r ≤ w) (h' : w - r < 2 ^ 32) :
    (UInt32.ofNat w - UInt32.ofNat r).toNat = w - r := by
  rw [UInt32.toNat_sub, UInt32.toNat_ofNat', UInt32.toNat_ofNat']
  omega

/-- Counters add up like the positions they stand for. -/
theorem ofNat_add (w : ℕ) (k : UInt32) : UInt32.ofNat w + k = UInt32.ofNat (w + k.toNat) := by
  apply UInt32.toNat_inj.mp
  rw [UInt32.toNat_add, UInt32.toNat_ofNat', UInt32.toNat_ofNat', Nat.mod_add_mod]

/-- The smaller of two words. -/
def umin (a b : UInt32) : UInt32 := if a < b then a else b

@[simp] theorem umin_toNat (a b : UInt32) : (umin a b).toNat = min a.toNat b.toNat := by
  unfold umin
  split
  · rename_i h
    rw [UInt32.lt_iff_toNat_lt] at h
    omega
  · rename_i h
    rw [UInt32.lt_iff_toNat_lt] at h
    omega

/-- It is at most the second one. -/
theorem umin_le_right (a b : UInt32) : (umin a b).toNat ≤ b.toNat := by
  rw [umin_toNat]
  exact Nat.min_le_right _ _

end Counter
