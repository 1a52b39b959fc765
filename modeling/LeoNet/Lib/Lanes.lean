import Mathlib.Data.Nat.Basic
import Mathlib.Tactic.Ring

namespace Lanes

/-!
# Many words in one number

`n` words side by side make one number, and one operation on the number is an operation on all of
them, where no word runs over into the next.

* `testBit_pack` — the bits of the number are those of the words;
* `pack_and` / `pack_xor` — the bitwise operations are word by word;
* `pack_shiftRight_and` — so is a shift, once the bits that came from the next word are masked out;
* `pack_mul` / `pack_add` — so is arithmetic that fits into the words.
-/

variable {w : ℕ} {r s t : ℕ → BitVec w} {n : ℕ}

/-- `n` words, the first one lowest. -/
def pack (r : ℕ → BitVec w) : ℕ → ℕ
  | 0 => 0
  | n + 1 => 2 ^ (w * n) * (r n).toNat + pack r n

/-- The same word `n` times. -/
def spread (c : BitVec w) (n : ℕ) : ℕ := pack (fun _ => c) n

/-- Packed lanes take up `n` times their width. -/
theorem pack_lt (r : ℕ → BitVec w) (n : ℕ) : pack r n < 2 ^ (w * n) := by
  induction n with
  | zero => exact Nat.one_pos
  | succ n ih =>
    have hword : (r n).toNat + 1 ≤ 2 ^ w := (r n).isLt
    calc pack r (n + 1) < 2 ^ (w * n) * (r n).toNat + 2 ^ (w * n) := Nat.add_lt_add_left ih _
      _ = 2 ^ (w * n) * ((r n).toNat + 1) := by ring
      _ ≤ 2 ^ (w * n) * 2 ^ w := Nat.mul_le_mul_left _ hword
      _ = 2 ^ (w * (n + 1)) := by rw [← Nat.pow_add, Nat.mul_succ]

/-- Bit `i` of the number is bit `i % w` of word `i / w`. -/
theorem testBit_pack (r : ℕ → BitVec w) (n i : ℕ) :
    (pack r n).testBit i = (decide (i < w * n) && (r (i / w)).getLsbD (i % w)) := by
  induction n with
  | zero => simp [pack]
  | succ n ih =>
    rw [pack, Nat.testBit_two_pow_mul_add _ (pack_lt r n), ih, Nat.mul_succ]
    by_cases hlow : i < w * n
    · rw [if_pos hlow, decide_eq_true hlow, decide_eq_true (Nat.lt_add_right w hlow)]
    · rw [if_neg hlow, BitVec.testBit_toNat]
      by_cases hin : i < w * n + w
      · -- it stands in the last word
        obtain ⟨p, rfl⟩ := Nat.exists_eq_add_of_le (Nat.le_of_not_lt hlow)
        have hp : p < w := by omega
        rw [decide_eq_true hin, Bool.true_and, Nat.add_sub_cancel_left,
            Nat.mul_add_div (by omega), Nat.div_eq_of_lt hp, Nat.add_zero, Nat.mul_add_mod,
            Nat.mod_eq_of_lt hp]
      · rw [decide_eq_false hin, Bool.false_and, BitVec.getLsbD_of_ge _ _ (by omega)]

/-- Numbers with the same words are equal, and the other way round. -/
theorem pack_inj : pack r n = pack s n ↔ ∀ d < n, r d = s d := by
  constructor
  · intro h d hd
    apply BitVec.eq_of_getLsbD_eq
    intro i hi
    have hin : w * d + i < w * n :=
      Nat.lt_of_lt_of_le (Nat.add_lt_add_left hi _) (Nat.mul_le_mul_left w hd)
    have hbit := congrArg (Nat.testBit · (w * d + i)) h
    simp only [testBit_pack, decide_eq_true hin, Bool.true_and] at hbit
    rwa [Nat.mul_add_div (by omega), Nat.div_eq_of_lt hi, Nat.add_zero, Nat.mul_add_mod,
        Nat.mod_eq_of_lt hi] at hbit
  · intro h
    induction n with
    | zero => rfl
    | succ n ih =>
      rw [pack, pack, h n (Nat.lt_succ_self n), ih fun d hd => h d (Nat.lt_succ_of_lt hd)]

/-- Bitwise *and*, lane by lane. -/
theorem pack_and (r s : ℕ → BitVec w) (n : ℕ) :
    pack r n &&& pack s n = pack (fun d => r d &&& s d) n := by
  apply Nat.eq_of_testBit_eq
  intro i
  rw [Nat.testBit_and, testBit_pack, testBit_pack, testBit_pack, BitVec.getLsbD_and]
  cases decide (i < w * n) <;> simp

/-- Bitwise *exclusive or*, lane by lane. -/
theorem pack_xor (r s : ℕ → BitVec w) (n : ℕ) :
    pack r n ^^^ pack s n = pack (fun d => r d ^^^ s d) n := by
  apply Nat.eq_of_testBit_eq
  intro i
  rw [Nat.testBit_xor, testBit_pack, testBit_pack, testBit_pack, BitVec.getLsbD_xor]
  cases decide (i < w * n) <;> simp

/-- **Shifts.**  The mask lets through no bit of the next word. -/
theorem pack_shiftRight_and (r : ℕ → BitVec w) (n : ℕ) {i : ℕ} {m : BitVec w}
    (hm : ∀ p, w - i ≤ p → m.getLsbD p = false) :
    pack r n >>> i &&& spread m n = pack (fun d => r d >>> i &&& m) n := by
  apply Nat.eq_of_testBit_eq
  intro j
  rw [Nat.testBit_and, Nat.testBit_shiftRight, spread, testBit_pack, testBit_pack, testBit_pack,
      BitVec.getLsbD_and, BitVec.getLsbD_ushiftRight]
  by_cases hmask : m.getLsbD (j % w) = true
  · by_cases hj : j < w * n
    · -- the bit that is moved here comes from the same word
      have hp : j % w < w - i := by
        by_contra hge
        rw [hm _ (Nat.le_of_not_lt hge)] at hmask
        cases hmask
      have hw : 0 < w := by omega
      have hsplit : i + j = w * (j / w) + (i + j % w) := by
        have := Nat.div_add_mod j w
        omega
      have hdiv : j / w < n := Nat.div_lt_of_lt_mul hj
      have hin : i + j < w * n := by
        have hle : w * (j / w + 1) ≤ w * n := Nat.mul_le_mul_left w hdiv
        rw [Nat.mul_succ] at hle
        omega
      rw [decide_eq_true hj, decide_eq_true hin, hsplit, Nat.mul_add_div hw,
          Nat.div_eq_of_lt (show i + j % w < w by omega), Nat.add_zero, Nat.mul_add_mod,
          Nat.mod_eq_of_lt (show i + j % w < w by omega)]
      simp
    · rw [decide_eq_false hj, Bool.false_and, Bool.false_and, Bool.and_false]
  · rw [Bool.not_eq_true] at hmask
    rw [hmask, Bool.and_false, Bool.and_false, Bool.and_false, Bool.and_false]

/-- **Products** that fit into the words. -/
theorem pack_mul {c : ℕ} (h : ∀ d, (r d).toNat * c = (s d).toNat) (n : ℕ) :
    pack r n * c = pack s n := by
  induction n with
  | zero => exact Nat.zero_mul c
  | succ n ih =>
    rw [pack, pack, ← ih, ← h]
    ring

/-- **Sums** that fit into the words. -/
theorem pack_add (h : ∀ d, (r d).toNat + (s d).toNat = (t d).toNat) (n : ℕ) :
    pack r n + pack s n = pack t n := by
  induction n with
  | zero => rfl
  | succ n ih =>
    rw [pack, pack, pack, ← ih, ← h]
    ring

end Lanes
