import LeoNet.Lib.ShiftRegister
import Mathlib.Algebra.Polynomial.Div
import Mathlib.Algebra.CharP.Two
import Mathlib.Tactic.Ring
import Mathlib.Algebra.Field.ZMod

namespace ShiftRegister

open Polynomial

/-!
# Division of bits as division of polynomials

A word is the polynomial over the field of two elements with its bits as coefficients, and a
message the one whose coefficients are its bits, the first one highest.

* `toPoly_divide` — what division bit by bit leaves in the register is the remainder of the
  message modulo the generator.
-/

variable {w k : ℕ}

/-- A bit as an element of the field. -/
def ofBit (b : Bool) : ZMod 2 := if b then 1 else 0

/-- Exclusive or is the addition of the field. -/
theorem ofBit_xor (b b' : Bool) : ofBit (b ^^ b') = ofBit b + ofBit b' := by
  revert b b'
  decide

/-- The polynomial of a word. -/
noncomputable def toPoly (x : BitVec w) : (ZMod 2)[X] :=
  ∑ i ∈ Finset.range w, C (ofBit (x.getLsbD i)) * X ^ i

/-- The polynomial of a message, its first bit the highest coefficient. -/
noncomputable def messagePoly (message : List (BitVec 1)) : (ZMod 2)[X] :=
  message.foldl (fun p b => p * X + toPoly b) 0

/-- The generator: `g` below the leading bit, which the register does not hold. -/
noncomputable def generator (g : BitVec w) : (ZMod 2)[X] := X ^ w + toPoly g

/-- The coefficients are the bits. -/
theorem coeff_toPoly (x : BitVec w) (i : ℕ) : (toPoly x).coeff i = ofBit (x.getLsbD i) := by
  rw [toPoly, finsetSum_coeff]
  simp only [coeff_C_mul, coeff_X_pow, mul_ite, mul_one, mul_zero]
  rw [Finset.sum_ite_eq]
  split
  · rfl
  · next hi =>
    rw [Finset.mem_range, Nat.not_lt] at hi
    rw [BitVec.getLsbD_of_ge x i hi]
    rfl

/-- Words are added bit by bit. -/
theorem toPoly_xor (x y : BitVec w) : toPoly (x ^^^ y) = toPoly x + toPoly y := by
  ext i
  rw [coeff_add, coeff_toPoly, coeff_toPoly, coeff_toPoly, BitVec.getLsbD_xor, ofBit_xor]

/-- A word of `w` bits has a degree below `w`. -/
theorem degree_toPoly_lt (x : BitVec w) : (toPoly x).degree < w := by
  rw [degree_lt_iff_coeff_zero]
  intro i hi
  rw [coeff_toPoly, BitVec.getLsbD_of_ge x i hi]
  rfl

/-- The leading bit is one. -/
theorem generator_monic (g : BitVec w) : (generator g).Monic :=
  monic_X_pow_add (degree_toPoly_lt g)

/-- The generator has degree `w`. -/
theorem degree_generator (g : BitVec w) : (generator g).degree = w := by
  have hlt : (toPoly g).degree < (X ^ w : (ZMod 2)[X]).degree := by
    rw [degree_X_pow]
    exact degree_toPoly_lt g
  rw [generator, degree_add_eq_left_of_degree_lt hlt, degree_X_pow]

/-- A shift multiplies by `X` and adds the bit taken in; the bit that leaves is the coefficient
    of `X ^ w`, which over this field is taken away by adding it again. -/
theorem toPoly_shift (hw : 0 < w) (r : BitVec w) (b : BitVec 1) :
    toPoly (shift r b) = toPoly r * X + toPoly b + C (ofBit (r.getLsbD (w - 1))) * X ^ w := by
  have htwice (x : ZMod 2) : x + x = 0 := CharTwo.add_self_eq_zero x
  ext i
  simp only [coeff_add, coeff_C_mul, coeff_X_pow, coeff_toPoly]
  cases i with
  | zero =>
    rw [getLsbD_shift r b hw, if_pos Nat.one_pos, coeff_mul_X_zero, if_neg (by omega)]
    ring
  | succ i =>
    rw [coeff_mul_X, coeff_toPoly, BitVec.getLsbD_of_ge b _ (by omega)]
    rcases Nat.lt_trichotomy (i + 1) w with hlt | heq | hgt
    · rw [getLsbD_shift r b hlt, if_neg (by omega), if_neg (by omega), Nat.add_sub_cancel]
      simp [ofBit]
    · rw [BitVec.getLsbD_of_ge _ _ (by omega), if_pos heq, show w - 1 = i by omega, mul_one,
          show ofBit false = 0 from rfl, add_zero, htwice]
    · rw [BitVec.getLsbD_of_ge _ _ (by omega), BitVec.getLsbD_of_ge r _ (by omega),
          if_neg (by omega), mul_zero]
      simp [ofBit]

/-- Mixing in the generator adds it, without its leading bit. -/
theorem toPoly_feedback (g r : BitVec w) :
    toPoly (feedback g (top 1 r)) = C (ofBit (r.getLsbD (w - 1))) * toPoly g := by
  have hbit : (top 1 r).getLsbD 0 = r.getLsbD (w - 1) := by
    rw [getLsbD_top, decide_eq_true Nat.one_pos, Bool.true_and, Nat.add_zero]
  rw [← hbit]
  rcases BitVec.eq_zero_or_eq_one (top 1 r) with h | h
  · have hzero : toPoly (0 : BitVec w) = 0 := by simp [toPoly, ofBit]
    rw [h]
    simpa [feedback, ofBit] using hzero
  · rw [h]
    simp [feedback, ofBit]

/-- One step of the division: the next coefficient joins the remainder, and a multiple of the
    generator leaves it. -/
theorem toPoly_step (hw : 0 < w) (g r : BitVec w) (b : BitVec 1) :
    toPoly (step (feedback g) r b) =
      toPoly r * X + toPoly b + C (ofBit (r.getLsbD (w - 1))) * generator g := by
  rw [step, toPoly_xor, toPoly_shift hw, toPoly_feedback, generator]
  ring

/-- One more bit at the end of a message. -/
theorem messagePoly_concat (message : List (BitVec 1)) (b : BitVec 1) :
    messagePoly (message ++ [b]) = messagePoly message * X + toPoly b := by
  rw [messagePoly, List.foldl_append]
  rfl

/-- **Division is division.**  What is left in the register is the remainder of the message. -/
theorem toPoly_foldl_step (hw : 0 < w) (g : BitVec w) (message : List (BitVec 1)) :
    toPoly (message.foldl (step (feedback g)) 0) = messagePoly message %ₘ generator g := by
  obtain ⟨q, hq⟩ : ∃ q, toPoly (message.foldl (step (feedback g)) 0) + generator g * q =
      messagePoly message := by
    induction message using List.reverseRecOn with
    | nil => exact ⟨0, by simp [messagePoly, toPoly, ofBit]⟩
    | append_singleton message b ih =>
      obtain ⟨q, hq⟩ := ih
      rw [List.foldl_append, List.foldl_cons, List.foldl_nil, toPoly_step hw, messagePoly_concat,
          ← hq]
      -- what left the remainder joins the quotient
      refine ⟨q * X - C (ofBit ((message.foldl (step (feedback g)) 0).getLsbD (w - 1))), ?_⟩
      ring
  refine ((div_modByMonic_unique q _ (generator_monic g) ⟨hq, ?_⟩).2).symm
  rw [degree_generator]
  exact degree_toPoly_lt _

/-- What `divide` computes is the remainder of the message modulo the generator. -/
theorem toPoly_divide (hw : 0 < w) (g : BitVec w) (message : List (BitVec k)) :
    toPoly (divide g message) = messagePoly (message.flatMap bits) %ₘ generator g :=
  toPoly_foldl_step hw g _

end ShiftRegister
