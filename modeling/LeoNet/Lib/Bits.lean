import Mathlib.Algebra.Group.Nat.Defs
import Mathlib.Data.List.Basic
import Mathlib.Data.List.GetD

namespace Bits

/-!
# Words bit by bit

Code that permutes bits writes a word as the bitwise or of many words of one bit each.

* `getLsbD_orAll` — a bit of a bitwise or;
* `Routes.getLsbD_orAll` — where exactly one wire leads to each place, what arrives there is what
  that wire carries;
* `eq_of_bits` — words that agree on their `n` lowest bits, and have no others, are equal.
-/

variable {n : ℕ}

/-- The bitwise or of a list of words. -/
def orAll (xs : List (BitVec n)) : BitVec n := xs.foldl (· ||| ·) 0

/-- A bit of a word into which others were merged. -/
theorem getLsbD_foldl_or (xs : List (BitVec n)) (x : BitVec n) (k : ℕ) :
    (xs.foldl (· ||| ·) x).getLsbD k = (x.getLsbD k || xs.any (·.getLsbD k)) := by
  induction xs generalizing x with
  | nil => simp
  | cons y ys ih => simp [ih, Bool.or_assoc]

/-- A bit of a bitwise or. -/
theorem getLsbD_orAll (xs : List (BitVec n)) (k : ℕ) :
    (orAll xs).getLsbD k = xs.any (·.getLsbD k) := by
  simp [orAll, getLsbD_foldl_or]

/-- What arrives where exactly one of `xs` leads is what that one carries. -/
theorem any_pick {ι : Type*} {xs : List ι} {leads g : ι → Bool} {a : ι} (ha : a ∈ xs)
    (hleads : leads a = true) (huniq : ∀ x ∈ xs, leads x = true → x = a) :
    (xs.any fun x => leads x && g x) = g a := by
  cases hg : g a with
  | true =>
    rw [List.any_eq_true]
    exact ⟨a, ha, by rw [hleads, hg]; rfl⟩
  | false =>
    rw [List.any_eq_false]
    intro x hx hbad
    rw [Bool.and_eq_true] at hbad
    rw [huniq x hx hbad.1, hg] at hbad
    exact Bool.false_ne_true hbad.2

/-- The wires `wires`, pairs of a source and a place, lead from `src k` and from nowhere else to
    place `k`, for each `k < n`. -/
def Routes {ι : Type*} (wires : List (ι × ℕ)) (src : ℕ → ι) (n : ℕ) : Prop :=
  ∀ k < n, (src k, k) ∈ wires ∧ ∀ p ∈ wires, p.2 = k → p = (src k, k)

instance {ι : Type*} [DecidableEq ι] (wires : List (ι × ℕ)) (src : ℕ → ι) (n : ℕ) :
    Decidable (Routes wires src n) :=
  inferInstanceAs (Decidable (∀ k < n, _))

/-- What arrives at a place is what its one wire carries. -/
theorem Routes.any_eq {ι : Type*} {wires : List (ι × ℕ)} {src : ℕ → ι} (h : Routes wires src n)
    (g : ι → Bool) {k : ℕ} (hk : k < n) : (wires.any fun p => p.2 == k && g p.1) = g (src k) :=
  any_pick (g := fun p => g p.1) (h k hk).1 (beq_self_eq_true k)
    fun p hp hpk => (h k hk).2 p hp (beq_iff_eq.1 hpk)

/-- A word put together from one term for each wire, where the term of a wire that leads to `j` is
    the one that may have bit `k`. -/
theorem Routes.getLsbD_orAll {ι : Type*} {w : ℕ} {wires : List (ι × ℕ)} {src : ℕ → ι}
    (h : Routes wires src n) {term : ι × ℕ → BitVec w} {g : ι → Bool} {j k : ℕ} (hj : j < n)
    (hterm : ∀ p ∈ wires, (term p).getLsbD k = (p.2 == j && g p.1)) :
    (orAll (wires.map term)).getLsbD k = g (src j) := by
  rw [Bits.getLsbD_orAll, List.any_map, ← h.any_eq g hj, Bool.eq_iff_iff, List.any_eq_true,
    List.any_eq_true]
  constructor <;> rintro ⟨p, hp, hbit⟩ <;> refine ⟨p, hp, ?_⟩
  · rwa [← hterm p hp]
  · rwa [Function.comp, hterm p hp]

/-- The one bit of a power of two. -/
theorem getLsbD_of_eq_twoPow {x : BitVec n} (i : ℕ) (hx : x = BitVec.twoPow n i) (hi : i < n)
    (k : ℕ) : x.getLsbD k = (k == i) := by
  rw [hx, BitVec.getLsbD_twoPow, decide_eq_true hi, Bool.true_and, beq_eq_decide]
  exact decide_eq_decide.2 eq_comm

/-- The low bits of a mask. -/
theorem getLsbD_lowMask {mask i : ℕ} (hmask : mask = 2 ^ i - 1) (hi : i ≤ n) (k : ℕ) :
    (BitVec.ofNat n mask).getLsbD k = decide (k < i) := by
  rw [hmask, BitVec.getLsbD_ofNat, Nat.testBit_two_pow_sub_one]
  by_cases hk : k < i
  · rw [decide_eq_true (Nat.lt_of_lt_of_le hk hi), Bool.true_and]
  · rw [decide_eq_false hk, Bool.and_false]

/-- A mask of one bit tests that bit. -/
theorem and_bne_zero {mask : BitVec n} {i : ℕ} (hmask : ∀ k, mask.getLsbD k = (k == i))
    (x : BitVec n) : (x &&& mask != 0) = x.getLsbD i := by
  cases hx : x.getLsbD i with
  | true =>
    apply bne_iff_ne.2
    intro hzero
    have hbit := congrArg (BitVec.getLsbD · i) hzero
    rw [BitVec.getLsbD_and, hx, hmask, beq_self_eq_true, BitVec.ofNat_eq_ofNat,
      BitVec.getLsbD_zero] at hbit
    exact absurd hbit (by decide)
  | false =>
    apply bne_eq_false_iff_eq.2
    apply BitVec.eq_of_getLsbD_eq
    intro k _
    rw [BitVec.getLsbD_and, hmask, BitVec.ofNat_eq_ofNat, BitVec.getLsbD_zero]
    by_cases hk : k = i
    · rw [hk, hx, Bool.false_and]
    · rw [beq_eq_false_iff_ne.2 hk, Bool.and_false]

/-- A word fits into `n` bits. -/
def Fits {w : ℕ} (n : ℕ) (x : BitVec w) : Prop := ∀ k, n ≤ k → x.getLsbD k = false

/-- Sums of words that fit do. -/
theorem Fits.xor {w : ℕ} {x y : BitVec w} (hx : Fits n x) (hy : Fits n y) : Fits n (x ^^^ y) := by
  intro k hk
  rw [BitVec.getLsbD_xor, hx k hk, hy k hk]
  rfl

/-- Numbers that fit make words that do. -/
theorem fits_ofNat (w : ℕ) {x : ℕ} (hx : x < 2 ^ n) : Fits n (BitVec.ofNat w x) := by
  intro k hk
  rw [BitVec.getLsbD_ofNat, Nat.testBit_lt_two_pow
    (Nat.lt_of_lt_of_le hx (Nat.pow_le_pow_right (by decide) hk)), Bool.and_false]

/-- What is looked up in tables of bounded entries is bounded. -/
theorem getD_getD_lt {tables : List (List ℕ)} {m : ℕ} (hm : 0 < m)
    (h : ∀ table ∈ tables, ∀ x ∈ table, x < m) (i j : ℕ) :
    (tables.getD i []).getD j 0 < m := by
  rcases Nat.lt_or_ge i tables.length with hi | hi
  · rw [List.getD_eq_getElem _ _ hi]
    rcases Nat.lt_or_ge j tables[i].length with hj | hj
    · rw [List.getD_eq_getElem _ _ hj]
      exact h _ (List.getElem_mem hi) _ (List.getElem_mem hj)
    · rwa [List.getD_eq_default _ _ hj]
  · rwa [List.getD_eq_default _ _ hi, List.getD_nil]

/-- Words that fit into `n` bits and agree on them are equal. -/
theorem eq_of_bits {w : ℕ} {x y : BitVec w} (hx : Fits n x) (hy : Fits n y)
    (h : ∀ k < n, x.getLsbD k = y.getLsbD k) : x = y := by
  apply BitVec.eq_of_getLsbD_eq
  intro k _
  rcases Nat.lt_or_ge k n with hk | hk
  · exact h k hk
  · rw [hx k hk, hy k hk]

end Bits
