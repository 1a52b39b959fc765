import LeoNet.Lib.Bits
import LeoNet.Lib.ShiftRegister
import LeoNet.Lib.Lanes

namespace ShiftRegister

open Lanes

/-!
# Two altered symbols

Over a linear table a run that takes in something else differs from the run before by the run over
what was added.  Two altered symbols go unnoticed when the first, after as many zeros as there are
places between them, has become the second.

* `drain_eq_drain_iff` / `foldl_pair_ne_zero` — where no symbol becomes a symbol again within `N`
  zeros, two symbols at most `N` places apart never go unnoticed;
* `stepAll_pack` — one step of many registers at once, as one operation on the number they make;
* `escapes_of_sweep` — so whether a symbol comes back is found out by running all of them.
-/

variable {w k : ℕ} {table : BitVec k → BitVec w}

/-- The register after `j` zeros. -/
def drain (table : BitVec k → BitVec w) (j : ℕ) (r : BitVec w) : BitVec w :=
  (List.replicate j 0).foldl (step table) r

/-- A symbol at the low end of the register. -/
def low (w : ℕ) (t : BitVec k) : BitVec w := t.setWidth w

/-- Within `N` zeros, no symbol but zero becomes a symbol again. -/
def Escapes (table : BitVec k → BitVec w) (N : ℕ) : Prop :=
  ∀ t : BitVec k, t ≠ 0 → ∀ j, 0 < j → j ≤ N → ∀ t' : BitVec k, drain table j (low w t) ≠ low w t'

/-- Draining in two goes. -/
theorem drain_add (i j : ℕ) (r : BitVec w) :
    drain table (i + j) r = drain table j (drain table i r) := by
  rw [drain, List.replicate_add, List.foldl_append, drain, drain]

/-- A register has room for a symbol. -/
theorem low_injective (hk : k ≤ w) : Function.Injective (low w : BitVec k → BitVec w) := by
  intro t t' h
  apply BitVec.eq_of_getLsbD_eq
  intro i hi
  have hbit := congrArg (BitVec.getLsbD · i) h
  simpa [low, BitVec.getLsbD_setWidth, show i < w by omega] using hbit

/-- Shifting alone, without a table, moves the register up. -/
theorem foldl_shift_zeros (j : ℕ) (r : BitVec w) :
    (List.replicate j (0 : BitVec k)).foldl shift r = r <<< (k * j) := by
  induction j generalizing r with
  | zero => rw [List.replicate_zero, List.foldl_nil, Nat.mul_zero, BitVec.shiftLeft_zero]
  | succ j ih =>
    have hzero : shift r (0 : BitVec k) = r <<< k := by simp [shift]
    rw [List.replicate_succ, List.foldl_cons, hzero, ih, Nat.mul_succ, Nat.add_comm,
        BitVec.shiftLeft_add]

/-- The symbol zero is the register zero. -/
theorem low_zero : low w (0 : BitVec k) = 0 := by
  simp [low]

/-- The zero of a register, as the literal that stands in the statements. -/
theorem zero_xor (r : BitVec w) : 0 ^^^ r = r := BitVec.zero_xor

/-- Draining loses nothing when a step does not. -/
theorem drain_injective (hk : k ≤ w)
    (hinj : Function.Injective fun t => (table t).setWidth k) (j : ℕ) :
    Function.Injective (drain table j) :=
  foldl_step_injective hk hinj (List.replicate j 0)

section Escapes

variable {N : ℕ} (hk : k ≤ w) (hinj : Function.Injective fun t => (table t).setWidth k)
  (hesc : Escapes table N)

include hk hinj hesc

/-- Symbols drained to the same register are one symbol, drained for the same number of zeros. -/
theorem drain_eq_drain_of_le {i j : ℕ} (hij : i ≤ j) (hj : j ≤ N) {t t' : BitVec k} (ht : t ≠ 0)
    (h : drain table j (low w t) = drain table i (low w t')) : i = j ∧ t = t' := by
  obtain ⟨m, rfl⟩ := Nat.exists_eq_add_of_le hij
  rw [Nat.add_comm, drain_add] at h
  have hsymbol := drain_injective hk hinj i h
  rcases Nat.eq_zero_or_pos m with rfl | hpos
  · exact ⟨rfl, low_injective hk hsymbol⟩
  · exact absurd hsymbol (hesc t ht m hpos (by omega) t')

/-- **Two symbols** that are drained to the same register are one. -/
theorem drain_eq_drain_iff {i j : ℕ} (hi : i ≤ N) (hj : j ≤ N) {t t' : BitVec k} (ht : t ≠ 0)
    (ht' : t' ≠ 0) :
    drain table i (low w t) = drain table j (low w t') ↔ i = j ∧ t = t' := by
  constructor
  · intro h
    rcases Nat.le_total i j with hle | hle
    · obtain ⟨hij, heq⟩ := drain_eq_drain_of_le hk hinj hesc hle hj ht' h.symm
      exact ⟨hij, heq.symm⟩
    · obtain ⟨hij, heq⟩ := drain_eq_drain_of_le hk hinj hesc hle hi ht h
      exact ⟨hij.symm, heq⟩
  · rintro ⟨rfl, rfl⟩
    rfl

end Escapes

section Linear

variable (htable : ∀ t t', table (t ^^^ t') = table t ^^^ table t')

include htable

/-- A linear table has a zero for the symbol zero. -/
theorem table_zero : table 0 = 0 := by
  have h := htable 0 0
  rw [BitVec.xor_self, BitVec.xor_self] at h
  exact h

/-- Draining is linear. -/
theorem drain_xor (j : ℕ) (r r' : BitVec w) :
    drain table j (r ^^^ r') = drain table j r ^^^ drain table j r' := by
  rw [drain, foldl_step_xor htable, List.length_replicate]
  rfl

/-- Nothing comes out of the empty register. -/
theorem drain_zero (j : ℕ) : drain table j 0 = 0 := by
  have h := drain_xor htable j 0 0
  rw [BitVec.xor_self, BitVec.xor_self] at h
  exact h

/-- What is taken in joins the register after its step. -/
theorem step_eq_xor (r : BitVec w) (c : BitVec k) : step table r c = step table r 0 ^^^ low w c := by
  have hshift : shift (0 : BitVec w) c = low w c := by
    rw [shift, low]
    simp
  have htop : top k (0 : BitVec w) = 0 := by
    apply BitVec.eq_of_getLsbD_eq
    intro i _
    simp [getLsbD_top]
  have hstep : step table r c = step table r 0 ^^^ step table 0 c := by
    rw [← step_xor htable, zero_xor]
    exact congrArg (step table · c) BitVec.xor_zero.symm
  rw [hstep, step, step, hshift, htop, table_zero htable]
  exact congrArg (_ ^^^ ·) BitVec.xor_zero

/-- While it moves up, a symbol is only shifted. -/
theorem drain_low {j : ℕ} (hj : k * (j + 1) ≤ w) (t : BitVec k) :
    drain table j (low w t) = low w t <<< (k * j) := by
  rw [Nat.mul_succ] at hj
  have hhigh (i : ℕ) (hi : w - k * (List.replicate j (0 : BitVec k)).length ≤ i) :
      (low w t).getLsbD i = false := by
    rw [List.length_replicate] at hi
    rw [low, BitVec.getLsbD_setWidth, BitVec.getLsbD_of_ge t i (by omega), Bool.and_false]
  rw [drain, foldl_step_eq_shift (table_zero htable) (by rw [List.length_replicate]; omega) hhigh,
      foldl_shift_zeros]

/-- A symbol behind zeros, and zeros behind it. -/
theorem foldl_single (a m : ℕ) (t : BitVec k) :
    (List.replicate a 0 ++ t :: List.replicate m 0).foldl (step table) 0 =
      drain table m (low w t) := by
  have hfront : (List.replicate a 0).foldl (step table) 0 = 0 := drain_zero htable a
  have hzero : step table 0 (0 : BitVec k) = 0 := drain_zero htable 1
  rw [List.foldl_append, hfront, List.foldl_cons, step_eq_xor htable, hzero, zero_xor]
  rfl

/-- A second symbol, `m` places behind the first. -/
theorem foldl_pair (a m b : ℕ) (t t' : BitVec k) :
    (List.replicate a 0 ++ t :: (List.replicate m 0 ++ t' :: List.replicate b 0)).foldl
        (step table) 0 =
      drain table b (drain table (m + 1) (low w t) ^^^ low w t') := by
  have hsplit : List.replicate a 0 ++ t :: (List.replicate m 0 ++ t' :: List.replicate b 0) =
      (List.replicate a 0 ++ t :: List.replicate m 0) ++ t' :: List.replicate b 0 := by
    rw [List.append_assoc, List.cons_append]
  rw [hsplit, List.foldl_append, foldl_single htable, List.foldl_cons, step_eq_xor htable,
      drain_add m 1]
  rfl

variable {N : ℕ} (hk : k ≤ w) (hinj : Function.Injective fun t => (table t).setWidth k)
  (hesc : Escapes table N)

include hk hinj

/-- A single symbol is noticed. -/
theorem drain_ne_zero (j : ℕ) {t : BitVec k} (ht : t ≠ 0) : drain table j (low w t) ≠ 0 := by
  intro h
  rw [← drain_zero htable j] at h
  have hzero : low w t = low w (0 : BitVec k) :=
    (drain_injective hk hinj j h).trans low_zero.symm
  exact ht (low_injective hk hzero)

include hesc

/-- **Pairs.**  Two symbols that are added at most `N` places apart leave something in the
    register. -/
theorem foldl_pair_ne_zero (a b : ℕ) {m : ℕ} (hm : m + 1 ≤ N) {t t' : BitVec k}
    (hne : t ≠ 0 ∨ t' ≠ 0) :
    (List.replicate a 0 ++ t :: (List.replicate m 0 ++ t' :: List.replicate b 0)).foldl
      (step table) 0 ≠ 0 := by
  rw [foldl_pair htable]
  by_cases ht : t = 0
  · -- then it is the second one alone
    have hzero : drain table (m + 1) (low w t) = 0 := by
      rw [ht, low_zero]
      exact drain_zero htable _
    rw [hzero, zero_xor]
    exact drain_ne_zero htable hk hinj b (hne.resolve_left fun h => h ht)
  · intro h
    rw [← drain_zero htable b] at h
    have hsame := BitVec.xor_eq_zero_iff.1 (drain_injective hk hinj b h)
    exact hesc t ht (m + 1) (Nat.succ_pos m) hm t' hsame

end Linear

/-! ### Many registers at once -/

/-- The bits of a register below bit `j`. -/
def lowMask (w j : ℕ) : BitVec w := BitVec.ofNat w (2 ^ j - 1)

/-- What the words of a linear table mix into the registers: one for each bit from bit `i` on. -/
def feed (n : ℕ) : List (BitVec w) → ℕ → ℕ → ℕ
  | [], _, _ => 0
  | u :: us, i, x => ((x >>> i &&& spread (1 : BitVec w) n) * u.toNat) ^^^ feed n us (i + 1) x

/-- `n` registers after a zero was taken in. -/
def stepAll (k n : ℕ) (us : List (BitVec w)) (x : ℕ) : ℕ :=
  ((x &&& spread (lowMask w (w - k)) n) * 2 ^ k) ^^^ feed n us (w - k) x

/-- The bits of the mask. -/
theorem getLsbD_lowMask {j : ℕ} (hj : j ≤ w) (i : ℕ) :
    (lowMask w j).getLsbD i = decide (i < j) := Bits.getLsbD_lowMask rfl hj i

/-- The mask as a number. -/
theorem toNat_lowMask {j : ℕ} (hj : j ≤ w) : (lowMask w j).toNat = 2 ^ j - 1 := by
  rw [lowMask, BitVec.toNat_ofNat]
  apply Nat.mod_eq_of_lt
  have hle : 2 ^ j ≤ 2 ^ w := Nat.pow_le_pow_right (by decide) hj
  have hpos : 0 < 2 ^ j := Nat.two_pow_pos j
  omega

/-- Empty registers, packed. -/
theorem pack_zero (n : ℕ) : pack (fun _ => (0 : BitVec w)) n = 0 := by
  induction n with
  | zero => rfl
  | succ n ih => rw [pack, ih, BitVec.ofNat_eq_ofNat, BitVec.toNat_zero, Nat.mul_zero]

/-- One bit of every register. -/
theorem bit_pack (r : ℕ → BitVec w) (n : ℕ) {i : ℕ} (hi : i < w) (u : BitVec w) :
    (pack r n >>> i &&& spread (1 : BitVec w) n) * u.toNat =
      pack (fun d => if (r d).getLsbD i then u else 0) n := by
  rw [pack_shiftRight_and r n fun p hp => by simp [show p ≠ 0 by omega]]
  refine pack_mul (fun d => ?_) n
  rw [BitVec.ofNat_eq_ofNat, BitVec.and_one_eq_setWidth_ofBool_getLsbD,
      BitVec.getLsbD_ushiftRight, Nat.add_zero]
  have hone : 1 % 2 ^ w = 1 := Nat.mod_eq_of_lt (Nat.one_lt_two_pow (by omega))
  cases (r d).getLsbD i <;> simp [hone]

/-- What the words mix in, register by register. -/
theorem feed_pack (r : ℕ → BitVec w) (n : ℕ) (hk : k ≤ w) (us : List (BitVec w)) {j : ℕ}
    (hj : j + us.length ≤ k) :
    feed n us (w - k + j) (pack r n) = pack (fun d => linearTable us j (top k (r d))) n := by
  induction us generalizing j with
  | nil => exact (pack_zero n).symm
  | cons u us ih =>
    rw [List.length_cons] at hj
    have hbit (d : ℕ) : (top k (r d)).getLsbD j = (r d).getLsbD (w - k + j) := by
      rw [getLsbD_top, decide_eq_true (by omega), Bool.true_and]
    rw [feed, bit_pack r n (by omega), Nat.add_assoc, ih (by omega), pack_xor]
    simp only [linearTable, hbit]

/-- **All registers.**  One operation makes a step of each. -/
theorem stepAll_pack (r : ℕ → BitVec w) (n : ℕ) (hk : k ≤ w) {us : List (BitVec w)}
    (hus : us.length = k) :
    stepAll k n us (pack r n) = pack (fun d => step (linearTable us 0) (r d) (0 : BitVec k)) n := by
  have hfeed := feed_pack r n hk us (j := 0) (by omega)
  rw [Nat.add_zero] at hfeed
  have hshift (d : ℕ) : (r d &&& lowMask w (w - k)).toNat * 2 ^ k =
      (shift (r d) (0 : BitVec k)).toNat := by
    have hpow : 2 ^ w = 2 ^ (w - k) * 2 ^ k := by rw [← Nat.pow_add, Nat.sub_add_cancel hk]
    have hzero : shift (r d) (0 : BitVec k) = r d <<< k := by simp [shift]
    rw [BitVec.toNat_and, toNat_lowMask (Nat.sub_le w k), Nat.and_two_pow_sub_one_eq_mod, hzero,
        BitVec.toNat_shiftLeft, Nat.shiftLeft_eq, hpow, Nat.mul_mod_mul_right]
  rw [stepAll, hfeed, spread, pack_and, pack_mul hshift, pack_xor]
  rfl

/-- All registers but the first hold more than a symbol. -/
def clear (w k n x : ℕ) : Bool :=
  ((x >>> k &&& spread (lowMask w (w - k)) n) + spread (lowMask w (w - k)) n) >>> (w - k) &&&
    spread (1 : BitVec w) n == pack (fun d => if d = 0 then (0 : BitVec w) else 1) n

/-- `2 ^ m` steps of all registers, if all but the first hold more than a symbol after each. -/
def sweep (k n : ℕ) (us : List (BitVec w)) : ℕ → ℕ → Option ℕ
  | 0, x => if clear w k n (stepAll k n us x) then some (stepAll k n us x) else none
  | m + 1, x => (sweep k n us m x).bind (sweep k n us m)

/-- The test of all registers, register by register. -/
theorem clear_pack {r : ℕ → BitVec w} {n : ℕ} (hpos : 0 < k) (hk : k ≤ w)
    (h : clear w k n (pack r n) = true) {d : ℕ} (hd : 0 < d) (hdn : d < n) : r d >>> k ≠ 0 := by
  have hpow : 2 ^ w = 2 ^ (w - k) * 2 ^ k := by rw [← Nat.pow_add, Nat.sub_add_cancel hk]
  have hmask := toNat_lowMask (Nat.sub_le w k)
  -- a word that is not zero carries into the bit above the mask
  have hsum (d : ℕ) : (r d >>> k &&& lowMask w (w - k)).toNat + (lowMask w (w - k)).toNat =
      ((r d >>> k &&& lowMask w (w - k)) + lowMask w (w - k)).toNat := by
    have hlt : (r d >>> k &&& lowMask w (w - k)).toNat < 2 ^ (w - k) := by
      rw [BitVec.toNat_and, hmask, Nat.and_two_pow_sub_one_eq_mod]
      exact Nat.mod_lt _ (Nat.two_pow_pos _)
    have htwo : 2 ^ (w - k) * 2 ^ 1 ≤ 2 ^ (w - k) * 2 ^ k :=
      Nat.mul_le_mul_left _ (Nat.pow_le_pow_right Nat.two_pos hpos)
    rw [← hpow, Nat.pow_one] at htwo
    rw [BitVec.toNat_add, Nat.mod_eq_of_lt (by omega)]
  have hadd : pack (fun d => r d >>> k &&& lowMask w (w - k)) n + spread (lowMask w (w - k)) n =
      pack (fun d => (r d >>> k &&& lowMask w (w - k)) + lowMask w (w - k)) n := pack_add hsum n
  have hhigh (p : ℕ) (hp : w - k ≤ p) : (lowMask w (w - k)).getLsbD p = false := by
    rw [getLsbD_lowMask (Nat.sub_le w k), decide_eq_false (by omega)]
  have hone (p : ℕ) (hp : w - (w - k) ≤ p) : (1 : BitVec w).getLsbD p = false := by
    simp [show p ≠ 0 by omega]
  rw [clear, beq_iff_eq, pack_shiftRight_and r n hhigh, hadd, pack_shiftRight_and _ n hone,
      pack_inj] at h
  intro hzero
  have hword := h d hdn
  rw [hzero, if_neg (by omega)] at hword
  have hbit := congrArg (BitVec.getLsbD · 0) hword
  simp [getLsbD_lowMask (Nat.sub_le w k)] at hbit
  omega

/-- What a sweep that comes to its end has seen. -/
theorem sweep_spec {us : List (BitVec w)} {n : ℕ} (hpos : 0 < k) (hk : k ≤ w)
    (hus : us.length = k) {m : ℕ} {r : ℕ → BitVec w} {y : ℕ}
    (h : sweep k n us m (pack r n) = some y) :
    y = pack (fun d => drain (linearTable us 0 : BitVec k → BitVec w) (2 ^ m) (r d)) n ∧
      ∀ j, 0 < j → j ≤ 2 ^ m → ∀ d, 0 < d → d < n →
        drain (linearTable us 0 : BitVec k → BitVec w) j (r d) >>> k ≠ 0 := by
  induction m generalizing r y with
  | zero =>
    rw [sweep, stepAll_pack r n hk hus] at h
    split at h
    case isTrue hclear =>
      cases h
      refine ⟨rfl, fun j hj hle d hd hdn => ?_⟩
      obtain rfl : j = 1 := by omega
      exact clear_pack hpos hk hclear hd hdn
    case isFalse => cases h
  | succ m ih =>
    rw [sweep, Option.bind_eq_some_iff] at h
    obtain ⟨x, hfirst, hsecond⟩ := h
    obtain ⟨rfl, hbefore⟩ := ih hfirst
    obtain ⟨rfl, hafter⟩ := ih hsecond
    have htwice : 2 ^ (m + 1) = 2 ^ m + 2 ^ m := by rw [Nat.pow_succ, Nat.mul_two]
    refine ⟨by simp only [htwice, drain_add], fun j hj hle d hd hdn => ?_⟩
    rcases Nat.lt_or_ge (2 ^ m) j with hlt | hge
    · obtain ⟨i, rfl⟩ := Nat.exists_eq_add_of_le (Nat.le_of_lt hlt)
      rw [drain_add]
      exact hafter i (by omega) (by omega) d hd hdn
    · exact hbefore j hj hge d hd hdn

/-- **The search.**  When all symbols are run at once and none comes back, none does. -/
theorem escapes_of_sweep {us : List (BitVec w)} (hpos : 0 < k) (hk : k ≤ w) (hus : us.length = k)
    {m : ℕ} (h : (sweep k (2 ^ k) us m (pack (BitVec.ofNat w) (2 ^ k))).isSome) :
    Escapes (linearTable us 0 : BitVec k → BitVec w) (2 ^ m) := by
  obtain ⟨y, hy⟩ := Option.isSome_iff_exists.1 h
  obtain ⟨-, hhigh⟩ := sweep_spec hpos hk hus hy
  intro t ht j hj hle t' hback
  have hd : 0 < t.toNat := by
    rw [Nat.pos_iff_ne_zero]
    intro hzero
    exact ht (BitVec.eq_of_toNat_eq hzero)
  have hsymbol := hhigh j hj hle t.toNat hd t.isLt
  rw [BitVec.ofNat_toNat] at hsymbol
  -- a symbol has nothing above its own bits
  apply hsymbol
  show drain _ j (low w t) >>> k = 0
  rw [hback]
  apply BitVec.eq_of_getLsbD_eq
  intro i hi
  simp [low]

end ShiftRegister
