import LeoNet.DesCrypto
import LeoNet.StandardDes

namespace LeoNet

open Bits

/-!
# The two implementations of DES agree

The table-driven DES of `leo_des_crypto.c` and the bit-by-bit one of `leo_standard_des_crypto.c`
are Feistel networks between the same permutations of the block.

* `roundValue_eq_f` — on keys that hold the same bits, the two round functions agree: the words of
  `Psboxes` are the S-boxes after the P-box permutation, and the rotated words hold the bits of the
  expansion;
* `keyLoop_rows` — the two key schedules hold the same bits in every round;
* `desBytes_eq_standard` — so the two ciphers agree on every key and every block.
-/

variable {w : ℕ}

/-! ### The six bits of an S-box -/

/-- The index of `Psboxes[j]` in a round. -/
def boxIndex (r : BitVec w) (k : RoundKeys w) (j : ℕ) : BitVec w :=
  if j % 2 = 1 then ((rol1 r ^^^ k.2) >>> (28 - 4 * j)) &&& 0x3f
  else ((ror4 (rol1 r) ^^^ k.1) >>> (24 - 4 * j)) &&& 0x3f

/-- The bit of the key that is mixed into bit `u` of this index. -/
def boxKey (k : RoundKeys w) (j u : ℕ) : Bool :=
  if j % 2 = 1 then k.2.getLsbD (28 - 4 * j + u) else k.1.getLsbD (24 - 4 * j + u)

/-- The round value, box by box. -/
theorem roundValue_eq (r : BitVec w) (k : RoundKeys w) :
    roundValue r k = ps 7 (boxIndex r k 7) ^^^ ps 5 (boxIndex r k 5) ^^^ ps 3 (boxIndex r k 3)
      ^^^ ps 1 (boxIndex r k 1) ^^^ ps 6 (boxIndex r k 6) ^^^ ps 4 (boxIndex r k 4)
      ^^^ ps 2 (boxIndex r k 2) ^^^ ps 0 (boxIndex r k 0) := by
  simp [roundValue, boxIndex]

/-- `rol1` rotates the `32` bits of a half. -/
theorem rol1_bit (hw : 32 ≤ w) {r : BitVec w} (hr : Fits 32 r) {k : ℕ} (hk : k < 32) :
    (rol1 r).getLsbD k = r.getLsbD ((k + 31) % 32) := by
  have hkw : k < w := by omega
  rw [rol1, BitVec.getLsbD_or, BitVec.getLsbD_shiftLeft, BitVec.getLsbD_ushiftRight]
  rcases Nat.eq_zero_or_pos k with rfl | hpos
  · simp
  · have hmod : (k + 31) % 32 = k - 1 := by omega
    have hlow : ¬k < 1 := by omega
    rw [hr (31 + k) (by omega), hmod, decide_eq_true hkw, decide_eq_false hlow, Bool.or_false]
    rfl

/-- A word wider than `32` bits keeps one bit more after `rol1`, and after `ror4` that bit stands
    where the rotation puts it anyway. -/
theorem ror4_rol1_bit (hw : 32 ≤ w) {r : BitVec w} (hr : Fits 32 r) {k : ℕ} (hk : k < 32) :
    (ror4 (rol1 r)).getLsbD k = r.getLsbD ((k + 3) % 32) := by
  have hkw : k < w := by omega
  rw [ror4, BitVec.getLsbD_or, BitVec.getLsbD_shiftLeft, BitVec.getLsbD_ushiftRight,
    decide_eq_true hkw, Bool.true_and]
  rcases Nat.lt_or_ge k 28 with hlow | hhigh
  · have hmod : (4 + k + 31) % 32 = (k + 3) % 32 := by omega
    rw [rol1_bit hw hr (by omega), hmod, decide_eq_true hlow, Bool.not_true, Bool.false_and,
      Bool.or_false]
  · have hmod : (k - 28 + 31) % 32 = (k + 3) % 32 := by omega
    have hnot : ¬k < 28 := by omega
    rw [rol1_bit hw hr (by omega : k - 28 < 32), hmod, decide_eq_false hnot, Bool.not_false,
      Bool.true_and]
    -- the bits from `32` on: only the first can be set, and it is the top bit of `r`
    have habove : (rol1 r).getLsbD (4 + k) = (decide (4 + k < w) && (k == 28 && r.getLsbD 31)) := by
      rw [rol1, BitVec.getLsbD_or, BitVec.getLsbD_shiftLeft, BitVec.getLsbD_ushiftRight,
        hr (31 + (4 + k)) (by omega), Bool.or_false]
      have hone : ¬4 + k < 1 := by omega
      rw [decide_eq_false hone, Bool.not_false, Bool.and_true]
      congr 1
      rcases Nat.eq_or_lt_of_le hhigh with rfl | hlt
      · rfl
      · rw [hr (4 + k - 1) (by omega), beq_eq_false_iff_ne.2 (by omega), Bool.false_and]
    rw [habove]
    rcases Nat.eq_or_lt_of_le hhigh with rfl | hlt
    · simp
    · rw [beq_eq_false_iff_ne.2 (by omega), Bool.false_and, Bool.and_false, Bool.false_or]

/-- A bit of the index of `Psboxes[j]`. -/
theorem boxIndex_bit (hw : 32 ≤ w) {r : BitVec w} (hr : Fits 32 r) (k : RoundKeys w) {j u : ℕ}
    (hj : j < 8) (hu : u < 6) :
    (boxIndex r k j).getLsbD u = (r.getLsbD ((59 - 4 * j + u) % 32) ^^ boxKey k j u) := by
  have hmask : ∀ u, (0x3f : BitVec w).getLsbD u = decide (u < 6) :=
    getLsbD_lowMask rfl (by omega)
  unfold boxIndex boxKey
  split
  · have hmod : (28 - 4 * j + u + 31) % 32 = (59 - 4 * j + u) % 32 := by omega
    rw [BitVec.getLsbD_and, hmask, BitVec.getLsbD_ushiftRight, BitVec.getLsbD_xor,
      rol1_bit hw hr (by omega), hmod, decide_eq_true hu, Bool.and_true]
  · have hmod : (24 - 4 * j + u + 3) % 32 = (59 - 4 * j + u) % 32 := by omega
    rw [BitVec.getLsbD_and, hmask, BitVec.getLsbD_ushiftRight, BitVec.getLsbD_xor,
      ror4_rol1_bit hw hr (by omega), hmod, decide_eq_true hu, Bool.and_true]

/-- The index into a box has six bits. -/
theorem boxIndex_fits (hw : 32 ≤ w) (r : BitVec w) (k : RoundKeys w) (j : ℕ) :
    Fits 6 (boxIndex r k j) := by
  intro u hu
  have hmask : ∀ u, (0x3f : BitVec w).getLsbD u = decide (u < 6) :=
    getLsbD_lowMask rfl (by omega)
  have hnot : ¬u < 6 := by omega
  unfold boxIndex
  split <;> rw [BitVec.getLsbD_and, hmask, decide_eq_false hnot, Bool.and_false]

/-! ### The round functions -/

/-- The subkeys of a round of one implementation and the row of the other hold the same bits. -/
def SameKey (k : RoundKeys w) (row : List (BitVec 8)) : Prop :=
  ∀ j < 8, ∀ u < 6,
    boxKey k j u = (row.getD ((6 * j + 5 - u) / 8) 0).getLsbD (7 - (6 * j + 5 - u) % 8)

/-- The words of `Psboxes` are the S-boxes after the P-box permutation, at indices in the order of
    the bits of a half. -/
theorem psboxes_eq : psboxes = (List.range 8).map fun j => (List.range 64).map fun v =>
    (StandardDes.pbox (StandardDes.sbox j (StandardDes.sboxBit (BitVec.ofNat 8 v)) <<<
      (28 - 4 * j))).toNat := by
  decide +kernel

/-- What an S-box contributes before the P-box permutation. -/
def nibble (x : BitVec 32) (row : List (BitVec 8)) (j : ℕ) : BitVec 32 :=
  StandardDes.sbox j (StandardDes.sboxBit
    (StandardDes.sixBits (fun i => StandardDes.lrgstate x i ^^^ row.getD i 0) j))

/-- The two implementations look the S-boxes up at the same index. -/
theorem index_eq {x : BitVec 32} {k : RoundKeys 32} {row : List (BitVec 8)} (h : SameKey k row)
    {j : ℕ} (hj : j < 8) :
    (boxIndex x k j).toNat = (StandardDes.sixBits
      (fun i => StandardDes.lrgstate x i ^^^ row.getD i 0) j).toNat := by
  have hx : Fits 32 x := fun i hi => BitVec.getLsbD_of_ge x i hi
  apply Nat.eq_of_testBit_eq
  intro u
  change (boxIndex x k j).getLsbD u = (StandardDes.sixBits _ j).getLsbD u
  rcases Nat.lt_or_ge u 6 with hu | hu
  · have hnibble : (6 * j + 5 - u) / 6 = j := by omega
    have hplace : 64 - 4 * j - (6 * j + 5 - u) % 6 = 59 - 4 * j + u := by omega
    rw [boxIndex_bit le_rfl hx k hj hu, StandardDes.sixBits_bit _ hj hu, BitVec.getLsbD_xor,
      StandardDes.lrgstate_bit x (by omega), hnibble, hplace, h j hj u hu]
  · rw [boxIndex_fits le_rfl x k j u hu, StandardDes.sixBits_fits _ hj u hu]

/-- The entry of a box is what `f` makes of its nibble. -/
theorem ps_eq {x : BitVec 32} {k : RoundKeys 32} {row : List (BitVec 8)} (h : SameKey k row)
    {j : ℕ} (hj : j < 8) :
    ps j (boxIndex x k j) = StandardDes.pbox (nibble x row j <<< (28 - 4 * j)) := by
  have hidx := index_eq (x := x) h hj
  have hlt : (boxIndex x k j).toNat < 64 :=
    Nat.lt_pow_two_of_testBit _ fun u hu => boxIndex_fits le_rfl x k j u hu
  have hbox : psboxes.getD j [] = (List.range 64).map fun v =>
      (StandardDes.pbox (StandardDes.sbox j (StandardDes.sboxBit (BitVec.ofNat 8 v)) <<<
        (28 - 4 * j))).toNat := by
    rw [psboxes_eq, List.getD_eq_getElem _ _ (by rwa [List.length_map, List.length_range]),
      List.getElem_map, List.getElem_range]
  rw [ps, hbox, List.getD_eq_getElem _ _ (by rwa [List.length_map, List.length_range]),
    List.getElem_map, List.getElem_range, BitVec.ofNat_toNat, BitVec.setWidth_eq, hidx,
    BitVec.ofNat_toNat, BitVec.setWidth_eq]
  rfl

/-- Nibbles in places of their own: the bitwise or is the exclusive one. -/
theorem nibbles_or_eq_xor {s : ℕ → BitVec 32} (hs : ∀ j, Fits 4 (s j)) :
    s 0 <<< 28 ||| s 1 <<< 24 ||| s 2 <<< 20 ||| s 3 <<< 16 ||| s 4 <<< 12 ||| s 5 <<< 8
        ||| s 6 <<< 4 ||| s 7 =
      s 7 <<< 0 ^^^ s 5 <<< 8 ^^^ s 3 <<< 16 ^^^ s 1 <<< 24 ^^^ s 6 <<< 4 ^^^ s 4 <<< 12
        ^^^ s 2 <<< 20 ^^^ s 0 <<< 28 := by
  apply BitVec.eq_of_getLsbD_eq
  intro k hk
  have hplace {j n : ℕ} (hj : j < 8) (hn : n = 28 - 4 * j) :
      (s j <<< n).getLsbD k = (7 - k / 4 == j && (s j).getLsbD (k % 4)) := by
    rw [BitVec.getLsbD_shiftLeft, decide_eq_true hk, Bool.true_and]
    rcases Nat.lt_trichotomy (7 - k / 4) j with hlt | heq | hgt
    -- the nibble lies below
    · rw [hs j (k - n) (by omega), beq_eq_false_iff_ne.2 (Nat.ne_of_lt hlt), Bool.and_false,
        Bool.false_and]
    · have hoff : k - n = k % 4 := by omega
      have hnot : ¬k < n := by omega
      rw [hoff, beq_iff_eq.2 heq, decide_eq_false hnot, Bool.not_false]
    -- the nibble lies above
    · have hlow : k < n := by omega
      rw [decide_eq_true hlow, beq_eq_false_iff_ne.2 (Nat.ne_of_gt hgt), Bool.not_true,
        Bool.false_and, Bool.false_and]
  have h7 : (s 7).getLsbD k = (7 - k / 4 == 7 && (s 7).getLsbD (k % 4)) := by
    rw [← hplace (n := 0) (by decide) rfl, BitVec.shiftLeft_zero]
  simp only [BitVec.getLsbD_or, BitVec.getLsbD_xor]
  rw [hplace (j := 0) (by decide) rfl, hplace (j := 1) (by decide) rfl,
    hplace (j := 2) (by decide) rfl, hplace (j := 3) (by decide) rfl,
    hplace (j := 4) (by decide) rfl, hplace (j := 5) (by decide) rfl,
    hplace (j := 6) (by decide) rfl, hplace (j := 7) (by decide) rfl, h7]
  have hq : 7 - k / 4 < 8 := by omega
  generalize 7 - k / 4 = q at hq ⊢
  interval_cases q <;> simp

/-- **Round functions.**  On keys that hold the same bits, the two implementations mix the same
    value into the other half. -/
theorem roundValue_eq_f (x : BitVec 32) {k : RoundKeys 32} {row : List (BitVec 8)}
    (h : SameKey k row) : roundValue x k = StandardDes.f x row := by
  have hf : StandardDes.f x row = StandardDes.pbox (nibble x row 0 <<< 28 ||| nibble x row 1 <<< 24
      ||| nibble x row 2 <<< 20 ||| nibble x row 3 <<< 16 ||| nibble x row 4 <<< 12
      ||| nibble x row 5 <<< 8 ||| nibble x row 6 <<< 4 ||| nibble x row 7) := rfl
  have hfits : ∀ j, Fits 4 (nibble x row j) := fun j => StandardDes.sbox_fits j _
  rw [roundValue_eq, hf, nibbles_or_eq_xor hfits]
  simp only [StandardDes.pbox_xor]
  rw [ps_eq h (by decide : 7 < 8), ps_eq h (by decide : 5 < 8), ps_eq h (by decide : 3 < 8),
    ps_eq h (by decide : 1 < 8), ps_eq h (by decide : 6 < 8), ps_eq h (by decide : 4 < 8),
    ps_eq h (by decide : 2 < 8), ps_eq h (by decide : 0 < 8)]

/-! ### The key schedules -/

/-- The `28` bits of `c` in the place where the other implementation keeps them. -/
structure Lifted (c : BitVec w) (C : BitVec 32) : Prop where
  fits : Fits 28 c
  bits : ∀ k < 28, C.getLsbD (k + 4) = c.getLsbD k
  low : ∀ k < 4, C.getLsbD k = false

/-- The rotation of `28` bits. -/
theorem rotate28_bit (hw : 32 ≤ w) {c : BitVec w} (hc : Fits 28 c) {n k : ℕ} (hn : n ≤ 28)
    (hk : k < 28) : (rotate28 c n).getLsbD k = c.getLsbD (if k < n then k + 28 - n else k - n) := by
  have hkw : k < w := by omega
  have hmask : ∀ k, (0x0fffffff : BitVec w).getLsbD k = decide (k < 28) :=
    getLsbD_lowMask rfl (by omega)
  rw [rotate28, BitVec.getLsbD_and, hmask, decide_eq_true hk, Bool.and_true,
    BitVec.getLsbD_or, BitVec.getLsbD_shiftLeft, BitVec.getLsbD_ushiftRight, decide_eq_true hkw,
    Bool.true_and]
  by_cases h : k < n
  · have hidx : 28 - n + k = k + 28 - n := by omega
    rw [if_pos h, decide_eq_true h, Bool.not_true, Bool.false_and, Bool.false_or, hidx]
  · rw [if_neg h, decide_eq_false h, Bool.not_false, Bool.true_and, hc (28 - n + k) (by omega),
      Bool.or_false]

/-- A rotated half has 28 bits. -/
theorem rotate28_fits (hw : 32 ≤ w) (c : BitVec w) (n : ℕ) : Fits 28 (rotate28 c n) := by
  intro k hk
  have hnot : ¬k < 28 := by omega
  have hmask : ∀ k, (0x0fffffff : BitVec w).getLsbD k = decide (k < 28) :=
    getLsbD_lowMask rfl (by omega)
  rw [rotate28, BitVec.getLsbD_and, hmask, decide_eq_false hnot, Bool.and_false]

/-- The rotations of the two implementations keep step. -/
theorem Lifted.rotate (hw : 32 ≤ w) {c : BitVec w} {C : BitVec 32} (h : Lifted c C) {n : ℕ}
    (hn : n ≤ 28) : Lifted (rotate28 c n) (StandardDes.keyRotate C n) := by
  have hmask (k : ℕ) (hk : k < 32) : (0xfffffff0 : BitVec 32).getLsbD k = decide (4 ≤ k) := by
    interval_cases k <;> rfl
  refine ⟨rotate28_fits hw c n, ?_, ?_⟩
  · intro k hk
    have hk32 : k + 4 < 32 := by omega
    have hfour : 4 ≤ k + 4 := by omega
    rw [StandardDes.keyRotate, BitVec.getLsbD_and, hmask _ hk32, decide_eq_true hfour,
      Bool.and_true, BitVec.getLsbD_or, BitVec.getLsbD_shiftLeft, BitVec.getLsbD_ushiftRight,
      rotate28_bit hw h.fits hn hk, decide_eq_true hk32, Bool.true_and]
    by_cases hkn : k < n
    -- the bits that went over the top: the shift to the left has only low bits of `C` there
    · have hlow : (!decide (k + 4 < n) && C.getLsbD (k + 4 - n)) = false := by
        rcases Nat.lt_or_ge (k + 4) n with hlt | hge
        · rw [decide_eq_true hlt, Bool.not_true, Bool.false_and]
        · rw [h.low _ (by omega), Bool.and_false]
      have hidx : 28 - n + (k + 4) = k + 28 - n + 4 := by omega
      rw [hlow, Bool.false_or, if_pos hkn, hidx, h.bits _ (by omega)]
    · have hnot : ¬k + 4 < n := by omega
      have hidx : k + 4 - n = k - n + 4 := by omega
      rw [if_neg hkn, decide_eq_false hnot, Bool.not_false, Bool.true_and, hidx,
        h.bits _ (by omega), BitVec.getLsbD_of_ge C _ (by omega), Bool.or_false]
  · intro k hk
    have hfour : ¬4 ≤ k := by omega
    rw [StandardDes.keyRotate, BitVec.getLsbD_and, hmask k (by omega), decide_eq_false hfour,
      Bool.and_false]

/-- A byte of a word put together from four. -/
theorem getLsbD_fourBytes (hw : 32 ≤ w) (a b c d : BitVec 8) {t u : ℕ} (ht : t < 4) (hu : u < 8) :
    (a.setWidth w <<< 24 ||| b.setWidth w <<< 16 ||| c.setWidth w <<< 8 |||
      d.setWidth w).getLsbD (8 * t + u) = ([d, c, b, a].getD t 0).getLsbD u := by
  -- the byte that is shifted to place `s` has bits there and nowhere else
  have hbyte (x : BitVec 8) (s : ℕ) : (x.setWidth w <<< (8 * s)).getLsbD (8 * t + u) =
      (t == s && x.getLsbD u) := by
    have htw : 8 * t + u < w := by omega
    rw [BitVec.getLsbD_shiftLeft, BitVec.getLsbD_setWidth, decide_eq_true htw, Bool.true_and]
    rcases Nat.lt_trichotomy t s with hlt | rfl | hgt
    · have hlow : 8 * t + u < 8 * s := by omega
      rw [decide_eq_true hlow, beq_eq_false_iff_ne.2 (Nat.ne_of_lt hlt), Bool.not_true,
        Bool.false_and, Bool.false_and]
    · have huw : u < w := by omega
      have hnot : ¬8 * t + u < 8 * t := by omega
      rw [Nat.add_sub_cancel_left, decide_eq_false hnot, decide_eq_true huw, beq_self_eq_true,
        Bool.not_false, Bool.true_and]
    · rw [BitVec.getLsbD_of_ge x _ (by omega), beq_eq_false_iff_ne.2 (Nat.ne_of_gt hgt),
        Bool.and_false, Bool.and_false, Bool.false_and]
  have hlast := hbyte d 0
  rw [Nat.mul_zero, BitVec.shiftLeft_zero] at hlast
  rw [BitVec.getLsbD_or, BitVec.getLsbD_or, BitVec.getLsbD_or, hbyte a 3, hbyte b 2, hbyte c 1,
    hlast]
  interval_cases t <;> simp

/-- A subkey holds the six bits of each of its bytes. -/
theorem boxKey_roundKeys (hw : 32 ≤ w) (k : ℕ → BitVec 8) {j u : ℕ} (hj : j < 8) (hu : u < 6) :
    boxKey (roundKeys k : RoundKeys w) j u = (k j).getLsbD u := by
  -- the even boxes read the first word of the subkey, the odd ones the second
  unfold boxKey roundKeys
  split
  · have hplace : 28 - 4 * j + u = 8 * ((7 - j) / 2) + u := by omega
    rw [hplace, getLsbD_fourBytes hw _ _ _ _ (by omega) (by omega)]
    interval_cases j <;> first | rfl | omega
  · have hplace : 24 - 4 * j + u = 8 * ((6 - j) / 2) + u := by omega
    rw [hplace, getLsbD_fourBytes hw _ _ _ _ (by omega) (by omega)]
    interval_cases j <;> first | rfl | omega

/-- The inner loop of PC-2, bit by bit. -/
theorem getLsbD_pc2Byte (hw : 32 ≤ w) (c : BitVec w) (ps : List ℕ) (mask k : BitVec 8) (u : ℕ) :
    (pc2Byte c ps mask k).getLsbD u =
      (k.getLsbD u || ps.zipIdx.any fun x => mask.getLsbD (x.2 + u) && c.getLsbD x.1) := by
  -- the mask moves one bit to the right at each entry, so the entry `x.2` sets bit `u` where the
  -- first mask has bit `x.2 + u`
  induction ps generalizing mask k with
  | nil => simp [pc2Byte]
  | cons p ps ih =>
    have hone (k : ℕ) : (1 : BitVec w).getLsbD k = (k == 0) := by
      have hpos : 0 < w := by omega
      rw [BitVec.ofNat_eq_ofNat, BitVec.getLsbD_one, decide_eq_true hpos, Bool.true_and,
        beq_eq_decide]
    have htest : ((c >>> p) &&& 1 != 0) = c.getLsbD p := by
      rw [and_bne_zero hone, BitVec.getLsbD_ushiftRight, Nat.add_zero]
    have hbit : (if (c >>> p) &&& 1 != 0 then k ||| mask else k).getLsbD u =
        (k.getLsbD u || (mask.getLsbD u && c.getLsbD p)) := by
      rw [htest]
      cases c.getLsbD p <;> simp
    have hshift : (fun x : ℕ × ℕ => (mask >>> 1).getLsbD (x.2 + u) && c.getLsbD x.1) =
        (fun x => mask.getLsbD (x.2 + u) && c.getLsbD x.1) ∘ Prod.map id (· + 1) := by
      funext x
      rw [BitVec.getLsbD_ushiftRight, Function.comp, Prod.map, id]
      congr 2
      omega
    rw [pc2Byte, ih, hbit, List.zipIdx_cons', List.any_cons, List.any_map, Bool.or_assoc,
      Nat.zero_add, hshift]

/-- Six entries of `pc2_c` or `pc2_d`: bit `u` comes from the entry `5 - u`. -/
theorem pc2Byte_bit (hw : 32 ≤ w) (c : BitVec w) {ps : List ℕ} (hps : ps.length = 6) {u : ℕ}
    (hu : u < 6) : (pc2Byte c ps 0x20 0).getLsbD u = c.getLsbD (ps.getD (5 - u) 0) := by
  have hmask (k : ℕ) : (0x20 : BitVec 8).getLsbD k = (k == 5) :=
    getLsbD_of_eq_twoPow 5 rfl (by decide) k
  have hlt : 5 - u < ps.length := by omega
  rw [getLsbD_pc2Byte hw, BitVec.ofNat_eq_ofNat, BitVec.getLsbD_zero, Bool.false_or]
  simp only [hmask]
  apply any_pick (a := (ps.getD (5 - u) 0, 5 - u)) (g := fun x => c.getLsbD x.1)
  · rw [List.mk_mem_zipIdx_iff_getElem?, List.getElem?_eq_getElem hlt, List.getD_eq_getElem _ _ hlt]
  · exact beq_iff_eq.2 (by omega)
  · rintro ⟨p, t⟩ hp ht
    rw [beq_iff_eq] at ht
    obtain rfl : t = 5 - u := by omega
    rw [List.mk_mem_zipIdx_iff_getElem?] at hp
    rw [List.getD_eq_getElem?_getD, hp, Option.getD_some]

/-- **PC-2**, bit by bit. -/
theorem permutedChoice2_bit (hw : 32 ≤ w) (c d : BitVec w) {j u : ℕ} (hj : j < 8) (hu : u < 6) :
    (permutedChoice2 c d j).getLsbD u =
      if j < 4 then c.getLsbD (pc2C.getD (6 * j + 5 - u) 0)
      else d.getLsbD (pc2D.getD (6 * j + 5 - u - 24) 0) := by
  have hentry (l : List ℕ) (i : ℕ) :
      ((l.drop i).take 6).getD (5 - u) 0 = l.getD (i + (5 - u)) 0 := by
    rw [List.getD_eq_getElem?_getD, List.getElem?_take_of_lt (by omega), List.getElem?_drop,
      ← List.getD_eq_getElem?_getD]
  -- the first four bytes of the subkey come from `c`, the last four from `d`
  unfold permutedChoice2
  split
  case isTrue h =>
    have hidx : 6 * j + (5 - u) = 6 * j + 5 - u := by omega
    have hlen : ((pc2C.drop (6 * j)).take 6).length = 6 := by
      interval_cases j <;> rfl
    rw [pc2Byte_bit hw c hlen hu, hentry, hidx]
  case isFalse h =>
    have hidx : 6 * (j - 4) + (5 - u) = 6 * j + 5 - u - 24 := by omega
    have hlen : ((pc2D.drop (6 * (j - 4))).take 6).length = 6 := by
      interval_cases j <;> rfl
    rw [pc2Byte_bit hw d hlen hu, hentry, hidx]

/-- **One round of the schedules.** -/
theorem sameKey_row (hw : 32 ≤ w) {c d : BitVec w} {C D : BitVec 32} (hc : Lifted c C)
    (hd : Lifted d D) :
    SameKey (roundKeys (permutedChoice2 c d) : RoundKeys w) (StandardDes.keyRow C D) := by
  -- the tables of the two schedules count the bits from different ends
  have htabC : ∀ J < 24, StandardDes.keyCompression.getD J 0 < 28 ∧
      pc2C.getD J 0 + StandardDes.keyCompression.getD J 0 = 27 := by decide
  have htabD : ∀ J < 48, 24 ≤ J → 28 ≤ StandardDes.keyCompression.getD J 0 ∧
      pc2D.getD (J - 24) 0 + StandardDes.keyCompression.getD J 0 = 55 := by decide
  intro j hj u hu
  have hJ : 6 * j + 5 - u < 48 := by omega
  rw [boxKey_roundKeys hw _ hj hu, permutedChoice2_bit hw c d hj hu, StandardDes.keyRow_bit C D hJ]
  by_cases hhalf : j < 4
  · have hJhalf : 6 * j + 5 - u < 24 := by omega
    obtain ⟨hlt, hsum⟩ := htabC _ hJhalf
    have hidx : 31 - StandardDes.keyCompression.getD (6 * j + 5 - u) 0 =
        pc2C.getD (6 * j + 5 - u) 0 + 4 := by omega
    rw [if_pos hhalf, if_pos hJhalf, hidx, hc.bits _ (by omega)]
  · have hJhalf : ¬6 * j + 5 - u < 24 := by omega
    obtain ⟨hge, hsum⟩ := htabD _ hJ (by omega)
    have hidx : 31 - (StandardDes.keyCompression.getD (6 * j + 5 - u) 0 - 28) =
        pc2D.getD (6 * j + 5 - u - 24) 0 + 4 := by omega
    rw [if_neg hhalf, if_neg hJhalf, hidx, hd.bits _ (by omega)]

/-- **The schedules.**  From halves that hold the same bits on, the rounds of the two schedules
    hold the same bits. -/
theorem keyLoop_rows (hw : 32 ≤ w) {ns : List ℕ} (hns : ∀ n ∈ ns, n ≤ 28) {c d : BitVec w}
    {C D : BitVec 32} (hc : Lifted c C) (hd : Lifted d D) :
    List.Forall₂ SameKey (keyLoop ns c d) (StandardDes.keyRows ns C D) := by
  -- the halves stay `Lifted` through the rotations, which carries the induction
  induction ns generalizing c d C D with
  | nil => exact .nil
  | cons n ns ih =>
    have hn := hns n List.mem_cons_self
    have hc' := hc.rotate hw hn
    have hd' := hd.rotate hw hn
    have hns' : ∀ m ∈ ns, m ≤ 28 := fun m hm => hns m (List.mem_cons_of_mem n hm)
    exact .cons (sameKey_row hw hc' hd') (ih hns' hc' hd')

/-- The bit of `c` and `d` that an entry `p` of `pc1` stands for. -/
def slot (cd : BitVec w × BitVec w) (p : ℕ) : Bool :=
  if p ≥ 28 then cd.1.getLsbD (p - 28) else cd.2.getLsbD p

/-- One pass of the inner loop of PC-1, bit by bit. -/
theorem slot_set (hw : 32 ≤ w) (cd : BitVec w × BitVec w) (p : ℕ) {q : ℕ} (hq : q < 56) :
    slot (if p ≥ 28 then (cd.1 ||| (1 : BitVec w) <<< (p - 28), cd.2)
      else (cd.1, cd.2 ||| (1 : BitVec w) <<< p)) q = (slot cd q || p == q) := by
  -- setting bit `i` of a half changes that bit only
  have hone (x : BitVec w) (i : ℕ) {k : ℕ} (hk : k < 28) :
      (x ||| (1 : BitVec w) <<< i).getLsbD k = (x.getLsbD k || i == k) := by
    have hkw : k < w := by omega
    have hpos : 0 < w := by omega
    rw [BitVec.getLsbD_or, BitVec.getLsbD_shiftLeft, BitVec.ofNat_eq_ofNat, BitVec.getLsbD_one,
      decide_eq_true hkw, decide_eq_true hpos, Bool.true_and, Bool.true_and]
    congr 1
    rw [Bool.eq_iff_iff, Bool.and_eq_true, Bool.not_eq_true', decide_eq_false_iff_not,
      decide_eq_true_iff, beq_iff_eq]
    omega
  unfold slot
  -- the entry and the bit may be in different halves, and then neither sees the other
  by_cases hp : p ≥ 28 <;> by_cases hq28 : q ≥ 28
  · have hidx : (p - 28 == q - 28) = (p == q) := by
      rw [Bool.eq_iff_iff, beq_iff_eq, beq_iff_eq]
      omega
    rw [if_pos hp, if_pos hq28, if_pos hq28, hone _ _ (by omega), hidx]
  · have hne : p ≠ q := by omega
    rw [if_pos hp, if_neg hq28, if_neg hq28, beq_eq_false_iff_ne.2 hne, Bool.or_false]
  · have hne : p ≠ q := by omega
    rw [if_neg hp, if_pos hq28, if_pos hq28, beq_eq_false_iff_ne.2 hne, Bool.or_false]
  · rw [if_neg hp, if_neg hq28, if_neg hq28, hone _ _ (by omega)]

/-- The inner loop of PC-1, bit by bit: the entry `t` stands for bit `t` of the byte, from the
    left. -/
theorem slot_pc1Byte (hw : 32 ≤ w) {ps : List ℕ} (hps : ps.length ≤ 8) (b : BitVec 8)
    (cd : BitVec w × BitVec w) {q : ℕ} (hq : q < 56) :
    slot (pc1Byte ps b cd) q =
      (slot cd q || ps.zipIdx.any fun x => x.1 == q && b.getLsbD (7 - x.2)) := by
  have hmask (k : ℕ) : (0x80 : BitVec 8).getLsbD k = (k == 7) :=
    getLsbD_of_eq_twoPow 7 rfl (by decide) k
  induction ps generalizing b cd with
  | nil => simp [pc1Byte]
  | cons p ps ih =>
    rw [List.length_cons] at hps
    -- the byte is shifted left at each entry, so its top bit is the one that is tested
    have hset : slot (if b &&& 0x80 != 0 then
        if p ≥ 28 then (cd.1 ||| (1 : BitVec w) <<< (p - 28), cd.2)
        else (cd.1, cd.2 ||| (1 : BitVec w) <<< p)
        else (cd.1, cd.2)) q = (slot cd q || (p == q && b.getLsbD 7)) := by
      rw [and_bne_zero hmask]
      cases b.getLsbD 7 with
      | true => rw [if_pos rfl, slot_set hw cd p hq, Bool.and_true]
      | false => rw [if_neg Bool.false_ne_true, Bool.and_false, Bool.or_false]
    -- bit `7 - t` of the shifted byte is bit `7 - (t + 1)` of the byte
    have hrest : (ps.zipIdx.any fun x => x.1 == q && (b <<< 1).getLsbD (7 - x.2)) =
        ps.zipIdx.any ((fun x => x.1 == q && b.getLsbD (7 - x.2)) ∘ Prod.map id (· + 1)) := by
      rw [Bool.eq_iff_iff, List.any_eq_true, List.any_eq_true]
      refine exists_congr fun x => and_congr_right fun hx => ?_
      have hlt : x.2 < ps.length := (List.mem_zipIdx' hx).1
      have hidx : 7 - x.2 - 1 = 7 - (x.2 + 1) := by omega
      have hlow : ¬7 - x.2 < 1 := by omega
      have hbyte : 7 - x.2 < 8 := by omega
      rw [BitVec.getLsbD_shiftLeft, decide_eq_true hbyte, decide_eq_false hlow, hidx,
        Bool.not_false, Bool.true_and, Bool.true_and]
      rfl
    rw [pc1Byte, ih (by omega), hset, hrest, List.zipIdx_cons', List.any_cons, List.any_map,
      Bool.or_assoc]
    rfl

/-- The bits that the loop over the bytes of the key has set. -/
theorem slot_foldl_pc1Byte (hw : 32 ≤ w) (key : ℕ → UInt8) (is : List ℕ)
    (cd : BitVec w × BitVec w) {q : ℕ} (hq : q < 56) :
    slot (is.foldl (fun cd i => pc1Byte ((pc1.drop (7 * i)).take 7) (key i).toBitVec cd) cd) q =
      (slot cd q || is.any fun i => ((pc1.drop (7 * i)).take 7).zipIdx.any fun x =>
        x.1 == q && (key i).toBitVec.getLsbD (7 - x.2)) := by
  induction is generalizing cd with
  | nil => simp
  | cons i is ih =>
    have hlen : ((pc1.drop (7 * i)).take 7).length ≤ 8 := by
      rw [List.length_take]
      omega
    rw [List.foldl_cons, ih, slot_pc1Byte hw hlen _ _ hq, List.any_cons, Bool.or_assoc]

/-- The entries of `pc1`, each behind the byte and the bit of the key that it is for. -/
def pc1Wires : List ((ℕ × ℕ) × ℕ) :=
  (List.range 8).flatMap fun i => ((pc1.drop (7 * i)).take 7).zipIdx.map fun x => ((i, x.2), x.1)

/-- **PC-1**, bit by bit, through the tables of the other schedule. -/
theorem permutedChoice1_slot (hw : 32 ≤ w) (key : ℕ → UInt8) {q : ℕ} (hq : q < 56) :
    slot (permutedChoice1 key : BitVec w × BitVec w) q = StandardDes.bitAt key
      (if q ≥ 28 then StandardDes.keyPermC.getD (55 - q) 0
        else StandardDes.keyPermD.getD (27 - q) 0) := by
  set src := fun q => if q ≥ 28 then StandardDes.keyPermC.getD (55 - q) 0
    else StandardDes.keyPermD.getD (27 - q) 0 with hsrc
  have hroutes : Routes pc1Wires (fun q => (src q / 8, src q % 8)) 56 := by decide +kernel
  have hany := hroutes.any_eq (fun p => (key p.1).toBitVec.getLsbD (7 - p.2)) hq
  have hzero : slot ((0, 0) : BitVec w × BitVec w) q = false := by
    simp [slot]
  rw [pc1Wires, List.any_flatMap] at hany
  simp only [List.any_map] at hany
  rw [permutedChoice1, slot_foldl_pc1Byte hw key _ _ hq, hzero, Bool.false_or]
  exact hany

/-- One byte of the key sets bits of the two halves alone. -/
theorem pc1Byte_fits {ps : List ℕ} (hps : ∀ p ∈ ps, p < 56) (b : BitVec 8)
    {cd : BitVec w × BitVec w} (h : Fits 28 cd.1 ∧ Fits 28 cd.2) :
    Fits 28 (pc1Byte ps b cd).1 ∧ Fits 28 (pc1Byte ps b cd).2 := by
  -- a bit set below 28 stays below 28
  have hset {x : BitVec w} (hx : Fits 28 x) {i : ℕ} (hi : i < 28) :
      Fits 28 (x ||| (1 : BitVec w) <<< i) := by
    intro k hk
    have hne : k - i ≠ 0 := by omega
    rw [BitVec.getLsbD_or, hx k hk, BitVec.getLsbD_shiftLeft, BitVec.ofNat_eq_ofNat,
      BitVec.getLsbD_one, decide_eq_false hne]
    simp
  induction ps generalizing b cd with
  | nil => exact h
  | cons p ps ih =>
    have hp : p < 56 := hps p List.mem_cons_self
    rw [pc1Byte]
    apply ih fun q hq => hps q (List.mem_cons_of_mem p hq)
    split
    · split
      · exact ⟨hset h.1 (by omega), h.2⟩
      · exact ⟨h.1, hset h.2 (by omega)⟩
    · exact h

/-- Both halves have 28 bits. -/
theorem permutedChoice1_fits (key : ℕ → UInt8) :
    Fits 28 (permutedChoice1 key : BitVec w × BitVec w).1 ∧
      Fits 28 (permutedChoice1 key : BitVec w × BitVec w).2 := by
  have hpc1 : ∀ p ∈ pc1, p < 56 := by decide
  have hentry (i p : ℕ) (hp : p ∈ (pc1.drop (7 * i)).take 7) : p < 56 := by
    have hmem : p ∈ pc1 := List.mem_of_mem_drop (List.mem_of_mem_take hp)
    exact hpc1 p hmem
  refine List.foldlRecOn (motive := fun cd : BitVec w × BitVec w => Fits 28 cd.1 ∧ Fits 28 cd.2)
    _ _ ⟨fun k _ => BitVec.getLsbD_zero, fun k _ => BitVec.getLsbD_zero⟩ ?_
  intro cd hcd i _
  exact pc1Byte_fits (hentry i) _ hcd

/-- **The start of the schedules.** -/
theorem lifted_permutedChoice1 (hw : 32 ≤ w) (key : ℕ → UInt8) :
    Lifted (permutedChoice1 key : BitVec w × BitVec w).1
        (StandardDes.keyPerm StandardDes.keyPermC key) ∧
      Lifted (permutedChoice1 key : BitVec w × BitVec w).2
        (StandardDes.keyPerm StandardDes.keyPermD key) := by
  obtain ⟨hc, hd⟩ := permutedChoice1_fits (w := w) key
  refine ⟨⟨hc, ?_, fun k hk => StandardDes.keyPerm_low _ key hk⟩,
    ⟨hd, ?_, fun k hk => StandardDes.keyPerm_low _ key hk⟩⟩
  · intro k hk
    have hslot := permutedChoice1_slot hw key (by omega : k + 28 < 56)
    have hge : k + 28 ≥ 28 := by omega
    have hidx : 55 - (k + 28) = 27 - k := by omega
    rw [slot, if_pos hge, if_pos hge, Nat.add_sub_cancel, hidx] at hslot
    rw [StandardDes.keyPerm_bit _ key hk, hslot]
  · intro k hk
    have hslot := permutedChoice1_slot hw key (by omega : k < 56)
    have hlt : ¬k ≥ 28 := by omega
    rw [slot, if_neg hlt, if_neg hlt] at hslot
    rw [StandardDes.keyPerm_bit _ key hk, hslot]

/-! ### One block -/

/-- The two initial permutations are one. -/
theorem initialTranspose_eq_ip (s : ℕ → UInt8) : initialTranspose s = StandardDes.ip s := by
  have hbit (i : ℕ) {n : ℕ} (hn : n < 8) :
      StandardDes.bitAt s (8 * i + (7 - n)) = (s i).toBitVec.getLsbD n := by
    have hdiv : (8 * i + (7 - n)) / 8 = i := by omega
    have hmod : 7 - (8 * i + (7 - n)) % 8 = n := by omega
    rw [StandardDes.bitAt, hdiv, hmod]
  ext1 <;> apply BitVec.eq_of_getLsbD_eq <;> intro k hk
  · rw [(initialTranspose_bit le_rfl s k).1, (StandardDes.ip_bit s hk).1, hbit _ (by omega),
      decide_eq_true hk, Bool.true_and]
  · have hodd : 6 - 2 * (k / 8) = 7 - (2 * (k / 8) + 1) := by omega
    rw [(initialTranspose_bit le_rfl s k).2, (StandardDes.ip_bit s hk).2, hodd, hbit _ (by omega),
      decide_eq_true hk, Bool.true_and]

/-- The two final permutations are one, on halves that one implementation swaps and the other
    does not. -/
theorem finalTranspose_eq_invIp (lr : BitVec 32 × BitVec 32) :
    finalTranspose lr = StandardDes.invIp lr.swap := by
  obtain ⟨l, r⟩ := lr
  apply List.ext_getElem ((finalTranspose_length _).trans (StandardDes.invIp_length _).symm)
  intro i hi _
  rw [finalTranspose_length] at hi
  rw [← List.getD_eq_getElem _ 0, ← List.getD_eq_getElem _ 0]
  apply UInt8.toBitVec_inj.1
  apply BitVec.eq_of_getLsbD_eq
  intro m hm
  rw [finalTranspose_bit le_rfl l r hi hm, StandardDes.invIp_bit _ hi hm]
  rfl

/-- The bit-by-bit cipher is a Feistel network too. -/
theorem standardDes_desCrypt_eq (s : ℕ → UInt8) {key : List (List (BitVec 8))}
    (hkey : key.length = 16) : StandardDes.desCrypt s key =
      StandardDes.invIp (Feistel.network (· ^^^ ·) StandardDes.f key (StandardDes.ip s)).swap := by
  have hround : StandardDes.desRound = Feistel.round (· ^^^ ·) StandardDes.f := by
    funext state row
    rw [StandardDes.desRound, Feistel.round, BitVec.xor_comm]
  have hsplit : key = key.take 15 ++ [key.getD 15 []] := by
    rw [List.getD_eq_getElem _ _ (by omega)]
    conv_lhs => rw [← List.take_append_drop 15 key, List.drop_eq_getElem_cons (by omega),
      List.drop_eq_nil_of_le (by omega)]
  conv_rhs => rw [hsplit, Feistel.network_append]
  rw [StandardDes.desCrypt, hround, Feistel.network_cons, Feistel.network_nil, Feistel.round,
    Prod.swap_prod_mk, BitVec.xor_comm]
  rfl

/-- **Agreement.**  On every key and every block, `des_setkey` and `des_crypt` of the table-driven
    implementation store what `des_key_setup` and `des_crypt` of the bit-by-bit one do. -/
theorem desBytes_eq_standard (key s : ℕ → UInt8) (flag : Int32) :
    desBytes (desSetkey 32 key) s flag = StandardDes.desCrypt s
      (StandardDes.desKeySetup key (if flag = 0 then .encrypt else .decrypt)) := by
  have hshifts : ∀ n ∈ nshifts, n ≤ 28 := by decide
  obtain ⟨hC, hD⟩ := lifted_permutedChoice1 le_rfl key
  have hrows : List.Forall₂ SameKey (desSetkey 32 key) (StandardDes.desKeySetup key .encrypt) :=
    keyLoop_rows le_rfl hshifts hC hD
  -- to decrypt, both take the rounds in the reverse order
  have horder : List.Forall₂ SameKey (roundOrder flag (desSetkey 32 key))
      (StandardDes.desKeySetup key (if flag = 0 then .encrypt else .decrypt)) := by
    unfold roundOrder
    split
    · exact hrows
    · exact List.rel_reverse hrows
  have hlen : (StandardDes.desKeySetup key
      (if flag = 0 then .encrypt else .decrypt)).length = 16 := by
    split <;> rfl
  have hround : ∀ x (k : RoundKeys 32) row, SameKey k row → roundValue x k = StandardDes.f x row :=
    fun x _ _ h => roundValue_eq_f x h
  rw [desBytes_eq, initialTranspose_eq_ip, finalTranspose_eq_invIp,
    Feistel.network_congr hround horder, standardDes_desCrypt_eq s hlen]

end LeoNet
