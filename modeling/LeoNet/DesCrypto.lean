import LeoNet.DesTables
import LeoNet.Lib.Bits
import LeoNet.Lib.Feistel
import LeoNet.Lib.Memory
import Mathlib.Data.List.GetD

namespace LeoNet

open Memory Bits

/-!
# `leo_des_crypto.c` — table-driven DES

`w` is the width of `unsigned long`, from `32` bits on.  The rotations of the source are written
for `32` bits; what a wider word keeps above them is part of the model.  Arguments and tables are
as in the source; `keys` is what `des_setkey` leaves in the global array.

* `initialTranspose_bit` / `finalTranspose_bit` — where the two transposes put each bit;
* `desRound_eq` — a round is a round of a Feistel network, and hence `desBytes_inverse`;
* `ecbLoop_spec` — the loop over a buffer crypts each block and nothing else, and hence
  `ecbCrypt_inverse`.
-/

variable {w : ℕ}

/-! ### The key schedule -/

/-- The subkeys of one round, `keys[i]`. -/
abbrev RoundKeys (w : ℕ) := BitVec w × BitVec w

/-- `nshifts`. -/
def nshifts : List ℕ := [1, 1, 2, 2, 2, 2, 2, 2, 1, 2, 2, 2, 2, 2, 2, 1]

/-- `pc1`, with `C` for `28` and `D` for `0`. -/
def pc1 : List ℕ :=
  let C := 28
  let D := 0
  [C + 20, C + 12, C + 4, D + 0, D + 4, D + 12, D + 20,
   C + 21, C + 13, C + 5, D + 1, D + 5, D + 13, D + 21,
   C + 22, C + 14, C + 6, D + 2, D + 6, D + 14, D + 22,
   C + 23, C + 15, C + 7, D + 3, D + 7, D + 15, D + 23,
   C + 24, C + 16, C + 8, C + 0, D + 8, D + 16, D + 24,
   C + 25, C + 17, C + 9, C + 1, D + 9, D + 17, D + 25,
   C + 26, C + 18, C + 10, C + 2, D + 10, D + 18, D + 26,
   C + 27, C + 19, C + 11, C + 3, D + 11, D + 19, D + 27]

/-- `pc2_c`. -/
def pc2C : List ℕ :=
  [14, 11, 17, 4, 27, 23,
   25, 0, 13, 22, 7, 18,
   5, 9, 16, 24, 2, 20,
   12, 21, 1, 8, 15, 26]

/-- `pc2_d`. -/
def pc2D : List ℕ :=
  [15, 4, 25, 19, 9, 1,
   26, 16, 5, 11, 23, 8,
   12, 7, 17, 0, 22, 3,
   10, 14, 6, 20, 27, 24]

/-- The inner loop of PC-1, over the entries of `pc1` for one byte of the key; `b` is what the
    shifts have left of it. -/
def pc1Byte : List ℕ → BitVec 8 → BitVec w × BitVec w → BitVec w × BitVec w
  | [], _, cd => cd
  | p :: ps, b, (c, d) =>
    pc1Byte ps (b <<< 1) <|
      if b &&& 0x80 != 0 then
        if p ≥ 28 then (c ||| (1 : BitVec w) <<< (p - 28), d)
        else (c, d ||| (1 : BitVec w) <<< p)
      else (c, d)

/-- PC-1: `c` and `d` after it. -/
def permutedChoice1 (key : ℕ → UInt8) : BitVec w × BitVec w :=
  (List.range 8).foldl (fun cd i => pc1Byte ((pc1.drop (7 * i)).take 7) (key i).toBitVec cd) (0, 0)

/-- The inner loop of PC-2, over the entries of `pc2_c` or `pc2_d` for one of the bytes `w[..]`. -/
def pc2Byte (c : BitVec w) : List ℕ → BitVec 8 → BitVec 8 → BitVec 8
  | [], _, k => k
  | p :: ps, mask, k =>
    pc2Byte c ps (mask >>> 1) (if (c >>> p) &&& 1 != 0 then k ||| mask else k)

/-- PC-2: `w[j]` of the round with `c` and `d`. -/
def permutedChoice2 (c d : BitVec w) (j : ℕ) : BitVec 8 :=
  if j < 4 then pc2Byte c ((pc2C.drop (6 * j)).take 6) 0x20 0
  else pc2Byte d ((pc2D.drop (6 * (j - 4))).take 6) 0x20 0

/-- `keys[i]`, from the bytes `w[..]` of the round. -/
def roundKeys (k : ℕ → BitVec 8) : RoundKeys w :=
  ((k 0).setWidth w <<< 24 ||| (k 2).setWidth w <<< 16 ||| (k 4).setWidth w <<< 8 |||
      (k 6).setWidth w,
    (k 1).setWidth w <<< 24 ||| (k 3).setWidth w <<< 16 ||| (k 5).setWidth w <<< 8 |||
      (k 7).setWidth w)

/-- The rotation of `c` or `d` by `n`. -/
def rotate28 (c : BitVec w) (n : ℕ) : BitVec w := (c <<< n ||| c >>> (28 - n)) &&& 0x0fffffff

/-- The loop over the rounds. -/
def keyLoop : List ℕ → BitVec w → BitVec w → List (RoundKeys w)
  | [], _, _ => []
  | n :: ns, c, d =>
    let c := rotate28 c n
    let d := rotate28 d n
    roundKeys (permutedChoice2 c d) :: keyLoop ns c d

/-- `keys` after `des_setkey(key)`. -/
def desSetkey (w : ℕ) (key : ℕ → UInt8) : List (RoundKeys w) :=
  let cd := permutedChoice1 key
  keyLoop nshifts cd.1 cd.2

/-! ### One block -/

/-- `ror4(x)`. -/
def ror4 (x : BitVec w) : BitVec w := x >>> 4 ||| x <<< 28

/-- `rol1(x)`. -/
def rol1 (x : BitVec w) : BitVec w := x <<< 1 ||| x >>> 31

/-- `ps(i, j)`. -/
def ps (i : ℕ) (j : BitVec w) : BitVec w :=
  BitVec.ofNat w ((psboxes.getD i []).getD j.toNat 0)

/-- One round: `(l, r)` after it. -/
def desRound (lr : BitVec w × BitVec w) (k : RoundKeys w) : BitVec w × BitVec w :=
  let (l, r) := lr
  let x1 := rol1 r
  let x2 := ror4 x1 ^^^ k.1
  let x1 := x1 ^^^ k.2
  let v := l ^^^ ps 7 (x1 &&& 0x3f)
    ^^^ ps 5 ((x1 >>> 8) &&& 0x3f)
    ^^^ ps 3 ((x1 >>> 16) &&& 0x3f)
    ^^^ ps 1 ((x1 >>> 24) &&& 0x3f)
    ^^^ ps 6 (x2 &&& 0x3f)
    ^^^ ps 4 ((x2 >>> 8) &&& 0x3f)
    ^^^ ps 2 ((x2 >>> 16) &&& 0x3f)
    ^^^ ps 0 ((x2 >>> 24) &&& 0x3f)
  (r, v)

/-- The nested shifts of a transpose through the table `tbl`, over its bytes in order. -/
def transpose (w : ℕ) (tbl : List ℕ) (bytes : List (BitVec 8)) : BitVec w :=
  bytes.foldl (fun acc b => acc >>> 1 ||| BitVec.ofNat w (tbl.getD b.toNat 0)) 0

/-- The initial transpose: `l` and `r`. -/
def initialTranspose (s : ℕ → UInt8) : BitVec w × BitVec w :=
  let bytes := (List.range 8).map fun i => (s i).toBitVec
  (transpose w ipL bytes, transpose w ipR bytes)

/-- `(char)(x >> n)`. -/
def byteAt (x : BitVec w) (n : ℕ) : UInt8 := ⟨(x >>> n).setWidth 8⟩

/-- `r&0xff`, `l&0xff`, `r>>8&0xff` and so on: the indices of the final transpose. -/
def halfBytes (l r : BitVec w) : List (BitVec 8) :=
  [r.setWidth 8, l.setWidth 8, (r >>> 8).setWidth 8, (l >>> 8).setWidth 8,
    (r >>> 16).setWidth 8, (l >>> 16).setWidth 8, (r >>> 24).setWidth 8, (l >>> 24).setWidth 8]

/-- The final transpose: the bytes stored to the block. -/
def finalTranspose (lr : BitVec w × BitVec w) : List UInt8 :=
  let l2 := transpose w ipInvL (halfBytes lr.1 lr.2)
  let r2 := transpose w ipInvR (halfBytes lr.1 lr.2)
  [byteAt l2 24, byteAt l2 16, byteAt l2 8, byteAt l2 0,
    byteAt r2 24, byteAt r2 16, byteAt r2 8, byteAt r2 0]

/-- The bytes that `des_crypt(block, flag)` stores, for a block that holds `s`. -/
def desBytes (keys : List (RoundKeys w)) (s : ℕ → UInt8) (flag : Int32) : List UInt8 :=
  finalTranspose ((if flag = 0 then keys else keys.reverse).foldl desRound (initialTranspose s))

/-- `des_crypt(block, flag)`. -/
def desCrypt (keys : List (RoundKeys w)) (b : Block UInt8) (block : ℕ) (flag : Int32) :
    Option (Block UInt8) :=
  (b.read block 8).bind fun s => b.write block (desBytes keys (fun i => s.getD i 0) flag)

/-! ### Buffers -/

/-- `DES_DIRMASK`. -/
def DES_DIRMASK : UInt32 := 1

/-- `DES_ENCRYPT`. -/
def DES_ENCRYPT : UInt32 := 0 * DES_DIRMASK

/-- `DES_DECRYPT`. -/
def DES_DECRYPT : UInt32 := 1 * DES_DIRMASK

/-- `DES_DEVMASK`. -/
def DES_DEVMASK : UInt32 := 2

/-- `DES_SW`. -/
def DES_SW : UInt32 := 1 * DES_DEVMASK

/-- `DESERR_NONE`. -/
def DESERR_NONE : Int32 := 0

/-- `DESERR_NOHWDEVICE`. -/
def DESERR_NOHWDEVICE : Int32 := 1

/-- `(len + 7) & ~7`. -/
def roundUp (len : UInt32) : UInt32 := (len + 7) &&& ~~~7

/-- The loop of `ecb_crypt`, with `n` blocks to go. -/
def ecbLoop (keys : List (RoundKeys w)) (flag : Int32) : ℕ → ℕ → Block UInt8 →
    Option (Block UInt8)
  | 0, _, b => some b
  | n + 1, buf, b => (desCrypt keys b buf flag).bind (ecbLoop keys flag n (buf + 8))

/-- What `ecb_crypt` and `cbc_crypt` return for `mode`. -/
def desError (mode : UInt32) : Int32 :=
  if mode &&& DES_DEVMASK = DES_SW then DESERR_NONE else DESERR_NOHWDEVICE

/-- `ecb_crypt(key, buf, len, mode)`: what it returns, and the buffer. -/
def ecbCrypt (w : ℕ) (key : ℕ → UInt8) (b : Block UInt8) (buf : ℕ) (len mode : UInt32) :
    Option (Int32 × Block UInt8) :=
  let keys := desSetkey w key
  (ecbLoop keys (mode &&& DES_DIRMASK).toInt32 ((roundUp len).toNat / 8) buf b).map fun b =>
    (desError mode, b)

/-! ### The transposes -/

/-- A bit of an entry of a table that spreads its index. -/
theorem getLsbD_spread (hw : 32 ≤ w) (σ : ℕ → ℕ) (b : BitVec 8) (k : ℕ) :
    (BitVec.ofNat w (((List.range 256).map (spread σ)).getD b.toNat 0)).getLsbD k =
      (decide (k < 32 ∧ k % 8 = 7) && b.getLsbD (σ (k / 8))) := by
  have hget : ((List.range 256).map (spread σ)).getD b.toNat 0 = spread σ b.toNat := by
    rw [List.getD_eq_getElem?_getD, List.getElem?_map, List.getElem?_range b.isLt]
    rfl
  rw [hget, BitVec.getLsbD_ofNat]
  rcases Nat.lt_or_ge k 32 with hk | hk
  · have hkw : k < w := by omega
    simp [testBit_spread σ _ hk, hk, hkw, BitVec.getLsbD, beq_eq_decide]
  · have hhigh : (spread σ b.toNat).testBit k = false :=
      Nat.testBit_lt_two_pow (Nat.lt_of_lt_of_le (spread_lt σ _)
        (Nat.pow_le_pow_right (by decide) hk))
    have hout : ¬(k < 32 ∧ k % 8 = 7) := by omega
    rw [hhigh, decide_eq_false hout, Bool.and_false, Bool.false_and]

/-- A table that spreads its index, followed through the nested shifts: bit `k` comes from the
    byte `k % 8` of the last eight. -/
theorem getLsbD_transpose (hw : 32 ≤ w) (σ : ℕ → ℕ) (bytes : List (BitVec 8))
    (hlen : bytes.length ≤ 8) (k : ℕ) :
    (transpose w ((List.range 256).map (spread σ)) bytes).getLsbD k =
      (decide (k < 32 ∧ 8 ≤ k % 8 + bytes.length) &&
        (bytes.getD (k % 8 + bytes.length - 8) 0).getLsbD (σ (k / 8))) := by
  induction bytes using List.reverseRecOn generalizing k with
  | nil =>
    have hout : ¬(k < 32 ∧ 8 ≤ k % 8 + ([] : List (BitVec 8)).length) := by
      rw [List.length_nil]
      omega
    rw [decide_eq_false hout, Bool.false_and, transpose, List.foldl_nil, BitVec.ofNat_eq_ofNat,
      BitVec.getLsbD_zero]
  | append_singleton bs b ih =>
    rw [List.length_append, List.length_singleton] at hlen ⊢
    rw [transpose, List.foldl_append, List.foldl_cons, List.foldl_nil, ← transpose,
      BitVec.getLsbD_or, BitVec.getLsbD_ushiftRight, ih (by omega), getLsbD_spread hw]
    rcases Nat.lt_or_ge (k % 8) 7 with hk | hk
    -- an earlier byte: the shift moved its bit down from `k + 1`
    · have hmod : (1 + k) % 8 = k % 8 + 1 := by omega
      have hdiv : (1 + k) / 8 = k / 8 := by omega
      have hidx : k % 8 + 1 + bs.length = k % 8 + (bs.length + 1) := by omega
      have hlt : (1 + k < 32 ∧ 8 ≤ k % 8 + (bs.length + 1)) ↔
          (k < 32 ∧ 8 ≤ k % 8 + (bs.length + 1)) := by omega
      have hne : ¬(k < 32 ∧ k % 8 = 7) := by omega
      rw [hmod, hdiv, hidx, decide_eq_false hne, Bool.false_and, Bool.or_false,
        decide_eq_decide.2 hlt]
      by_cases hin : k < 32 ∧ 8 ≤ k % 8 + (bs.length + 1)
      · rw [List.getD_append _ _ _ _ (by omega)]
      · rw [decide_eq_false hin, Bool.false_and, Bool.false_and]
    -- the byte just met
    · have hmod : k % 8 = 7 := by omega
      have hold : ¬(1 + k < 32 ∧ 8 ≤ (1 + k) % 8 + bs.length) := by omega
      have hnew : (k < 32 ∧ k % 8 = 7) ↔ (k < 32 ∧ 8 ≤ k % 8 + (bs.length + 1)) := by omega
      have hidx : k % 8 + (bs.length + 1) - 8 = bs.length := by omega
      rw [decide_eq_false hold, Bool.false_and, Bool.false_or, decide_eq_decide.2 hnew, hidx,
        List.getD_eq_getElem?_getD, List.getElem?_concat_length, Option.getD_some]

/-- What a transpose makes of eight bytes. -/
theorem transpose_bit {tbl : List ℕ} {σ : ℕ → ℕ}
    (htbl : tbl = (List.range 256).map (spread σ)) (hw : 32 ≤ w) {bytes : List (BitVec 8)}
    (hlen : bytes.length = 8) (k : ℕ) :
    (transpose w tbl bytes).getLsbD k =
      (decide (k < 32) && (bytes.getD (k % 8) 0).getLsbD (σ (k / 8))) := by
  have hall : (k < 32 ∧ 8 ≤ k % 8 + 8) ↔ k < 32 := by omega
  rw [htbl, getLsbD_transpose hw σ bytes (by omega), hlen, Nat.add_sub_cancel,
    decide_eq_decide.2 hall]

/-- **Initial transpose.**  Bit `k` of `l` is an even bit of byte `k % 8` of the block, bit `k` of
    `r` the odd bit next to it. -/
theorem initialTranspose_bit (hw : 32 ≤ w) (s : ℕ → UInt8) (k : ℕ) :
    (initialTranspose s : BitVec w × BitVec w).1.getLsbD k =
        (decide (k < 32) && (s (k % 8)).toBitVec.getLsbD (2 * (k / 8))) ∧
      (initialTranspose s : BitVec w × BitVec w).2.getLsbD k =
        (decide (k < 32) && (s (k % 8)).toBitVec.getLsbD (2 * (k / 8) + 1)) := by
  have hlen : ((List.range 8).map fun i => (s i).toBitVec).length = 8 := by simp
  have hbyte : ((List.range 8).map fun i => (s i).toBitVec).getD (k % 8) 0 =
      (s (k % 8)).toBitVec := by
    rw [List.getD_eq_getElem?_getD, List.getElem?_map,
      List.getElem?_range (Nat.mod_lt _ (by decide))]
    rfl
  constructor
  · rw [initialTranspose, transpose_bit ipL_eq hw hlen, hbyte]
  · rw [initialTranspose, transpose_bit ipR_eq hw hlen, hbyte]

/-- Both halves have 32 bits. -/
theorem initialTranspose_fits (hw : 32 ≤ w) (s : ℕ → UInt8) :
    Fits 32 (initialTranspose s : BitVec w × BitVec w).1 ∧
      Fits 32 (initialTranspose s : BitVec w × BitVec w).2 := by
  constructor <;> intro k hk
  · rw [(initialTranspose_bit hw s k).1, decide_eq_false (by omega), Bool.false_and]
  · rw [(initialTranspose_bit hw s k).2, decide_eq_false (by omega), Bool.false_and]

@[simp] theorem finalTranspose_length (lr : BitVec w × BitVec w) :
    (finalTranspose lr).length = 8 := rfl

/-- The bits of a byte of a word. -/
theorem getLsbD_byteAt (x : BitVec w) (n : ℕ) {m : ℕ} (hm : m < 8) :
    (byteAt x n).toBitVec.getLsbD m = x.getLsbD (n + m) := by
  simp [byteAt, hm]

/-- The bits of the bytes that two halves are written as. -/
theorem getLsbD_halfBytes (l r : BitVec w) {m n : ℕ} (hm : m < 8) (hn : n < 8) :
    ((halfBytes l r).getD m 0).getLsbD n =
      (if m % 2 = 0 then r else l).getLsbD (8 * (m / 2) + n) := by
  unfold halfBytes
  interval_cases m <;> simp [hn]

/-- Byte `n` of a transposed word, from the low end. -/
theorem getLsbD_byteAt_transpose {tbl : List ℕ} {σ : ℕ → ℕ}
    (htbl : tbl = (List.range 256).map (spread σ)) (hw : 32 ≤ w) (l r : BitVec w) {m n : ℕ}
    (hm : m < 8) (hn : n < 4) (hσ : σ n < 8) :
    (byteAt (transpose w tbl (halfBytes l r)) (8 * n)).toBitVec.getLsbD m =
      (if m % 2 = 0 then r else l).getLsbD (8 * (m / 2) + σ n) := by
  have hmod : (8 * n + m) % 8 = m := by omega
  have hdiv : (8 * n + m) / 8 = n := by omega
  have hlt : 8 * n + m < 32 := by omega
  rw [getLsbD_byteAt _ _ hm, transpose_bit htbl hw rfl, decide_eq_true hlt, hmod, hdiv,
    getLsbD_halfBytes l r hm hσ, Bool.true_and]

/-- **Final transpose.**  The even bits of byte `i` are the bits `8 * m + i` of `r`, its odd bits
    those of `l`. -/
theorem finalTranspose_bit (hw : 32 ≤ w) (l r : BitVec w) {i m : ℕ} (hi : i < 8) (hm : m < 8) :
    ((finalTranspose (l, r)).getD i 0).toBitVec.getLsbD m =
      (if m % 2 = 0 then r else l).getLsbD (8 * (m / 2) + i) := by
  have hl2 {n : ℕ} (hn : n < 4) := getLsbD_byteAt_transpose ipInvL_eq hw l r hm hn (by omega)
  have hr2 {n : ℕ} (hn : n < 4) := getLsbD_byteAt_transpose ipInvR_eq hw l r hm hn (by omega)
  -- the bytes are stored from the high end of `l2` on, then those of `r2`
  interval_cases i
  · exact hl2 (n := 3) (by decide)
  · exact hl2 (n := 2) (by decide)
  · exact hl2 (n := 1) (by decide)
  · exact hl2 (n := 0) (by decide)
  · exact hr2 (n := 3) (by decide)
  · exact hr2 (n := 2) (by decide)
  · exact hr2 (n := 1) (by decide)
  · exact hr2 (n := 0) (by decide)

/-- The initial transpose of what the final one stores: the halves, swapped. -/
theorem initialTranspose_finalTranspose (hw : 32 ≤ w) {l r : BitVec w} (hl : Fits 32 l)
    (hr : Fits 32 r) :
    initialTranspose (fun i => (finalTranspose (l, r)).getD i 0) = (r, l) := by
  have hfits := initialTranspose_fits hw fun i => (finalTranspose (l, r)).getD i 0
  have hsplit (k : ℕ) : 8 * (k / 8) + k % 8 = k := Nat.div_add_mod k 8
  ext1
  · apply eq_of_bits hfits.1 hr
    intro k hk
    have heven : 2 * (k / 8) % 2 = 0 := by omega
    have hhalf : 2 * (k / 8) / 2 = k / 8 := by omega
    rw [(initialTranspose_bit hw _ k).1, finalTranspose_bit hw l r (Nat.mod_lt _ (by decide))
      (by omega), if_pos heven, hhalf, hsplit, decide_eq_true hk, Bool.true_and]
  · apply eq_of_bits hfits.2 hl
    intro k hk
    have hodd : ¬(2 * (k / 8) + 1) % 2 = 0 := by omega
    have hhalf : (2 * (k / 8) + 1) / 2 = k / 8 := by omega
    rw [(initialTranspose_bit hw _ k).2, finalTranspose_bit hw l r (Nat.mod_lt _ (by decide))
      (by omega), if_neg hodd, hhalf, hsplit, decide_eq_true hk, Bool.true_and]

/-- The final transpose of the swapped halves that the initial one makes: the block. -/
theorem finalTranspose_initialTranspose (hw : 32 ≤ w) (s : ℕ → UInt8) :
    finalTranspose (initialTranspose s : BitVec w × BitVec w).swap = (List.range 8).map s := by
  apply List.ext_getElem (by simp)
  intro i hi hi'
  rw [finalTranspose_length] at hi
  rw [List.getElem_map, List.getElem_range, ← List.getD_eq_getElem _ 0]
  apply UInt8.toBitVec_inj.1
  apply BitVec.eq_of_getLsbD_eq
  intro m hm
  -- bit `m` of byte `i` travels through place `8 * (m / 2) + i` of one half
  have hmod : (8 * (m / 2) + i) % 8 = i := by omega
  have hdiv : (8 * (m / 2) + i) / 8 = m / 2 := by omega
  have hlt : 8 * (m / 2) + i < 32 := by omega
  have hbit := initialTranspose_bit hw s (8 * (m / 2) + i)
  rw [hmod, hdiv, decide_eq_true hlt, Bool.true_and, Bool.true_and] at hbit
  change ((finalTranspose ((initialTranspose s).2, (initialTranspose s).1)).getD i
    0).toBitVec.getLsbD m = _
  rw [finalTranspose_bit hw _ _ hi hm]
  -- the even bits went to the one half, the odd bits to the other
  split
  case isTrue heven =>
    have hm2 : 2 * (m / 2) = m := by omega
    rw [hbit.1, hm2]
  case isFalse hodd =>
    have hm2 : 2 * (m / 2) + 1 = m := by omega
    rw [hbit.2, hm2]

/-! ### The rounds -/

/-- The value that a round mixes into the other half. -/
def roundValue (r : BitVec w) (k : RoundKeys w) : BitVec w :=
  let x1 := rol1 r ^^^ k.2
  let x2 := ror4 (rol1 r) ^^^ k.1
  ps 7 (x1 &&& 0x3f)
    ^^^ ps 5 ((x1 >>> 8) &&& 0x3f)
    ^^^ ps 3 ((x1 >>> 16) &&& 0x3f)
    ^^^ ps 1 ((x1 >>> 24) &&& 0x3f)
    ^^^ ps 6 (x2 &&& 0x3f)
    ^^^ ps 4 ((x2 >>> 8) &&& 0x3f)
    ^^^ ps 2 ((x2 >>> 16) &&& 0x3f)
    ^^^ ps 0 ((x2 >>> 24) &&& 0x3f)

/-- **Rounds.**  The rounds of `des_crypt` are those of a Feistel network. -/
theorem desRound_eq :
    (desRound : BitVec w × BitVec w → RoundKeys w → _) = Feistel.round (· ^^^ ·) roundValue := by
  funext lr k
  simp only [desRound, Feistel.round, roundValue, BitVec.xor_assoc]

/-- The words of `Psboxes` have `32` bits. -/
theorem psboxes_lt : ∀ box ∈ psboxes, ∀ x ∈ box, x < 4294967296 := by decide +kernel

/-- The entries of the tables have 32 bits. -/
theorem ps_fits (i : ℕ) (j : BitVec w) : Fits 32 (ps i j) :=
  fits_ofNat w (getD_getD_lt (by decide) psboxes_lt i j.toNat)

/-- The round value has 32 bits. -/
theorem roundValue_fits (r : BitVec w) (k : RoundKeys w) : Fits 32 (roundValue r k) := by
  unfold roundValue
  exact (((((((ps_fits _ _).xor (ps_fits _ _)).xor (ps_fits _ _)).xor (ps_fits _ _)).xor
    (ps_fits _ _)).xor (ps_fits _ _)).xor (ps_fits _ _)).xor (ps_fits _ _)

/-- The order in which `des_crypt` goes through the subkeys. -/
def roundOrder {α : Type*} (flag : Int32) (keys : List α) : List α :=
  if flag = 0 then keys else keys.reverse

/-- The other flag takes the keys in the reverse order. -/
theorem roundOrder_reverse {α : Type*} {flag flag' : Int32} (hflag : flag = 0 ↔ flag' ≠ 0)
    (keys : List α) : roundOrder flag' keys = (roundOrder flag keys).reverse := by
  unfold roundOrder
  by_cases h : flag = 0
  · rw [if_pos h, if_neg (hflag.1 h)]
  · rw [if_neg h, if_pos (not_not.1 fun h' => h (hflag.2 h')), List.reverse_reverse]

/-- The rounds are a Feistel network between two transpositions. -/
theorem desBytes_eq (keys : List (RoundKeys w)) (s : ℕ → UInt8) (flag : Int32) :
    desBytes keys s flag = finalTranspose
      (Feistel.network (· ^^^ ·) roundValue (roundOrder flag keys) (initialTranspose s)) := by
  rw [desBytes, desRound_eq]
  rfl

/-- What `des_crypt` stores depends on the eight bytes of the block alone. -/
theorem desBytes_congr {s s' : ℕ → UInt8} (h : ∀ i < 8, s i = s' i) (keys : List (RoundKeys w))
    (flag : Int32) : desBytes keys s flag = desBytes keys s' flag := by
  have hmap : ((List.range 8).map fun i => (s i).toBitVec) =
      (List.range 8).map fun i => (s' i).toBitVec := by
    apply List.map_congr_left
    intro i hi
    rw [h i (List.mem_range.1 hi)]
  simp only [desBytes, initialTranspose, hmap]

/-- **One block.**  The bytes that `des_crypt` stores, put through it in the other direction, are
    the bytes of the block. -/
theorem desBytes_inverse (hw : 32 ≤ w) (keys : List (RoundKeys w)) (s : ℕ → UInt8)
    {flag flag' : Int32} (hflag : flag = 0 ↔ flag' ≠ 0) :
    desBytes keys (fun i => (desBytes keys s flag).getD i 0) flag' = (List.range 8).map s := by
  set order := roundOrder flag keys
  set lr := Feistel.network (· ^^^ ·) roundValue order (initialTranspose s) with hlr
  have hfits : Fits 32 lr.1 ∧ Fits 32 lr.2 :=
    Feistel.network_inv (fun _ y k hx _ => hx.xor (roundValue_fits y k)) order
      (initialTranspose_fits hw s)
  have hundo : Feistel.network (· ^^^ ·) roundValue order.reverse lr.swap =
      (initialTranspose s).swap :=
    Feistel.network_reverse
      (fun x y => by rw [BitVec.xor_assoc, BitVec.xor_self, BitVec.xor_zero]) order _
  rw [desBytes_eq keys s, desBytes_eq, roundOrder_reverse hflag]
  change finalTranspose (Feistel.network _ _ order.reverse
    (initialTranspose fun i => (finalTranspose (lr.1, lr.2)).getD i 0)) = _
  rw [initialTranspose_finalTranspose hw hfits.1 hfits.2]
  change finalTranspose (Feistel.network _ _ order.reverse lr.swap) = _
  rw [hundo, finalTranspose_initialTranspose hw]

/-! ### Buffers of whole blocks -/

@[simp] theorem desBytes_length (keys : List (RoundKeys w)) (s : ℕ → UInt8) (flag : Int32) :
    (desBytes keys s flag).length = 8 := rfl

/-- `des_crypt` on a block that lies inside the buffer. -/
theorem desCrypt_eq_some {b : Block UInt8} {block : ℕ} (h : block + 8 ≤ b.size)
    (keys : List (RoundKeys w)) (flag : Int32) :
    desCrypt keys b block flag = some { b with
      byte := store b.byte block (desBytes keys (fun i => b.byte (block + i)) flag) } := by
  have hread : desBytes keys (fun i => (load b.byte block 8).getD i 0) flag =
      desBytes keys (fun i => b.byte (block + i)) flag :=
    desBytes_congr (fun i hi => load_getD b.byte block hi 0) keys flag
  rw [desCrypt, Block.read_eq_some h, Option.bind_some, hread, Block.write_eq_some]
  rw [desBytes_length]
  exact h

/-- **The loop over the blocks.**  It goes through whenever the blocks lie inside the buffer; each
    block is what `des_crypt` makes of it, and nothing else changes. -/
theorem ecbLoop_spec (keys : List (RoundKeys w)) (flag : Int32) (n buf : ℕ) {b : Block UInt8}
    (h : buf + 8 * n ≤ b.size) :
    ∃ b', ecbLoop keys flag n buf b = some b' ∧ b'.size = b.size ∧
      (∀ j < n, load b'.byte (buf + 8 * j) 8 =
        desBytes keys (fun i => b.byte (buf + 8 * j + i)) flag) ∧
      ∀ a, ¬(buf ≤ a ∧ a < buf + 8 * n) → b'.byte a = b.byte a := by
  induction n generalizing buf b with
  | zero => exact ⟨b, rfl, rfl, fun j hj => absurd hj (Nat.not_lt_zero j), fun _ _ => rfl⟩
  | succ n ih =>
    set bytes := desBytes keys (fun i => b.byte (buf + i)) flag with hbytes
    have hlen : bytes.length = 8 := rfl
    set b₁ : Block UInt8 := { b with byte := store b.byte buf bytes } with hb₁
    have hfirst : desCrypt keys b buf flag = some b₁ := desCrypt_eq_some (by omega) keys flag
    have hrest : buf + 8 + 8 * n ≤ b₁.size := by
      change buf + 8 + 8 * n ≤ b.size
      omega
    obtain ⟨b', hloop, hsize, hblocks, hframe⟩ := ih (buf + 8) hrest
    refine ⟨b', by rw [ecbLoop, hfirst, Option.bind_some, hloop], hsize, ?_, ?_⟩
    · intro j hj
      cases j with
      | zero =>
        -- the first block is behind the rest of the loop
        rw [Nat.mul_zero, Nat.add_zero, ← hbytes]
        calc load b'.byte buf 8
            = load b₁.byte buf 8 := load_congr fun i hi => hframe _ (by omega)
          _ = bytes := load_store_self b.byte buf bytes
      | succ j =>
        have hidx : buf + 8 * (j + 1) = buf + 8 + 8 * j := by omega
        rw [hidx, hblocks j (by omega)]
        apply desBytes_congr
        intro i hi
        exact store_apply_of_not _ _ _ (by omega)
    · intro a ha
      rw [hframe a (by omega)]
      exact store_apply_of_not _ _ _ (by omega)

/-- The loop undoes itself in the other direction. -/
theorem ecbLoop_inverse (hw : 32 ≤ w) (keys : List (RoundKeys w)) {flag flag' : Int32}
    (hflag : flag = 0 ↔ flag' ≠ 0) {n buf : ℕ} {b b' : Block UInt8}
    (h : buf + 8 * n ≤ b.size) (hloop : ecbLoop keys flag n buf b = some b') :
    ecbLoop keys flag' n buf b' = some b := by
  obtain ⟨b₁, hb₁, hsize, hblocks, hframe⟩ := ecbLoop_spec keys flag n buf h
  obtain rfl : b' = b₁ := Option.some.inj (hloop.symm.trans hb₁)
  obtain ⟨b₂, hb₂, hsize₂, hblocks₂, hframe₂⟩ := ecbLoop_spec keys flag' n buf (hsize ▸ h)
  -- each block is read again by the second loop, and only by the pass that stores it
  have hback {j : ℕ} (hj : j < n) : load b₂.byte (buf + 8 * j) 8 = load b.byte (buf + 8 * j) 8 := by
    have hread : ∀ i < 8, b'.byte (buf + 8 * j + i) =
        (desBytes keys (fun i => b.byte (buf + 8 * j + i)) flag).getD i 0 := by
      intro i hi
      rw [← hblocks j hj, load_getD _ _ hi]
    rw [hblocks₂ j hj, desBytes_congr hread, desBytes_inverse hw keys _ hflag]
    rfl
  rw [hb₂]
  have hbyte : b₂.byte = b.byte := by
    funext a
    -- an address in the buffer belongs to one of the blocks, one outside is left alone twice
    by_cases ha : buf ≤ a ∧ a < buf + 8 * n
    · have hcell := congrArg (·.getD ((a - buf) % 8) 0) (hback (j := (a - buf) / 8) (by omega))
      have hoff : (a - buf) % 8 < 8 := Nat.mod_lt _ (by decide)
      have haddr : buf + 8 * ((a - buf) / 8) + (a - buf) % 8 = a := by omega
      simpa only [load_getD _ _ hoff, haddr] using hcell
    · rw [hframe₂ a ha, hframe a ha]
  cases b₂
  cases b
  simp only [Block.mk.injEq, Option.some.injEq]
  exact ⟨hsize₂.trans hsize, hbyte⟩

/-! ### `ecb_crypt` -/

/-- Masking with `~7` clears the three lowest bits. -/
theorem and_not_seven (x : BitVec 32) : x &&& ~~~7#32 = (x >>> 3) <<< 3 := by
  apply BitVec.eq_of_getLsbD_eq
  intro k hk
  have h7 : (7#32).getLsbD k = decide (k < 3) := by
    interval_cases k <;> rfl
  rw [BitVec.getLsbD_and, BitVec.getLsbD_not, h7, BitVec.getLsbD_shiftLeft,
    BitVec.getLsbD_ushiftRight]
  rcases Nat.lt_or_ge k 3 with h | h
  · simp [h]
  · have hsplit : 3 + (k - 3) = k := by omega
    rw [hsplit]
    simp [hk, Nat.not_lt.2 h]

/-- The sum wraps: from `2 ^ 32 - 7` bytes on, the rounded length is `0`. -/
theorem roundUp_toNat (len : UInt32) : (roundUp len).toNat = (len + 7).toNat / 8 * 8 := by
  change ((len + 7).toBitVec &&& ~~~7#32).toNat = (len + 7).toBitVec.toNat / 8 * 8
  rw [and_not_seven]
  simp [BitVec.toNat_shiftLeft, Nat.shiftLeft_eq, Nat.shiftRight_eq_div_pow]
  omega

/-- The direction is one bit of the mode. -/
theorem and_dirmask (mode : UInt32) : mode &&& DES_DIRMASK = 0 ∨ mode &&& DES_DIRMASK = 1 := by
  have hmod : (mode &&& DES_DIRMASK).toNat = mode.toNat % 2 := by
    change mode.toNat &&& 1 = _
    exact Nat.and_one_is_mod _
  rcases Nat.mod_two_eq_zero_or_one mode.toNat with h | h
  · exact Or.inl (UInt32.toNat_inj.1 (hmod.trans h))
  · exact Or.inr (UInt32.toNat_inj.1 (hmod.trans h))

/-- Each direction has another one. -/
theorem exists_other_flag (flag : Int32) : ∃ flag' : Int32, flag = 0 ↔ flag' ≠ 0 := by
  by_cases hzero : flag = 0
  · exact ⟨1, fun _ => by decide, fun _ => hzero⟩
  · exact ⟨0, fun h => absurd h hzero, fun h => absurd rfl h⟩

/-- Modes of different directions pass different flags to `des_crypt`. -/
theorem dirmask_flag {mode mode' : UInt32} (h : mode &&& DES_DIRMASK ≠ mode' &&& DES_DIRMASK) :
    (mode &&& DES_DIRMASK).toInt32 = 0 ↔ (mode' &&& DES_DIRMASK).toInt32 ≠ 0 := by
  rcases and_dirmask mode with h₀ | h₁ <;> rcases and_dirmask mode' with h₀' | h₁'
  · exact absurd (h₀.trans h₀'.symm) h
  · rw [h₀, h₁']
    decide
  · rw [h₁, h₀']
    decide
  · exact absurd (h₁.trans h₁'.symm) h

/-- **Inversion.**  Whatever the key and the length, `ecb_crypt` in one direction and then in the
    other gives back the buffer, and the first call has changed no byte outside the rounded
    length. -/
theorem ecbCrypt_inverse (hw : 32 ≤ w) (key : ℕ → UInt8) (len : UInt32) {mode mode' : UInt32}
    (hmode : mode &&& DES_DIRMASK ≠ mode' &&& DES_DIRMASK) {buf : ℕ} {b : Block UInt8}
    (hbuf : buf + (roundUp len).toNat ≤ b.size) :
    ∃ b', ecbCrypt w key b buf len mode = some (desError mode, b') ∧
      ecbCrypt w key b' buf len mode' = some (desError mode', b) ∧
      ∀ a, ¬(buf ≤ a ∧ a < buf + (roundUp len).toNat) → b'.byte a = b.byte a := by
  have hblocks : 8 * ((roundUp len).toNat / 8) = (roundUp len).toNat := by
    rw [roundUp_toNat]
    omega
  obtain ⟨b', hloop, _, _, hframe⟩ := ecbLoop_spec (desSetkey w key)
    (mode &&& DES_DIRMASK).toInt32 ((roundUp len).toNat / 8) buf (hblocks ▸ hbuf)
  refine ⟨b', ?_, ?_, ?_⟩
  · rw [ecbCrypt, hloop, Option.map_some]
  · rw [ecbCrypt, ecbLoop_inverse hw _ (dirmask_flag hmode) (by omega) hloop, Option.map_some]
  · rwa [hblocks] at hframe

/-- Two blocks, the second of them cut off. -/
theorem ecbCrypt_inverse_two :
    ∃ b', ecbCrypt 32 (fun i => .ofNat (i + 1)) ⟨17, fun a => .ofNat a⟩ 1 9 DES_ENCRYPT =
        some (desError DES_ENCRYPT, b') ∧
      ecbCrypt 32 (fun i => .ofNat (i + 1)) b' 1 9 DES_DECRYPT =
        some (desError DES_DECRYPT, ⟨17, fun a => .ofNat a⟩) ∧
      ∀ a, ¬(1 ≤ a ∧ a < 1 + (roundUp 9).toNat) → b'.byte a = .ofNat a :=
  ecbCrypt_inverse (by decide) _ 9 (by decide) (by decide)

end LeoNet
