import LeoNet.Lib.Bits
import Mathlib.Data.List.GetD
import Mathlib.Tactic.IntervalCases

namespace LeoNet.StandardDes

open Bits

/-!
# `leo_standard_des_crypto.c` — DES bit by bit

Every permutation of the source is a bitwise or of `BITNUM` terms; it is kept here as the list of
the pairs `(b, c)` that stand in these terms, in their order.  A row of the key schedule is the
list of its six bytes.

* `ip_bit` / `invIp_bit` / `lrgstate_bit` / `pbox_bit` — where the permutations of a block put each
  bit;
* `keyPerm_bit` / `keyRow_bit` — and those of the key.
-/

/-! ### Terms -/

/-- `BITNUM(a,b,c)`: bit `b` of the bytes `a`, from the left, at place `c`. -/
def bitNum (a : ℕ → UInt8) (b c : ℕ) : BitVec 32 :=
  (((a (b / 8)).toBitVec >>> (7 - b % 8)) &&& 1).setWidth 32 <<< c

/-- `BITNUMINTR(a,b,c)`: bit `b` of the word `a`, from the left, at place `c` from the right. -/
def bitNumIntR (a : BitVec 32) (b c : ℕ) : BitVec 32 := ((a >>> (31 - b)) &&& 1) <<< c

/-- `BITNUMINTL(a,b,c)`: bit `b` of the word `a`, from the left, at place `c` from the left. -/
def bitNumIntL (a : BitVec 32) (b c : ℕ) : BitVec 32 := ((a <<< b) &&& 0x80000000) >>> c

/-- `SBOXBIT(a)`. -/
def sboxBit (a : BitVec 8) : BitVec 8 :=
  (a &&& 0x20) ||| ((a &&& 0x1f) >>> 1) ||| ((a &&& 0x01) <<< 4)

/-- `sbox1` to `sbox8`. -/
def sboxes : List (List ℕ) :=
  [[14, 4, 13, 1, 2, 15, 11, 8, 3, 10, 6, 12, 5, 9, 0, 7,
    0, 15, 7, 4, 14, 2, 13, 1, 10, 6, 12, 11, 9, 5, 3, 8,
    4, 1, 14, 8, 13, 6, 2, 11, 15, 12, 9, 7, 3, 10, 5, 0,
    15, 12, 8, 2, 4, 9, 1, 7, 5, 11, 3, 14, 10, 0, 6, 13],
   [15, 1, 8, 14, 6, 11, 3, 4, 9, 7, 2, 13, 12, 0, 5, 10,
    3, 13, 4, 7, 15, 2, 8, 14, 12, 0, 1, 10, 6, 9, 11, 5,
    0, 14, 7, 11, 10, 4, 13, 1, 5, 8, 12, 6, 9, 3, 2, 15,
    13, 8, 10, 1, 3, 15, 4, 2, 11, 6, 7, 12, 0, 5, 14, 9],
   [10, 0, 9, 14, 6, 3, 15, 5, 1, 13, 12, 7, 11, 4, 2, 8,
    13, 7, 0, 9, 3, 4, 6, 10, 2, 8, 5, 14, 12, 11, 15, 1,
    13, 6, 4, 9, 8, 15, 3, 0, 11, 1, 2, 12, 5, 10, 14, 7,
    1, 10, 13, 0, 6, 9, 8, 7, 4, 15, 14, 3, 11, 5, 2, 12],
   [7, 13, 14, 3, 0, 6, 9, 10, 1, 2, 8, 5, 11, 12, 4, 15,
    13, 8, 11, 5, 6, 15, 0, 3, 4, 7, 2, 12, 1, 10, 14, 9,
    10, 6, 9, 0, 12, 11, 7, 13, 15, 1, 3, 14, 5, 2, 8, 4,
    3, 15, 0, 6, 10, 1, 13, 8, 9, 4, 5, 11, 12, 7, 2, 14],
   [2, 12, 4, 1, 7, 10, 11, 6, 8, 5, 3, 15, 13, 0, 14, 9,
    14, 11, 2, 12, 4, 7, 13, 1, 5, 0, 15, 10, 3, 9, 8, 6,
    4, 2, 1, 11, 10, 13, 7, 8, 15, 9, 12, 5, 6, 3, 0, 14,
    11, 8, 12, 7, 1, 14, 2, 13, 6, 15, 0, 9, 10, 4, 5, 3],
   [12, 1, 10, 15, 9, 2, 6, 8, 0, 13, 3, 4, 14, 7, 5, 11,
    10, 15, 4, 2, 7, 12, 9, 5, 6, 1, 13, 14, 0, 11, 3, 8,
    9, 14, 15, 5, 2, 8, 12, 3, 7, 0, 4, 10, 1, 13, 11, 6,
    4, 3, 2, 12, 9, 5, 15, 10, 11, 14, 1, 7, 6, 0, 8, 13],
   [4, 11, 2, 14, 15, 0, 8, 13, 3, 12, 9, 7, 5, 10, 6, 1,
    13, 0, 11, 7, 4, 9, 1, 10, 14, 3, 5, 12, 2, 15, 8, 6,
    1, 4, 11, 13, 12, 3, 7, 14, 10, 15, 6, 8, 0, 5, 9, 2,
    6, 11, 13, 8, 1, 4, 10, 7, 9, 5, 0, 15, 14, 2, 3, 12],
   [13, 2, 8, 4, 6, 15, 11, 1, 10, 9, 3, 14, 5, 0, 12, 7,
    1, 15, 13, 8, 10, 3, 7, 4, 12, 5, 6, 11, 0, 14, 9, 2,
    7, 11, 4, 1, 9, 12, 14, 2, 0, 6, 10, 13, 15, 3, 5, 8,
    2, 1, 14, 7, 4, 10, 8, 13, 15, 12, 9, 0, 3, 5, 6, 11]]

/-- An entry of `sbox1` (`j = 0`) to `sbox8` (`j = 7`). -/
def sbox (j : ℕ) (i : BitVec 8) : BitVec 32 := BitVec.ofNat 32 ((sboxes.getD j []).getD i.toNat 0)

/-! ### One block -/

/-- The terms of `state[0]` in `IP`. -/
def ipWires0 : List (ℕ × ℕ) :=
  [(57, 31), (49, 30), (41, 29), (33, 28), (25, 27), (17, 26), (9, 25), (1, 24),
   (59, 23), (51, 22), (43, 21), (35, 20), (27, 19), (19, 18), (11, 17), (3, 16),
   (61, 15), (53, 14), (45, 13), (37, 12), (29, 11), (21, 10), (13, 9), (5, 8),
   (63, 7), (55, 6), (47, 5), (39, 4), (31, 3), (23, 2), (15, 1), (7, 0)]

/-- The terms of `state[1]` in `IP`. -/
def ipWires1 : List (ℕ × ℕ) :=
  [(56, 31), (48, 30), (40, 29), (32, 28), (24, 27), (16, 26), (8, 25), (0, 24),
   (58, 23), (50, 22), (42, 21), (34, 20), (26, 19), (18, 18), (10, 17), (2, 16),
   (60, 15), (52, 14), (44, 13), (36, 12), (28, 11), (20, 10), (12, 9), (4, 8),
   (62, 7), (54, 6), (46, 5), (38, 4), (30, 3), (22, 2), (14, 1), (6, 0)]

/-- `IP(state,in)`: `state`. -/
def ip (s : ℕ → UInt8) : BitVec 32 × BitVec 32 :=
  (orAll (ipWires0.map fun p => bitNum s p.1 p.2), orAll (ipWires1.map fun p => bitNum s p.1 p.2))

/-- The terms of `in[0]` to `in[7]` in `InvIP`, as `((i, b), c)` for
    `BITNUMINTR(state[i],b,c)`. -/
def invIpWires : List (List ((ℕ × ℕ) × ℕ)) :=
  [[((1, 7), 7), ((0, 7), 6), ((1, 15), 5), ((0, 15), 4),
    ((1, 23), 3), ((0, 23), 2), ((1, 31), 1), ((0, 31), 0)],
   [((1, 6), 7), ((0, 6), 6), ((1, 14), 5), ((0, 14), 4),
    ((1, 22), 3), ((0, 22), 2), ((1, 30), 1), ((0, 30), 0)],
   [((1, 5), 7), ((0, 5), 6), ((1, 13), 5), ((0, 13), 4),
    ((1, 21), 3), ((0, 21), 2), ((1, 29), 1), ((0, 29), 0)],
   [((1, 4), 7), ((0, 4), 6), ((1, 12), 5), ((0, 12), 4),
    ((1, 20), 3), ((0, 20), 2), ((1, 28), 1), ((0, 28), 0)],
   [((1, 3), 7), ((0, 3), 6), ((1, 11), 5), ((0, 11), 4),
    ((1, 19), 3), ((0, 19), 2), ((1, 27), 1), ((0, 27), 0)],
   [((1, 2), 7), ((0, 2), 6), ((1, 10), 5), ((0, 10), 4),
    ((1, 18), 3), ((0, 18), 2), ((1, 26), 1), ((0, 26), 0)],
   [((1, 1), 7), ((0, 1), 6), ((1, 9), 5), ((0, 9), 4),
    ((1, 17), 3), ((0, 17), 2), ((1, 25), 1), ((0, 25), 0)],
   [((1, 0), 7), ((0, 0), 6), ((1, 8), 5), ((0, 8), 4),
    ((1, 16), 3), ((0, 16), 2), ((1, 24), 1), ((0, 24), 0)]]

/-- `InvIP(state,in)`: the bytes of `in`. -/
def invIp (state : BitVec 32 × BitVec 32) : List UInt8 :=
  invIpWires.map fun wires => ⟨(orAll (wires.map fun p =>
    bitNumIntR (if p.1.1 = 0 then state.1 else state.2) p.1.2 p.2)).setWidth 8⟩

/-- `t1` of `f`. -/
def t1 (state : BitVec 32) : BitVec 32 :=
  orAll
    [bitNumIntL state 31 0, (state &&& 0xf0000000) >>> 1, bitNumIntL state 4 5,
     bitNumIntL state 3 6, (state &&& 0x0f000000) >>> 3, bitNumIntL state 8 11,
     bitNumIntL state 7 12, (state &&& 0x00f00000) >>> 5, bitNumIntL state 12 17,
     bitNumIntL state 11 18, (state &&& 0x000f0000) >>> 7, bitNumIntL state 16 23]

/-- `t2` of `f`. -/
def t2 (state : BitVec 32) : BitVec 32 :=
  orAll
    [bitNumIntL state 15 0, (state &&& 0x0000f000) <<< 15, bitNumIntL state 20 5,
     bitNumIntL state 19 6, (state &&& 0x00000f00) <<< 13, bitNumIntL state 24 11,
     bitNumIntL state 23 12, (state &&& 0x000000f0) <<< 11, bitNumIntL state 28 17,
     bitNumIntL state 27 18, (state &&& 0x0000000f) <<< 9, bitNumIntL state 0 23]

/-- `lrgstate[i]`, before the key. -/
def lrgstate (state : BitVec 32) (i : ℕ) : BitVec 8 :=
  if i < 3 then (t1 state >>> (24 - 8 * i)).setWidth 8
  else (t2 state >>> (24 - 8 * (i - 3))).setWidth 8

/-- The six bits of `lrgstate` that go to `sbox1` (`j = 0`) to `sbox8` (`j = 7`). -/
def sixBits (lrg : ℕ → BitVec 8) : ℕ → BitVec 8
  | 0 => lrg 0 >>> 2
  | 1 => ((lrg 0 &&& 0x03) <<< 4) ||| (lrg 1 >>> 4)
  | 2 => ((lrg 1 &&& 0x0f) <<< 2) ||| (lrg 2 >>> 6)
  | 3 => lrg 2 &&& 0x3f
  | 4 => lrg 3 >>> 2
  | 5 => ((lrg 3 &&& 0x03) <<< 4) ||| (lrg 4 >>> 4)
  | 6 => ((lrg 4 &&& 0x0f) <<< 2) ||| (lrg 5 >>> 6)
  | _ => lrg 5 &&& 0x3f

/-- The terms of the P-box permutation. -/
def pboxWires : List (ℕ × ℕ) :=
  [(15, 0), (6, 1), (19, 2), (20, 3), (28, 4), (11, 5), (27, 6), (16, 7),
   (0, 8), (14, 9), (22, 10), (25, 11), (4, 12), (17, 13), (30, 14), (9, 15),
   (1, 16), (7, 17), (23, 18), (13, 19), (31, 20), (26, 21), (2, 22), (8, 23),
   (18, 24), (12, 25), (29, 26), (5, 27), (21, 28), (10, 29), (3, 30), (24, 31)]

/-- The P-box permutation of `f`. -/
def pbox (state : BitVec 32) : BitVec 32 :=
  orAll (pboxWires.map fun p => bitNumIntL state p.1 p.2)

/-- `f(state,key)`. -/
def f (state : BitVec 32) (key : List (BitVec 8)) : BitVec 32 :=
  let lrg := fun i => lrgstate state i ^^^ key.getD i 0
  pbox ((sbox 0 (sboxBit (sixBits lrg 0)) <<< 28) |||
    (sbox 1 (sboxBit (sixBits lrg 1)) <<< 24) |||
    (sbox 2 (sboxBit (sixBits lrg 2)) <<< 20) |||
    (sbox 3 (sboxBit (sixBits lrg 3)) <<< 16) |||
    (sbox 4 (sboxBit (sixBits lrg 4)) <<< 12) |||
    (sbox 5 (sboxBit (sixBits lrg 5)) <<< 8) |||
    (sbox 6 (sboxBit (sixBits lrg 6)) <<< 4) |||
    sbox 7 (sboxBit (sixBits lrg 7)))

/-- The loop of `des_crypt` over `idx`, one round. -/
def desRound (state : BitVec 32 × BitVec 32) (key : List (BitVec 8)) : BitVec 32 × BitVec 32 :=
  (state.2, f state.2 key ^^^ state.1)

/-- `des_crypt(in,out,key)`: the bytes of `out`. -/
def desCrypt (s : ℕ → UInt8) (key : List (List (BitVec 8))) : List UInt8 :=
  let state := (key.take 15).foldl desRound (ip s)
  -- the final loop does not switch sides
  invIp (f state.2 (key.getD 15 []) ^^^ state.1, state.2)

/-! ### The key schedule -/

/-- `DES_MODE`. -/
inductive DesMode where
  | encrypt
  | decrypt
deriving DecidableEq

/-- `key_rnd_shift`. -/
def keyRndShift : List ℕ := [1, 1, 2, 2, 2, 2, 2, 2, 1, 2, 2, 2, 2, 2, 2, 1]

/-- `key_perm_c`. -/
def keyPermC : List ℕ :=
  [56, 48, 40, 32, 24, 16, 8,
   0, 57, 49, 41, 33, 25, 17,
   9, 1, 58, 50, 42, 34, 26,
   18, 10, 2, 59, 51, 43, 35]

/-- `key_perm_d`. -/
def keyPermD : List ℕ :=
  [62, 54, 46, 38, 30, 22, 14,
   6, 61, 53, 45, 37, 29, 21,
   13, 5, 60, 52, 44, 36, 28,
   20, 12, 4, 27, 19, 11, 3]

/-- `key_compression`. -/
def keyCompression : List ℕ :=
  [13, 16, 10, 23, 0, 4, 2, 27,
   14, 5, 20, 9, 22, 18, 11, 3,
   25, 7, 15, 6, 26, 19, 12, 1,
   40, 51, 30, 36, 46, 54, 29, 39,
   50, 44, 32, 47, 43, 48, 38, 55,
   33, 52, 45, 41, 49, 35, 28, 31]

/-- Permuted choice #1, the loop for `C` or `D`. -/
def keyPerm (perm : List ℕ) (key : ℕ → UInt8) : BitVec 32 :=
  orAll ((List.range 28).map fun i => bitNum key (perm.getD i 0) (31 - i))

/-- The rotation of `C` or `D` by `n`. -/
def keyRotate (C : BitVec 32) (n : ℕ) : BitVec 32 := (C <<< n ||| C >>> (28 - n)) &&& 0xfffffff0

/-- `a[j/8] |= x`. -/
def orInto (a : List (BitVec 8)) (j : ℕ) (x : BitVec 32) : List (BitVec 8) :=
  a.modify (j / 8) (· ||| x.setWidth 8)

/-- `schedule[to_gen]` of the round with `C` and `D`. -/
def keyRow (C D : BitVec 32) : List (BitVec 8) :=
  let row := (List.range 24).foldl
    (fun a j => orInto a j (bitNumIntR C (keyCompression.getD j 0) (7 - j % 8)))
    (List.replicate 6 0)
  (List.range' 24 24).foldl
    (fun a j => orInto a j (bitNumIntR D (keyCompression.getD j 0 - 28) (7 - j % 8))) row

/-- The loop that generates the subkeys, in the order in which it does. -/
def keyRows : List ℕ → BitVec 32 → BitVec 32 → List (List (BitVec 8))
  | [], _, _ => []
  | n :: ns, C, D =>
    let C := keyRotate C n
    let D := keyRotate D n
    keyRow C D :: keyRows ns C D

/-- `des_key_setup(key,schedule,mode)`: `schedule`. -/
def desKeySetup (key : ℕ → UInt8) (mode : DesMode) : List (List (BitVec 8)) :=
  let rows := keyRows keyRndShift (keyPerm keyPermC key) (keyPerm keyPermD key)
  match mode with
  -- `to_gen` is `i`
  | .encrypt => rows
  -- `to_gen` is `15 - i`
  | .decrypt => rows.reverse

/-! ### The bit of a term -/

/-- Bit `b` of the bytes `a`, from the left. -/
def bitAt (a : ℕ → UInt8) (b : ℕ) : Bool := (a (b / 8)).toBitVec.getLsbD (7 - b % 8)

/-- `BITNUM` puts one bit of the bytes at one place. -/
theorem getLsbD_bitNum (a : ℕ → UInt8) (b : ℕ) {c k : ℕ} (hc : c < 32) :
    (bitNum a b c).getLsbD k = (c == k && bitAt a b) := by
  unfold bitNum bitAt
  rcases Nat.lt_trichotomy c k with h | rfl | h
  · have hne : k - c ≠ 0 := by omega
    simp [hne, Nat.ne_of_lt h]
  · have hbyte : 7 - b % 8 < 32 := by omega
    simp [hc, hbyte]
  · simp [h, Nat.ne_of_gt h]

/-- `BITNUMINTR` puts one bit of the word at one place. -/
theorem getLsbD_bitNumIntR (a : BitVec 32) (b : ℕ) {c k : ℕ} (hc : c < 32) :
    (bitNumIntR a b c).getLsbD k = (c == k && a.getLsbD (31 - b)) := by
  unfold bitNumIntR
  rcases Nat.lt_trichotomy c k with h | rfl | h
  · have hne : k - c ≠ 0 := by omega
    simp [hne, Nat.ne_of_lt h]
  · simp [hc]
  · simp [h, Nat.ne_of_gt h]

/-- `BITNUMINTL` does the same, counting places from the left. -/
theorem getLsbD_bitNumIntL (a : BitVec 32) {b : ℕ} (c : ℕ) {k : ℕ} (hb : b < 32) (hk : k < 32) :
    (bitNumIntL a b c).getLsbD k = (c == 31 - k && a.getLsbD (31 - b)) := by
  have htop (i : ℕ) : (0x80000000 : BitVec 32).getLsbD i = (i == 31) :=
    getLsbD_of_eq_twoPow 31 rfl (by decide) i
  unfold bitNumIntL
  rw [BitVec.getLsbD_ushiftRight, BitVec.getLsbD_and, htop, BitVec.getLsbD_shiftLeft]
  by_cases h : c = 31 - k
  · have hsum : c + k = 31 := by omega
    have hlow : ¬31 < b := by omega
    rw [beq_iff_eq.2 h, hsum]
    simp [hlow]
  · have hne : c + k ≠ 31 := by omega
    rw [beq_eq_false_iff_ne.2 hne, beq_eq_false_iff_ne.2 h, Bool.and_false, Bool.false_and]

/-! ### Where the bits of a block go -/

/-- **Initial permutation.**  Bit `k` of `state[0]` is an even bit of byte `k % 8`, bit `k` of
    `state[1]` the odd bit next to it. -/
theorem ip_bit (s : ℕ → UInt8) {k : ℕ} (hk : k < 32) :
    (ip s).1.getLsbD k = bitAt s (8 * (k % 8) + (7 - 2 * (k / 8))) ∧
      (ip s).2.getLsbD k = bitAt s (8 * (k % 8) + (6 - 2 * (k / 8))) := by
  have hroutes0 : Routes ipWires0 (fun k => 8 * (k % 8) + (7 - 2 * (k / 8))) 32 := by
    decide +kernel
  have hroutes1 : Routes ipWires1 (fun k => 8 * (k % 8) + (6 - 2 * (k / 8))) 32 := by
    decide +kernel
  have hlt0 : ∀ p ∈ ipWires0, p.2 < 32 := by decide
  have hlt1 : ∀ p ∈ ipWires1, p.2 < 32 := by decide
  unfold ip
  constructor
  · rw [hroutes0.getLsbD_orAll hk fun p hp => getLsbD_bitNum s p.1 (hlt0 p hp)]
  · rw [hroutes1.getLsbD_orAll hk fun p hp => getLsbD_bitNum s p.1 (hlt1 p hp)]

@[simp] theorem invIp_length (state : BitVec 32 × BitVec 32) : (invIp state).length = 8 := rfl

/-- **Inverse permutation.**  The even bits of byte `i` are the bits `8 * m + i` of `state[0]`,
    its odd bits those of `state[1]`. -/
theorem invIp_bit (state : BitVec 32 × BitVec 32) {i m : ℕ} (hi : i < 8) (hm : m < 8) :
    ((invIp state).getD i 0).toBitVec.getLsbD m =
      (if m % 2 = 0 then state.1 else state.2).getLsbD (8 * (m / 2) + i) := by
  have hroutes : ∀ i < 8, Routes (invIpWires.getD i [])
      (fun m => (m % 2, 31 - (8 * (m / 2) + i))) 8 := by decide +kernel
  have hlt : ∀ i < 8, ∀ p ∈ invIpWires.getD i [], p.2 < 32 := by decide
  have hbyte : (invIp state).getD i 0 = ⟨(orAll ((invIpWires.getD i []).map fun p =>
      bitNumIntR (if p.1.1 = 0 then state.1 else state.2) p.1.2 p.2)).setWidth 8⟩ := by
    have hlen : i < invIpWires.length := hi
    rw [invIp, List.getD_eq_getElem _ _ (by rwa [List.length_map]), List.getElem_map,
      List.getD_eq_getElem _ _ hlen]
  have hsrc : 31 - (31 - (8 * (m / 2) + i)) = 8 * (m / 2) + i := by omega
  rw [hbyte, BitVec.getLsbD_setWidth, decide_eq_true hm, Bool.true_and,
    (hroutes i hi).getLsbD_orAll
      (g := fun q => (if q.1 = 0 then state.1 else state.2).getLsbD (31 - q.2)) hm
      fun p hp => getLsbD_bitNumIntR _ p.1.2 (hlt i hi p hp), hsrc]

/-- A bit after the P-box permutation. -/
theorem pbox_bit (x : BitVec 32) {k : ℕ} (hk : k < 32) :
    (pbox x).getLsbD k = x.getLsbD (31 - (pboxWires.getD (31 - k) (0, 0)).1) := by
  have hroutes : Routes pboxWires (fun c => (pboxWires.getD c (0, 0)).1) 32 := by decide +kernel
  have hlt : ∀ p ∈ pboxWires, p.1 < 32 := by decide
  have hplace : 31 - k < 32 := by omega
  rw [pbox, hroutes.getLsbD_orAll (g := fun b => x.getLsbD (31 - b)) hplace
    fun p hp => getLsbD_bitNumIntL x p.2 (hlt p hp) hk]

/-- The P-box permutation is linear. -/
theorem pbox_xor (x y : BitVec 32) : pbox (x ^^^ y) = pbox x ^^^ pbox y := by
  apply BitVec.eq_of_getLsbD_eq
  intro k hk
  rw [BitVec.getLsbD_xor, pbox_bit _ hk, pbox_bit _ hk, pbox_bit _ hk, BitVec.getLsbD_xor]

/-- The expansion permutation: bit `p` of the six bytes, from the left, is bit `p % 6` of the
    window of six bits that starts one to the left of the nibble `p / 6`. -/
theorem lrgstate_bit (x : BitVec 32) {p : ℕ} (hp : p < 48) :
    (lrgstate x (p / 8)).getLsbD (7 - p % 8) = x.getLsbD ((64 - 4 * (p / 6) - p % 6) % 32) := by
  interval_cases p <;> simp [lrgstate, t1, t2, orAll, bitNumIntL]

/-- The bits of the input of an S-box. -/
theorem sixBits_bit (lrg : ℕ → BitVec 8) {j u : ℕ} (hj : j < 8) (hu : u < 6) :
    (sixBits lrg j).getLsbD u = (lrg ((6 * j + 5 - u) / 8)).getLsbD (7 - (6 * j + 5 - u) % 8) := by
  interval_cases j <;> interval_cases u <;> simp [sixBits]

/-- The index into a box has six bits. -/
theorem sixBits_fits (lrg : ℕ → BitVec 8) {j : ℕ} (hj : j < 8) : Fits 6 (sixBits lrg j) := by
  intro k hk
  rcases Nat.lt_or_ge k 8 with hk8 | hk8
  · interval_cases j <;> interval_cases k <;> simp [sixBits]
  · exact BitVec.getLsbD_of_ge _ _ hk8

/-- The entries of the S-boxes have four bits. -/
theorem sboxes_lt : ∀ box ∈ sboxes, ∀ x ∈ box, x < 16 := by decide

/-- The entry of a box has four bits. -/
theorem sbox_fits (j : ℕ) (i : BitVec 8) : Fits 4 (sbox j i) :=
  fits_ofNat 32 (getD_getD_lt (by decide) sboxes_lt j i.toNat)

/-! ### Where the bits of the key go -/

/-- The bits that permuted choice #1 keeps stand in the high `28` bits of the word. -/
theorem keyPerm_bit (perm : List ℕ) (key : ℕ → UInt8) {k : ℕ} (hk : k < 28) :
    (keyPerm perm key).getLsbD (k + 4) = bitAt key (perm.getD (27 - k) 0) := by
  have hterm : (BitVec.getLsbD · (k + 4)) ∘ (fun i => bitNum key (perm.getD i 0) (31 - i)) =
      fun i => 31 - i == k + 4 && bitAt key (perm.getD i 0) :=
    funext fun i => getLsbD_bitNum key _ (by omega)
  rw [keyPerm, getLsbD_orAll, List.any_map, hterm]
  apply any_pick (a := 27 - k) (g := fun i => bitAt key (perm.getD i 0))
  · exact List.mem_range.2 (by omega)
  · exact beq_iff_eq.2 (by omega)
  · intro i _ hi
    rw [beq_iff_eq] at hi
    omega

/-- The permuted halves of the key leave the low four bits free. -/
theorem keyPerm_low (perm : List ℕ) (key : ℕ → UInt8) {k : ℕ} (hk : k < 4) :
    (keyPerm perm key).getLsbD k = false := by
  rw [keyPerm, getLsbD_orAll, List.any_map, List.any_eq_false]
  intro i hi
  rw [List.mem_range] at hi
  have hne : 31 - i ≠ k := by omega
  rw [Function.comp, getLsbD_bitNum key _ (by omega), beq_eq_false_iff_ne.2 hne]
  exact Bool.false_ne_true

/-- Merging a word into a byte keeps the number of bytes. -/
theorem orInto_length (a : List (BitVec 8)) (j : ℕ) (x : BitVec 32) :
    (orInto a j x).length = a.length := List.length_modify ..

/-- So does merging many. -/
theorem foldl_orInto_length (x : ℕ → BitVec 32) (js : List ℕ) (a : List (BitVec 8)) :
    (js.foldl (fun a j => orInto a j (x j)) a).length = a.length := by
  induction js generalizing a with
  | nil => rfl
  | cons j js ih => rw [List.foldl_cons, ih, orInto_length]

/-- A bit of a byte that a loop of `|=` fills. -/
theorem getLsbD_foldl_orInto (x : ℕ → BitVec 32) (js : List ℕ) (a : List (BitVec 8)) {q : ℕ}
    (hq : q < a.length) (b : ℕ) :
    ((js.foldl (fun a j => orInto a j (x j)) a).getD q 0).getLsbD b =
      ((a.getD q 0).getLsbD b || js.any fun j => j / 8 == q && ((x j).setWidth 8).getLsbD b) := by
  induction js generalizing a with
  | nil => simp
  | cons j js ih =>
    have hbyte : ((orInto a j (x j)).getD q 0).getLsbD b =
        ((a.getD q 0).getLsbD b || (j / 8 == q && ((x j).setWidth 8).getLsbD b)) := by
      rw [List.getD_eq_getElem _ _ (by rwa [orInto_length]), List.getD_eq_getElem _ _ hq]
      unfold orInto
      rw [List.getElem_modify]
      by_cases hj : j / 8 = q
      · rw [if_pos hj, beq_iff_eq.2 hj, Bool.true_and, BitVec.getLsbD_or]
      · rw [if_neg hj, beq_eq_false_iff_ne.2 hj, Bool.false_and, Bool.or_false]
    rw [List.foldl_cons, ih _ (by rwa [orInto_length]), hbyte, List.any_cons, Bool.or_assoc]

/-- The pass that fills a bit of a row of the schedule. -/
theorem any_row (x : BitVec 32) (src : ℕ → ℕ) (js : List ℕ) (J : ℕ) :
    (js.any fun j => j / 8 == J / 8 &&
      ((bitNumIntR x (src j) (7 - j % 8)).setWidth 8).getLsbD (7 - J % 8)) =
      (decide (J ∈ js) && x.getLsbD (31 - src J)) := by
  -- the pass of `j` sets bit `7 - j % 8` of byte `j / 8`, which no other pass sets
  have hterm (j : ℕ) : (j / 8 == J / 8 &&
      ((bitNumIntR x (src j) (7 - j % 8)).setWidth 8).getLsbD (7 - J % 8)) =
      (j == J && x.getLsbD (31 - src j)) := by
    have hJ : 7 - J % 8 < 8 := by omega
    have hsame : (j / 8 == J / 8 && 7 - j % 8 == 7 - J % 8) = (j == J) := by
      rw [Bool.eq_iff_iff, Bool.and_eq_true, beq_iff_eq, beq_iff_eq, beq_iff_eq]
      omega
    rw [BitVec.getLsbD_setWidth, decide_eq_true hJ, Bool.true_and,
      getLsbD_bitNumIntR x _ (by omega), ← Bool.and_assoc, hsame]
  simp only [hterm]
  by_cases hmem : J ∈ js
  · rw [decide_eq_true hmem, Bool.true_and]
    exact any_pick (g := fun j => x.getLsbD (31 - src j)) hmem (beq_self_eq_true J)
      fun j _ hj => beq_iff_eq.1 hj
  · rw [decide_eq_false hmem, Bool.false_and, List.any_eq_false]
    rintro j hj hbad
    rw [Bool.and_eq_true, beq_iff_eq] at hbad
    exact hmem (hbad.1 ▸ hj)

/-- **Key compression.**  Bit `J` of a row of the schedule, from the left, comes from `C` in the
    first half and from `D` in the second. -/
theorem keyRow_bit (C D : BitVec 32) {J : ℕ} (hJ : J < 48) :
    ((keyRow C D).getD (J / 8) 0).getLsbD (7 - J % 8) =
      if J < 24 then C.getLsbD (31 - keyCompression.getD J 0)
      else D.getLsbD (31 - (keyCompression.getD J 0 - 28)) := by
  have hbyte : J / 8 < 6 := by omega
  have hzero : ((List.replicate 6 (0 : BitVec 8)).getD (J / 8) 0).getLsbD (7 - J % 8) = false := by
    rw [List.getD_replicate _ hbyte, BitVec.ofNat_eq_ofNat, BitVec.getLsbD_zero]
  have hfst : J ∈ List.range 24 ↔ J < 24 := List.mem_range
  have hsnd : J ∈ List.range' 24 24 ↔ ¬J < 24 := by
    rw [List.mem_range'_1]
    omega
  -- the passes over `C`, then those over `D`, from a row of zeros
  unfold keyRow
  rw [getLsbD_foldl_orInto _ _ _ (by rwa [foldl_orInto_length, List.length_replicate]),
    getLsbD_foldl_orInto _ _ _ (by rwa [List.length_replicate]), hzero, Bool.false_or,
    any_row C (keyCompression.getD · 0), any_row D (keyCompression.getD · 0 - 28),
    decide_eq_decide.2 hfst, decide_eq_decide.2 hsnd]
  by_cases hhalf : J < 24
  · rw [decide_eq_true hhalf, decide_eq_false (not_not.2 hhalf), if_pos hhalf, Bool.true_and,
      Bool.false_and, Bool.or_false]
  · rw [decide_eq_false hhalf, decide_eq_true hhalf, if_neg hhalf, Bool.true_and, Bool.false_and,
      Bool.false_or]

end LeoNet.StandardDes
