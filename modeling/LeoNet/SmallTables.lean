import LeoNet.CbcMode
import LeoNet.DesAgreement

namespace LeoNet.Small

open Memory Bits

/-!
# The build of `leo_des_crypto.c` with `SMALL` set

The S-boxes and the P permutation are kept apart, and each round looks a word up in two steps.  The
functions are those of the default build with the other `ps`.

* `ps_eq` — the two steps find the word of `Psboxes`;
* `crypt_eq` — so the two builds crypt alike.
-/

variable {w : ℕ}

/-- `Sboxes`. -/
def sboxes : List (List ℕ) :=
  [[14, 0, 4, 15, 13, 7, 1, 4, 2, 14, 15, 2, 11, 13, 8, 1,
    3, 10, 10, 6, 6, 12, 12, 11, 5, 9, 9, 5, 0, 3, 7, 8,
    4, 15, 1, 12, 14, 8, 8, 2, 13, 4, 6, 9, 2, 1, 11, 7,
    15, 5, 12, 11, 9, 3, 7, 14, 3, 10, 10, 0, 5, 6, 0, 13],
   [15, 3, 1, 13, 8, 4, 14, 7, 6, 15, 11, 2, 3, 8, 4, 14,
    9, 12, 7, 0, 2, 1, 13, 10, 12, 6, 0, 9, 5, 11, 10, 5,
    0, 13, 14, 8, 7, 10, 11, 1, 10, 3, 4, 15, 13, 4, 1, 2,
    5, 11, 8, 6, 12, 7, 6, 12, 9, 0, 3, 5, 2, 14, 15, 9],
   [10, 13, 0, 7, 9, 0, 14, 9, 6, 3, 3, 4, 15, 6, 5, 10,
    1, 2, 13, 8, 12, 5, 7, 14, 11, 12, 4, 11, 2, 15, 8, 1,
    13, 1, 6, 10, 4, 13, 9, 0, 8, 6, 15, 9, 3, 8, 0, 7,
    11, 4, 1, 15, 2, 14, 12, 3, 5, 11, 10, 5, 14, 2, 7, 12],
   [7, 13, 13, 8, 14, 11, 3, 5, 0, 6, 6, 15, 9, 0, 10, 3,
    1, 4, 2, 7, 8, 2, 5, 12, 11, 1, 12, 10, 4, 14, 15, 9,
    10, 3, 6, 15, 9, 0, 0, 6, 12, 10, 11, 1, 7, 13, 13, 8,
    15, 9, 1, 4, 3, 5, 14, 11, 5, 12, 2, 7, 8, 2, 4, 14],
   [2, 14, 12, 11, 4, 2, 1, 12, 7, 4, 10, 7, 11, 13, 6, 1,
    8, 5, 5, 0, 3, 15, 15, 10, 13, 3, 0, 9, 14, 8, 9, 6,
    4, 11, 2, 8, 1, 12, 11, 7, 10, 1, 13, 14, 7, 2, 8, 13,
    15, 6, 9, 15, 12, 0, 5, 9, 6, 10, 3, 4, 0, 5, 14, 3],
   [12, 10, 1, 15, 10, 4, 15, 2, 9, 7, 2, 12, 6, 9, 8, 5,
    0, 6, 13, 1, 3, 13, 4, 14, 14, 0, 7, 11, 5, 3, 11, 8,
    9, 4, 14, 3, 15, 2, 5, 12, 2, 9, 8, 5, 12, 15, 3, 10,
    7, 11, 0, 14, 4, 1, 10, 7, 1, 6, 13, 0, 11, 8, 6, 13],
   [4, 13, 11, 0, 2, 11, 14, 7, 15, 4, 0, 9, 8, 1, 13, 10,
    3, 14, 12, 3, 9, 5, 7, 12, 5, 2, 10, 15, 6, 8, 1, 6,
    1, 6, 4, 11, 11, 13, 13, 8, 12, 1, 3, 4, 7, 10, 14, 7,
    10, 9, 15, 5, 6, 0, 8, 15, 0, 14, 5, 2, 9, 3, 2, 12],
   [13, 1, 2, 15, 8, 13, 4, 8, 6, 10, 15, 3, 11, 7, 1, 4,
    10, 12, 9, 5, 3, 6, 14, 11, 5, 0, 0, 14, 12, 9, 7, 2,
    7, 2, 11, 1, 4, 14, 1, 7, 9, 4, 12, 10, 14, 8, 2, 13,
    0, 15, 6, 12, 10, 9, 13, 0, 15, 3, 3, 5, 5, 6, 8, 11]]

/-- `Ptbl`. -/
def ptbl : List (List ℕ) :=
  [[0x00000000, 0x00000002, 0x00000200, 0x00000202, 0x00008000, 0x00008002, 0x00008200, 0x00008202,
    0x00800000, 0x00800002, 0x00800200, 0x00800202, 0x00808000, 0x00808002, 0x00808200, 0x00808202],
   [0x00000000, 0x00004000, 0x40000000, 0x40004000, 0x00000010, 0x00004010, 0x40000010, 0x40004010,
    0x00080000, 0x00084000, 0x40080000, 0x40084000, 0x00080010, 0x00084010, 0x40080010, 0x40084010],
   [0x00000000, 0x04000000, 0x00000004, 0x04000004, 0x00010000, 0x04010000, 0x00010004, 0x04010004,
    0x00000100, 0x04000100, 0x00000104, 0x04000104, 0x00010100, 0x04010100, 0x00010104, 0x04010104],
   [0x00000000, 0x80000000, 0x00400000, 0x80400000, 0x00001000, 0x80001000, 0x00401000, 0x80401000,
    0x00000040, 0x80000040, 0x00400040, 0x80400040, 0x00001040, 0x80001040, 0x00401040, 0x80401040],
   [0x00000000, 0x20000000, 0x00000080, 0x20000080, 0x00040000, 0x20040000, 0x00040080, 0x20040080,
    0x01000000, 0x21000000, 0x01000080, 0x21000080, 0x01040000, 0x21040000, 0x01040080, 0x21040080],
   [0x00000000, 0x00002000, 0x00200000, 0x00202000, 0x00000008, 0x00002008, 0x00200008, 0x00202008,
    0x10000000, 0x10002000, 0x10200000, 0x10202000, 0x10000008, 0x10002008, 0x10200008, 0x10202008],
   [0x00000000, 0x02000000, 0x00000400, 0x02000400, 0x00100000, 0x02100000, 0x00100400, 0x02100400,
    0x00000001, 0x02000001, 0x00000401, 0x02000401, 0x00100001, 0x02100001, 0x00100401, 0x02100401],
   [0x00000000, 0x00000800, 0x00020000, 0x00020800, 0x00000020, 0x00000820, 0x00020020, 0x00020820,
    0x08000000, 0x08000800, 0x08020000, 0x08020800, 0x08000020, 0x08000820, 0x08020020, 0x08020820]]

/-- `ps(i, j)`. -/
def ps (i : ℕ) (j : BitVec w) : BitVec w :=
  BitVec.ofNat w ((ptbl.getD i []).getD ((sboxes.getD i []).getD j.toNat 0) 0)

/-- One round: `(l, r)` after it. -/
def desRound (lr : BitVec w × BitVec w) (k : RoundKeys w) : BitVec w × BitVec w :=
  let (l, r) := lr
  let x1 := rol1 r
  let x2 := ror4 x1 ^^^ k.1
  let x1 := x1 ^^^ k.2
  let v := l ^^^ ps 7 (x1 &&& 0x3f)
    ^^^ ps 5 ((x1 >>> 8) &&& 0x3f)
    ^^^ ps 3 ((x1 >>> 16) &&& 0x3f)
    ^^^ ps 1 ((x1 >>> 24) &&& 0x3f)
    ^^^ ps 6 (x2 &&& 0x3f)
    ^^^ ps 4 ((x2 >>> 8) &&& 0x3f)
    ^^^ ps 2 ((x2 >>> 16) &&& 0x3f)
    ^^^ ps 0 ((x2 >>> 24) &&& 0x3f)
  (r, v)

/-- The bytes that `des_crypt(block, flag)` stores, for a block that holds `s`. -/
def desBytes (keys : List (RoundKeys w)) (s : ℕ → UInt8) (flag : Int32) : List UInt8 :=
  finalTranspose ((if flag = 0 then keys else keys.reverse).foldl desRound (initialTranspose s))

/-- `des_crypt(block, flag)`. -/
def desCrypt (keys : List (RoundKeys w)) (b : Block UInt8) (block : ℕ) (flag : Int32) :
    Option (Block UInt8) :=
  (b.read block 8).bind fun s => b.write block (desBytes keys (fun i => s.getD i 0) flag)

/-- The loop of `ecb_crypt`, with `n` blocks to go. -/
def ecbLoop (keys : List (RoundKeys w)) (flag : Int32) : ℕ → ℕ → Block UInt8 →
    Option (Block UInt8)
  | 0, _, b => some b
  | n + 1, buf, b => (desCrypt keys b buf flag).bind (ecbLoop keys flag n (buf + 8))

/-- `ecb_crypt(key, buf, len, mode)`. -/
def ecbCrypt (w : ℕ) (key : ℕ → UInt8) (b : Block UInt8) (buf : ℕ) (len mode : UInt32) :
    Option (Int32 × Block UInt8) :=
  let keys := desSetkey w key
  (ecbLoop keys (mode &&& DES_DIRMASK).toInt32 ((roundUp len).toNat / 8) buf b).map fun b =>
    (desError mode, b)

/-- The body of the loop of `cbc_crypt` that encrypts. -/
def cbcEncryptBody (keys : List (RoundKeys w)) (b : Block UInt8) (buf : ℕ) (ivec : ℕ → UInt8) :
    Option (Block UInt8 × (ℕ → UInt8)) :=
  (b.read buf 8).bind fun s =>
  (b.write buf (xorBlock s (load ivec 0 8))).bind fun b =>
  (desCrypt keys b buf DES_ENCRYPT.toInt32).bind fun b =>
  (b.read buf 8).map fun s => (b, store ivec 0 s)

/-- The body of the loop of `cbc_crypt` that decrypts. -/
def cbcDecryptBody (keys : List (RoundKeys w)) (b : Block UInt8) (buf : ℕ) (ivec : ℕ → UInt8) :
    Option (Block UInt8 × (ℕ → UInt8)) :=
  (b.read buf 8).bind fun nvec =>
  (desCrypt keys b buf DES_DECRYPT.toInt32).bind fun b =>
  (b.read buf 8).bind fun s =>
  (b.write buf (xorBlock s (load ivec 0 8))).map fun b => (b, store ivec 0 nvec)

/-- `cbc_crypt(key, buf, len, mode, ivec)`. -/
def cbcCrypt (w : ℕ) (key : ℕ → UInt8) (b : Block UInt8) (buf : ℕ) (len mode : UInt32)
    (ivec : ℕ → UInt8) : Option (Int32 × Block UInt8 × (ℕ → UInt8)) :=
  let keys := desSetkey w key
  let n := (roundUp len).toNat / 8
  let body :=
    if mode &&& DES_DIRMASK = DES_ENCRYPT then cbcEncryptBody keys else cbcDecryptBody keys
  (cbcLoop body n buf b ivec).map fun r => (desError mode, r)

/-! ### The tables -/

/-- The S-boxes, at indices in the order of the bits of a half. -/
theorem sboxes_eq : sboxes = (List.range 8).map fun j => (List.range 64).map fun v =>
    (StandardDes.sbox j (StandardDes.sboxBit (BitVec.ofNat 8 v))).toNat := by
  decide +kernel

/-- The P-box permutation, for the nibble of each S-box. -/
theorem ptbl_eq : ptbl = (List.range 8).map fun j => (List.range 16).map fun x =>
    (StandardDes.pbox (BitVec.ofNat 32 x <<< (28 - 4 * j))).toNat := by
  decide +kernel

/-- Looking up a table of function values. -/
theorem getD_range_map {α : Type*} (f : ℕ → α) (n i : ℕ) (d : α) :
    ((List.range n).map f).getD i d = if i < n then f i else d := by
  rw [List.getD_eq_getElem?_getD, List.getElem?_map]
  rcases Nat.lt_or_ge i n with h | h
  · rw [List.getElem?_range h, if_pos h]
    rfl
  · rw [List.getElem?_eq_none (by rwa [List.length_range]), if_neg (Nat.not_lt.2 h)]
    rfl

/-- An entry of a table of rows. -/
theorem getD_getD_map {m n : ℕ} (f : ℕ → ℕ → ℕ) (i v : ℕ) :
    (((List.range m).map fun j => (List.range n).map (f j)).getD i []).getD v 0 =
      if i < m ∧ v < n then f i v else 0 := by
  rw [getD_range_map]
  by_cases hi : i < m
  · rw [if_pos hi, getD_range_map]
    simp only [hi, true_and]
  · rw [if_neg hi, List.getD_nil, if_neg fun h => hi h.1]

/-- **The two steps.**  `Psboxes` is `Ptbl` after `Sboxes`. -/
theorem ps_eq (i : ℕ) (j : BitVec w) : ps i j = LeoNet.ps i j := by
  have hnibble (v : ℕ) : (StandardDes.sbox i (StandardDes.sboxBit (BitVec.ofNat 8 v))).toNat < 16 :=
    Nat.lt_pow_two_of_testBit _ fun u hu => StandardDes.sbox_fits i _ u hu
  have hzero : (StandardDes.pbox (BitVec.ofNat 32 0 <<< (28 - 4 * i))).toNat = 0 := by
    rw [BitVec.zero_shiftLeft]
    decide
  rw [ps, LeoNet.ps, sboxes_eq, ptbl_eq, psboxes_eq, getD_getD_map, getD_getD_map, getD_getD_map]
  by_cases h : i < 8 ∧ j.toNat < 64
  · rw [if_pos h, if_pos ⟨h.1, hnibble _⟩, if_pos h, BitVec.ofNat_toNat (m := 32),
        BitVec.setWidth_eq]
  · -- neither table has the entry, and the word is zero
    rw [if_neg h, if_neg h, hzero, ite_self]

/-- The rounds of one block are the same in both builds. -/
theorem desCrypt_eq (keys : List (RoundKeys w)) (b : Block UInt8) (block : ℕ) (flag : Int32) :
    desCrypt keys b block flag = LeoNet.desCrypt keys b block flag := by
  have hround : (desRound : BitVec w × BitVec w → RoundKeys w → _) = LeoNet.desRound := by
    funext lr k
    simp only [desRound, LeoNet.desRound, ps_eq]
  simp only [desCrypt, LeoNet.desCrypt, desBytes, LeoNet.desBytes, hround]

/-- So is the loop over the blocks. -/
theorem ecbLoop_eq (keys : List (RoundKeys w)) (flag : Int32) (n buf : ℕ) (b : Block UInt8) :
    ecbLoop keys flag n buf b = LeoNet.ecbLoop keys flag n buf b := by
  induction n generalizing buf b with
  | zero => rfl
  | succ n ih =>
    rw [ecbLoop, LeoNet.ecbLoop, desCrypt_eq]
    congr 1
    funext b'
    exact ih (buf + 8) b'

/-- **The two builds.**  For every key, every buffer and every mode, inside the buffer or not, the
    functions of the `SMALL` build return and store what those of the default build do. -/
theorem crypt_eq (key : ℕ → UInt8) (b : Block UInt8) (buf : ℕ) (len mode : UInt32)
    (ivec : ℕ → UInt8) : ecbCrypt w key b buf len mode = LeoNet.ecbCrypt w key b buf len mode ∧
      cbcCrypt w key b buf len mode ivec = LeoNet.cbcCrypt w key b buf len mode ivec := by
  have hbodies (keys : List (RoundKeys w)) : cbcEncryptBody keys = LeoNet.cbcEncryptBody keys ∧
      cbcDecryptBody keys = LeoNet.cbcDecryptBody keys := by
    constructor <;> funext b buf ivec
    · simp only [cbcEncryptBody, LeoNet.cbcEncryptBody, desCrypt_eq]
    · simp only [cbcDecryptBody, LeoNet.cbcDecryptBody, desCrypt_eq]
  constructor
  · simp only [ecbCrypt, LeoNet.ecbCrypt, ecbLoop_eq]
  · simp only [cbcCrypt, LeoNet.cbcCrypt, hbodies]

end LeoNet.Small
