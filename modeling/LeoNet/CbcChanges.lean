import LeoNet.CbcMode

namespace LeoNet

open Memory Transducer

/-!
# Changes in a chain — what `cbc_crypt` makes of a block that was changed

Each block that `cbc_crypt` stores is given by the block it read there and by the encrypted block
before it, in either direction.

* `cbcEncrypt_blocks` / `cbcDecrypt_blocks` — these equations;
* `cbcEncrypt_change` — a change of one block of the plain text changes every block from there on;
* `cbcDecrypt_change` — a change of one encrypted block changes two blocks, the second one in the
  same bits.
-/

variable {w : ℕ}

/-- Block `i` of the buffer from `buf` on. -/
def blockAt (b : Block UInt8) (buf i : ℕ) : List UInt8 := load b.byte (buf + 8 * i) 8

/-- What is chained into block `i`, where `c` holds the encrypted blocks. -/
def chained (ivec : ℕ → UInt8) (c : Block UInt8) (buf : ℕ) : ℕ → List UInt8
  | 0 => load ivec 0 8
  | i + 1 => blockAt c buf i

/-- What stands in memory at a block's place is a block. -/
theorem isBlock_blockAt (b : Block UInt8) (buf i : ℕ) : IsBlock (blockAt b buf i) :=
  load_length _ _ _

/-- So is what a block is chained with. -/
theorem isBlock_chained (ivec : ℕ → UInt8) (c : Block UInt8) (buf i : ℕ) :
    IsBlock (chained ivec c buf i) := by
  cases i <;> exact load_length _ _ _

/-! ### The equations of the chain -/

section Blocks

variable (w) (key ivec : ℕ → UInt8) {b : Block UInt8} {buf : ℕ} {len : UInt32}

/-- The blocks that `cbc_crypt` stores are what the transducer of its direction puts out. -/
theorem cbcCrypt_blocks (mode : UInt32) (hbuf : buf + (roundUp len).toNat ≤ b.size) :
    ∃ b' ivec', cbcCrypt w key b buf len mode ivec = some (desError mode, b', ivec') ∧
      ∀ i < (roundUp len).toNat / 8,
        (transduce (cbcStep (desSetkey w key) mode) (load ivec 0 8)
          (chunks b.byte buf 8 ((roundUp len).toNat / 8))).1[i]? = some (blockAt b' buf i) := by
  refine ⟨_, _, cbcCrypt_eq_some key mode hbuf ivec, fun i hi => ?_⟩
  set n := (roundUp len).toNat / 8
  set out := (transduce (cbcStep (desSetkey w key) mode) (load ivec 0 8)
    (chunks b.byte buf 8 n)).1 with hout
  obtain ⟨hlen, -, -⟩ := cbcRun_spec (desSetkey w key) mode (load_length ivec 0 8) b.byte buf n
  have hcount : out.length = n := by
    rw [hout, transduce_length, chunks_length]
  have hback : chunks (store b.byte buf out.flatten) buf 8 n = out := by
    rw [← hcount]
    exact chunks_store_flatten b.byte buf hlen
  have hread := chunks_getElem? (store b.byte buf out.flatten) buf 8 hi
  rw [hback] at hread
  exact hread

/-- **Encryption**, block by block. -/
theorem cbcEncrypt_blocks {mode : UInt32} (hmode : mode &&& DES_DIRMASK = DES_ENCRYPT)
    (hbuf : buf + (roundUp len).toNat ≤ b.size) :
    ∃ b' ivec', cbcCrypt w key b buf len mode ivec = some (desError mode, b', ivec') ∧
      ∀ i < (roundUp len).toNat / 8, blockAt b' buf i =
        desBlock (desSetkey w key) DES_ENCRYPT.toInt32
          (xorBlock (blockAt b buf i) (chained ivec b' buf i)) := by
  obtain ⟨b', ivec', hcrypt, hblocks⟩ := cbcCrypt_blocks w key ivec mode hbuf
  refine ⟨b', ivec', hcrypt, fun i hi => ?_⟩
  have hread {i : ℕ} (hi : i < (roundUp len).toNat / 8) := chunks_getElem? b.byte buf 8 hi
  have hstep : cbcStep (desSetkey w key) mode = cbcEncryptStep (desSetkey w key) := if_pos hmode
  rw [hstep] at hblocks
  have hout := hblocks i hi
  cases i with
  | zero =>
    rw [transduce_getElem?, hread hi, Option.map_some] at hout
    exact (Option.some.inj hout).symm
  | succ i =>
    have hi' := Nat.lt_of_succ_lt hi
    rw [transduce_succ_of_output (fun _ _ => rfl) (hread hi') (hread hi) (hblocks i hi')] at hout
    exact (Option.some.inj hout).symm

/-- **Decryption**, block by block: any block can be decrypted with the one before it. -/
theorem cbcDecrypt_blocks {mode : UInt32} (hmode : mode &&& DES_DIRMASK = DES_DECRYPT)
    (hbuf : buf + (roundUp len).toNat ≤ b.size) :
    ∃ b' ivec', cbcCrypt w key b buf len mode ivec = some (desError mode, b', ivec') ∧
      ∀ i < (roundUp len).toNat / 8, blockAt b' buf i =
        xorBlock (desBlock (desSetkey w key) DES_DECRYPT.toInt32 (blockAt b buf i))
          (chained ivec b buf i) := by
  obtain ⟨b', ivec', hcrypt, hblocks⟩ := cbcCrypt_blocks w key ivec mode hbuf
  refine ⟨b', ivec', hcrypt, fun i hi => ?_⟩
  have hread {i : ℕ} (hi : i < (roundUp len).toNat / 8) := chunks_getElem? b.byte buf 8 hi
  have hne : ¬mode &&& DES_DIRMASK = DES_ENCRYPT := by
    rw [hmode]
    decide
  have hstep : cbcStep (desSetkey w key) mode = cbcDecryptStep (desSetkey w key) := if_neg hne
  rw [hstep] at hblocks
  have hout := hblocks i hi
  cases i with
  | zero =>
    rw [transduce_getElem?, hread hi, Option.map_some] at hout
    exact (Option.some.inj hout).symm
  | succ i =>
    have hi' := Nat.lt_of_succ_lt hi
    rw [transduce_succ_of_input (fun _ _ => rfl) (hread hi') (hread hi)] at hout
    exact (Option.some.inj hout).symm

end Blocks

/-! ### Blocks mixed together -/

section Mixing

variable {s s' t t' : List UInt8}

/-- The order does not matter. -/
theorem xorBlock_comm (s t : List UInt8) : xorBlock s t = xorBlock t s := by
  rw [xorBlock, xorBlock, List.zipWith_comm]
  congr 1
  funext x y
  exact UInt8.xor_comm y x

/-- A block is determined by its sum with another one. -/
theorem xorBlock_left_inj (hs : IsBlock s) (hs' : IsBlock s') (ht : IsBlock t) :
    xorBlock s t = xorBlock s' t ↔ s = s' := by
  refine ⟨fun h => ?_, fun h => by rw [h]⟩
  rw [← xorBlock_xorBlock (hs.trans ht.symm), h, xorBlock_xorBlock (hs'.trans ht.symm)]

/-- The same, for the block on the right. -/
theorem xorBlock_right_inj (hs : IsBlock s) (ht : IsBlock t) (ht' : IsBlock t') :
    xorBlock s t = xorBlock s t' ↔ t = t' := by
  rw [xorBlock_comm s, xorBlock_comm s, xorBlock_left_inj ht ht' hs]

/-- What is mixed in instead of `t` shows as the difference to `t`. -/
theorem xorBlock_replace (ht : t.length = s.length) (ht' : t'.length = s.length) :
    xorBlock s t' = xorBlock (xorBlock s t) (xorBlock t t') := by
  induction s generalizing t t' with
  | nil => rfl
  | cons x s ih =>
    obtain _ | ⟨y, t⟩ := t
    · cases ht
    · obtain _ | ⟨z, t'⟩ := t'
      · cases ht'
      · have hcell : x ^^^ z = x ^^^ y ^^^ (y ^^^ z) := by
          rw [UInt8.xor_assoc, ← UInt8.xor_assoc y y z, UInt8.xor_self, UInt8.zero_xor]
        have hrest := ih (Nat.succ.inj ht) (Nat.succ.inj ht')
        unfold xorBlock at *
        rw [List.zipWith_cons_cons, List.zipWith_cons_cons, List.zipWith_cons_cons,
            List.zipWith_cons_cons, ← hcell, ← hrest]

/-- Different blocks are crypted to different ones. -/
theorem desBlock_inj (hw : 32 ≤ w) (keys : List (RoundKeys w)) (flag : Int32) (hs : IsBlock s)
    (hs' : IsBlock s') : desBlock keys flag s = desBlock keys flag s' ↔ s = s' := by
  refine ⟨fun h => ?_, fun h => by rw [h]⟩
  obtain ⟨flag', hflag⟩ := exists_other_flag flag
  rw [← desBlock_inverse hw keys hs hflag, h, desBlock_inverse hw keys hs' hflag]

end Mixing

/-! ### A changed block -/

/-- Of the `n` blocks from `buf` on, the two buffers differ in block `j` alone. -/
structure DiffersInBlock (b c : Block UInt8) (buf n j : ℕ) : Prop where
  size : c.size = b.size
  lt : j < n
  blocks : ∀ i < n, blockAt c buf i = blockAt b buf i ↔ i ≠ j

/-- **A change before encryption.**  When two buffers differ in one block, `cbc_crypt` stores the
    same blocks before it and another one in its place and in every place behind it. -/
theorem cbcEncrypt_change (hw : 32 ≤ w) (key ivec : ℕ → UInt8) {b c : Block UInt8} {buf j : ℕ}
    {len mode : UInt32} (hmode : mode &&& DES_DIRMASK = DES_ENCRYPT)
    (hbuf : buf + (roundUp len).toNat ≤ b.size)
    (hdiff : DiffersInBlock b c buf ((roundUp len).toNat / 8) j) :
    ∃ b' c' ivec₁ ivec₂, cbcCrypt w key b buf len mode ivec = some (desError mode, b', ivec₁) ∧
      cbcCrypt w key c buf len mode ivec = some (desError mode, c', ivec₂) ∧
      ∀ i < (roundUp len).toNat / 8, blockAt c' buf i = blockAt b' buf i ↔ i < j := by
  obtain ⟨b', ivec₁, hb, hblocks⟩ := cbcEncrypt_blocks w key ivec hmode hbuf
  obtain ⟨c', ivec₂, hc, hblocks'⟩ := cbcEncrypt_blocks w key ivec hmode
    (by rwa [hdiff.size] : buf + (roundUp len).toNat ≤ c.size)
  refine ⟨b', c', ivec₁, ivec₂, hb, hc, fun i hi => ?_⟩
  -- the cipher has different inputs for different blocks
  have hinput {i : ℕ} : desBlock (desSetkey w key) DES_ENCRYPT.toInt32
        (xorBlock (blockAt c buf i) (chained ivec c' buf i)) =
      desBlock (desSetkey w key) DES_ENCRYPT.toInt32
        (xorBlock (blockAt b buf i) (chained ivec b' buf i)) ↔
      xorBlock (blockAt c buf i) (chained ivec c' buf i) =
        xorBlock (blockAt b buf i) (chained ivec b' buf i) :=
    desBlock_inj hw _ _ (xorBlock_length (isBlock_blockAt _ _ _) (isBlock_chained _ _ _ _))
      (xorBlock_length (isBlock_blockAt _ _ _) (isBlock_chained _ _ _ _))
  -- what was chained in says whether the block before it is still the same
  induction i with
  | zero =>
    have hiv : IsBlock (load ivec 0 8) := load_length _ _ _
    rw [hblocks 0 hi, hblocks' 0 hi, hinput]
    show xorBlock _ (load ivec 0 8) = xorBlock _ (load ivec 0 8) ↔ _
    rw [xorBlock_left_inj (isBlock_blockAt _ _ _) (isBlock_blockAt _ _ _) hiv, hdiff.blocks 0 hi]
    omega
  | succ i ih =>
    have hbefore := ih (Nat.lt_of_succ_lt hi)
    rw [hblocks (i + 1) hi, hblocks' (i + 1) hi, hinput]
    show xorBlock _ (blockAt c' buf i) = xorBlock _ (blockAt b' buf i) ↔ _
    by_cases hij : i < j
    · rw [hbefore.2 hij, xorBlock_left_inj (isBlock_blockAt _ _ _) (isBlock_blockAt _ _ _)
          (isBlock_blockAt _ _ _), hdiff.blocks (i + 1) hi]
      omega
    · have hsame : blockAt c buf (i + 1) = blockAt b buf (i + 1) :=
        (hdiff.blocks (i + 1) hi).2 (by omega)
      rw [hsame, xorBlock_right_inj (isBlock_blockAt _ _ _) (isBlock_blockAt _ _ _)
          (isBlock_blockAt _ _ _)]
      exact hbefore.trans (by omega)

/-- Three blocks, of which the second is changed in one byte. -/
theorem differsInBlock_one : DiffersInBlock ⟨24, fun a => .ofNat a⟩
    ⟨24, fun a => if a = 9 then 0 else .ofNat a⟩ 0 ((roundUp 24).toNat / 8) 1 :=
  ⟨rfl, by decide, by decide⟩

/-- Three blocks, of which the second is changed: the first one stays. -/
theorem cbcEncrypt_change_one :
    ∃ b' c' ivec₁ ivec₂, cbcCrypt 32 (fun i => .ofNat i) ⟨24, fun a => .ofNat a⟩ 0 24 DES_ENCRYPT
        (fun _ => 7) = some (desError DES_ENCRYPT, b', ivec₁) ∧
      cbcCrypt 32 (fun i => .ofNat i) ⟨24, fun a => if a = 9 then 0 else .ofNat a⟩ 0 24 DES_ENCRYPT
        (fun _ => 7) = some (desError DES_ENCRYPT, c', ivec₂) ∧
      ∀ i < (roundUp 24).toNat / 8, blockAt c' 0 i = blockAt b' 0 i ↔ i < 1 :=
  cbcEncrypt_change (by decide) _ _ (by decide) (by decide) differsInBlock_one

/-- **A change before decryption.**  When two encrypted buffers differ in one block, `cbc_crypt`
    stores another block in its place; in the next block it changes the same bits; and all others are
    as they would have been. -/
theorem cbcDecrypt_change (hw : 32 ≤ w) (key ivec : ℕ → UInt8) {b c : Block UInt8} {buf j : ℕ}
    {len mode : UInt32} (hmode : mode &&& DES_DIRMASK = DES_DECRYPT)
    (hbuf : buf + (roundUp len).toNat ≤ b.size)
    (hdiff : DiffersInBlock b c buf ((roundUp len).toNat / 8) j) :
    ∃ b' c' ivec₁ ivec₂, cbcCrypt w key b buf len mode ivec = some (desError mode, b', ivec₁) ∧
      cbcCrypt w key c buf len mode ivec = some (desError mode, c', ivec₂) ∧
      ∀ i < (roundUp len).toNat / 8,
        (i = j → blockAt c' buf i ≠ blockAt b' buf i) ∧
        (i = j + 1 → blockAt c' buf i = xorBlock (blockAt b' buf i)
          (xorBlock (blockAt b buf j) (blockAt c buf j))) ∧
        (i ≠ j → i ≠ j + 1 → blockAt c' buf i = blockAt b' buf i) := by
  obtain ⟨b', ivec₁, hb, hblocks⟩ := cbcDecrypt_blocks w key ivec hmode hbuf
  obtain ⟨c', ivec₂, hc, hblocks'⟩ := cbcDecrypt_blocks w key ivec hmode
    (by rwa [hdiff.size] : buf + (roundUp len).toNat ≤ c.size)
  refine ⟨b', c', ivec₁, ivec₂, hb, hc, fun i hi => ?_⟩
  have hsame (hne : i ≠ j) : blockAt c buf i = blockAt b buf i := (hdiff.blocks i hi).2 hne
  -- only the block behind the changed one has another one chained in
  have hchained (hne : i ≠ j + 1) : chained ivec c buf i = chained ivec b buf i := by
    cases i with
    | zero => rfl
    | succ i => exact (hdiff.blocks i (Nat.lt_of_succ_lt hi)).2 fun h => hne (by rw [h])
  rw [hblocks i hi, hblocks' i hi]
  refine ⟨fun heq => ?_, fun heq => ?_, fun hne hne' => ?_⟩
  · rw [hchained (by omega), Ne, xorBlock_left_inj rfl rfl (isBlock_chained _ _ _ _),
        desBlock_inj hw _ _ (isBlock_blockAt _ _ _) (isBlock_blockAt _ _ _), hdiff.blocks i hi]
    exact not_not.2 heq
  · subst heq
    rw [hsame (by omega)]
    exact xorBlock_replace (isBlock_blockAt b buf j) (isBlock_blockAt c buf j)
  · rw [hsame hne, hchained hne']

/-- Decrypting the same blocks: the second changes, the third is off by the difference. -/
theorem cbcDecrypt_change_one :
    ∃ b' c' ivec₁ ivec₂, cbcCrypt 32 (fun i => .ofNat i) ⟨24, fun a => .ofNat a⟩ 0 24 DES_DECRYPT
        (fun _ => 7) = some (desError DES_DECRYPT, b', ivec₁) ∧
      cbcCrypt 32 (fun i => .ofNat i) ⟨24, fun a => if a = 9 then 0 else .ofNat a⟩ 0 24 DES_DECRYPT
        (fun _ => 7) = some (desError DES_DECRYPT, c', ivec₂) ∧
      ∀ i < (roundUp 24).toNat / 8,
        (i = 1 → blockAt c' 0 i ≠ blockAt b' 0 i) ∧
        (i = 1 + 1 → blockAt c' 0 i = xorBlock (blockAt b' 0 i)
          (xorBlock (blockAt ⟨24, fun a => .ofNat a⟩ 0 1)
            (blockAt ⟨24, fun a => if a = 9 then 0 else .ofNat a⟩ 0 1))) ∧
        (i ≠ 1 → i ≠ 1 + 1 → blockAt c' 0 i = blockAt b' 0 i) :=
  cbcDecrypt_change (by decide) _ _ (by decide) (by decide) differsInBlock_one

end LeoNet
