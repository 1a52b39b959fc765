import LeoNet.Lib.Word

namespace LeoNet

open Memory

/-!
# `leo_dof_crypto.c` — the XOR cipher and the CRC of the game protocol

Buffers are objects with an end: an access outside is undefined, and so is then the call.
`crc32_table` is a parameter, the 256 words the code finds from its address on; the table the
code computes at start-up is `initialCrc32Table`.

* `xorCrypt_eq_some` — `xor_crypt` is defined on every range inside the buffer's object;
* `xorCrypt_byte` — it adds to every byte of the range the one `keystream` has for it, and leaves
  the others alone;
* `checkCrc32_eq_some` / `checkCrc32_four_le` — so is `check_crc32`, for the lengths that hold
  the trailing word and no others.
-/

/-- The `int` at offset `4 * j` of a key. -/
def keyWord (key : ℕ → UInt8) (j : ℕ) : UInt32 := UInt32.ofNat (ofBytes (load key (4 * j) 4))

/-- The first loop of `xor_crypt`: `n` more words from offset `p` on, with key word `j` next. -/
def xorSections (key : ℕ → UInt8) : ℕ → ℕ → ℕ → Block UInt8 → Option (Block UInt8)
  | 0, _, _, b => some b
  | n + 1, j, p, b =>
    (b.readWord 4 p).bind fun w =>
      (b.writeWord 4 p (UInt32.ofNat w ^^^ keyWord key j).toNat).bind fun b =>
        xorSections key n ((j + 1) % 4) (p + 4) b

/-- The second loop of `xor_crypt`: `n` more bytes from offset `p` on, with key byte `k` next. -/
def xorRemains (key : ℕ → UInt8) : ℕ → ℕ → ℕ → Block UInt8 → Option (Block UInt8)
  | 0, _, _, b => some b
  | n + 1, k, p, b =>
    (b.read p 1).bind fun c =>
      (b.write p (c.map (· ^^^ key k))).bind fun b => xorRemains key n (k + 1) (p + 1) b

/-- `xor_crypt(buf, len, key)`; it always returns `true`. -/
def xorCrypt (b : Block UInt8) (buf : ℕ) (len : UInt32) (key : ℕ → UInt8) :
    Option (Block UInt8) :=
  let sections := len.toNat / 4
  let remains := len.toNat % 4
  (xorSections key sections 0 buf b).bind fun b =>
    xorRemains key remains 0 (buf + (len.toNat - remains)) b

/-- `xor_decrypt(buf, len, key)`. -/
def xorDecrypt (b : Block UInt8) (buf : ℕ) (len : UInt32) (key : ℕ → UInt8) :
    Option (Block UInt8) :=
  xorCrypt b buf len key

/-- The loop of `reflect`, with `k` bits to go. -/
def reflectLoop : ℕ → UInt32 → UInt32 → UInt32
  | 0, _, val => val
  | k + 1, l, val =>
    reflectLoop k (l >>> 1) (if (l &&& 1) != 0 then val ||| (1 <<< UInt32.ofNat k) else val)

/-- `reflect(l, c)`. -/
def reflect (l : UInt32) (c : ℕ) : UInt32 := reflectLoop c l 0

/-- `multinomial`. -/
def multinomial : UInt32 := 0x04c11db7

/-- One pass of the inner loop of `initial_crc32_table`. -/
def crcTableStep (t : UInt32) : UInt32 :=
  let flag : UInt32 := t &&& 0x80000000
  (t <<< 1) ^^^ (if flag == 0 then 0 else multinomial)

/-- `crc32_table[i]` after `initial_crc32_table()`. -/
def initialCrc32Table (i : UInt8) : UInt32 :=
  reflect (Nat.iterate crcTableStep 8 (reflect i.toUInt32 8 <<< 24)) 32

/-- One pass of the loop of `generate_crc32`. -/
def crcStep (table : UInt8 → UInt32) (oldCrc32 : UInt32) (c : UInt8) : UInt32 :=
  let t : UInt32 := (oldCrc32 >>> 24) &&& 0xff
  ((oldCrc32 <<< 8) ||| (c.toUInt32 &&& 0xff)) ^^^ table t.toUInt8

/-- `generate_crc32(buf, len)`. -/
def generateCrc32 (table : UInt8 → UInt32) (b : Block UInt8) (buf : ℕ) (len : UInt32) :
    Option UInt32 :=
  (b.read buf len.toNat).map (List.foldl (crcStep table) 0)

/-- `check_crc32(buf, len)`.  The index of the CRC word, `len - sizeof(unsigned int)`, is a `size_t`:
    below `4` the word is looked for in front of `buf`.  The length that `generate_crc32` is given is
    an `unsigned int`, and wraps there. -/
def checkCrc32 (table : UInt8 → UInt32) (b : Block UInt8) (buf : ℕ) (len : UInt32) :
    Option Bool :=
  (if 4 ≤ buf + len.toNat then b.readWord 4 (buf + len.toNat - 4) else none).bind fun crc =>
    (generateCrc32 table b buf (len - 4)).map fun newCrc => UInt32.ofNat crc == newCrc

/-! ### Inside the object every access goes through -/

/-- The loop over the words is defined inside the block. -/
theorem xorSections_eq_some (key : ℕ → UInt8) {n j p : ℕ} {b : Block UInt8}
    (h : p + 4 * n ≤ b.size) : ∃ b', xorSections key n j p b = some b' ∧ b'.size = b.size := by
  induction n generalizing j p b with
  | zero => exact ⟨b, rfl, rfl⟩
  | succ n ih =>
    obtain ⟨b₁, hb₁, hsize₁⟩ := Block.writeWord_eq_some (b := b) (k := 4) (p := p)
      (UInt32.ofNat (ofBytes (load b.byte p 4)) ^^^ keyWord key j).toNat (by omega)
    obtain ⟨b₂, hb₂, hsize₂⟩ := ih (j := (j + 1) % 4) (p := p + 4) (b := b₁) (by omega)
    refine ⟨b₂, ?_, by omega⟩
    rw [xorSections, Block.readWord_eq_some (by omega), Option.bind_some, hb₁, Option.bind_some,
        hb₂]

/-- So is the loop over the bytes that remain. -/
theorem xorRemains_eq_some (key : ℕ → UInt8) {n k p : ℕ} {b : Block UInt8}
    (h : p + n ≤ b.size) : ∃ b', xorRemains key n k p b = some b' ∧ b'.size = b.size := by
  induction n generalizing k p b with
  | zero => exact ⟨b, rfl, rfl⟩
  | succ n ih =>
    rw [xorRemains, Block.read_eq_some (by omega), Option.bind_some,
        Block.write_eq_some (by simp; omega), Option.bind_some]
    exact ih (by show p + 1 + n ≤ b.size; omega)

/-- `xor_crypt` is defined on every range inside the object, and leaves its size alone. -/
theorem xorCrypt_eq_some {b : Block UInt8} {buf : ℕ} {len : UInt32} (key : ℕ → UInt8)
    (h : buf + len.toNat ≤ b.size) : ∃ b', xorCrypt b buf len key = some b' ∧ b'.size = b.size := by
  obtain ⟨b₁, hb₁, hsize₁⟩ :=
    xorSections_eq_some key (n := len.toNat / 4) (j := 0) (p := buf) (b := b) (by omega)
  obtain ⟨b₂, hb₂, hsize₂⟩ :=
    xorRemains_eq_some key (n := len.toNat % 4) (k := 0) (p := buf + (len.toNat - len.toNat % 4))
      (b := b₁) (by omega)
  refine ⟨b₂, ?_, by omega⟩
  simp only [xorCrypt]
  rw [hb₁, Option.bind_some, hb₂]

/-- A length that holds the trailing word has it behind the bytes that are checked. -/
theorem checkCrc32_of_four_le (table : UInt8 → UInt32) (b : Block UInt8) (buf : ℕ) {len : UInt32}
    (h4 : 4 ≤ len.toNat) :
    checkCrc32 table b buf len = (b.readWord 4 (buf + (len - 4).toNat)).bind fun crc =>
      (generateCrc32 table b buf (len - 4)).map fun newCrc => UInt32.ofNat crc == newCrc := by
  have hsub : (len - 4).toNat = len.toNat - 4 :=
    UInt32.toNat_sub_of_le _ _ (UInt32.le_iff_toNat_le.mpr h4)
  rw [checkCrc32, if_pos (by omega), hsub, Nat.add_sub_assoc h4]

/-- `check_crc32` is defined on every range inside the object that holds the trailing word. -/
theorem checkCrc32_eq_some (table : UInt8 → UInt32) {b : Block UInt8} {buf : ℕ} {len : UInt32}
    (h4 : 4 ≤ len.toNat) (h : buf + len.toNat ≤ b.size) :
    ∃ ok, checkCrc32 table b buf len = some ok := by
  have hsub : (len - 4).toNat = len.toNat - 4 :=
    UInt32.toNat_sub_of_le _ _ (UInt32.le_iff_toNat_le.mpr h4)
  rw [checkCrc32_of_four_le _ _ _ h4, generateCrc32, Block.readWord_eq_some (by omega),
      Option.bind_some, Block.read_eq_some (by omega), Option.map_some, Option.map_some]
  exact ⟨_, rfl⟩

/-! ### And only there -/

/-- The loop over the words leaves the size alone. -/
theorem xorSections_size {key : ℕ → UInt8} {n j p : ℕ} {b b' : Block UInt8}
    (h : xorSections key n j p b = some b') : b'.size = b.size := by
  induction n generalizing j p b with
  | zero =>
    cases h
    rfl
  | succ n ih =>
    rw [xorSections, Option.bind_eq_some_iff] at h
    obtain ⟨w, -, h⟩ := h
    rw [Option.bind_eq_some_iff] at h
    obtain ⟨b₁, hb₁, h⟩ := h
    rw [ih h, (Block.write_inv hb₁).2]

/-- It is defined inside the block alone. -/
theorem xorSections_le {key : ℕ → UInt8} {n j p : ℕ} {b b' : Block UInt8}
    (h : xorSections key n j p b = some b') (hn : 0 < n) : p + 4 * n ≤ b.size := by
  induction n generalizing j p b with
  | zero => omega
  | succ n ih =>
    rw [xorSections, Option.bind_eq_some_iff] at h
    obtain ⟨w, hw, h⟩ := h
    rw [Option.bind_eq_some_iff] at h
    obtain ⟨b₁, hb₁, h⟩ := h
    have hword := Block.readWord_le hw
    rcases Nat.eq_zero_or_pos n with rfl | hpos
    · omega
    · have hrest := ih h hpos
      rw [(Block.write_inv hb₁).2] at hrest
      omega

/-- The loop over the bytes leaves the size alone. -/
theorem xorRemains_size {key : ℕ → UInt8} {n k p : ℕ} {b b' : Block UInt8}
    (h : xorRemains key n k p b = some b') : b'.size = b.size := by
  induction n generalizing k p b with
  | zero =>
    cases h
    rfl
  | succ n ih =>
    rw [xorRemains, Option.bind_eq_some_iff] at h
    obtain ⟨c, -, h⟩ := h
    rw [Option.bind_eq_some_iff] at h
    obtain ⟨b₁, hb₁, h⟩ := h
    rw [ih h, (Block.write_inv hb₁).2]

/-- It is defined inside the block alone. -/
theorem xorRemains_le {key : ℕ → UInt8} {n k p : ℕ} {b b' : Block UInt8}
    (h : xorRemains key n k p b = some b') (hn : 0 < n) : p + n ≤ b.size := by
  induction n generalizing k p b with
  | zero => omega
  | succ n ih =>
    rw [xorRemains, Option.bind_eq_some_iff] at h
    obtain ⟨c, hc, h⟩ := h
    rw [Option.bind_eq_some_iff] at h
    obtain ⟨b₁, hb₁, h⟩ := h
    have hbyte := Block.read_le hc
    rcases Nat.eq_zero_or_pos n with rfl | hpos
    · omega
    · have hrest := ih h hpos
      rw [(Block.write_inv hb₁).2] at hrest
      omega

/-- `xor_crypt` leaves the size alone. -/
theorem xorCrypt_size {key : ℕ → UInt8} {b b' : Block UInt8} {buf : ℕ} {len : UInt32}
    (h : xorCrypt b buf len key = some b') : b'.size = b.size := by
  simp only [xorCrypt] at h
  rw [Option.bind_eq_some_iff] at h
  obtain ⟨b₁, hb₁, h⟩ := h
  rw [xorRemains_size h, xorSections_size hb₁]

/-- `xor_crypt` is defined only on ranges inside the object. -/
theorem xorCrypt_le {key : ℕ → UInt8} {b b' : Block UInt8} {buf : ℕ} {len : UInt32}
    (h : xorCrypt b buf len key = some b') (hpos : 0 < len.toNat) :
    buf + len.toNat ≤ b.size := by
  simp only [xorCrypt] at h
  rw [Option.bind_eq_some_iff] at h
  obtain ⟨b₁, hb₁, h⟩ := h
  by_cases hr : len.toNat % 4 = 0
  · have hs : 0 < len.toNat / 4 := by omega
    have := xorSections_le hb₁ hs
    omega
  · have := xorRemains_le h (by omega)
    rw [xorSections_size hb₁] at this
    omega

/-- `check_crc32` is not defined on a length that does not hold the trailing word. -/
theorem checkCrc32_four_le {table : UInt8 → UInt32} {b : Block UInt8} {buf : ℕ} {len : UInt32}
    {ok : Bool} (hsize : b.size < UInt32.size) (h : checkCrc32 table b buf len = some ok) :
    4 ≤ len.toNat := by
  rw [checkCrc32, Option.bind_eq_some_iff] at h
  obtain ⟨crc, hword, h⟩ := h
  rw [generateCrc32, Option.map_map, Option.map_eq_some_iff] at h
  obtain ⟨bytes, hread, -⟩ := h
  have hfront : 4 ≤ buf + len.toNat := by
    by_contra hnot
    rw [if_neg hnot] at hword
    cases hword
  have hin := Block.read_le hread
  have hsizes : UInt32.size = 4294967296 := rfl
  by_contra hlt
  -- below `4` the subtraction wraps, and the loop runs off every object that has a word before `buf`
  have hwrap : (len - 4).toNat = 2 ^ 32 + len.toNat - 4 := by
    rw [UInt32.toNat_sub]
    show (2 ^ 32 - 4 + len.toNat) % 2 ^ 32 = _
    omega
  omega

/-! ### What `xor_crypt` does to the bytes -/

/-- The byte that `xor_crypt` adds to byte `i` of a range of `len` bytes.  The words of the range
    go through the sixteen key bytes in turn; the bytes behind the last word start over. -/
def keystream (key : ℕ → UInt8) (len i : ℕ) : UInt8 :=
  if i < len - len % 4 then key (i % 16) else key (i % 4)

/-- One word of a section, exclusive-or the key word: the exclusive or of their bytes. -/
theorem toBytes_xor_keyWord (key : ℕ → UInt8) (j : ℕ) (b : Block UInt8) (p : ℕ) :
    toBytes 4 (UInt32.ofNat (ofBytes (load b.byte p 4)) ^^^ keyWord key j).toNat =
      List.zipWith (· ^^^ ·) (load b.byte p 4) (load key (4 * j) 4) := by
  have hword (m : ℕ → UInt8) (p : ℕ) : (UInt32.ofNat (ofBytes (load m p 4))).toNat =
      ofBytes (load m p 4) := by
    have hlt := ofBytes_lt (load m p 4)
    rw [load_length] at hlt
    rw [UInt32.toNat_ofNat']
    exact Nat.mod_eq_of_lt hlt
  rw [UInt32.toNat_xor, keyWord, hword, hword,
      toBytes_xor (load_length _ _ _) (load_length _ _ _)]

/-- The loop over the words adds the key to each byte of its range. -/
theorem xorSections_byte {key : ℕ → UInt8} {n j p : ℕ} {b b' : Block UInt8}
    (h : xorSections key n j p b = some b') (hj : j < 4) (a : ℕ) :
    b'.byte a =
      if p ≤ a ∧ a < p + 4 * n then b.byte a ^^^ key ((4 * j + (a - p)) % 16) else b.byte a := by
  induction n generalizing j p b with
  | zero =>
    cases h
    rw [if_neg (by omega)]
  | succ n ih =>
    rw [xorSections, Option.bind_eq_some_iff] at h
    obtain ⟨w, hw, h⟩ := h
    rw [Option.bind_eq_some_iff] at h
    obtain ⟨b₁, hb₁, h⟩ := h
    have hin := Block.readWord_le hw
    rw [Block.readWord_eq_some hin] at hw
    cases hw
    rw [Block.writeWord, toBytes_xor_keyWord, Block.write_eq_some (by simpa using hin)] at hb₁
    cases hb₁
    rw [ih h (Nat.mod_lt _ (by decide))]
    -- the word at `p`, or the sections behind it
    simp only [store_apply, List.length_zipWith, load_length, min_self]
    by_cases hword : p ≤ a ∧ a < p + 4
    · rw [if_neg (by omega), dif_pos hword, if_pos (by omega)]
      simp only [load, List.getElem_zipWith, List.getElem_map, List.getElem_range]
      rw [show p + (a - p) = a by omega, Nat.mod_eq_of_lt (by omega)]
    · rw [dif_neg hword]
      by_cases hrest : p ≤ a ∧ a < p + 4 * (n + 1)
      · rw [if_pos (by omega), if_pos hrest]
        congr 2
        omega
      · rw [if_neg (by omega), if_neg hrest]

/-- The loop over the bytes goes on with the same key. -/
theorem xorRemains_byte {key : ℕ → UInt8} {n k p : ℕ} {b b' : Block UInt8}
    (h : xorRemains key n k p b = some b') (a : ℕ) :
    b'.byte a = if p ≤ a ∧ a < p + n then b.byte a ^^^ key (k + (a - p)) else b.byte a := by
  -- the pass at `p` writes `p` only, and the rest of the loop starts behind it
  induction n generalizing k p b with
  | zero =>
    cases h
    rw [if_neg (by omega)]
  | succ n ih =>
    rw [xorRemains, Option.bind_eq_some_iff] at h
    obtain ⟨c, hc, h⟩ := h
    rw [Option.bind_eq_some_iff] at h
    obtain ⟨b₁, hb₁, h⟩ := h
    have hin := Block.read_le hc
    rw [Block.read_eq_some hin] at hc
    cases hc
    rw [Block.write_eq_some (by simpa using hin)] at hb₁
    cases hb₁
    rw [ih h]
    simp only [store_apply, List.length_map, load_length]
    by_cases hbyte : a = p
    · subst hbyte
      rw [if_neg (by omega), dif_pos (by omega), if_pos (by omega)]
      simp [load]
    · rw [dif_neg (by omega)]
      by_cases hrest : p ≤ a ∧ a < p + (n + 1)
      · rw [if_pos (by omega), if_pos hrest]
        congr 2
        omega
      · rw [if_neg (by omega), if_neg hrest]

/-- `xor_crypt` adds the keystream to the bytes of its range and leaves the others alone. -/
theorem xorCrypt_byte {key : ℕ → UInt8} {b b' : Block UInt8} {buf : ℕ} {len : UInt32}
    (h : xorCrypt b buf len key = some b') (a : ℕ) :
    b'.byte a =
      if buf ≤ a ∧ a < buf + len.toNat then b.byte a ^^^ keystream key len.toNat (a - buf)
      else b.byte a := by
  simp only [xorCrypt] at h
  rw [Option.bind_eq_some_iff] at h
  obtain ⟨b₁, hb₁, h⟩ := h
  rw [xorRemains_byte h, xorSections_byte hb₁ (by decide)]
  unfold keystream
  by_cases hin : buf ≤ a ∧ a < buf + len.toNat
  · rw [if_pos hin]
    by_cases hs : a - buf < len.toNat - len.toNat % 4
    · rw [if_neg (by omega), if_pos (by omega), if_pos hs, Nat.mul_zero, Nat.zero_add]
    · rw [if_pos (by omega), if_neg (by omega), if_neg hs]
      congr 2
      omega
  · rw [if_neg (by omega), if_neg (by omega), if_neg hin]

end LeoNet
