import LeoNet.DofCrypto
import LeoNet.Lib.BinaryPolynomial
import LeoNet.Lib.Bits

namespace LeoNet

open Memory

/-!
# The CRC of the game protocol as a shift register

`generate_crc32` runs a register of four bytes over its table: each byte shifted in pushes one
out, whose word of the table is mixed in.

* `crcStep_toBitVec` — one pass of the loop is one step of the register;
* `generateCrc32_ne_of_burst` — inputs that differ within four bytes only have different CRCs,
  because the low bytes of the computed table are all different;
* `generateCrc32_eq_division_iff` — the computed table is not the one of the division by
  `multinomial`: its words stand in reflected order, for a register that shifts right.  The CRC is
  the remainder of every piece of a message just when nothing but zeros leaves the register.
-/

/-- The table of the code, for a register of bit vectors. -/
def tableWords (table : UInt8 → UInt32) (t : BitVec 8) : BitVec 32 := (table ⟨t⟩).toBitVec

/-- `t`, the index that `generate_crc32` takes from a remainder. -/
def crcIndex (oldCrc32 : UInt32) : UInt8 := ((oldCrc32 >>> 24) &&& 0xff).toUInt8

/-- The bits of the mask of one byte. -/
theorem getLsbD_byteMask {w i : ℕ} (hw : 8 ≤ w) :
    (BitVec.ofNat w 255).getLsbD i = decide (i < 8) :=
  Bits.getLsbD_lowMask rfl hw i

/-- The index is the byte that leaves. -/
theorem crcIndex_toBitVec (r : UInt32) :
    (crcIndex r).toBitVec = ShiftRegister.top 8 r.toBitVec := by
  apply BitVec.eq_of_getLsbD_eq
  intro i hi
  have hbit : (255#8)[i] = true := by
    rw [← BitVec.getLsbD_eq_getElem, getLsbD_byteMask (Nat.le_refl 8), decide_eq_true hi]
  rw [ShiftRegister.getLsbD_top]
  simp [crcIndex, hi, hbit]

/-- One pass of the loop of `generate_crc32` is one step of the register. -/
theorem crcStep_toBitVec (table : UInt8 → UInt32) (r : UInt32) (c : UInt8) :
    (crcStep table r c).toBitVec =
      ShiftRegister.step (tableWords table) r.toBitVec c.toBitVec := by
  have hshift : ((r <<< 8) ||| (c.toUInt32 &&& 0xff)).toBitVec =
      ShiftRegister.shift r.toBitVec c.toBitVec := by
    apply BitVec.eq_of_getLsbD_eq
    intro i hi
    have hbit : (255#32)[i] = decide (i < 8) := by
      rw [← BitVec.getLsbD_eq_getElem, getLsbD_byteMask (by decide)]
    rw [ShiftRegister.getLsbD_shift _ _ hi]
    by_cases hlow : i < 8
    · simp [hi, hbit, hlow]
    · simp [hi, hbit, hlow, BitVec.getLsbD_eq_getElem (show i - 8 < 32 by omega)]
  rw [ShiftRegister.step, ← hshift, ← crcIndex_toBitVec]
  rfl

/-- The loop over the bytes is that of a shift register. -/
theorem foldl_crcStep_toBitVec (table : UInt8 → UInt32) (cs : List UInt8) (r : UInt32) :
    (cs.foldl (crcStep table) r).toBitVec =
      (cs.map UInt8.toBitVec).foldl (ShiftRegister.step (tableWords table)) r.toBitVec := by
  induction cs generalizing r with
  | nil => rfl
  | cons c cs ih => rw [List.foldl_cons, ih, crcStep_toBitVec, List.map_cons, List.foldl_cons]

/-- What holds of all bytes holds of all symbols of eight bits. -/
theorem forall_byte {P : BitVec 8 → Prop} (h : ∀ n < 256, P (BitVec.ofNat 8 n)) (t : BitVec 8) :
    P t := by
  have ht := h t.toNat t.isLt
  rwa [BitVec.ofNat_toNat, BitVec.setWidth_eq] at ht

/-! ### Bursts -/

/-- The byte whose word in the computed table has low byte `x`: that of the exclusive or of two
    words is the exclusive or of theirs, so eight of them are enough. -/
def crcLowInverse (x : BitVec 8) : BitVec 8 :=
  ([0x4f, 0xfa, 0xbb, 0x39, 0x72, 0x80, 0x2b, 0x32].zipIdx.filter fun p => x.getLsbD p.2).foldl
    (fun t p => t ^^^ p.1) 0

/-- The low byte of an entry tells which entry it is. -/
theorem crcLowInverse_low (t : BitVec 8) :
    crcLowInverse ((tableWords initialCrc32Table t).setWidth 8) = t := by
  revert t
  exact forall_byte (by decide +kernel)

/-- The low bytes of the computed table are all different. -/
theorem tableWords_low_injective :
    Function.Injective fun t => (tableWords initialCrc32Table t).setWidth 8 :=
  Function.LeftInverse.injective crcLowInverse_low

/-- The runs of `generate_crc32` over two inputs of one length that differ in a stretch of at most
    four bytes. -/
theorem foldl_crcStep_ne_of_burst (before after : List UInt8) {cs cs' : List UInt8}
    (hlen : cs.length = cs'.length) (hfit : cs.length ≤ 4) (hne : cs ≠ cs') :
    (before ++ (cs ++ after)).foldl (crcStep initialCrc32Table) 0 ≠
      (before ++ (cs' ++ after)).foldl (crcStep initialCrc32Table) 0 := by
  intro h
  have hrun := congrArg UInt32.toBitVec h
  simp only [foldl_crcStep_toBitVec, List.map_append] at hrun
  refine ShiftRegister.foldl_step_ne_of_burst (by decide) tableWords_low_injective _ _ _
    (by simpa using hlen) (by simp; omega) ?_ hrun
  intro hmap
  exact hne (List.map_injective_iff.2 (fun _ _ => UInt8.toBitVec_inj.1) hmap)

/-- `generate_crc32` folds its step over the bytes. -/
theorem generateCrc32_eq_some (table : UInt8 → UInt32) {b : Block UInt8} {buf : ℕ} {len : UInt32}
    (h : buf + len.toNat ≤ b.size) :
    generateCrc32 table b buf len =
      some ((load b.byte buf len.toNat).foldl (crcStep table) 0) := by
  rw [generateCrc32, Block.read_eq_some h, Option.map_some]

/-- **Burst errors are detected.**  Over the computed table, two buffers of one length that differ,
    but only within some four consecutive bytes, have different CRCs. -/
theorem generateCrc32_ne_of_burst {b b' : Block UInt8} {buf buf' : ℕ} {len : UInt32}
    (hin : buf + len.toNat ≤ b.size) (hin' : buf' + len.toNat ≤ b'.size) (start : ℕ)
    (hdiff : ∃ i < len.toNat, b.byte (buf + i) ≠ b'.byte (buf' + i))
    (hburst : ∀ i < len.toNat, b.byte (buf + i) ≠ b'.byte (buf' + i) →
      start ≤ i ∧ i < start + 4) :
    ∃ crc crc', generateCrc32 initialCrc32Table b buf len = some crc ∧
      generateCrc32 initialCrc32Table b' buf' len = some crc' ∧ crc ≠ crc' := by
  obtain ⟨i, hi, hne⟩ := hdiff
  obtain ⟨hstart, hend⟩ := hburst i hi hne
  -- what stands before the stretch, the stretch, and what stands behind it
  obtain ⟨n, rest, hn, hlen⟩ : ∃ n rest, (n ≤ 4 ∧ (rest = 0 ∨ n = 4)) ∧
      len.toNat = start + (n + rest) :=
    ⟨min 4 (len.toNat - start), len.toNat - (start + min 4 (len.toNat - start)), by omega⟩
  have hsame (p m : ℕ) (hpm : p + m ≤ len.toNat)
      (hout : ∀ j < m, p + j < start ∨ start + 4 ≤ p + j) :
      load b'.byte (buf' + p) m = load b.byte (buf + p) m := by
    apply load_eq_load
    intro j hj
    by_contra hbyte
    have hin := hburst (p + j) (by omega) (by rwa [← Nat.add_assoc, ← Nat.add_assoc, ne_comm])
    have hout := hout j hj
    omega
  have hsplit (m : ℕ → UInt8) (q : ℕ) : load m q len.toNat =
      load m q start ++ (load m (q + start) n ++ load m (q + (start + n)) rest) := by
    rw [hlen, load_add, load_add, Nat.add_assoc q]
  refine ⟨_, _, generateCrc32_eq_some _ hin, generateCrc32_eq_some _ hin', ?_⟩
  have hbefore := hsame 0 start (by omega) (by omega)
  rw [Nat.add_zero, Nat.add_zero] at hbefore
  rw [hsplit, hsplit, hbefore, hsame (start + n) rest (by omega) (by omega)]
  apply foldl_crcStep_ne_of_burst _ _ (by rw [load_length, load_length])
    (by rw [load_length]; omega)
  intro hload
  have hbyte := congrArg (List.getD · (i - start) 0) hload
  rw [load_getD _ _ (by omega), load_getD _ _ (by omega), Nat.add_assoc, Nat.add_assoc,
      Nat.add_sub_cancel' hstart] at hbyte
  exact hne hbyte

/-- Two bytes changed, with three unchanged bytes behind them. -/
theorem generateCrc32_ne_of_burst_two :
    ∃ crc crc', generateCrc32 initialCrc32Table (bytesBlock [7, 1, 2, 9, 9, 9]) 0 6 = some crc ∧
      generateCrc32 initialCrc32Table (bytesBlock [7, 3, 4, 9, 9, 9]) 0 6 = some crc' ∧
      crc ≠ crc' :=
  generateCrc32_ne_of_burst (by decide) (by decide) 1 ⟨1, by decide⟩ (by decide)

/-! ### Division by the generator -/

/-- The remainder of the division of a message by `x ^ 32 + multinomial`, bit by bit. -/
def crcDivision (message : List UInt8) : UInt32 :=
  ⟨ShiftRegister.divide multinomial.toBitVec (message.map UInt8.toBitVec)⟩

open Polynomial in
/-- The polynomial of a message, its first byte the highest one. -/
noncomputable def crcPoly (message : List UInt8) : (ZMod 2)[X] :=
  ShiftRegister.messagePoly ((message.map UInt8.toBitVec).flatMap ShiftRegister.bits)

/-- The CRC of `len` bytes is the one of the generator: what the division leaves, the remainder of
    the message polynomial. -/
def CrcOfGenerator (b : Block UInt8) (buf : ℕ) (len : UInt32) : Prop :=
  ∃ crc, generateCrc32 initialCrc32Table b buf len = some crc ∧
    crc = crcDivision (load b.byte buf len.toNat) ∧
    ShiftRegister.toPoly crc.toBitVec =
      crcPoly (load b.byte buf len.toNat) %ₘ ShiftRegister.generator multinomial.toBitVec

/-- The bit-by-bit division leaves the remainder of the message polynomial. -/
theorem toPoly_crcDivision (message : List UInt8) :
    ShiftRegister.toPoly (crcDivision message).toBitVec =
      crcPoly message %ₘ ShiftRegister.generator multinomial.toBitVec :=
  ShiftRegister.toPoly_divide (by decide) _ _

/-- The computed table has the word of the division for the byte zero and for no other: for each
    other byte the two reflections leave it a different one. -/
theorem tableWords_eq_divisionTable (t : BitVec 8) :
    tableWords initialCrc32Table t = ShiftRegister.divisionTable multinomial.toBitVec t ↔
      t = 0 := by
  revert t
  exact forall_byte (by decide +kernel)

/-- The CRC is the one of the generator when both registers end the same. -/
theorem crcOfGenerator_iff {b : Block UInt8} {buf : ℕ} {len : UInt32}
    (h : buf + len.toNat ≤ b.size) :
    CrcOfGenerator b buf len ↔
      ((load b.byte buf len.toNat).map UInt8.toBitVec).foldl
          (ShiftRegister.step (tableWords initialCrc32Table)) 0 =
        ((load b.byte buf len.toNat).map UInt8.toBitVec).foldl
          (ShiftRegister.step (ShiftRegister.divisionTable multinomial.toBitVec)) 0 := by
  have hword := foldl_crcStep_toBitVec initialCrc32Table (load b.byte buf len.toNat) 0
  rw [← ShiftRegister.divide_eq_foldl_step _ (by decide)]
  -- the remainder is the word of `crcDivision` as a polynomial, so the run decides both parts
  constructor
  · rintro ⟨crc, hcrc, hdivision, -⟩
    rw [generateCrc32_eq_some _ h, Option.some.injEq] at hcrc
    rw [hcrc, hdivision] at hword
    exact hword.symm
  · intro hrun
    have hcrc : (load b.byte buf len.toNat).foldl (crcStep initialCrc32Table) 0 =
        crcDivision (load b.byte buf len.toNat) := by
      apply UInt32.toBitVec_inj.1
      rw [hword]
      exact hrun
    refine ⟨_, generateCrc32_eq_some _ h, hcrc, ?_⟩
    rw [hcrc, toPoly_crcDivision]

/-- Nothing but zeros leaves a register of four bytes just when every byte that has four others
    behind it is zero. -/
theorem quiet_load_iff (m : ℕ → UInt8) (p n : ℕ) :
    ShiftRegister.Quiet 4 ((load m p n).map UInt8.toBitVec) ↔
      ∀ i, i + 4 < n → m (p + i) = 0 := by
  -- `Quiet` counts the bytes from the end of the buffer
  have hbyte (j : ℕ) (hj : j < n) :
      ((load m p n).map UInt8.toBitVec).reverse.getD j 0 = (m (p + (n - 1 - j))).toBitVec := by
    rw [List.getD_eq_getElem _ _ (by simpa using hj), List.getElem_reverse]
    simp [load]
  constructor
  · intro h i hi
    have hzero := h (n - 1 - i) (by omega)
    rw [hbyte _ (by omega), show n - 1 - (n - 1 - i) = i by omega] at hzero
    exact UInt8.toBitVec_inj.1 hzero
  · intro h j hj
    rcases Nat.lt_or_ge j n with hlt | hge
    · rw [hbyte j hlt, h _ (by omega)]
      rfl
    · exact List.getD_eq_default _ _ (by simpa using hge)

/-- **The CRC and its generator.**  Over the computed table, the CRCs of a buffer's pieces of every
    length up to `n` are the remainders of the division by the generator just when every byte that
    has four others behind it is zero. -/
theorem generateCrc32_eq_division_iff {b : Block UInt8} {buf : ℕ} {n : UInt32}
    (h : buf + n.toNat ≤ b.size) :
    (∀ len ≤ n, CrcOfGenerator b buf len) ↔ ∀ i, i + 4 < n.toNat → b.byte (buf + i) = 0 := by
  -- the CRC over `len` bytes runs over the first `len` of the `n`
  have htake (len : UInt32) (hlen : len ≤ n) :
      (load b.byte buf len.toNat).map UInt8.toBitVec =
        ((load b.byte buf n.toNat).map UInt8.toBitVec).take len.toNat := by
    rw [← List.map_take, load_take, min_eq_right (UInt32.le_iff_toNat_le.1 hlen)]
  have hzero : tableWords initialCrc32Table 0 = 0 := by decide +kernel
  have hzero' : ShiftRegister.divisionTable multinomial.toBitVec (0 : BitVec 8) = 0 := by
    rw [← (tableWords_eq_divisionTable 0).2 rfl, hzero]
  -- the two tables agree at 0 and nowhere else, so the two runs agree while only 0 is looked up
  have hpieces := ShiftRegister.foldl_step_eq_iff (d := 3) (by decide) rfl hzero hzero'
    (fun t => (tableWords_eq_divisionTable t).1) ((load b.byte buf n.toNat).map UInt8.toBitVec)
  rw [← quiet_load_iff, ← hpieces, List.length_map, load_length]
  constructor
  · intro hall l hl
    have hl' : (UInt32.ofNat l).toNat = l := by
      rw [UInt32.toNat_ofNat']
      exact Nat.mod_eq_of_lt (Nat.lt_of_le_of_lt hl n.toNat_lt)
    have hle : UInt32.ofNat l ≤ n := UInt32.le_iff_toNat_le.2 (by rwa [hl'])
    have hrun := (crcOfGenerator_iff (by omega)).1 (hall (UInt32.ofNat l) hle)
    rwa [htake _ hle, hl'] at hrun
  · intro hall len hlen
    have hle := UInt32.le_iff_toNat_le.1 hlen
    rw [crcOfGenerator_iff (by omega), htake len hlen]
    exact hall len.toNat hle

/-- Five zeros in front of four other bytes. -/
theorem generateCrc32_eq_division_iff_zeros :
    CrcOfGenerator (bytesBlock [0, 0, 0, 0, 0, 1, 2, 3, 4]) 0 9 := by
  have hzeros : ∀ i < 5, (bytesBlock [0, 0, 0, 0, 0, 1, 2, 3, 4]).byte (0 + i) = 0 := by decide
  refine (generateCrc32_eq_division_iff (n := 9) (by decide)).2 (fun i hi => hzeros i ?_) 9
    (by decide)
  change i + 4 < 9 at hi
  omega

/-- The CRC of the five bytes `01 00 00 00 00` is not the remainder of their division. -/
theorem generateCrc32_eq_division_fails :
    ¬ ∀ (b : Block UInt8) (buf : ℕ) (len : UInt32), buf + len.toNat ≤ b.size →
      CrcOfGenerator b buf len := by
  intro h
  obtain ⟨crc, hcrc, hdivision, -⟩ := h (bytesBlock [1, 0, 0, 0, 0]) 0 5 (by decide)
  have hcode : generateCrc32 initialCrc32Table (bytesBlock [1, 0, 0, 0, 0]) 0 5 =
      some 0x77073096 := by decide +kernel
  rw [hcode, Option.some.injEq] at hcrc
  rw [← hcrc] at hdivision
  exact absurd hdivision (by decide +kernel)

end LeoNet
