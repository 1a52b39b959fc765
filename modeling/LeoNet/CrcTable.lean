import LeoNet.CrcDivision

namespace LeoNet

open Memory

/-!
# `crc32_table` in memory

`crc32_table` has `0xFF` entries.  `initial_crc32_table` and `generate_crc32` index it with every
value of a byte; here they run on a table with an end.

* `initialCrc32TableIn_isSome_iff` — the start-up loop needs `0x100` entries, and
  `initialCrc32TableIn_byte`: it then leaves the words of `initialCrc32Table`;
* `generateCrc32In_isSome_iff` — a CRC needs an entry for the high byte of each remainder it
  passes, and `generateCrc32In_eq`: it then is `generate_crc32` over the words of the table;
* `generateCrc32In_all_iff` — which every CRC of more than four bytes may leave;
* `crcTableInside_never` — and the start-up loop always does.
-/

/-- `static unsigned int crc32_table[0xFF]`, with the words it holds. -/
def crc32Table (words : ℕ → UInt32) : Block UInt32 := ⟨0xFF, words⟩

/-- The inner loop of `initial_crc32_table`, `n` more passes over entry `i`. -/
def crcTablePasses (i : ℕ) : ℕ → Block UInt32 → Option (Block UInt32)
  | 0, table => some table
  | n + 1, table =>
    (table.get i).bind fun t =>
      (table.set i (crcTableStep t)).bind fun table => crcTablePasses i n table

/-- The body of its outer loop. -/
def crcTableEntry (i : ℕ) (table : Block UInt32) : Option (Block UInt32) :=
  (table.set i (reflect (UInt32.ofNat i) 8 <<< 24)).bind fun table =>
  (crcTablePasses i 8 table).bind fun table =>
  (table.get i).bind fun t => table.set i (reflect t 32)

/-- The outer loop, `n` more entries from `i` on. -/
def crcTableEntries : ℕ → ℕ → Block UInt32 → Option (Block UInt32)
  | 0, _, table => some table
  | n + 1, i, table => (crcTableEntry i table).bind fun table => crcTableEntries n (i + 1) table

/-- `initial_crc32_table()`: the loop runs for `i <= 0xFF`. -/
def initialCrc32TableIn (table : Block UInt32) : Option (Block UInt32) :=
  crcTableEntries 0x100 0 table

/-- The loop of `generate_crc32`, with `n` bytes to go and `counts` behind it. -/
def generateCrc32Loop (table : Block UInt32) (b : Block UInt8) (buf : ℕ) :
    ℕ → ℕ → UInt32 → Option UInt32
  | 0, _, oldCrc32 => some oldCrc32
  | n + 1, counts, oldCrc32 =>
    (table.get (crcIndex oldCrc32).toNat).bind fun oldCrc =>
    (b.get (buf + counts)).bind fun c =>
      generateCrc32Loop table b buf n (counts + 1)
        (((oldCrc32 <<< 8) ||| (c.toUInt32 &&& 0xff)) ^^^ oldCrc)

/-- `generate_crc32(buf, len)`, with the table it reads. -/
def generateCrc32In (table : Block UInt32) (b : Block UInt8) (buf : ℕ) (len : UInt32) :
    Option UInt32 :=
  generateCrc32Loop table b buf len.toNat 0 0

/-! ### The start-up loop -/

/-- The passes over one entry, when it lies inside the table. -/
theorem crcTablePasses_eq_some {i : ℕ} {table : Block UInt32} (h : i < table.size) (t : UInt32)
    (n : ℕ) :
    crcTablePasses i n (table.put i t) = some (table.put i (Nat.iterate crcTableStep n t)) := by
  induction n generalizing t with
  | zero => rfl
  | succ n ih =>
    rw [crcTablePasses, Block.put_get h, Option.bind_some, Block.put_set h, Option.bind_some, ih]
    rfl

/-- Inside the table one pass of the outer loop leaves the entry's word. -/
theorem crcTableEntry_eq_some {i : ℕ} {table : Block UInt32} (h : i < table.size) (hi : i < 256) :
    crcTableEntry i table = some (table.put i (initialCrc32Table (UInt8.ofNat i))) := by
  have hbyte : (UInt8.ofNat i).toUInt32 = UInt32.ofNat i := by
    apply UInt32.toNat_inj.1
    rw [UInt8.toNat_toUInt32, UInt8.toNat_ofNat', UInt32.toNat_ofNat']
    omega
  rw [crcTableEntry, Block.set_eq_some h, Option.bind_some, crcTablePasses_eq_some h,
      Option.bind_some, Block.put_get h, Option.bind_some, Block.put_set h, initialCrc32Table,
      hbyte]

/-- An entry outside of the table is not written. -/
theorem crcTableEntry_eq_none {i : ℕ} {table : Block UInt32} (h : ¬ i < table.size) :
    crcTableEntry i table = none := by
  rw [crcTableEntry, Block.set_eq_none h, Option.bind_none]

/-- The loop over the entries is defined when all of them lie inside. -/
theorem crcTableEntries_isSome_iff {n i : ℕ} {table : Block UInt32} (hi : i + n ≤ 256) :
    (crcTableEntries n i table).isSome ↔ n = 0 ∨ i + n ≤ table.size := by
  induction n generalizing i table with
  | zero => simp [crcTableEntries]
  | succ n ih =>
    by_cases h : i < table.size
    · rw [crcTableEntries, crcTableEntry_eq_some h (by omega), Option.bind_some,
          ih (by omega)]
      rw [Block.put_size]
      omega
    · rw [crcTableEntries, crcTableEntry_eq_none h, Option.bind_none]
      simp
      omega

/-- **The start-up loop** needs an entry for each of the `0x100` values of a byte. -/
theorem initialCrc32TableIn_isSome_iff (table : Block UInt32) :
    (initialCrc32TableIn table).isSome ↔ 0x100 ≤ table.size := by
  rw [initialCrc32TableIn, crcTableEntries_isSome_iff (by decide)]
  omega

/-- What the loop leaves in the table. -/
theorem crcTableEntries_byte {n i : ℕ} {table table' : Block UInt32} (hi : i + n ≤ 256)
    (h : crcTableEntries n i table = some table') (a : ℕ) :
    table'.byte a =
      if i ≤ a ∧ a < i + n then initialCrc32Table (UInt8.ofNat a) else table.byte a := by
  -- the entry `i` is written first, and the rest of the loop leaves it alone
  induction n generalizing i table with
  | zero =>
    cases h
    rw [if_neg (by omega)]
  | succ n ih =>
    by_cases hin : i < table.size
    · rw [crcTableEntries, crcTableEntry_eq_some hin (by omega), Option.bind_some] at h
      rw [ih (by omega) h]
      rcases Nat.lt_trichotomy a i with hlt | rfl | hgt
      · rw [if_neg (by omega), if_neg (by omega), Block.put_byte_of_ne _ _ hlt.ne]
      · rw [if_neg (by omega), if_pos (by omega), Block.put_byte_self]
      · by_cases ha : a < i + (n + 1)
        · rw [if_pos (by omega), if_pos (by omega)]
        · rw [if_neg (by omega), if_neg (by omega), Block.put_byte_of_ne _ _ hgt.ne']
    · rw [crcTableEntries, crcTableEntry_eq_none hin, Option.bind_none] at h
      cases h

/-- What it leaves are the words of `initialCrc32Table`. -/
theorem initialCrc32TableIn_byte {table table' : Block UInt32}
    (h : initialCrc32TableIn table = some table') (i : UInt8) :
    table'.byte i.toNat = initialCrc32Table i := by
  have hlt := i.toNat_lt
  rw [crcTableEntries_byte (by decide) h, if_pos (by omega), UInt8.ofNat_toNat]

/-! ### The indices of a CRC -/

/-- The remainder after `k` bytes, over the words of a table. -/
def crcRemainder (words : ℕ → UInt32) (b : Block UInt8) (buf k : ℕ) (oldCrc32 : UInt32) : UInt32 :=
  (load b.byte buf k).foldl (crcStep fun t => words t.toNat) oldCrc32

/-- The remainder after one more byte. -/
theorem crcRemainder_succ (words : ℕ → UInt32) (b : Block UInt8) (buf k : ℕ) (oldCrc32 : UInt32) :
    crcRemainder words b buf (k + 1) oldCrc32 =
      crcRemainder words b (buf + 1) k
        (crcStep (fun t => words t.toNat) oldCrc32 (b.byte buf)) := by
  rw [crcRemainder, load_succ, List.foldl_cons]
  rfl

/-- A pass inside both objects. -/
theorem generateCrc32Loop_succ {table : Block UInt32} {b : Block UInt8} {buf counts n : ℕ}
    {oldCrc32 : UInt32} (ht : (crcIndex oldCrc32).toNat < table.size) (hb : buf + counts < b.size) :
    generateCrc32Loop table b buf (n + 1) counts oldCrc32 =
      generateCrc32Loop table b buf n (counts + 1)
        (crcStep (fun t => table.byte t.toNat) oldCrc32 (b.byte (buf + counts))) := by
  rw [generateCrc32Loop, Block.get_eq_some ht, Option.bind_some, Block.get_eq_some hb,
      Option.bind_some]
  rfl

/-- The loop over the bytes is defined when it looks up entries of the table alone. -/
theorem generateCrc32Loop_isSome_iff {table : Block UInt32} {b : Block UInt8} {buf counts n : ℕ}
    {oldCrc32 : UInt32} (hb : buf + (counts + n) ≤ b.size) :
    (generateCrc32Loop table b buf n counts oldCrc32).isSome ↔
      ∀ k < n, (crcIndex (crcRemainder table.byte b (buf + counts) k oldCrc32)).toNat <
        table.size := by
  induction n generalizing counts oldCrc32 with
  | zero => simp [generateCrc32Loop]
  | succ n ih =>
    rw [Nat.forall_lt_succ_left]
    by_cases ht : (crcIndex oldCrc32).toNat < table.size
    · rw [generateCrc32Loop_succ ht (by omega), ih (by omega)]
      simp only [crcRemainder_succ, Nat.add_assoc]
      exact (and_iff_right ht).symm
    · rw [generateCrc32Loop, Block.get_eq_none ht, Option.bind_none]
      simp [crcRemainder, ht]

/-- It computes the remainder over the words of the table. -/
theorem generateCrc32Loop_eq {table : Block UInt32} {b : Block UInt8} {buf counts n : ℕ}
    {oldCrc32 crc : UInt32} (hb : buf + (counts + n) ≤ b.size)
    (h : generateCrc32Loop table b buf n counts oldCrc32 = some crc) :
    crc = crcRemainder table.byte b (buf + counts) n oldCrc32 := by
  induction n generalizing counts oldCrc32 with
  | zero =>
    cases h
    rfl
  | succ n ih =>
    have ht : (crcIndex oldCrc32).toNat < table.size := by
      by_contra hout
      rw [generateCrc32Loop, Block.get_eq_none hout, Option.bind_none] at h
      cases h
    rw [generateCrc32Loop_succ ht (by omega)] at h
    rw [ih (by omega) h, crcRemainder_succ, Nat.add_assoc]

/-- **The indices of a CRC.**  All of them lie inside the table just when the high byte of no
    remainder before the last is out of it. -/
theorem generateCrc32In_isSome_iff {table : Block UInt32} {b : Block UInt8} {buf : ℕ}
    {len : UInt32} (hb : buf + len.toNat ≤ b.size) :
    (generateCrc32In table b buf len).isSome ↔
      ∀ k < len.toNat, (crcIndex (crcRemainder table.byte b buf k 0)).toNat < table.size :=
  generateCrc32Loop_isSome_iff (by omega)

/-- Inside the table, the CRC is the one over its words. -/
theorem generateCrc32In_eq {table : Block UInt32} {b : Block UInt8} {buf : ℕ} {len crc : UInt32}
    (hb : buf + len.toNat ≤ b.size) (h : generateCrc32In table b buf len = some crc) :
    generateCrc32 (fun t => table.byte t.toNat) b buf len = some crc := by
  rw [generateCrc32, Block.read_eq_some hb, Option.map_some, generateCrc32Loop_eq (by omega) h]
  rfl

/-- **Which lengths are safe.**  Over words that are `0` for the byte `0`, the CRCs of all buffers
    of one length stay inside the table just when that length is at most four: a fifth byte looks
    up the first one. -/
theorem generateCrc32In_all_iff {words : ℕ → UInt32} (hzero : words 0 = 0) (len : UInt32) :
    (∀ (b : Block UInt8) (buf : ℕ), buf + len.toNat ≤ b.size →
      (generateCrc32In (crc32Table words) b buf len).isSome) ↔ len.toNat ≤ 4 := by
  have hword : tableWords (fun t => words t.toNat) 0 = 0 := congrArg UInt32.toBitVec hzero
  -- before a fifth byte nothing but zeros has left the register
  have hindex (b : Block UInt8) (buf k : ℕ) (hk : k ≤ 4) :
      (crcIndex (crcRemainder words b buf k 0)).toBitVec =
        ((load b.byte buf k).map UInt8.toBitVec).reverse.getD 3 0 := by
    have hquiet : ShiftRegister.Quiet 4 ((load b.byte buf k).map UInt8.toBitVec) :=
      (quiet_load_iff _ _ _).2 fun i hi => by omega
    rw [crcIndex_toBitVec, crcRemainder, foldl_crcStep_toBitVec]
    have hrun := ShiftRegister.foldl_step_eq_packed (by decide) rfl hword hquiet
    rw [show (0 : UInt32).toBitVec = 0 from rfl, hrun, ShiftRegister.top_packed (by decide) rfl]
  constructor
  · intro h
    by_contra hlen
    let b : Block UInt8 := ⟨len.toNat, fun i => if i = 0 then 0xff else 0⟩
    have hin : 0 + len.toNat ≤ b.size := by rw [Nat.zero_add]
    have hfour := (generateCrc32In_isSome_iff hin).1 (h b 0 hin) 4 (by omega)
    have hff : crcIndex (crcRemainder words b 0 4 0) = 0xff :=
      UInt8.toBitVec_inj.1 ((hindex b 0 4 (Nat.le_refl 4)).trans rfl)
    change (crcIndex (crcRemainder words b 0 4 0)).toNat < 255 at hfour
    rw [hff] at hfour
    exact absurd hfour (by decide)
  · intro hlen b buf hin
    rw [generateCrc32In_isSome_iff hin]
    intro k hk
    have hzeroIndex : crcIndex (crcRemainder words b buf k 0) = 0 := by
      apply UInt8.toBitVec_inj.1
      rw [hindex b buf k (by omega), List.getD_eq_default _ _ (by simp; omega)]
      rfl
    change (crcIndex (crcRemainder words b buf k 0)).toNat < 255
    rw [hzeroIndex]
    decide

/-- All accesses to `crc32_table` are inside: those of the start-up loop, and those of a CRC over
    `len` bytes of a buffer that has them. -/
def CrcTableInside (words : ℕ → UInt32) (b : Block UInt8) (buf : ℕ) (len : UInt32) : Prop :=
  (initialCrc32TableIn (crc32Table words)).isSome ∧
    (buf + len.toNat ≤ b.size → (generateCrc32In (crc32Table words) b buf len).isSome)

/-- **The table is one entry short.**  The start-up loop leaves it, whatever it holds; a CRC does
    just when the high byte of some remainder before the last is `0xff`. -/
theorem crcTableInside_never (words : ℕ → UInt32) (b : Block UInt8) (buf : ℕ) (len : UInt32) :
    ¬ CrcTableInside words b buf len ∧
      (buf + len.toNat ≤ b.size → ((generateCrc32In (crc32Table words) b buf len).isSome ↔
        ∀ k < len.toNat, crcIndex (crcRemainder words b buf k 0) ≠ 0xff)) := by
  constructor
  · rintro ⟨hstart, -⟩
    rw [initialCrc32TableIn_isSome_iff] at hstart
    exact absurd hstart (by show ¬ 0x100 ≤ 0xFF; decide)
  · intro hb
    have hindex (t : UInt8) : t.toNat < 0xFF ↔ t ≠ 0xff := by
      have hlt := t.toNat_lt
      rw [ne_eq, ← UInt8.toNat_inj]
      show t.toNat < 255 ↔ ¬ t.toNat = 255
      omega
    rw [generateCrc32In_isSome_iff hb]
    simp only [← hindex]
    rfl

/-- The computed words, for as many entries as there are. -/
theorem crcTableInside_never_five :
    ¬ CrcTableInside (fun i => initialCrc32Table (UInt8.ofNat i)) (bytesBlock [1, 2, 3, 4, 5]) 0 5 ∧
      ((generateCrc32In (crc32Table fun i => initialCrc32Table (UInt8.ofNat i))
          (bytesBlock [1, 2, 3, 4, 5]) 0 5).isSome ↔
        ∀ k < 5, crcIndex (crcRemainder (fun i => initialCrc32Table (UInt8.ofNat i))
          (bytesBlock [1, 2, 3, 4, 5]) 0 k 0) ≠ 0xff) :=
  ⟨(crcTableInside_never _ _ 0 5).1, (crcTableInside_never _ _ 0 5).2 (by decide)⟩

/-- The start-up loop leaves the table, and so does the CRC of `ff 00 00 00 00` over the words it
    has computed. -/
theorem crcTableInside_fails :
    ¬ (∀ words, (initialCrc32TableIn (crc32Table words)).isSome) ∧
    ¬ ∀ (b : Block UInt8) (buf : ℕ) (len : UInt32), buf + len.toNat ≤ b.size →
      (generateCrc32In (crc32Table fun i => initialCrc32Table (UInt8.ofNat i))
        b buf len).isSome := by
  constructor
  · intro h
    have hsize := (initialCrc32TableIn_isSome_iff _).1 (h fun _ => 0)
    exact absurd hsize (by show ¬ 0x100 ≤ 0xFF; decide)
  · intro h
    have hread := h (bytesBlock [0xff, 0, 0, 0, 0]) 0 5 (by decide)
    exact absurd hread (by decide +kernel)

end LeoNet
