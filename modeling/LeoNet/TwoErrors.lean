import LeoNet.FrameTampering
import LeoNet.NetSession
import LeoNet.Lib.SymbolErrors

namespace LeoNet

open Memory ShiftRegister Lanes

/-!
# One or two altered bytes

What is added to a buffer goes unnoticed when its CRC is zero.  Run over zeros, no byte comes back as
a byte within `4096` steps, so as many as two altered bytes never cancel out in a buffer that fits
into a read ring.

* `crc_escapes` — the search, over all bytes at once;
* `generateCrc32_ne_of_two` — two altered bytes change the CRC;
* `authentic_alter_two_iff` — so the decoder refuses a frame with one or two altered bytes, but for
  one pattern: a byte close to the CRC word, and the byte of the CRC word that it runs into.
-/

/-- The sweep over `2 ^ 12` steps of the register, for all bytes at once, meets no byte. -/
theorem crcWords_sweep :
    (sweep 8 (2 ^ 8) crcWords 12 (pack (BitVec.ofNat 32) (2 ^ 8))).isSome = true := by
  decide +kernel

/-- No byte comes back as a byte within `4096` steps over zeros. -/
theorem crc_escapes : Escapes (tableWords initialCrc32Table) 4096 := by
  have htable : tableWords initialCrc32Table = linearTable crcWords 0 :=
    funext tableWords_eq_linearTable
  have hescapes : Escapes (linearTable crcWords 0 : BitVec 8 → BitVec 32) (2 ^ 12) :=
    escapes_of_sweep (by decide) (by decide) rfl crcWords_sweep
  rw [htable]
  exact hescapes

/-! ### What has a CRC of zero -/

/-- The CRC of a frame is a run of the shift register. -/
theorem frameCrc_toBitVec (xs : List UInt8) :
    (frameCrc xs).toBitVec =
      (xs.map UInt8.toBitVec).foldl (step (tableWords initialCrc32Table)) 0 :=
  foldl_crcStep_toBitVec initialCrc32Table xs 0

/-- A byte that is not zero, as a bit vector. -/
theorem toBitVec_ne_zero {x : UInt8} (h : x ≠ 0) : x.toBitVec ≠ 0 := fun hzero =>
  h (UInt8.toBitVec_inj.1 hzero)

/-- Zeros have the CRC zero. -/
theorem frameCrc_zeros (n : ℕ) : frameCrc (List.replicate n 0) = 0 := by
  apply UInt32.toBitVec_inj.1
  rw [frameCrc_toBitVec, List.map_replicate]
  exact drain_zero tableWords_xor n

/-- The CRC of one byte among zeros is what the zeros behind it make of the byte. -/
theorem frameCrc_single (a m : ℕ) (x : UInt8) :
    (frameCrc (List.replicate a 0 ++ x :: List.replicate m 0)).toBitVec =
      drain (tableWords initialCrc32Table) m (low 32 x.toBitVec) := by
  rw [frameCrc_toBitVec, List.map_append, List.map_replicate, List.map_cons, List.map_replicate]
  exact foldl_single tableWords_xor a m x.toBitVec

/-- One byte alone is always noticed. -/
theorem frameCrc_single_ne_zero (a m : ℕ) {x : UInt8} (hx : x ≠ 0) :
    frameCrc (List.replicate a 0 ++ x :: List.replicate m 0) ≠ 0 := by
  intro h
  have hword := congrArg UInt32.toBitVec h
  rw [frameCrc_single] at hword
  exact drain_ne_zero tableWords_xor (by decide) tableWords_low_injective m (toBitVec_ne_zero hx)
    hword

/-- Two bytes at most `4096` places apart do not cancel out. -/
theorem frameCrc_pair_ne_zero (a b : ℕ) {m : ℕ} (hm : m + 1 ≤ 4096) {x y : UInt8} (hx : x ≠ 0) :
    frameCrc (List.replicate a 0 ++ x :: (List.replicate m 0 ++ y :: List.replicate b 0)) ≠ 0 := by
  intro h
  have hword := congrArg UInt32.toBitVec h
  rw [frameCrc_toBitVec] at hword
  simp only [List.map_append, List.map_replicate, List.map_cons] at hword
  exact foldl_pair_ne_zero tableWords_xor (by decide) tableWords_low_injective crc_escapes a b hm
    (Or.inl (toBitVec_ne_zero hx)) hword

/-- A list is all zeros, or has a first byte that is not zero. -/
theorem zeros_or_first (xs : List UInt8) :
    xs = List.replicate xs.length 0 ∨
      ∃ a x rest, x ≠ 0 ∧ xs = List.replicate a 0 ++ x :: rest := by
  induction xs with
  | nil => exact Or.inl rfl
  | cons y ys ih =>
    by_cases hy : y = 0
    · subst hy
      rcases ih with hzero | ⟨a, x, rest, hx, hys⟩
      · left
        rw [List.length_cons, List.replicate_succ, ← hzero]
      · exact Or.inr ⟨a + 1, x, rest, hx, by rw [hys]; rfl⟩
    · exact Or.inr ⟨0, y, ys, hy, rfl⟩

/-- The byte behind `a` zeros. -/
theorem getElem?_first (a : ℕ) (x : UInt8) (rest : List UInt8) :
    (List.replicate a 0 ++ x :: rest)[a]? = some x := by
  rw [List.getElem?_append_right (by simp), List.length_replicate, Nat.sub_self,
      List.getElem?_cons_zero]

/-- The bytes behind that one. -/
theorem getElem?_behind (a j : ℕ) (x : UInt8) (rest : List UInt8) :
    (List.replicate a 0 ++ x :: rest)[a + (j + 1)]? = rest[j]? := by
  rw [List.getElem?_append_right (by simp), List.length_replicate, Nat.add_sub_cancel_left,
      List.getElem?_cons_succ]

/-- Buffers have different CRCs when their sum has one that is not zero. -/
theorem frameCrc_load_ne (m m' : ℕ → UInt8) (p p' n : ℕ)
    (h : frameCrc (List.zipWith (· ^^^ ·) (load m p n) (load m' p' n)) ≠ 0) :
    frameCrc (load m p n) ≠ frameCrc (load m' p' n) := by
  rintro heq
  rw [frameCrc_xor (by rw [load_length, load_length]), heq, UInt32.xor_self] at h
  exact h rfl

/-- **Two errors are detected.**  Over the computed table, two buffers of one length that differ in
    one byte, or in two at most `4096` places apart, have different CRCs. -/
theorem generateCrc32_ne_of_two {b b' : Block UInt8} {buf buf' : ℕ} {len : UInt32}
    (hin : buf + len.toNat ≤ b.size) (hin' : buf' + len.toNat ≤ b'.size) {p q : ℕ} (hpq : p ≤ q)
    (hclose : q ≤ p + 4096)
    (hdiff : ∃ i < len.toNat, b.byte (buf + i) ≠ b'.byte (buf' + i))
    (htwo : ∀ i < len.toNat, b.byte (buf + i) ≠ b'.byte (buf' + i) → i = p ∨ i = q) :
    ∃ crc crc', generateCrc32 initialCrc32Table b buf len = some crc ∧
      generateCrc32 initialCrc32Table b' buf' len = some crc' ∧ crc ≠ crc' := by
  refine ⟨_, _, generateCrc32_eq_some _ hin, generateCrc32_eq_some _ hin', ?_⟩
  apply frameCrc_load_ne
  set ds := List.zipWith (· ^^^ ·) (load b.byte buf len.toNat) (load b'.byte buf' len.toNat)
    with hds
  have hlen : ds.length = len.toNat := by simp [hds]
  have hbyte (i : ℕ) (hi : i < len.toNat) :
      ds[i]? = some (b.byte (buf + i) ^^^ b'.byte (buf' + i)) := by
    rw [hds, List.getElem?_zipWith, load_getElem?, load_getElem?, if_pos hi, if_pos hi]
  -- a byte of the sum that is not zero stands at one of the two places
  have hplace (i : ℕ) (x : UInt8) (hx : ds[i]? = some x) (hne : x ≠ 0) : i = p ∨ i = q := by
    have hi : i < len.toNat := by
      rw [← hlen]
      exact (List.getElem?_eq_some_iff.1 hx).1
    rw [hbyte i hi, Option.some.injEq] at hx
    refine htwo i hi fun heq => hne ?_
    rw [← hx, heq, UInt8.xor_self]
  rcases zeros_or_first ds with hzero | ⟨a, x, rest, hx, hfirst⟩
  · obtain ⟨i, hi, hne⟩ := hdiff
    have hsum := hbyte i hi
    rw [hzero, List.getElem?_replicate, if_pos (by omega), Option.some.injEq] at hsum
    exact absurd (UInt8.xor_eq_zero_iff.1 hsum.symm) hne
  · have ha := hplace a x (by rw [hfirst, getElem?_first]) hx
    rcases zeros_or_first rest with hzero | ⟨m, y, rest', hy, hsecond⟩
    · rw [hfirst, hzero]
      exact frameCrc_single_ne_zero a _ hx
    · have hm := hplace (a + (m + 1)) y
        (by rw [hfirst, getElem?_behind, hsecond, getElem?_first]) hy
      -- there is no third place
      have hrest : rest' = List.replicate rest'.length 0 := by
        rw [List.eq_replicate_iff]
        refine ⟨rfl, fun z hz => ?_⟩
        obtain ⟨j, hj⟩ := List.mem_iff_getElem?.1 hz
        by_contra hne
        have hthird := hplace (a + (m + (j + 1) + 1)) z
          (by rw [hfirst, getElem?_behind, hsecond, getElem?_behind, hj]) hne
        omega
      rw [hfirst, hsecond, hrest]
      exact frameCrc_pair_ne_zero a _ (by omega) hx

/-- The first and the last of eight bytes. -/
theorem generateCrc32_ne_of_two_ends :
    ∃ crc crc', generateCrc32 initialCrc32Table (bytesBlock [1, 7, 7, 7, 7, 7, 7, 2]) 0 8 = some crc ∧
      generateCrc32 initialCrc32Table (bytesBlock [3, 7, 7, 7, 7, 7, 7, 4]) 0 8 = some crc' ∧
      crc ≠ crc' :=
  generateCrc32_ne_of_two (p := 0) (q := 7) (by decide) (by decide) (by decide) (by decide)
    ⟨0, by decide⟩ (by decide)

/-! ### Frames -/

/-- How many bytes of a frame are altered. -/
def altered (ds : List UInt8) (c : UInt32) : ℕ := (ds ++ toBytes 4 c.toNat).countP (· != 0)

/-- One byte is altered that has `i < 4` others between it and the CRC word, and byte `i` of the CRC
    word in the same way. -/
def Twins (ds : List UInt8) (c : UInt32) : Prop :=
  ∃ a i x, i < 4 ∧ ds = List.replicate a 0 ++ x :: List.replicate i 0 ∧
    toBytes 4 c.toNat = List.replicate i 0 ++ x :: List.replicate (3 - i) 0

/-- The number with all bytes zero. -/
theorem ofBytes_zeros (n : ℕ) : ofBytes (List.replicate n 0) = 0 := by
  induction n with
  | zero => rfl
  | succ n ih =>
    rw [List.replicate_succ, ofBytes_cons, ih]
    rfl

/-- The number with byte `j` alone not zero. -/
theorem ofBytes_single (j l : ℕ) (x : UInt8) :
    ofBytes (List.replicate j 0 ++ x :: List.replicate l 0) = x.toNat * 2 ^ (8 * j) := by
  induction j with
  | zero => rw [List.replicate_zero, List.nil_append, ofBytes_cons, ofBytes_zeros]; simp
  | succ j ih =>
    rw [List.replicate_succ, List.cons_append, ofBytes_cons, ih, Nat.mul_succ, Nat.pow_add]
    show 0 + 256 * _ = _
    ring

/-- A word with one byte is what the register makes of this byte. -/
theorem toBitVec_single {c : UInt32} {j l : ℕ} {x : UInt8}
    (h : toBytes 4 c.toNat = List.replicate j 0 ++ x :: List.replicate l 0) :
    j + 1 + l = 4 ∧ c.toBitVec = drain (tableWords initialCrc32Table) j (low 32 x.toBitVec) := by
  have hlen := congrArg List.length h
  simp only [toBytes_length, List.length_append, List.length_cons, List.length_replicate] at hlen
  refine ⟨by omega, ?_⟩
  have hnat : c.toNat = x.toNat * 2 ^ (8 * j) := by
    rw [← ofBytes_single j l x, ← h, ofBytes_toBytes c.toNat_lt]
  have hx : x.toBitVec.toNat < 2 ^ 32 := Nat.lt_trans x.toNat_lt (by decide)
  rw [drain_low tableWords_xor (by omega)]
  apply BitVec.eq_of_toNat_eq
  rw [BitVec.toNat_shiftLeft, low, BitVec.toNat_setWidth, Nat.mod_eq_of_lt hx, Nat.shiftLeft_eq]
  show c.toNat = x.toNat * 2 ^ (8 * j) % 2 ^ 32
  rw [← hnat, Nat.mod_eq_of_lt c.toNat_lt]

/-- A word with all bytes zero is zero. -/
theorem eq_zero_of_toBytes {c : UInt32} (h : toBytes 4 c.toNat = List.replicate 4 0) : c = 0 := by
  apply UInt32.toNat_inj.1
  rw [← ofBytes_toBytes (k := 4) c.toNat_lt, h]
  rfl

/-- Twins cancel out: the word added is the CRC of what was added in front of it. -/
theorem Twins.crc {ds : List UInt8} {c : UInt32} (h : Twins ds c) : c = frameCrc ds := by
  obtain ⟨a, i, x, -, rfl, hc⟩ := h
  apply UInt32.toBitVec_inj.1
  rw [frameCrc_single, (toBitVec_single hc).2]

/-- One more byte is altered than behind the first one. -/
theorem countP_first (a : ℕ) {x : UInt8} (hx : x ≠ 0) (rest : List UInt8) :
    (List.replicate a 0 ++ x :: rest).countP (· != 0) = rest.countP (· != 0) + 1 := by
  rw [List.countP_append, List.countP_replicate, List.countP_cons_of_pos (by simpa using hx)]
  simp

/-- **Which alterations of one or two bytes** have the CRC that was added to the CRC word. -/
theorem crc_iff_twins {ds : List UInt8} {c : UInt32} (hne : ds ≠ []) (hlen : ds.length ≤ 4096)
    (htwo : altered ds c ≤ 2) : c = frameCrc ds ↔ Twins ds c := by
  refine ⟨fun hc => ?_, Twins.crc⟩
  rw [altered, List.countP_append] at htwo
  rcases zeros_or_first ds with hzero | ⟨a, x, rest, hx, hfirst⟩
  · -- nothing is altered
    rw [hzero, frameCrc_zeros] at hc
    obtain ⟨n, hn⟩ : ∃ n, ds.length = n + 1 := Nat.exists_eq_succ_of_ne_zero (by simpa using hne)
    refine ⟨n, 0, 0, by decide, ?_, by rw [hc]; rfl⟩
    rw [hzero, hn, List.replicate_succ']
    rfl
  · rcases zeros_or_first rest with hzero | ⟨m, y, rest', hy, hsecond⟩
    · -- one byte is altered, so the CRC word is, and one byte of it
      rw [hfirst, hzero] at hc
      rcases zeros_or_first (toBytes 4 c.toNat) with hword | ⟨j, v, tail, hv, hword⟩
      · rw [toBytes_length] at hword
        exact absurd (hc.symm.trans (eq_zero_of_toBytes hword)) (frameCrc_single_ne_zero a _ hx)
      · rcases zeros_or_first tail with htail | ⟨_, z, _, hz, hthird⟩
        · rw [htail] at hword
          obtain ⟨hfour, hdrain⟩ := toBitVec_single hword
          have hsame := (frameCrc_single a rest.length x).symm.trans
            ((congrArg UInt32.toBitVec hc).symm.trans hdrain)
          have hrest : rest.length ≤ 4096 := by
            rw [hfirst, List.length_append, List.length_cons] at hlen
            omega
          obtain ⟨hj, hxv⟩ := (drain_eq_drain_iff (by decide) tableWords_low_injective crc_escapes
            hrest (by omega) (toBitVec_ne_zero hx) (toBitVec_ne_zero hv)).1 hsame
          obtain rfl := UInt8.toBitVec_inj.1 hxv
          refine ⟨a, j, x, by omega, ?_, ?_⟩
          · rw [hfirst, hzero, hj]
          · rw [hword, show tail.length = 3 - j by omega]
        · rw [hfirst, hword, hthird, countP_first a hx, countP_first j hv, countP_first _ hz] at htwo
          omega
    · -- two are altered, and nothing in the CRC word
      have hword : toBytes 4 c.toNat = List.replicate 4 0 := by
        rcases zeros_or_first (toBytes 4 c.toNat) with hword | ⟨j, v, tail, hv, hword⟩
        · rwa [toBytes_length] at hword
        · rw [hfirst, hsecond, hword, countP_first a hx, countP_first m hy,
              countP_first j hv] at htwo
          omega
      have hrest : rest' = List.replicate rest'.length 0 := by
        rcases zeros_or_first rest' with hrest | ⟨l, z, tail, hz, hrest⟩
        · exact hrest
        · rw [hfirst, hsecond, hrest, countP_first a hx, countP_first m hy,
              countP_first l hz] at htwo
          omega
      have hclose : m + 1 ≤ 4096 := by
        rw [hfirst, hsecond] at hlen
        simp only [List.length_append, List.length_cons, List.length_replicate] at hlen
        omega
      rw [eq_zero_of_toBytes hword, hfirst, hsecond, hrest] at hc
      exact absurd hc.symm (frameCrc_pair_ne_zero a _ hclose hx)

/-- **One or two altered bytes.**  An authentic frame in a read ring, of eight bytes or more behind its
    prefix, with at most two bytes altered, is authentic exactly when they are twins outside the
    sequence number. -/
theorem authentic_alter_two_iff (ac : AboutCrypt) (b : Block UInt8) (buf : ℕ) (msgLen : Int32)
    (ds : List UInt8) (c : UInt32)
    (hauth : frameAuthentic initialCrc32Table ac b buf msgLen = true)
    (hring : b.size ≤ MAX_BUFFER_LEN.toNat) (hsix : 6 ≤ ds.length)
    (hlen : ds.length + 2 = msgLen.toUInt32.toNat) (htwo : altered ds c ≤ 2) :
    frameAuthentic initialCrc32Table ac (alter ds c buf b) buf msgLen = true ↔
      Twins ds c ∧ LeavesSequence ds := by
  have hfits : ds.length + 4 ≤ b.size := by
    unfold frameAuthentic at hauth
    cases hp : xorDecrypt b (buf + 2) msgLen.toUInt32 ac.xorKey with
    | none =>
      rw [hp] at hauth
      cases hauth
    | some p =>
      have hle := xorCrypt_le hp (by omega)
      omega
  have hcap : MAX_BUFFER_LEN.toNat = 4096 := rfl
  have hne : ds ≠ [] := by
    rintro rfl
    cases hsix
  have hlen' : ds.length + 4 = (2 + msgLen.toUInt32).toNat := by
    rw [UInt32.toNat_add]
    show ds.length + 4 = (2 + msgLen.toUInt32.toNat) % 2 ^ 32
    omega
  rw [frameAuthentic_alter hauth hsix hlen', Bool.and_eq_true, beq_iff_eq, decide_eq_true_eq,
      crc_iff_twins hne (by omega) htwo]

/-- The last byte of an empty message's size field, and the first byte of the CRC word. -/
theorem authentic_alter_two_iff_last :
    frameAuthentic initialCrc32Table ⟨0, 0, fun _ => 1, fun _ => 0⟩
        (alter [0, 0, 0, 0, 0, 0, 0, 0, 0, 5] 5 0 emptyFrameCall.buffer) 0 12 = true ↔
      Twins [0, 0, 0, 0, 0, 0, 0, 0, 0, 5] 5 ∧ LeavesSequence [0, 0, 0, 0, 0, 0, 0, 0, 0, 5] :=
  authentic_alter_two_iff _ _ _ _ _ _ (by decide +kernel) (by decide) (by decide) (by decide)
    (by decide)

end LeoNet
