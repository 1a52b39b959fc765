import LeoNet.CrcDivision
import LeoNet.SequenceDiscipline
import LeoNet.XorCipher

namespace LeoNet

open Memory Machine StreamCipher

/-!
# Altered frames — what the checks of the decoder do not see

The cipher adds a keystream to the frame, and the CRC of a sum is the sum of the CRCs.  Whoever adds
something to the encrypted bytes, and its CRC to the encrypted CRC word, needs no key for it.

* `frameCrc_xor` — the CRC is linear, because the computed table is;
* `xorDecrypt_alter` — decrypting an altered frame is altering the decrypted frame;
* `authentic_alter_iff` — an authentic frame stays authentic exactly when its CRC word is altered by
  the CRC of the rest, and its sequence number is not;
* `run_altered` — so the decoder goes through such frames as through those that were sent.
-/

/-! ### The CRC is linear -/

/-- The CRC of the bytes of a frame, over the computed table. -/
def frameCrc (bs : List UInt8) : UInt32 := bs.foldl (crcStep initialCrc32Table) 0

/-- The words of the eight bytes with one bit. -/
def crcWords : List (BitVec 32) :=
  [0x77073096, 0xee0e612c, 0x076dc419, 0x0edb8832, 0x1db71064, 0x3b6e20c8, 0x76dc4190, 0xedb88320]

/-- The computed table is made of these words. -/
theorem tableWords_eq_linearTable (t : BitVec 8) :
    tableWords initialCrc32Table t = ShiftRegister.linearTable crcWords 0 t := by
  revert t
  exact forall_byte (by decide +kernel)

/-- The table is linear. -/
theorem tableWords_xor (t t' : BitVec 8) : tableWords initialCrc32Table (t ^^^ t') =
    tableWords initialCrc32Table t ^^^ tableWords initialCrc32Table t' := by
  rw [tableWords_eq_linearTable, tableWords_eq_linearTable, tableWords_eq_linearTable,
      ShiftRegister.linearTable_xor]

/-- The CRC of a sum is the sum of the CRCs. -/
theorem frameCrc_xor {bs ds : List UInt8} (hlen : bs.length = ds.length) :
    frameCrc (List.zipWith (· ^^^ ·) bs ds) = frameCrc bs ^^^ frameCrc ds := by
  have hmap : (List.zipWith (· ^^^ ·) bs ds).map UInt8.toBitVec =
      List.zipWith (· ^^^ ·) (bs.map UInt8.toBitVec) (ds.map UInt8.toBitVec) := by
    rw [List.map_zipWith, List.zipWith_map]
    rfl
  have hwords : (bs.map UInt8.toBitVec).length = (ds.map UInt8.toBitVec).length := by
    rw [List.length_map, List.length_map, hlen]
  have hrun := ShiftRegister.foldl_step_zipWith tableWords_xor hwords 0 0
  apply UInt32.toBitVec_inj.1
  rw [UInt32.toBitVec_xor, frameCrc, frameCrc, frameCrc, foldl_crcStep_toBitVec,
      foldl_crcStep_toBitVec, foldl_crcStep_toBitVec, hmap]
  exact hrun

/-! ### Altering a frame -/

/-- The frame at `buf` after `ds` was added to its bytes in front of the CRC word, and `c` to the
    CRC word. -/
def alter (ds : List UInt8) (c : UInt32) (buf : ℕ) (b : Block UInt8) : Block UInt8 :=
  { b with byte := mask (· ^^^ ·) ((ds ++ toBytes 4 c.toNat).getD · 0) buf (ds.length + 4) b.byte }

/-- Nothing is added to the four bytes of the sequence number. -/
def LeavesSequence (ds : List UInt8) : Prop := (ds.drop 2).take 4 = List.replicate 4 0

instance (ds : List UInt8) : Decidable (LeavesSequence ds) := inferInstanceAs (Decidable (_ = _))

section Alter

variable {ac : AboutCrypt} {nm : NetMessage} {b p : Block UInt8} {buf : ℕ} {msgLen : Int32}
  {ds : List UInt8} {c : UInt32}

/-- Part of what was added, read back. -/
theorem load_alter (m : ℕ → UInt8) (buf : ℕ) (xs : List UInt8) {i k : ℕ} (h : i + k ≤ xs.length) :
    load (mask (· ^^^ ·) (xs.getD · 0) buf xs.length m) (buf + i) k =
      List.zipWith (· ^^^ ·) (load m (buf + i) k) ((xs.drop i).take k) := by
  apply List.ext_getElem
  · rw [load_length, List.length_zipWith, load_length, List.length_take, List.length_drop]
    omega
  · intro j hj _
    rw [load_length] at hj
    simp only [load, List.getElem_map, List.getElem_range, List.getElem_zipWith,
      List.getElem_take, List.getElem_drop]
    rw [Nat.add_assoc, mask_inside m (by omega), List.getD_eq_getElem _ _ (by omega)]

/-- Decryption and alteration add to the same bytes, and it does not matter which comes first. -/
theorem xorDecrypt_alter (ds : List UInt8) (c : UInt32) (buf q : ℕ) {len : UInt32}
    (key : ℕ → UInt8) (hpos : 0 < len.toNat) :
    xorDecrypt (alter ds c buf b) q len key = (xorDecrypt b q len key).map (alter ds c buf) := by
  by_cases hin : q + len.toNat ≤ b.size
  · rw [xorDecrypt, xorDecrypt, xorCrypt_eq_mask key (by exact hin), xorCrypt_eq_mask key hin,
        Option.map_some, alter, alter]
    dsimp only
    rw [mask_comm fun x k k' => by rw [UInt8.xor_assoc, UInt8.xor_comm k, ← UInt8.xor_assoc]]
  · have hnone (b' : Block UInt8) (hsize : b'.size = b.size) : xorCrypt b' q len key = none := by
      cases h : xorCrypt b' q len key with
      | none => rfl
      | some r =>
        have hle := xorCrypt_le h hpos
        omega
    rw [xorDecrypt, xorDecrypt, hnone b rfl, hnone (alter ds c buf b) rfl]
    rfl

/-- What `check_crc32` is given, in front of the CRC word, is all but two of the bytes decrypted. -/
theorem msgLen_of_length (hlen : ds.length + 4 = (2 + msgLen.toUInt32).toNat) :
    ds.length + 2 = msgLen.toUInt32.toNat ∧ (2 + msgLen.toUInt32 - 4).toNat = ds.length := by
  have hlt := msgLen.toUInt32.toNat_lt
  have hadd : (2 + msgLen.toUInt32).toNat = (2 + msgLen.toUInt32.toNat) % 2 ^ 32 :=
    UInt32.toNat_add _ _
  rw [crcOffset_toNat]
  omega

/-- The check compares two words, and each is altered by what was added there. -/
theorem checkCrc32_alter (hlen : ds.length + 4 = (2 + msgLen.toUInt32).toNat)
    (hin : buf + (ds.length + 4) ≤ b.size) :
    ∃ crc newCrc, checkCrc32 initialCrc32Table b buf (2 + msgLen.toUInt32) =
        some (crc == newCrc) ∧
      checkCrc32 initialCrc32Table (alter ds c buf b) buf (2 + msgLen.toUInt32) =
        some (crc ^^^ c == newCrc ^^^ frameCrc ds) := by
  have hn := (msgLen_of_length hlen).2
  have hfour : 4 ≤ (2 + msgLen.toUInt32).toNat := by omega
  have htotal : (ds ++ toBytes 4 c.toNat).length = ds.length + 4 := by
    rw [List.length_append, toBytes_length]
  have hword : load (alter ds c buf b).byte (buf + ds.length) 4 =
      List.zipWith (· ^^^ ·) (load b.byte (buf + ds.length) 4) (toBytes 4 c.toNat) := by
    rw [alter, ← htotal, load_alter _ _ _ (by omega), List.drop_left, List.take_of_length_le]
    rw [toBytes_length]
  have hfront : load (alter ds c buf b).byte buf ds.length =
      List.zipWith (· ^^^ ·) (load b.byte buf ds.length) ds := by
    have h := load_alter b.byte buf (ds ++ toBytes 4 c.toNat)
      (show 0 + ds.length ≤ _ by omega)
    rw [List.drop_zero, List.take_left, Nat.add_zero, htotal] at h
    exact h
  refine ⟨UInt32.ofNat (ofBytes (load b.byte (buf + ds.length) 4)),
    frameCrc (load b.byte buf ds.length), ?_, ?_⟩
  · rw [checkCrc32_of_four_le _ _ _ hfour, hn, Block.readWord_eq_some (by omega), Option.bind_some,
        generateCrc32_eq_some _ (by omega), Option.map_some, hn]
    rfl
  · have hsize : (alter ds c buf b).size = b.size := rfl
    rw [checkCrc32_of_four_le _ _ _ hfour, hn, Block.readWord_eq_some (by omega), Option.bind_some,
        generateCrc32_eq_some _ (by omega), Option.map_some, hn, hword, hfront,
        ofBytes_xor (by rw [load_length, toBytes_length]), UInt32.ofNat_xor,
        ofBytes_toBytes (by exact c.toNat_lt), UInt32.ofNat_toNat]
    show some (_ == frameCrc _) = _
    rw [frameCrc_xor (load_length _ _ _)]

/-- The sequence number is altered by what was added there. -/
theorem sequence_alter (hsix : 6 ≤ ds.length) (hin : buf + (ds.length + 4) ≤ b.size) :
    ∃ word, b.readWord 4 (buf + 2) = some word ∧
      (alter ds c buf b).readWord 4 (buf + 2) =
        some (word ^^^ ofBytes ((ds.drop 2).take 4)) := by
  have htotal : (ds ++ toBytes 4 c.toNat).length = ds.length + 4 := by
    rw [List.length_append, toBytes_length]
  have hload : load (alter ds c buf b).byte (buf + 2) 4 =
      List.zipWith (· ^^^ ·) (load b.byte (buf + 2) 4) ((ds.drop 2).take 4) := by
    rw [alter, ← htotal, load_alter _ _ _ (by omega), List.drop_append_of_le_length (by omega),
        List.take_append_of_le_length]
    rw [List.length_drop]
    omega
  have hsize : (alter ds c buf b).size = b.size := rfl
  refine ⟨_, Block.readWord_eq_some (by omega), ?_⟩
  rw [Block.readWord_eq_some (by omega), hload, ofBytes_xor]
  rw [load_length, List.length_take, List.length_drop]
  omega

/-- What was added to the sequence number is zero when its bytes are. -/
theorem leavesSequence_iff (hsix : 6 ≤ ds.length) :
    LeavesSequence ds ↔ UInt32.ofNat (ofBytes ((ds.drop 2).take 4)) = 0 := by
  have hfour : ((ds.drop 2).take 4).length = 4 := by
    rw [List.length_take, List.length_drop]
    omega
  have hlt := ofBytes_lt ((ds.drop 2).take 4)
  rw [hfour] at hlt
  constructor
  · intro h
    rw [LeavesSequence] at h
    rw [h]
    rfl
  · intro h
    have hnat := congrArg UInt32.toNat h
    rw [UInt32.toNat_ofNat', Nat.mod_eq_of_lt (by exact hlt)] at hnat
    have hbytes := toBytes_ofBytes ((ds.drop 2).take 4)
    rw [hfour, hnat] at hbytes
    exact hbytes.symm

/-- **The decoder** does with an altered frame what it did with the frame, and decrypts it to the
    altered bytes. -/
theorem transformBufferToMessage_alter (hleaves : LeavesSequence ds) (hsix : 6 ≤ ds.length)
    (hlen : ds.length + 4 = (2 + msgLen.toUInt32).toNat) :
    transformBufferToMessage initialCrc32Table ac nm (alter ds (frameCrc ds) buf b) buf msgLen =
      (transformBufferToMessage initialCrc32Table ac nm b buf msgLen).map fun d =>
        { d with buffer := alter ds (frameCrc ds) buf d.buffer } := by
  have hmsg := (msgLen_of_length hlen).1
  rw [transformBufferToMessage, transformBufferToMessage,
      xorDecrypt_alter ds (frameCrc ds) buf (buf + 2) ac.xorKey (by omega)]
  cases hp : xorDecrypt b (buf + 2) msgLen.toUInt32 ac.xorKey with
  | none => rfl
  | some p =>
    have hin : buf + (ds.length + 4) ≤ p.size := by
      have hle := xorCrypt_le hp (by omega)
      rw [xorCrypt_size hp]
      omega
    obtain ⟨crc, newCrc, hcheck, hcheck'⟩ := checkCrc32_alter (c := frameCrc ds) hlen hin
    obtain ⟨word, hword, hword'⟩ := sequence_alter (c := frameCrc ds) hsix hin
    -- the same sum on both sides of the comparison, and nothing at the sequence number
    have hsame : (crc ^^^ frameCrc ds == newCrc ^^^ frameCrc ds) = (crc == newCrc) := by
      rw [Bool.eq_iff_iff, beq_iff_eq, beq_iff_eq, UInt32.xor_left_inj]
    have hseq : UInt32.ofNat (word ^^^ ofBytes ((ds.drop 2).take 4)) = UInt32.ofNat word := by
      rw [UInt32.ofNat_xor, (leavesSequence_iff hsix).1 hleaves, UInt32.xor_zero]
    rw [Option.map_some, Option.bind_some, Option.bind_some, hcheck, hcheck', Option.bind_some,
        Option.bind_some, hsame]
    split
    · rfl
    · rw [hword, hword', Option.map_some, Option.map_some, Option.map_some, hseq]
      split <;> rfl

/-- The checks of the decoder, for an authentic frame that was altered. -/
theorem frameAuthentic_alter (hauth : frameAuthentic initialCrc32Table ac b buf msgLen = true)
    (hsix : 6 ≤ ds.length) (hlen : ds.length + 4 = (2 + msgLen.toUInt32).toNat) :
    frameAuthentic initialCrc32Table ac (alter ds c buf b) buf msgLen =
      (c == frameCrc ds && decide (LeavesSequence ds)) := by
  have hmsg := (msgLen_of_length hlen).1
  unfold frameAuthentic at hauth ⊢
  rw [xorDecrypt_alter ds c buf (buf + 2) ac.xorKey (by omega)]
  cases hp : xorDecrypt b (buf + 2) msgLen.toUInt32 ac.xorKey with
  | none =>
    rw [hp] at hauth
    cases hauth
  | some p =>
    have hin : buf + (ds.length + 4) ≤ p.size := by
      have hle := xorCrypt_le hp (by omega)
      rw [xorCrypt_size hp]
      omega
    obtain ⟨crc, newCrc, hcheck, hcheck'⟩ := checkCrc32_alter (c := c) hlen hin
    obtain ⟨word, hword, hword'⟩ := sequence_alter (c := c) hsix hin
    rw [hp] at hauth
    simp only [hcheck, hword, Bool.and_eq_true, beq_iff_eq, Option.some.injEq] at hauth
    obtain ⟨hcrc, hseq⟩ := hauth
    simp only [Option.map_some, hcheck', hword']
    rw [Bool.eq_iff_iff, Bool.and_eq_true, Bool.and_eq_true, beq_iff_eq, beq_iff_eq, beq_iff_eq,
        Option.some.injEq, beq_iff_eq, decide_eq_true_eq]
    -- both checks compare the sums of two words that were equal
    rw [hcrc, UInt32.xor_right_inj, leavesSequence_iff hsix, UInt32.ofNat_xor, UInt32.xor_assoc,
        UInt32.xor_comm (UInt32.ofNat (ofBytes _)), ← UInt32.xor_assoc, hseq]
    refine and_congr_right fun _ => ⟨fun h => ?_, fun h => ?_⟩
    · exact (UInt32.xor_right_inj ac.sequenceId).1 (h.trans UInt32.xor_zero.symm)
    · rw [h, UInt32.xor_zero]

end Alter

/-- **Which altered frames are authentic.**  An authentic frame of eight bytes or more behind its
    prefix, with `ds` added to the bytes in front of its CRC word and `c` to the CRC word, is
    authentic exactly when `c` is the CRC of `ds`, and `ds` leaves the sequence number alone. -/
theorem authentic_alter_iff (ac : AboutCrypt) (b : Block UInt8) (buf : ℕ) (msgLen : Int32)
    (ds : List UInt8) (c : UInt32)
    (hauth : frameAuthentic initialCrc32Table ac b buf msgLen = true) (hsix : 6 ≤ ds.length)
    (hlen : ds.length + 4 = (2 + msgLen.toUInt32).toNat) :
    frameAuthentic initialCrc32Table ac (alter ds c buf b) buf msgLen = true ↔
      c = frameCrc ds ∧ LeavesSequence ds := by
  rw [frameAuthentic_alter hauth hsix hlen, Bool.and_eq_true, beq_iff_eq, decide_eq_true_eq]

/-- The identifier of an empty message becomes `5`. -/
theorem authentic_alter_iff_id :
    frameAuthentic initialCrc32Table ⟨0, 0, fun _ => 1, fun _ => 0⟩
        (alter [0, 0, 0, 0, 0, 0, 5, 0, 0, 0] (frameCrc [0, 0, 0, 0, 0, 0, 5, 0, 0, 0]) 0
          emptyFrameCall.buffer) 0 12 = true ↔
      frameCrc [0, 0, 0, 0, 0, 0, 5, 0, 0, 0] = frameCrc [0, 0, 0, 0, 0, 0, 5, 0, 0, 0] ∧
        LeavesSequence [0, 0, 0, 0, 0, 0, 5, 0, 0, 0] :=
  authentic_alter_iff _ _ _ _ _ _ (by decide +kernel) (by decide) (by decide)

/-! ### Runs of the decoder -/

/-- One call of the decoder, with all that it leaves behind. -/
def decodeCall (ac : AboutCrypt) (call : DecodeCall) : Option (Decoded × AboutCrypt) :=
  (transformBufferToMessage initialCrc32Table ac call.message call.buffer call.buf
    call.msgLen).map fun d => (d, d.crypt)

/-- A call, and what is added to the frame on its way. -/
structure AlteredCall where
  call : DecodeCall
  added : List UInt8

namespace AlteredCall

/-- The call that the decoder gets. -/
def received (x : AlteredCall) : DecodeCall :=
  { x.call with buffer := alter x.added (frameCrc x.added) x.call.buf x.call.buffer }

/-- What the decoder leaves behind, when it left `d` for the frame that was sent. -/
def decoded (x : AlteredCall) (d : Decoded) : Decoded :=
  { d with buffer := alter x.added (frameCrc x.added) x.call.buf d.buffer }

/-- As many bytes as stand in front of the CRC word are added, and none to the sequence number. -/
def InPlace (x : AlteredCall) : Prop :=
  6 ≤ x.added.length ∧ x.added.length + 4 = (2 + x.call.msgLen.toUInt32).toNat ∧
    LeavesSequence x.added

instance : DecidablePred InPlace := fun _ => inferInstanceAs (Decidable (_ ∧ _ ∧ _))

end AlteredCall

/-- **A stream altered on its way.**  Whatever the keys are and whatever is added to the frames, apart
    from their sequence numbers, the decoder counts and refuses the same ones of them, ends with the
    same `about_crypt`, and decrypts each of them to the altered bytes. -/
theorem run_altered (ac : AboutCrypt) (xs : List AlteredCall) (h : ∀ x ∈ xs, x.InPlace) :
    run decodeCall ac (xs.map (·.received)) =
      (run decodeCall ac (xs.map (·.call))).map fun r =>
        (List.zipWith AlteredCall.decoded xs r.1, r.2) := by
  induction xs generalizing ac with
  | nil => rfl
  | cons x xs ih =>
    obtain ⟨hsix, hlen, hleaves⟩ := h x List.mem_cons_self
    have hcall : decodeCall ac x.received =
        (decodeCall ac x.call).map fun r => (x.decoded r.1, r.2) := by
      rw [decodeCall, AlteredCall.received]
      dsimp only
      rw [transformBufferToMessage_alter hleaves hsix hlen, decodeCall, Option.map_map,
          Option.map_map]
      rfl
    rw [List.map_cons, List.map_cons, run, run, hcall]
    cases hd : decodeCall ac x.call with
    | none => rfl
    | some r =>
      rw [Option.map_some, Option.bind_some, Option.bind_some,
          ih r.2 fun y hy => h y (List.mem_cons_of_mem x hy), Option.map_map, Option.map_map]
      rfl

/-- A frame with another identifier, and then the frame itself, which comes too late. -/
def alteredTwo : List AlteredCall :=
  [⟨emptyFrameCall, [0, 0, 0, 0, 0, 0, 5, 0, 0, 0]⟩, ⟨emptyFrameCall, List.replicate 10 0⟩]

/-- Two frames, of which the first is altered. -/
theorem run_altered_two :
    run decodeCall ⟨0, 0, fun _ => 1, fun _ => 0⟩ (alteredTwo.map (·.received)) =
      (run decodeCall ⟨0, 0, fun _ => 1, fun _ => 0⟩ (alteredTwo.map (·.call))).map fun r =>
        (List.zipWith AlteredCall.decoded alteredTwo r.1, r.2) :=
  run_altered _ _ (by decide)

end LeoNet
