import LeoNet.ReceivePath

namespace LeoNet

open Memory

/-!
# How far a frame reaches

The frame loop of `on_read` and the decoder give the length prefix two meanings: `seek_read`
removes that many bytes, prefix included, while the decoder works on that many bytes behind the
prefix.

* `transformBufferToMessage_isSome_iff` — the accesses listed in `decoderAccesses` are what the
  decoder needs its object to hold, and `transformBufferToMessage_byte`: it rewrites none but
  the bytes of its first access;
* `touches_iff` — for a frame that holds its CRC word they reach two bytes behind the frame;
* `extentAgrees_never` — so that what is touched is never what is removed.
-/

/-- The accesses of `transform_buffer_to_message(ac, nm, buf, msg_len)`, each an offset from
    `buf` and a number of bytes, in the order in which it makes them: `xor_decrypt`, the trailing
    word that `check_crc32` reads, the bytes before it, and the sequence number behind a CRC that
    fits. -/
def decoderAccesses (table : UInt8 → UInt32) (ac : AboutCrypt) (b : Block UInt8) (buf : ℕ)
    (msgLen : Int32) : List (ℤ × ℕ) :=
  let len := 2 + msgLen.toUInt32
  [((2 : ℤ), msgLen.toUInt32.toNat), (len.toNat - 4, 4), (0, (len - 4).toNat)] ++
    if ((xorDecrypt b (buf + 2) msgLen.toUInt32 ac.xorKey).bind fun b =>
        checkCrc32 table b buf len) = some true
    then [(2, 4)] else []

/-- Some access covers offset `i`. -/
def Touches (accesses : List (ℤ × ℕ)) (i : ℤ) : Prop :=
  ∃ r ∈ accesses, r.1 ≤ i ∧ i < r.1 + r.2

instance (accesses : List (ℤ × ℕ)) : DecidablePred (Touches accesses) := fun i =>
  inferInstanceAs (Decidable (∃ r ∈ accesses, r.1 ≤ i ∧ i < r.1 + r.2))

section Accesses

variable {table : UInt8 → UInt32} {ac : AboutCrypt} {nm : NetMessage} {b : Block UInt8} {buf : ℕ}
  {msgLen : Int32}

/-- The accesses, with the sequence number behind a CRC that fits. -/
theorem decoderAccesses_eq (table : UInt8 → UInt32) (ac : AboutCrypt) (b : Block UInt8) (buf : ℕ)
    (msgLen : Int32) :
    ∃ seq, (seq = [] ∨ seq = [(2, 4)]) ∧
      (seq = [(2, 4)] ↔ ((xorDecrypt b (buf + 2) msgLen.toUInt32 ac.xorKey).bind fun b =>
        checkCrc32 table b buf (2 + msgLen.toUInt32)) = some true) ∧
      decoderAccesses table ac b buf msgLen =
        (2, msgLen.toUInt32.toNat) :: (((2 + msgLen.toUInt32).toNat : ℤ) - 4, 4) ::
          (0, (2 + msgLen.toUInt32 - 4).toNat) :: seq := by
  refine ⟨_, ?_, ?_, rfl⟩
  · split
    · exact Or.inr rfl
    · exact Or.inl rfl
  · split <;> simp [*]

/-- The bytes of an access are touched. -/
theorem touches_of_mem {accesses : List (ℤ × ℕ)} {p i : ℤ} {n : ℕ} (h : (p, n) ∈ accesses)
    (hp : p ≤ i) (hi : i < p + n) : Touches accesses i := ⟨(p, n), h, hp, hi⟩

/-- An access that stays inside the object. -/
theorem inside_of_touches {accesses : List (ℤ × ℕ)} {p : ℤ} {n size : ℕ} (h : (p, n) ∈ accesses)
    (hall : ∀ i, Touches accesses i → 0 ≤ buf + i ∧ buf + i < size) (hpos : 0 < n) :
    0 ≤ buf + p ∧ buf + p + n ≤ size := by
  have hfirst := hall p (touches_of_mem h (le_refl _) (by omega))
  have hlast := hall (p + n - 1) (touches_of_mem h (by omega) (by omega))
  omega

/-- For a frame that holds its CRC word the decoder touches the two bytes of the length and
    `msg_len` bytes behind them, and the sequence number if the CRC fits. -/
theorem decoder_touches_iff (h2 : 2 ≤ msgLen.toUInt32.toNat)
    (hlt : msgLen.toUInt32.toNat < 2 ^ 32 - 2) (i : ℤ) :
    Touches (decoderAccesses table ac b buf msgLen) i ↔
      (0 ≤ i ∧ i < 2 + msgLen.toUInt32.toNat) ∨
        (((xorDecrypt b (buf + 2) msgLen.toUInt32 ac.xorKey).bind fun b =>
          checkCrc32 table b buf (2 + msgLen.toUInt32)) = some true ∧ 2 ≤ i ∧ i < 6) := by
  have hadd : (2 + msgLen.toUInt32).toNat = 2 + msgLen.toUInt32.toNat := by
    rw [UInt32.toNat_add]
    exact Nat.mod_eq_of_lt (by show 2 + msgLen.toUInt32.toNat < 2 ^ 32; omega)
  have hcrc : (2 + msgLen.toUInt32 - 4).toNat = msgLen.toUInt32.toNat - 2 := by
    rw [crcOffset_toNat]
    omega
  obtain ⟨seq, hseqs, hiff, haccesses⟩ := decoderAccesses_eq table ac b buf msgLen
  rw [haccesses, hadd, hcrc, ← hiff]
  constructor
  · rintro ⟨r, hr, hlo, hhi⟩
    -- the bytes decrypted, the CRC word, those that it covers, and the sequence number if it is read
    rw [List.mem_cons, List.mem_cons, List.mem_cons] at hr
    rcases hr with rfl | rfl | rfl | hr
    · simp only at hlo hhi
      exact Or.inl (by omega)
    · simp only at hlo hhi
      exact Or.inl (by omega)
    · simp only at hlo hhi
      exact Or.inl (by omega)
    · rcases hseqs with rfl | rfl
      · cases hr
      · rw [List.mem_singleton] at hr
        subst hr
        exact Or.inr ⟨rfl, hlo, hhi⟩
  · rintro (⟨hlo, hhi⟩ | ⟨rfl, hlo, hhi⟩)
    · -- before the CRC word, or in it
      rcases lt_or_ge i (msgLen.toUInt32.toNat - 2 : ℕ) with hbefore | hword
      · exact touches_of_mem (p := 0) (n := msgLen.toUInt32.toNat - 2) (by simp) hlo (by omega)
      · exact touches_of_mem (p := ((2 + msgLen.toUInt32.toNat : ℕ) : ℤ) - 4) (n := 4) (by simp)
          (by omega) (by omega)
    · exact touches_of_mem (p := 2) (n := 4) (by simp) hlo (by omega)

/-- `check_crc32` is defined when the trailing word and what it is compared with lie inside. -/
theorem checkCrc32_isSome (table : UInt8 → UInt32) {len : UInt32} (hfront : 4 ≤ buf + len.toNat)
    (hword : buf + len.toNat ≤ b.size) (hbytes : buf + (len - 4).toNat ≤ b.size) :
    ∃ ok, checkCrc32 table b buf len = some ok := by
  rw [checkCrc32, if_pos hfront, generateCrc32, Block.readWord_eq_some (by omega),
      Option.bind_some, Block.read_eq_some hbytes, Option.map_some, Option.map_some]
  exact ⟨_, rfl⟩

/-- `check_crc32` is defined inside the buffer's object alone. -/
theorem checkCrc32_le {len : UInt32} {ok : Bool} (h : checkCrc32 table b buf len = some ok) :
    4 ≤ buf + len.toNat ∧ buf + len.toNat ≤ b.size ∧ buf + (len - 4).toNat ≤ b.size := by
  rw [checkCrc32, Option.bind_eq_some_iff] at h
  obtain ⟨crc, hword, h⟩ := h
  have hfront : 4 ≤ buf + len.toNat := by
    by_contra hnot
    rw [if_neg hnot] at hword
    cases hword
  rw [if_pos hfront] at hword
  rw [generateCrc32, Option.map_map, Option.map_eq_some_iff] at h
  obtain ⟨bytes, hread, -⟩ := h
  have hin := Block.readWord_le hword
  exact ⟨hfront, by omega, Block.read_le hread⟩

/-- **What the decoder touches.**  It is defined exactly when all its accesses stay inside the
    buffer's object. -/
theorem transformBufferToMessage_isSome_iff :
    (transformBufferToMessage table ac nm b buf msgLen).isSome ↔
      ∀ i, Touches (decoderAccesses table ac b buf msgLen) i → 0 ≤ buf + i ∧ buf + i < b.size := by
  obtain ⟨seq, hseqs, hiff, haccesses⟩ := decoderAccesses_eq table ac b buf msgLen
  constructor
  · intro h
    obtain ⟨d, hd⟩ := Option.isSome_iff_exists.mp h
    rw [transformBufferToMessage, Option.bind_eq_some_iff] at hd
    obtain ⟨b₁, hb₁, hd⟩ := hd
    rw [Option.bind_eq_some_iff] at hd
    obtain ⟨ok, hok, hd⟩ := hd
    have hcrc := checkCrc32_le hok
    rw [xorCrypt_size hb₁] at hcrc
    rw [hb₁, Option.bind_some, hok] at hiff
    rintro i ⟨r, hr, hlo, hhi⟩
    rw [haccesses, List.mem_cons, List.mem_cons, List.mem_cons] at hr
    -- the accesses in turn; the last one is not always made
    rcases hr with rfl | rfl | rfl | hr
    · -- the bytes that are decrypted
      simp only at hlo hhi
      have := xorCrypt_le hb₁ (by omega)
      omega
    · simp only at hlo hhi
      omega
    · simp only at hlo hhi
      omega
    · -- the sequence number, behind a CRC that fits
      rcases hseqs with rfl | rfl
      · cases hr
      · have htrue : ok = true := Option.some_inj.mp (hiff.mp rfl)
        rw [htrue, if_neg (by decide), Option.map_eq_some_iff] at hd
        obtain ⟨sequenceId, hseq, -⟩ := hd
        have hword := Block.readWord_le hseq
        rw [xorCrypt_size hb₁] at hword
        rw [List.mem_singleton] at hr
        subst hr
        simp only at hlo hhi
        omega
  · intro hall
    rw [haccesses] at hall
    -- a first and a last byte inside the buffer's object are enough for each access
    have hword := inside_of_touches (p := ((2 + msgLen.toUInt32).toNat : ℤ) - 4) (n := 4) (by simp)
      hall (by decide)
    have hmsg : buf + 2 + msgLen.toUInt32.toNat ≤ b.size ∨ msgLen.toUInt32.toNat = 0 := by
      rcases Nat.eq_zero_or_pos msgLen.toUInt32.toNat with hzero | hpos
      · exact Or.inr hzero
      · have := inside_of_touches (p := 2) (n := msgLen.toUInt32.toNat) (by simp) hall hpos
        exact Or.inl (by omega)
    have hbytes : buf + (2 + msgLen.toUInt32 - 4).toNat ≤ b.size := by
      rcases Nat.eq_zero_or_pos (2 + msgLen.toUInt32 - 4).toNat with hzero | hpos
      · omega
      · have := inside_of_touches (p := 0) (n := (2 + msgLen.toUInt32 - 4).toNat) (by simp) hall hpos
        omega
    have hfits : buf + 2 + msgLen.toUInt32.toNat ≤ b.size := by
      rcases hmsg with hmsg | hzero
      · exact hmsg
      · -- without a byte to decrypt, the loop over the CRC's bytes is a long one
        rw [crcOffset_toNat, hzero] at hbytes
        omega
    obtain ⟨b₁, hb₁, hsize⟩ := xorCrypt_eq_some (b := b) ac.xorKey hfits
    obtain ⟨ok, hok⟩ : ∃ ok, checkCrc32 table b₁ buf (2 + msgLen.toUInt32) = some ok :=
      checkCrc32_isSome table (by omega) (by omega) (by omega)
    rw [transformBufferToMessage, xorDecrypt, hb₁, Option.bind_some, hok, Option.bind_some]
    -- only a frame whose CRC fits has its sequence number read
    cases ok with
    | false => rfl
    | true =>
      have hseq : buf + 2 + 4 ≤ b.size := by
        rw [xorDecrypt, hb₁, Option.bind_some, hok] at hiff
        have := inside_of_touches (p := 2) (n := 4) (by simp [hiff.mpr rfl]) hall (by decide)
        omega
      rw [if_neg (by decide), Block.readWord_eq_some (by omega)]
      rfl

/-- It rewrites no bytes but those behind the prefix, `msg_len` of them. -/
theorem transformBufferToMessage_byte {d : Decoded}
    (h : transformBufferToMessage table ac nm b buf msgLen = some d) {a : ℕ}
    (ha : a < buf + 2 ∨ buf + 2 + msgLen.toUInt32.toNat ≤ a) :
    d.buffer.byte a = b.byte a := by
  rw [transformBufferToMessage, Option.bind_eq_some_iff] at h
  obtain ⟨b₁, hb₁, h⟩ := h
  rw [Option.bind_eq_some_iff] at h
  obtain ⟨ok, hok, h⟩ := h
  have hbyte := xorCrypt_byte hb₁ a
  rw [if_neg (by omega)] at hbyte
  rw [← hbyte]
  cases ok with
  | false =>
    cases h
    rfl
  | true =>
    rw [if_neg (by decide), Option.map_eq_some_iff] at h
    obtain ⟨sequenceId, -, rfl⟩ := h
    split <;> rfl

end Accesses

/-! ### On the ring -/

/-- The accesses of the decoder when the frame loop calls it, from `rb->read_p()` on. -/
def NetSession.frameAccesses (table : UInt8 → UInt32) (s : NetSession) : List (ℤ × ℕ) :=
  decoderAccesses table s.crypt s.readBuffer.storage s.readBuffer.readPtr
    s.messageLen.toUInt32.toInt32

/-- The first frame of the ring passes the CRC test of the decoder. -/
def NetSession.CrcPasses (table : UInt8 → UInt32) (s : NetSession) : Prop :=
  ((xorDecrypt s.readBuffer.storage (s.readBuffer.readPtr + 2)
      s.messageLen.toUInt32.toInt32.toUInt32 s.crypt.xorKey).bind fun b =>
    checkCrc32 table b s.readBuffer.readPtr
      (2 + s.messageLen.toUInt32.toInt32.toUInt32)) = some true

instance (table : UInt8 → UInt32) (s : NetSession) : Decidable (s.CrcPasses table) :=
  inferInstanceAs (Decidable (_ = _))

/-- The number of bytes that `rb->seek_read(message_len)` removes. -/
def NetSession.frameRemoved (s : NetSession) : ℕ :=
  s.readBuffer.used.toNat - (s.readBuffer.seekRead s.messageLen.toUInt32).2.used.toNat

/-- The promise of the frame loop: the bytes the decoder touches are bytes the ring holds, and
    they are the bytes that are removed. -/
def ExtentAgrees (table : UInt8 → UInt32) (s : NetSession) : Prop :=
  ∀ i : ℤ, (Touches (s.frameAccesses table) i → 0 ≤ i ∧ i < s.readBuffer.used.toNat) ∧
    (Touches (s.frameAccesses table) i ↔ 0 ≤ i ∧ i < s.frameRemoved)

section Extent

variable {table : UInt8 → UInt32} {s : NetSession}

/-- What is removed is as many bytes as the prefix says. -/
theorem frameRemoved_eq (h : s.HeadComplete) : s.frameRemoved = s.messageLen.toNat := by
  have hlen : s.messageLen.toUInt32.toNat = s.messageLen.toNat := UInt16.toNat_toUInt32 _
  have hle := h.2
  have hused := s.readBuffer.seekRead_used (by rw [hlen]; exact hle)
  unfold NetSession.frameRemoved
  omega

/-- For a frame that holds its CRC word the decoder touches two bytes more than the prefix says,
    and the sequence number if the CRC fits. -/
theorem touches_iff (h2 : 2 ≤ s.messageLen.toNat) (i : ℤ) :
    Touches (s.frameAccesses table) i ↔
      (0 ≤ i ∧ i < 2 + s.messageLen.toNat) ∨ (s.CrcPasses table ∧ 2 ≤ i ∧ i < 6) := by
  have hlt := s.messageLen.toNat_lt
  have htouches : Touches (s.frameAccesses table) i ↔ _ := decoder_touches_iff
    (by rw [s.msgLen_toNat]; exact h2) (by rw [s.msgLen_toNat]; omega) i
  rw [s.msgLen_toNat] at htouches
  exact htouches

/-- Below two, the CRC word is looked for in front of the frame. -/
theorem touches_front (h2 : s.messageLen.toNat < 2) : Touches (s.frameAccesses table) (-1) := by
  have hadd : (2 + s.messageLen.toUInt32.toInt32.toUInt32).toNat = 2 + s.messageLen.toNat := by
    rw [UInt32.toNat_add, s.msgLen_toNat]
    show (2 + s.messageLen.toNat) % 2 ^ 32 = _
    omega
  obtain ⟨seq, -, -, haccesses⟩ := decoderAccesses_eq table s.crypt s.readBuffer.storage
    s.readBuffer.readPtr s.messageLen.toUInt32.toInt32
  unfold NetSession.frameAccesses
  rw [haccesses, hadd]
  exact touches_of_mem (p := ((2 + s.messageLen.toNat : ℕ) : ℤ) - 4) (n := 4) (by simp) (by omega)
    (by omega)

end Extent

/-- **What the decoder touches is never what is removed.**  Whatever frame the loop takes off the
    ring, the decoder touches bytes that are not removed with it. -/
theorem extentAgrees_never (table : UInt8 → UInt32) (s : NetSession) (h : s.HeadComplete) :
    ¬ ExtentAgrees table s := by
  intro hall
  have hremoved := frameRemoved_eq h
  by_cases h2 : 2 ≤ s.messageLen.toNat
  · -- the byte behind the frame is decrypted with it
    have htouch : Touches (s.frameAccesses table) s.messageLen.toNat :=
      (touches_iff h2 _).mpr (Or.inl (by omega))
    have := (hall _).2.mp htouch
    omega
  · -- the CRC word starts in front of the frame
    have := (hall _).2.mp (touches_front (not_le.1 h2))
    omega

/-- A session that has received the four bytes of the frame `04 00 01 01`. -/
def oneFrame : NetSession := (NetSession.keyed 0 fun _ => 1).received [4, 0, 1, 1]

/-- A frame of length four. -/
theorem extentAgrees_never_four :
    oneFrame.HeadComplete ∧ ¬ ExtentAgrees initialCrc32Table oneFrame :=
  have h : oneFrame.HeadComplete := by decide +kernel
  ⟨h, extentAgrees_never _ _ h⟩

/-- Decoding the one frame the ring holds reaches two bytes behind it. -/
theorem extentAgrees_fails :
    ¬ ∀ s : NetSession, s.HeadComplete → ExtentAgrees initialCrc32Table s := by
  intro h
  have hall := h oneFrame (by decide +kernel)
  have htouch : Touches (oneFrame.frameAccesses initialCrc32Table) 5 := by decide +kernel
  have hused : ¬ (5 : ℤ) < oneFrame.readBuffer.used.toNat := by decide +kernel
  exact hused ((hall 5).1 htouch).2

end LeoNet
