import LeoNet.DofCrypto
import LeoNet.NetMessage

namespace LeoNet

open Memory

/-!
# `leo_tcp_game_protocol.c` — keys, encoder and decoder

`about_crypt` is what a session knows about its peer's encryption.  The decoder works in place
on the caller's buffer; it takes `msg_len` for the number of bytes behind the two length bytes.

* `transformMessageToBuffer_realSize` — given the message's own size for `buf_len`, the encoder
  refuses every message;
* `transformBufferToMessage_eq_some` — the decoder is defined when what it touches lies inside
  the buffer's object;
* `transformBufferToMessage_two_le` — it is not for frames that do not hold their own CRC word;
* `transformBufferToMessage_spec` — it counts the sequence number up exactly for the frames
  that pass both checks.
-/

/-- `XOR_KEY_LEN`. -/
def XOR_KEY_LEN : ℕ := 16

/-- `SWAP_KEY_LEN`. -/
def SWAP_KEY_LEN : ℕ := 4

/-- `struct about_crypt`; the keys are arrays of `XOR_KEY_LEN + 1` and `SWAP_KEY_LEN + 1`. -/
structure AboutCrypt where
  sequenceId : UInt32
  sessionKey : UInt32
  xorKey : ℕ → UInt8
  swapKey : ℕ → UInt8

/-- The struct after `send_key`: `rand` is what `rand()` returned for the session key and
    `row` what `rand_xor_key()` returned.  The bytes of the swap key but the last stay as they
    were. -/
def sendKey (ac : AboutCrypt) (rand : UInt32) (row : ℕ → UInt8) : AboutCrypt where
  sequenceId := 0
  sessionKey := rand
  xorKey := Function.update (memcpy ac.xorKey 0 row 0 XOR_KEY_LEN) XOR_KEY_LEN 0
  swapKey := Function.update ac.swapKey SWAP_KEY_LEN 0

/-- `transform_message_to_buffer(ac, nm, buf, buf_len)`, the returned length and the buffer.
    The comparison is unsigned. -/
def transformMessageToBuffer (ac : AboutCrypt) (nm : NetMessage) (b : Block UInt8) (buf : ℕ)
    (bufLen : Int32) : Option (UInt32 × Block UInt8) :=
  let dataSize := nm.realSize.toUInt32
  if 3 * 2 + dataSize > bufLen.toUInt32 then some (0, b)
  else
    (b.writeWord 2 (buf + 2) nm.id.toNat).bind fun b =>
    (b.writeWord 2 (buf + 4) dataSize.toNat).bind fun b =>
    (nm.data.read 0 dataSize.toNat).bind fun data =>
    (b.write (buf + 6) data).bind fun b =>
    let len := 6 + dataSize
    (xorCrypt b (buf + 2) (len - 2) ac.xorKey).map fun b => (len, b)

/-- What the decoder leaves behind: the returned value, the struct, the message, the buffer. -/
structure Decoded where
  ret : UInt32
  crypt : AboutCrypt
  message : NetMessage
  buffer : Block UInt8

/-- `transform_buffer_to_message(ac, nm, buf, msg_len)`. -/
def transformBufferToMessage (table : UInt8 → UInt32) (ac : AboutCrypt) (nm : NetMessage)
    (b : Block UInt8) (buf : ℕ) (msgLen : Int32) : Option Decoded :=
  (xorDecrypt b (buf + 2) msgLen.toUInt32 ac.xorKey).bind fun b =>
  (checkCrc32 table b buf (2 + msgLen.toUInt32)).bind fun ok =>
  if ok = false then some ⟨0, ac, nm, b⟩
  else
    (b.readWord 4 (buf + 2)).map fun sequenceId =>
    if UInt32.ofNat sequenceId ^^^ ac.sessionKey != ac.sequenceId then ⟨0, ac, nm, b⟩
    else ⟨0, { ac with sequenceId := ac.sequenceId + 1 }, nm, b⟩

/-- The frame passes both checks of the decoder: its CRC, and its sequence number against the
    one expected next. -/
def frameAuthentic (table : UInt8 → UInt32) (ac : AboutCrypt) (b : Block UInt8) (buf : ℕ)
    (msgLen : Int32) : Bool :=
  match xorDecrypt b (buf + 2) msgLen.toUInt32 ac.xorKey with
  | none => false
  | some b =>
    checkCrc32 table b buf (2 + msgLen.toUInt32) == some true &&
      match b.readWord 4 (buf + 2) with
      | none => false
      | some sequenceId => UInt32.ofNat sequenceId ^^^ ac.sessionKey == ac.sequenceId

/-- Offered a buffer of the message's own size, the encoder refuses the message: the six bytes
    of the header are not in it. -/
theorem transformMessageToBuffer_realSize (ac : AboutCrypt) (nm : NetMessage) (b : Block UInt8)
    (buf : ℕ) :
    transformMessageToBuffer ac nm b buf nm.realSize.toUInt32.toInt32 = some (0, b) := by
  have hlt := nm.realSize.toNat_lt
  have hgt : 3 * 2 + nm.realSize.toUInt32 > nm.realSize.toUInt32.toInt32.toUInt32 := by
    rw [UInt32.toUInt32_toInt32, gt_iff_lt, UInt32.lt_iff_toNat_lt, UInt32.toNat_add,
        UInt16.toNat_toUInt32]
    show nm.realSize.toNat < (6 + nm.realSize.toNat) % 2 ^ 32
    omega
  simp only [transformMessageToBuffer]
  rw [if_pos hgt]

/-- The unsigned value of a signed length. -/
theorem toInt_toUInt32 (len : Int32) :
    (len.toInt < 0 ∧ 2 ^ 31 ≤ len.toUInt32.toNat) ∨
      (0 ≤ len.toInt ∧ len.toInt = len.toUInt32.toNat) := by
  have hint : len.toInt = len.toUInt32.toBitVec.toInt := rfl
  have hlt := len.toUInt32.toNat_lt
  rw [hint, BitVec.toInt_eq_toNat_cond, UInt32.toNat_toBitVec]
  split <;> omega

/-- Where `check_crc32` finds the CRC word of a frame with `msg_len` bytes behind its length. -/
theorem crcOffset_toNat (msgLen : UInt32) :
    (2 + msgLen - 4).toNat = (msgLen.toNat + 4294967294) % 4294967296 := by
  rw [UInt32.toNat_sub, UInt32.toNat_add]
  show (2 ^ 32 - 4 + (2 + msgLen.toNat) % 2 ^ 32) % 2 ^ 32 = _
  omega

section Decoder

variable {table : UInt8 → UInt32} {ac : AboutCrypt} {nm : NetMessage} {b : Block UInt8} {buf : ℕ}
  {msgLen : Int32}

/-- The decoder is defined when the CRC word, the sequence field and `msg_len` bytes behind the
    length lie inside the buffer's object. -/
theorem transformBufferToMessage_eq_some (h2 : 2 ≤ msgLen.toUInt32.toNat)
    (hlen : msgLen.toUInt32.toNat < UInt16.size) (hmsg : buf + 2 + msgLen.toUInt32.toNat ≤ b.size)
    (hseq : buf + 6 ≤ b.size) :
    ∃ d, transformBufferToMessage table ac nm b buf msgLen = some d := by
  have hshort : UInt16.size = 65536 := rfl
  have hadd : (2 + msgLen.toUInt32).toNat = 2 + msgLen.toUInt32.toNat := by
    rw [UInt32.toNat_add]
    exact Nat.mod_eq_of_lt (by show 2 + msgLen.toUInt32.toNat < 2 ^ 32; omega)
  obtain ⟨b₁, hb₁, hsize⟩ := xorCrypt_eq_some (b := b) ac.xorKey hmsg
  obtain ⟨ok, hok⟩ : ∃ ok, checkCrc32 table b₁ buf (2 + msgLen.toUInt32) = some ok :=
    checkCrc32_eq_some table (by omega) (by omega)
  rw [transformBufferToMessage, xorDecrypt, hb₁, Option.bind_some, hok, Option.bind_some]
  split
  · exact ⟨_, rfl⟩
  · rw [Block.readWord_eq_some (by omega), Option.map_some]
    exact ⟨_, rfl⟩

/-- It is not defined for fewer than two bytes behind the length. -/
theorem transformBufferToMessage_two_le {d : Decoded}
    (h : transformBufferToMessage table ac nm b buf msgLen = some d) (hsize : b.size < UInt32.size)
    (hlen : msgLen.toUInt32.toNat < UInt16.size) : 2 ≤ msgLen.toUInt32.toNat := by
  have hshort : UInt16.size = 65536 := rfl
  rw [transformBufferToMessage, Option.bind_eq_some_iff] at h
  obtain ⟨b₁, hb₁, h⟩ := h
  rw [Option.bind_eq_some_iff] at h
  obtain ⟨ok, hok, -⟩ := h
  have hfour := checkCrc32_four_le (by rw [xorCrypt_size hb₁]; exact hsize) hok
  rw [UInt32.toNat_add] at hfour
  have hmod : ((2 : UInt32).toNat + msgLen.toUInt32.toNat) % 2 ^ 32 = 2 + msgLen.toUInt32.toNat :=
    Nat.mod_eq_of_lt (by show 2 + msgLen.toUInt32.toNat < 2 ^ 32; omega)
  omega

/-- A frame that passes both checks counts the sequence number up; any other leaves the struct
    alone.  Either way the message stays as it was and the caller is told `0`. -/
theorem transformBufferToMessage_spec {d : Decoded}
    (h : transformBufferToMessage table ac nm b buf msgLen = some d) :
    d.ret = 0 ∧ d.message = nm ∧
      d.crypt = if frameAuthentic table ac b buf msgLen
        then { ac with sequenceId := ac.sequenceId + 1 } else ac := by
  unfold transformBufferToMessage at h
  unfold frameAuthentic
  rw [Option.bind_eq_some_iff] at h
  obtain ⟨b₁, hb₁, h⟩ := h
  rw [Option.bind_eq_some_iff] at h
  obtain ⟨ok, hok, h⟩ := h
  rw [hb₁]
  simp only [hok]
  -- the decoder stops at a CRC that does not fit
  cases ok with
  | false =>
    cases h
    exact ⟨rfl, rfl, rfl⟩
  | true =>
    rw [if_neg (by decide), Option.map_eq_some_iff] at h
    obtain ⟨sequenceId, hseq, h⟩ := h
    rw [hseq]
    -- and counts only the sequence number that is expected
    by_cases heq : UInt32.ofNat sequenceId ^^^ ac.sessionKey = ac.sequenceId
    · rw [if_neg (by simpa using heq)] at h
      cases h
      simp [heq]
    · rw [if_pos (by simpa using heq)] at h
      cases h
      simp [heq]

end Decoder

end LeoNet
