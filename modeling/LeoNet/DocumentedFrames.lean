import LeoNet.TcpGameProtocol
import LeoNet.XorCipher

namespace LeoNet

open Memory

/-!
# The documented frames — `len:sequence:id:size:data:crc32`

The comment above `transform_buffer_to_message` gives the layout of the frames it is there to
decode.

* `documented_checked` — a documented frame passes both checks of the decoder;
* `documented_decoded` — the decoder counts it, and neither reports nor delivers it;
* `decodesAsDocumented_iff` — so it does what its comment says exactly for the other buffers.
-/

/-- The plain bytes of a frame in front of its CRC word. -/
def documentedBody (ac : AboutCrypt) (len id : UInt16) (data : List UInt8) : List UInt8 :=
  toBytes 2 len.toNat ++
    (toBytes 4 (ac.sequenceId ^^^ ac.sessionKey).toNat ++
      (toBytes 2 id.toNat ++ (toBytes 2 data.length ++ data)))

/-- The plain bytes of a frame; `len` is what its prefix holds, masked or not. -/
def documentedFrame (table : UInt8 → UInt32) (ac : AboutCrypt) (len id : UInt16)
    (data : List UInt8) : List UInt8 :=
  let body := documentedBody ac len id data
  body ++ toBytes 4 (List.foldl (crcStep table) 0 body).toNat

/-- At `buf` stands a documented frame, everything behind its prefix encrypted by `xor_crypt`,
    and `msg_len` is the number of these bytes. -/
def IsDocumented (table : UInt8 → UInt32) (ac : AboutCrypt) (b : Block UInt8) (buf : ℕ)
    (msgLen : Int32) (id : UInt16) (data : List UInt8) : Prop :=
  data.length ≤ BUFFER_SIZE ∧ ∃ (len : UInt16) (p : Block UInt8),
    load p.byte buf (2 + msgLen.toUInt32.toNat) = documentedFrame table ac len id data ∧
      xorCrypt p (buf + 2) msgLen.toUInt32 ac.xorKey = some b

/-- The decoder reports success, hands over the frame's message and counts the frame. -/
def Delivers (ac : AboutCrypt) (id : UInt16) (data : List UInt8) (d : Decoded) : Prop :=
  d.ret ≠ 0 ∧ d.message.id = id ∧ d.message.realSize.toNat = data.length ∧
    load d.message.buffer 0 data.length = data ∧
    d.crypt.sequenceId = ac.sequenceId + 1

/-- The decoder's promise for one buffer: it delivers a documented frame, and of a frame that
    fails a check it returns `0` and leaves the message alone. -/
def DecodesAsDocumented (table : UInt8 → UInt32) (ac : AboutCrypt) (nm : NetMessage)
    (b : Block UInt8) (buf : ℕ) (msgLen : Int32) : Prop :=
  (∀ id data, IsDocumented table ac b buf msgLen id data →
    ∃ d, transformBufferToMessage table ac nm b buf msgLen = some d ∧ Delivers ac id data d) ∧
  (frameAuthentic table ac b buf msgLen = false →
    ∀ d, transformBufferToMessage table ac nm b buf msgLen = some d →
      d.ret = 0 ∧ d.message = nm)

section Frames

variable {table : UInt8 → UInt32} {ac : AboutCrypt} {nm : NetMessage} {p b : Block UInt8}
  {buf : ℕ} {msgLen : Int32} {len id : UInt16} {data : List UInt8}

/-- Ten bytes stand in front of the data. -/
theorem documentedBody_length (ac : AboutCrypt) (len id : UInt16) (data : List UInt8) :
    (documentedBody ac len id data).length = 10 + data.length := by
  simp only [documentedBody, List.length_append, toBytes_length]
  omega

/-- Four more, the CRC word, stand behind. -/
theorem documentedFrame_length (table : UInt8 → UInt32) (ac : AboutCrypt) (len id : UInt16)
    (data : List UInt8) : (documentedFrame table ac len id data).length = 14 + data.length := by
  simp only [documentedFrame, List.length_append, toBytes_length, documentedBody_length]
  omega

/-- A word written by `toBytes 4` and read back. -/
theorem ofNat_ofBytes_toBytes (x : UInt32) : UInt32.ofNat (ofBytes (toBytes 4 x.toNat)) = x := by
  have hlt : x.toNat < 256 ^ 4 := x.toNat_lt
  rw [ofBytes_toBytes hlt, UInt32.ofNat_toNat]

/-- A plain frame passes both checks. -/
theorem documented_plain
    (hdata : data.length ≤ BUFFER_SIZE)
    (hload : load p.byte buf (2 + msgLen.toUInt32.toNat) = documentedFrame table ac len id data)
    (hin : buf + 2 + msgLen.toUInt32.toNat ≤ p.size) :
    checkCrc32 table p buf (2 + msgLen.toUInt32) = some true ∧
      ∃ sequenceId, p.readWord 4 (buf + 2) = some sequenceId ∧
        UInt32.ofNat sequenceId ^^^ ac.sessionKey = ac.sequenceId := by
  have hlength := congrArg List.length hload
  rw [load_length, documentedFrame_length] at hlength
  have hlt := msgLen.toUInt32.toNat_lt
  constructor
  · -- the bytes in front of the CRC word, and the word
    have hm : (2 + msgLen.toUInt32 - 4).toNat = 10 + data.length := by
      rw [crcOffset_toNat]
      omega
    have hfour : 4 ≤ (2 + msgLen.toUInt32).toNat := by
      have hsize : BUFFER_SIZE = 1024 := rfl
      rw [UInt32.toNat_add]
      show 4 ≤ (2 + msgLen.toUInt32.toNat) % 2 ^ 32
      omega
    have hsplit : 2 + msgLen.toUInt32.toNat = (10 + data.length) + 4 := by omega
    rw [hsplit, load_add] at hload
    obtain ⟨hbody, hcrc⟩ := List.append_inj hload
      (by rw [load_length, documentedBody_length])
    rw [checkCrc32_of_four_le _ _ _ hfour, generateCrc32, hm, Block.readWord_eq_some (by omega),
        Option.bind_some, Block.read_eq_some (by omega), Option.map_some, Option.map_some, hbody,
        hcrc, ofNat_ofBytes_toBytes, beq_self_eq_true]
  · -- the word behind the length, which is the counter under the session key
    refine ⟨_, Block.readWord_eq_some (by omega), ?_⟩
    have hsplit : 2 + msgLen.toUInt32.toNat = 2 + (4 + (8 + data.length)) := by omega
    rw [hsplit, load_add, load_add, documentedFrame, documentedBody, List.append_assoc,
        List.append_assoc] at hload
    obtain ⟨-, hrest⟩ := List.append_inj hload (by rw [load_length, toBytes_length])
    obtain ⟨hseq, -⟩ := List.append_inj hrest (by rw [load_length, toBytes_length])
    rw [hseq, ofNat_ofBytes_toBytes, UInt32.xor_assoc, UInt32.xor_self, UInt32.xor_zero]

/-- Decrypting a documented frame gives its plain bytes back, and they pass both checks. -/
theorem documented_checked (h : IsDocumented table ac b buf msgLen id data) :
    ∃ p, xorDecrypt b (buf + 2) msgLen.toUInt32 ac.xorKey = some p ∧
      checkCrc32 table p buf (2 + msgLen.toUInt32) = some true ∧
      ∃ sequenceId, p.readWord 4 (buf + 2) = some sequenceId ∧
        UInt32.ofNat sequenceId ^^^ ac.sessionKey = ac.sequenceId := by
  obtain ⟨hdata, len, p, hload, hcrypt⟩ := h
  have hlength := congrArg List.length hload
  rw [load_length, documentedFrame_length] at hlength
  have hpos : 0 < msgLen.toUInt32.toNat := by omega
  exact ⟨p, xorCrypt_xorCrypt hcrypt hpos,
    documented_plain hdata hload (xorCrypt_le hcrypt hpos)⟩

/-- **A documented frame is counted, and neither reported nor delivered.** -/
theorem documented_decoded (nm : NetMessage) (h : IsDocumented table ac b buf msgLen id data) :
    ∃ d, transformBufferToMessage table ac nm b buf msgLen = some d ∧ d.ret = 0 ∧
      d.message = nm ∧ d.crypt = { ac with sequenceId := ac.sequenceId + 1 } := by
  obtain ⟨p, hp, hcrc, sequenceId, hread, hseq⟩ := documented_checked h
  refine ⟨⟨0, { ac with sequenceId := ac.sequenceId + 1 }, nm, p⟩, ?_, rfl, rfl, rfl⟩
  rw [transformBufferToMessage, hp, Option.bind_some, hcrc, Option.bind_some,
      if_neg (by decide), hread, Option.map_some, if_neg (by simpa using hseq)]

end Frames

/-- **For which buffers the decoder does what it should.**  Exactly for those that hold no
    documented frame; a documented frame is counted, and neither reported nor delivered. -/
theorem decodesAsDocumented_iff (table : UInt8 → UInt32) (ac : AboutCrypt) (nm : NetMessage)
    (b : Block UInt8) (buf : ℕ) (msgLen : Int32) :
    (DecodesAsDocumented table ac nm b buf msgLen ↔
      ¬ ∃ id data, IsDocumented table ac b buf msgLen id data) ∧
    ((∃ id data, IsDocumented table ac b buf msgLen id data) →
      ∃ d, transformBufferToMessage table ac nm b buf msgLen = some d ∧ d.ret = 0 ∧
        d.message = nm ∧ d.crypt = { ac with sequenceId := ac.sequenceId + 1 }) := by
  constructor
  · constructor
    · rintro ⟨hdelivers, -⟩ ⟨id, data, hdoc⟩
      obtain ⟨d, hd, hret, -⟩ := hdelivers id data hdoc
      exact hret (transformBufferToMessage_spec hd).1
    · intro hnone
      refine ⟨fun id data hdoc => absurd ⟨id, data, hdoc⟩ hnone, fun _ d hd => ?_⟩
      obtain ⟨hret, hmessage, -⟩ := transformBufferToMessage_spec hd
      exact ⟨hret, hmessage⟩
  · rintro ⟨id, data, hdoc⟩
    exact documented_decoded nm hdoc

/-- A session with key `0` and the bytes `01` for its XOR key. -/
def onesCrypt : AboutCrypt := ⟨0, 0, fun _ => 1, fun _ => 0⟩

/-- The plain bytes of the first frame of an empty message. -/
def emptyPlain : Block UInt8 :=
  ⟨14, fun i => [12, 0, 0, 0, 0, 0, 0, 0, 0, 0, 189, 37, 64, 196].getD i 0⟩

/-- The first frame of an empty message is not reported. -/
theorem decodesAsDocumented_fails :
    ¬ ∀ b : Block UInt8, DecodesAsDocumented initialCrc32Table onesCrypt NetMessage.new b 0 12 := by
  intro h
  have hin : 0 + 2 + (12 : Int32).toUInt32.toNat ≤ emptyPlain.size := by decide
  obtain ⟨b, hb, -⟩ := xorCrypt_eq_some onesCrypt.xorKey hin
  have hdoc : IsDocumented initialCrc32Table onesCrypt b 0 12 0 [] :=
    ⟨by decide, 12, emptyPlain, by decide +kernel, hb⟩
  obtain ⟨d, hd, hret, -⟩ := (h b).1 0 [] hdoc
  exact hret (transformBufferToMessage_spec hd).1

end LeoNet
