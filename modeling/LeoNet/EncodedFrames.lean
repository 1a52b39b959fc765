import LeoNet.DocumentedFrames
import LeoNet.Callbacks

namespace LeoNet

open Memory

/-!
# The encoded frames — `len:id:size:data`

The comment above `transform_message_to_buffer` gives the layout of the frames it is there to
produce.

* `transformMessageToBuffer_eq_some` — an accepted message is written behind the length, and
  encrypted; the two bytes of the length are left as they were;
* `emitsFrame_iff` — so the frame is the documented one just when its length stands there already;
* `encodes_iff` — the same for what two buffers end up with.
-/

/-- The length of the frame at `buf`, unmasked as `on_read` does. -/
def AboutCrypt.frameLength (ac : AboutCrypt) (b : Block UInt8) (buf : ℕ) : UInt16 :=
  UInt16.ofNat (ofBytes (load b.byte buf 2)) ^^^ (ac.sessionKey &&& 0xffff).toUInt16

/-- The plain bytes behind the length: id, size and data. -/
def NetMessage.body (nm : NetMessage) : List UInt8 :=
  toBytes 2 nm.id.toNat ++ (toBytes 2 nm.realSize.toNat ++ load nm.buffer 0 nm.realSize.toNat)

/-- The encoder's promise for one buffer of `buf_len` bytes. -/
def EmitsFrame (ac : AboutCrypt) (nm : NetMessage) (b : Block UInt8) (buf : ℕ) (bufLen : Int32) :
    Prop :=
  if 6 + (nm.realSize.toNat : ℤ) ≤ bufLen.toInt then
    ∃ b', transformMessageToBuffer ac nm b buf bufLen =
        some (UInt32.ofNat (6 + nm.realSize.toNat), b') ∧
      (ac.frameLength b' buf).toNat = 6 + nm.realSize.toNat ∧
      ∃ p, xorDecrypt b' (buf + 2) (UInt32.ofNat (4 + nm.realSize.toNat)) ac.xorKey = some p ∧
        load p.byte (buf + 2) (4 + nm.realSize.toNat) = nm.body
  else transformMessageToBuffer ac nm b buf bufLen = some (0, b)

/-- Two buffers of `buf_len` bytes end up with the same frame. -/
def SameFrame (ac : AboutCrypt) (nm : NetMessage) (b₁ b₂ : Block UInt8) (buf : ℕ)
    (bufLen : Int32) : Prop :=
  6 + (nm.realSize.toNat : ℤ) ≤ bufLen.toInt → ∀ r₁ r₂,
    transformMessageToBuffer ac nm b₁ buf bufLen = some r₁ →
    transformMessageToBuffer ac nm b₂ buf bufLen = some r₂ →
      load r₁.2.byte buf (6 + nm.realSize.toNat) = load r₂.2.byte buf (6 + nm.realSize.toNat)

section Encoder

variable {ac : AboutCrypt} {nm : NetMessage} {b : Block UInt8} {buf : ℕ} {bufLen : Int32}

@[simp] theorem NetMessage.body_length (nm : NetMessage) :
    nm.body.length = 4 + nm.realSize.toNat := by
  rw [NetMessage.body, List.length_append, List.length_append, toBytes_length, toBytes_length,
      load_length]
  omega

/-- The comparison that refuses a message, on the unsigned value of `buf_len`. -/
theorem refuses_iff (nm : NetMessage) (bufLen : Int32) :
    3 * 2 + nm.realSize.toUInt32 > bufLen.toUInt32 ↔
      bufLen.toUInt32.toNat < 6 + nm.realSize.toNat := by
  have hlt := nm.realSize.toNat_lt
  rw [gt_iff_lt, UInt32.lt_iff_toNat_lt, UInt32.toNat_add, UInt16.toNat_toUInt32]
  show _ < (6 + nm.realSize.toNat) % 2 ^ 32 ↔ _
  rw [Nat.mod_eq_of_lt (by omega)]

/-- The buffer before it is encrypted. -/
def written (nm : NetMessage) (b : Block UInt8) (buf : ℕ) : Block UInt8 :=
  { b with byte := store b.byte (buf + 2) nm.body }

/-- **An accepted message** is written behind the length and encrypted there. -/
theorem transformMessageToBuffer_eq_some (ac : AboutCrypt) (hdata : nm.realSize.toNat ≤ BUFFER_SIZE)
    (hlen : 6 + nm.realSize.toNat ≤ bufLen.toUInt32.toNat)
    (hin : buf + (6 + nm.realSize.toNat) ≤ b.size) :
    ∃ b', xorCrypt (written nm b buf) (buf + 2) (UInt32.ofNat (4 + nm.realSize.toNat)) ac.xorKey =
        some b' ∧
      transformMessageToBuffer ac nm b buf bufLen =
        some (UInt32.ofNat (6 + nm.realSize.toNat), b') := by
  have hsize : nm.realSize.toUInt32.toNat = nm.realSize.toNat := UInt16.toNat_toUInt32 _
  have hlt := nm.realSize.toNat_lt
  have hlength : 6 + nm.realSize.toUInt32 = UInt32.ofNat (6 + nm.realSize.toNat) := by
    rw [UInt32.ofNat_add, ← hsize, UInt32.ofNat_toNat]
    rfl
  -- the encoder counts the bytes to encrypt from the length that it puts out
  have hcrypt : 6 + nm.realSize.toUInt32 - 2 = UInt32.ofNat (4 + nm.realSize.toNat) := by
    apply UInt32.toNat_inj.1
    rw [UInt32.toNat_sub, UInt32.toNat_add, hsize, UInt32.toNat_ofNat']
    show (2 ^ 32 - 2 + (6 + nm.realSize.toNat) % 2 ^ 32) % 2 ^ 32 = _
    omega
  have hbody : (UInt32.ofNat (4 + nm.realSize.toNat)).toNat = 4 + nm.realSize.toNat := by
    rw [UInt32.toNat_ofNat']
    omega
  let header := store (store b.byte (buf + 2) (toBytes 2 nm.id.toNat)) (buf + 4)
    (toBytes 2 nm.realSize.toNat)
  -- the three stores, of `id`, `real_size` and the data, are one store of the body
  have hwritten : written nm b buf =
      { b with byte := store header (buf + 6) (load nm.buffer 0 nm.realSize.toNat) } := by
    rw [written, NetMessage.body, store_append, store_append, toBytes_length, toBytes_length]
  have hinside :
      buf + 2 + (UInt32.ofNat (4 + nm.realSize.toNat)).toNat ≤ (written nm b buf).size := by
    show _ ≤ b.size
    omega
  obtain ⟨b', hb', -⟩ := xorCrypt_eq_some ac.xorKey hinside
  refine ⟨b', hb', ?_⟩
  have hdataSize : 0 + nm.realSize.toNat ≤ nm.data.size := by
    rw [Nat.zero_add]
    exact hdata
  rw [hwritten] at hb'
  -- the encoder, store by store
  simp only [transformMessageToBuffer]
  rw [if_neg (by rw [refuses_iff]; omega), hsize, Block.writeWord,
      Block.write_eq_some (by rw [toBytes_length]; omega), Option.bind_some, Block.writeWord,
      Block.write_eq_some (by rw [toBytes_length]; show buf + 4 + 2 ≤ b.size; omega),
      Option.bind_some, Block.read_eq_some hdataSize, Option.bind_some,
      Block.write_eq_some (by rw [load_length]; show buf + 6 + _ ≤ b.size; omega),
      Option.bind_some, hcrypt, hlength]
  exact congrArg (Option.map _) hb'

/-- What the accepted frame holds: behind the length the body, once decrypted; and everywhere else
    what was there before. -/
theorem encoded_spec {b' : Block UInt8}
    (h : xorCrypt (written nm b buf) (buf + 2) (UInt32.ofNat (4 + nm.realSize.toNat)) ac.xorKey =
      some b') :
    (∃ p, xorDecrypt b' (buf + 2) (UInt32.ofNat (4 + nm.realSize.toNat)) ac.xorKey = some p ∧
      load p.byte (buf + 2) (4 + nm.realSize.toNat) = nm.body) ∧
    ac.frameLength b' buf = ac.frameLength b buf := by
  have hlt := nm.realSize.toNat_lt
  have hbody : (UInt32.ofNat (4 + nm.realSize.toNat)).toNat = 4 + nm.realSize.toNat := by
    rw [UInt32.toNat_ofNat']
    omega
  constructor
  · exact ⟨_, xorCrypt_xorCrypt h (by omega), load_store_of_length _ _ nm.body_length⟩
  · have hprefix : load b'.byte buf 2 = load b.byte buf 2 := by
      apply load_congr
      intro i hi
      rw [xorCrypt_byte h, if_neg (by omega)]
      exact store_apply_of_not _ _ _ (Or.inl (by omega))
    rw [AboutCrypt.frameLength, hprefix]
    rfl

/-- A message that is not refused is never reported as refused. -/
theorem transformMessageToBuffer_ne_zero
    (hlen : 6 + nm.realSize.toNat ≤ bufLen.toUInt32.toNat) (b' : Block UInt8) :
    transformMessageToBuffer ac nm b buf bufLen ≠ some (0, b') := by
  intro h
  simp only [transformMessageToBuffer] at h
  rw [if_neg (by rw [refuses_iff]; omega)] at h
  simp only [Option.bind_eq_some_iff, Option.map_eq_some_iff, Prod.mk.injEq] at h
  obtain ⟨_, -, _, -, _, -, _, -, _, -, hzero, -⟩ := h
  have hlt := nm.realSize.toNat_lt
  have hnat := congrArg UInt32.toNat hzero
  rw [UInt32.toNat_add, UInt16.toNat_toUInt32] at hnat
  change (6 + nm.realSize.toNat) % 2 ^ 32 = 0 at hnat
  omega

/-- **When the encoder emits the documented frame.**  When it refuses the message for want of room
    in a buffer of no negative length, and when the two bytes that it leaves alone already are the
    masked length. -/
theorem emitsFrame_iff (hdata : nm.realSize.toNat ≤ BUFFER_SIZE)
    (hin : (buf : ℤ) + bufLen.toInt ≤ b.size) :
    EmitsFrame ac nm b buf bufLen ↔
      (0 ≤ bufLen.toInt ∧ bufLen.toInt < 6 + nm.realSize.toNat) ∨
        (6 + (nm.realSize.toNat : ℤ) ≤ bufLen.toInt ∧
          (ac.frameLength b buf).toNat = 6 + nm.realSize.toNat) := by
  have hunsigned := toInt_toUInt32 bufLen
  have hlt := nm.realSize.toNat_lt
  unfold EmitsFrame
  -- with room the message is accepted, and only the two bytes in front are in question
  by_cases hroom : 6 + (nm.realSize.toNat : ℤ) ≤ bufLen.toInt
  · have hframe : buf + (6 + nm.realSize.toNat) ≤ b.size := by omega
    have hfits : 6 + nm.realSize.toNat ≤ bufLen.toUInt32.toNat := by omega
    obtain ⟨b', hb', hsome⟩ := transformMessageToBuffer_eq_some ac hdata hfits hframe
    obtain ⟨hplain, hlength⟩ := encoded_spec hb'
    rw [if_pos hroom, or_iff_right (by omega), and_iff_right hroom, ← hlength]
    constructor
    · rintro ⟨b'', hsome', hlen, -⟩
      rw [hsome, Option.some.injEq, Prod.mk.injEq] at hsome'
      rw [hsome'.2]
      exact hlen
    · intro hlen
      exact ⟨b', hsome, hlen, hplain⟩
  · -- without room it must be refused, which a negative `buf_len` prevents: it is compared as an
    -- unsigned number
    rw [if_neg hroom, or_iff_left (by omega)]
    constructor
    · intro h
      by_contra hneg
      exact transformMessageToBuffer_ne_zero (by omega) b h
    · rintro ⟨hnonneg, hshort⟩
      simp only [transformMessageToBuffer]
      rw [if_pos (by rw [refuses_iff]; omega)]

/-- Where the same length stands, the same bytes stand. -/
theorem load_eq_of_frameLength {b₁ b₂ : Block UInt8}
    (h : ac.frameLength b₁ buf = ac.frameLength b₂ buf) :
    load b₁.byte buf 2 = load b₂.byte buf 2 := by
  have hlt (b : Block UInt8) : ofBytes (load b.byte buf 2) < 2 ^ 16 := by
    have hbytes := ofBytes_lt (load b.byte buf 2)
    rwa [load_length] at hbytes
  -- the session key is xored into both lengths and cancels
  have hword : ofBytes (load b₁.byte buf 2) = ofBytes (load b₂.byte buf 2) := by
    have hnat := congrArg UInt16.toNat ((UInt16.xor_left_inj _).1 h)
    rwa [UInt16.toNat_ofNat', UInt16.toNat_ofNat', Nat.mod_eq_of_lt (hlt b₁),
        Nat.mod_eq_of_lt (hlt b₂)] at hnat
  have hbytes (b : Block UInt8) : toBytes 2 (ofBytes (load b.byte buf 2)) = load b.byte buf 2 := by
    have htwo := toBytes_ofBytes (load b.byte buf 2)
    rwa [load_length] at htwo
  rw [← hbytes b₁, hword, hbytes b₂]

/-- Behind the length the frame is what the message and the key make it. -/
theorem encoded_byte {b' : Block UInt8}
    (h : xorCrypt (written nm b buf) (buf + 2) (UInt32.ofNat (4 + nm.realSize.toNat)) ac.xorKey =
      some b') {i : ℕ} (hi : i < nm.body.length) :
    b'.byte (buf + 2 + i) = nm.body[i] ^^^ keystream ac.xorKey nm.body.length i := by
  have hlt := nm.realSize.toNat_lt
  have hbody : (UInt32.ofNat (4 + nm.realSize.toNat)).toNat = nm.body.length := by
    rw [UInt32.toNat_ofNat', nm.body_length]
    omega
  rw [xorCrypt_byte h, hbody, if_pos (by omega), Nat.add_sub_cancel_left]
  congr 1
  exact store_apply_of_lt _ _ _ hi

/-- Frames with the same length in front are the same, whatever stood in the buffer. -/
theorem sameFrame_of_frameLength {b₁ b₂ : Block UInt8} (hdata : nm.realSize.toNat ≤ BUFFER_SIZE)
    (hin₁ : (buf : ℤ) + bufLen.toInt ≤ b₁.size) (hin₂ : (buf : ℤ) + bufLen.toInt ≤ b₂.size)
    (h : ac.frameLength b₁ buf = ac.frameLength b₂ buf) : SameFrame ac nm b₁ b₂ buf bufLen := by
  intro hroom r₁ r₂ hr₁ hr₂
  have hunsigned := toInt_toUInt32 bufLen
  have hfits : 6 + nm.realSize.toNat ≤ bufLen.toUInt32.toNat := by omega
  have hframe₁ : buf + (6 + nm.realSize.toNat) ≤ b₁.size := by omega
  have hframe₂ : buf + (6 + nm.realSize.toNat) ≤ b₂.size := by omega
  obtain ⟨b₁', hb₁, hsome₁⟩ := transformMessageToBuffer_eq_some ac hdata hfits hframe₁
  obtain ⟨b₂', hb₂, hsome₂⟩ := transformMessageToBuffer_eq_some ac hdata hfits hframe₂
  rw [hsome₁, Option.some.injEq] at hr₁
  rw [hsome₂, Option.some.injEq] at hr₂
  rw [← hr₁, ← hr₂]
  -- the two bytes in front are the only ones of the frame that the encoder does not write
  have hprefix : load b₁'.byte buf 2 = load b₂'.byte buf 2 := by
    have hlength : ac.frameLength b₁' buf = ac.frameLength b₂' buf := by
      rw [(encoded_spec hb₁).2, (encoded_spec hb₂).2, h]
    exact load_eq_of_frameLength hlength
  have hbody : load b₁'.byte (buf + 2) nm.body.length = load b₂'.byte (buf + 2) nm.body.length := by
    apply load_congr
    intro i hi
    rw [encoded_byte hb₁ hi, encoded_byte hb₂ hi]
  -- the frame, cut behind the length
  have hsplit : 6 + nm.realSize.toNat = 2 + nm.body.length := by
    rw [nm.body_length]
    omega
  simp only
  rw [hsplit, load_add, load_add, hprefix, hbody]

end Encoder

/-- **The encoder and its documented frame.**  Over two buffers of `buf_len` bytes, the encoder
    emits the documented frame in both, and the same one, exactly when it refuses the message for
    want of room in a `buf_len` that is not negative, or when both buffers already hold the masked
    length of the frame. -/
theorem encodes_iff (ac : AboutCrypt) {nm : NetMessage} {b₁ b₂ : Block UInt8} {buf : ℕ}
    {bufLen : Int32} (hdata : nm.realSize.toNat ≤ BUFFER_SIZE)
    (hin₁ : (buf : ℤ) + bufLen.toInt ≤ b₁.size) (hin₂ : (buf : ℤ) + bufLen.toInt ≤ b₂.size) :
    EmitsFrame ac nm b₁ buf bufLen ∧ EmitsFrame ac nm b₂ buf bufLen ∧
        SameFrame ac nm b₁ b₂ buf bufLen ↔
      (0 ≤ bufLen.toInt ∧ bufLen.toInt < 6 + nm.realSize.toNat) ∨
        (6 + (nm.realSize.toNat : ℤ) ≤ bufLen.toInt ∧
          (ac.frameLength b₁ buf).toNat = 6 + nm.realSize.toNat ∧
          (ac.frameLength b₂ buf).toNat = 6 + nm.realSize.toNat) := by
  -- where both buffers hold the masked length of the frame, they hold the same length
  rw [emitsFrame_iff hdata hin₁, emitsFrame_iff hdata hin₂]
  constructor
  · rintro ⟨hrefused | ⟨hroom, hlen₁⟩, h₂, -⟩
    · exact Or.inl hrefused
    · rcases h₂ with hrefused | ⟨-, hlen₂⟩
      · exact Or.inl hrefused
      · exact Or.inr ⟨hroom, hlen₁, hlen₂⟩
  · rintro (hrefused | ⟨hroom, hlen₁, hlen₂⟩)
    · exact ⟨Or.inl hrefused, Or.inl hrefused, fun hroom => absurd hroom (by omega)⟩
    · refine ⟨Or.inr ⟨hroom, hlen₁⟩, Or.inr ⟨hroom, hlen₂⟩, ?_⟩
      apply sameFrame_of_frameLength hdata hin₁ hin₂
      exact UInt16.toNat_inj.1 (hlen₁.trans hlen₂.symm)

/-- A message of five bytes: behind its length, a frame of two words and one byte more. -/
def fiveBytes : NetMessage := ⟨770, 5, fun i => [11, 22, 33, 44, 55].getD i 0⟩

/-- It goes into buffers that hold the length `11`, masked with the key `1`, in front of zeros and of
    other bytes. -/
theorem encodes_iff_five :
    EmitsFrame ⟨0, 1, fun i => .ofNat (i + 1), fun _ => 0⟩ fiveBytes
        (bytesBlock [10, 0, 0, 0, 0, 0, 0, 0, 0, 0, 0]) 0 11 ∧
      EmitsFrame ⟨0, 1, fun i => .ofNat (i + 1), fun _ => 0⟩ fiveBytes
        (bytesBlock [10, 0, 9, 9, 9, 9, 9, 9, 9, 9, 9, 9]) 0 11 ∧
      SameFrame ⟨0, 1, fun i => .ofNat (i + 1), fun _ => 0⟩ fiveBytes
        (bytesBlock [10, 0, 0, 0, 0, 0, 0, 0, 0, 0, 0])
        (bytesBlock [10, 0, 9, 9, 9, 9, 9, 9, 9, 9, 9, 9]) 0 11 :=
  (encodes_iff _ (by decide) (by decide) (by decide)).2 (Or.inr (by decide))

/-- Into a buffer of zeros the empty message goes without its length. -/
theorem encodes_fails :
    ¬ ∀ (ac : AboutCrypt) (nm : NetMessage) (b₁ b₂ : Block UInt8) (buf : ℕ) (bufLen : Int32),
      nm.realSize.toNat ≤ BUFFER_SIZE → (buf : ℤ) + bufLen.toInt ≤ b₁.size →
        (buf : ℤ) + bufLen.toInt ≤ b₂.size →
          EmitsFrame ac nm b₁ buf bufLen ∧ EmitsFrame ac nm b₂ buf bufLen ∧
            SameFrame ac nm b₁ b₂ buf bufLen := by
  intro h
  obtain ⟨hemits, -, -⟩ := h ⟨0, 0, fun _ => 1, fun _ => 0⟩ NetMessage.new
    (bytesBlock [0, 0, 0, 0, 0, 0]) (bytesBlock [0, 0, 0, 0, 0, 0]) 0 6 (by decide) (by decide)
    (by decide)
  rw [emitsFrame_iff (by decide) (by decide)] at hemits
  exact absurd hemits (by decide)

end LeoNet
