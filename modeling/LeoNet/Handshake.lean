import LeoNet.TcpGameProtocol
import LeoNet.DesCrypto

namespace LeoNet

open Memory

/-!
# The handshake — `send_key` and its buffer

`send_key` makes up the keys of a session and writes them, encrypted with a fixed key, to a buffer
for the peer.  Thirty bytes are handed to `ecb_crypt`, which works on four blocks of eight: the
two bytes behind the frame are encrypted with it, and counted in what is returned.

* `sendKeyIn_eq_some` — what is written, and what is returned;
* `keyFrame_read` — what is read back from the frame, field by field;
* `handshake_roundTrip` — the peer that decrypts as many bytes as were reported finds the keys
  that the session keeps.
-/

/-- `MAX_XOR_NUM`. -/
def MAX_XOR_NUM : ℕ := 256

/-- `rand_xor_key()`, where `rand` is what `rand()` returned. -/
def randXorKey (xorKeys : ℕ → ℕ → UInt8) (rand : UInt32) : ℕ → UInt8 :=
  xorKeys (rand.toNat % MAX_XOR_NUM)

/-- The bytes of `DEFAULT_ECB`. -/
def DEFAULT_ECB (i : ℕ) : UInt8 := [0x31, 0x5a, 0x32, 0x58, 0x33, 0x43, 0x30, 0].getD i 0

/-- `sizeof(struct secret_key)`; the struct is packed. -/
def SECRET_KEY_SIZE : ℕ := 4 + (XOR_KEY_LEN + 1) + (SWAP_KEY_LEN + 1)

/-- The bytes of the `struct secret_key` with the keys of `ac`. -/
def AboutCrypt.secretKey (ac : AboutCrypt) : List UInt8 :=
  toBytes 4 ac.sessionKey.toNat ++
    (load ac.xorKey 0 (XOR_KEY_LEN + 1) ++ load ac.swapKey 0 (SWAP_KEY_LEN + 1))

/-- `send_key(ac, buf, buf_len)`, which does not look at `buf_len`: what it returns, the struct
    and the buffer.  `rand` and `rand'` are what the two calls of `rand()` returned. -/
def sendKeyIn (w : ℕ) (xorKeys : ℕ → ℕ → UInt8) (rand rand' : UInt32) (ac : AboutCrypt)
    (b : Block UInt8) (buf : ℕ) : Option (UInt32 × AboutCrypt × Block UInt8) :=
  let ac := sendKey ac rand (randXorKey xorKeys rand')
  let sk := ac.secretKey
  (b.writeWord 2 buf SECRET_KEY_SIZE).bind fun b =>
  (b.writeWord 2 (buf + 2) 0xffff).bind fun b =>
  (b.write (buf + 4) sk).bind fun b =>
  let len : UInt32 := 2 + 2 + UInt32.ofNat SECRET_KEY_SIZE
  (ecbCrypt w DEFAULT_ECB b buf len DES_ENCRYPT).map fun r => (len + 2, ac, r.2)

/-- The frame before it is encrypted. -/
def keyFrame (ac : AboutCrypt) : List UInt8 :=
  toBytes 2 SECRET_KEY_SIZE ++ (toBytes 2 0xffff ++ ac.secretKey)

@[simp] theorem secretKey_length (ac : AboutCrypt) : ac.secretKey.length = 26 := by
  rw [AboutCrypt.secretKey, List.length_append, List.length_append, toBytes_length, load_length,
      load_length]
  rfl

section SendKey

variable {w : ℕ} {b : Block UInt8} {buf : ℕ}

/-- **Fields.**  Behind the size and `0xffff` the frame holds the keys, each at its place. -/
theorem keyFrame_read (ac : AboutCrypt) (h : buf + 30 ≤ b.size) :
    let p : Block UInt8 := { b with byte := store b.byte buf (keyFrame ac) }
    p.readWord 2 buf = some SECRET_KEY_SIZE ∧
      p.readWord 2 (buf + 2) = some 0xffff ∧
      p.readWord 4 (buf + 4) = some ac.sessionKey.toNat ∧
      p.read (buf + 8) (XOR_KEY_LEN + 1) = some (load ac.xorKey 0 (XOR_KEY_LEN + 1)) ∧
      p.read (buf + 8 + (XOR_KEY_LEN + 1)) (SWAP_KEY_LEN + 1) =
        some (load ac.swapKey 0 (SWAP_KEY_LEN + 1)) := by
  intro p
  have hsize : p.size = b.size := rfl
  have hxorLen : XOR_KEY_LEN + 1 = 17 := rfl
  have hswapLen : SWAP_KEY_LEN + 1 = 5 := rfl
  set size := toBytes 2 SECRET_KEY_SIZE
  set ffff := toBytes 2 0xffff
  set session := toBytes 4 ac.sessionKey.toNat
  set xorKey := load ac.xorKey 0 (XOR_KEY_LEN + 1)
  set swapKey := load ac.swapKey 0 (SWAP_KEY_LEN + 1)
  have hframe : keyFrame ac = size ++ (ffff ++ (session ++ (xorKey ++ swapKey))) := rfl
  have hsizeLen : size.length = 2 := toBytes_length _ _
  have hffffLen : ffff.length = 2 := toBytes_length _ _
  have hsessionLen : session.length = 4 := toBytes_length _ _
  have hxorKeyLen : xorKey.length = XOR_KEY_LEN + 1 := load_length _ _ _
  have hswapKeyLen : swapKey.length = SWAP_KEY_LEN + 1 := load_length _ _ _
  -- a field is found behind the fields before it
  have hfield (xs ys zs : List UInt8) (h : keyFrame ac = xs ++ (ys ++ zs)) :
      load p.byte (buf + xs.length) ys.length = ys := by
    show load (store b.byte buf (keyFrame ac)) _ _ = ys
    rw [h]
    exact load_store_field b.byte buf rfl rfl zs
  have hfirst := hfield [] size _ hframe
  have hsecond := hfield size ffff _ hframe
  have hthird := hfield (size ++ ffff) session (xorKey ++ swapKey) (by simp [hframe])
  have hfourth := hfield (size ++ (ffff ++ session)) xorKey swapKey (by simp [hframe])
  have hfifth := hfield (size ++ (ffff ++ (session ++ xorKey))) swapKey [] (by simp [hframe])
  simp only [List.length_append, List.length_nil, hsizeLen, hffffLen, hsessionLen, hxorKeyLen,
    hswapKeyLen] at hfirst hsecond hthird hfourth hfifth
  refine ⟨?_, ?_, ?_, ?_, ?_⟩
  · rw [Block.readWord_eq_some (by omega), ← Nat.add_zero buf, hfirst, ofBytes_toBytes (by decide)]
  · rw [Block.readWord_eq_some (by omega), hsecond, ofBytes_toBytes (by decide)]
  · rw [Block.readWord_eq_some (by omega), hthird, ofBytes_toBytes ac.sessionKey.toNat_lt]
  · rw [Block.read_eq_some (by omega), hfourth]
  · have hplace : buf + 8 + (XOR_KEY_LEN + 1) = buf + (2 + (2 + (4 + (XOR_KEY_LEN + 1)))) := by
      omega
    rw [Block.read_eq_some (by omega), hplace, hfifth]

/-- **What is sent.**  Four encrypted blocks, the frame with two more bytes of the buffer, and
    their number. -/
theorem sendKeyIn_eq_some (w : ℕ) (xorKeys : ℕ → ℕ → UInt8) (rand rand' : UInt32)
    (ac : AboutCrypt) (h : buf + 32 ≤ b.size) :
    ∃ b', ecbLoop (desSetkey w DEFAULT_ECB) (DES_ENCRYPT &&& DES_DIRMASK).toInt32 4 buf
        { b with
          byte := store b.byte buf (keyFrame (sendKey ac rand (randXorKey xorKeys rand'))) } =
          some b' ∧
      sendKeyIn w xorKeys rand rand' ac b buf =
        some (32, sendKey ac rand (randXorKey xorKeys rand'), b') := by
  set ac' := sendKey ac rand (randXorKey xorKeys rand') with hac'
  -- the two fields and the keys are stored one by one, as one frame
  have hframe : store b.byte buf (keyFrame ac') =
      store (store (store b.byte buf (toBytes 2 SECRET_KEY_SIZE)) (buf + 2) (toBytes 2 0xffff))
        (buf + 4) ac'.secretKey := by
    rw [keyFrame, store_append, store_append, toBytes_length, toBytes_length]
  obtain ⟨b', hb', -⟩ := ecbLoop_spec (desSetkey w DEFAULT_ECB)
    (DES_ENCRYPT &&& DES_DIRMASK).toInt32 4 buf
    (b := { b with byte := store b.byte buf (keyFrame ac') }) h
  refine ⟨b', hb', ?_⟩
  -- 30 bytes are rounded up to four blocks, and two are added to what is reported
  have hlen : (roundUp (2 + 2 + UInt32.ofNat SECRET_KEY_SIZE)).toNat / 8 = 4 := by decide
  have hret : 2 + 2 + UInt32.ofNat SECRET_KEY_SIZE + 2 = 32 := by decide
  rw [hframe] at hb'
  simp only [sendKeyIn]
  rw [← hac', Block.writeWord, Block.write_eq_some (by rw [toBytes_length]; omega),
      Option.bind_some, Block.writeWord,
      Block.write_eq_some (by rw [toBytes_length]; show buf + 2 + 2 ≤ b.size; omega),
      Option.bind_some,
      Block.write_eq_some (by rw [secretKey_length]; show buf + 4 + 26 ≤ b.size; omega),
      Option.bind_some, ecbCrypt, hlen, hb', hret]
  rfl

/-- **Handshake.**  Whatever `rand()` returns and the table of XOR keys holds, the bytes that
    `send_key` reports are whole blocks, and decrypting them gives the frame back: the size of a
    secret key, `0xffff`, and the keys that the session keeps, with sequence number `0`. -/
theorem handshake_roundTrip (hw : 32 ≤ w) (xorKeys : ℕ → ℕ → UInt8) (rand rand' : UInt32)
    (ac : AboutCrypt) (h : buf + 32 ≤ b.size) :
    ∃ ret ac' b' p, sendKeyIn w xorKeys rand rand' ac b buf = some (ret, ac', b') ∧
      8 ∣ ret.toNat ∧
      ecbCrypt w DEFAULT_ECB b' buf ret DES_DECRYPT = some (desError DES_DECRYPT, p) ∧
      p.readWord 2 buf = some SECRET_KEY_SIZE ∧
      p.readWord 2 (buf + 2) = some 0xffff ∧
      p.readWord 4 (buf + 4) = some ac'.sessionKey.toNat ∧
      p.read (buf + 8) (XOR_KEY_LEN + 1) = some (load ac'.xorKey 0 (XOR_KEY_LEN + 1)) ∧
      p.read (buf + 8 + (XOR_KEY_LEN + 1)) (SWAP_KEY_LEN + 1) =
        some (load ac'.swapKey 0 (SWAP_KEY_LEN + 1)) ∧
      ac'.sequenceId = 0 := by
  set ac' := sendKey ac rand (randXorKey xorKeys rand')
  set p : Block UInt8 := { b with byte := store b.byte buf (keyFrame ac') }
  have hsize : p.size = b.size := rfl
  obtain ⟨b', hencrypt, hsend⟩ := sendKeyIn_eq_some w xorKeys rand rand' ac h
  -- the blocks that were encrypted, in the other direction
  have hdecrypt : ecbLoop (desSetkey w DEFAULT_ECB) (DES_DECRYPT &&& DES_DIRMASK).toInt32 4 buf b' =
      some p :=
    ecbLoop_inverse hw _ (dirmask_flag (by decide)) (by rw [hsize]; exact h) hencrypt
  -- the 32 bytes that are reported are those four blocks
  have hblocks : (roundUp 32).toNat / 8 = 4 := by decide
  have hcrypt : ecbCrypt w DEFAULT_ECB b' buf 32 DES_DECRYPT = some (desError DES_DECRYPT, p) := by
    rw [ecbCrypt, hblocks, hdecrypt, Option.map_some]
  obtain ⟨hsizeField, hffff, hsession, hxor, hswap⟩ :=
    keyFrame_read ac' (by omega : buf + 30 ≤ b.size)
  exact ⟨32, ac', b', p, hsend, by decide, hcrypt, hsizeField, hffff, hsession, hxor, hswap, rfl⟩

/-- Into the bytes `3` to `34` of a buffer of `40`, where `unsigned long` has `64` bits. -/
theorem handshake_roundTrip_offset :
    ∃ ret ac' b' p, sendKeyIn 64 (fun i j => .ofNat (i + j)) 5 300 ⟨9, 9, fun _ => 9, fun _ => 9⟩
        ⟨40, fun _ => 0⟩ 3 = some (ret, ac', b') ∧
      8 ∣ ret.toNat ∧
      ecbCrypt 64 DEFAULT_ECB b' 3 ret DES_DECRYPT = some (desError DES_DECRYPT, p) ∧
      p.readWord 2 3 = some SECRET_KEY_SIZE ∧
      p.readWord 2 (3 + 2) = some 0xffff ∧
      p.readWord 4 (3 + 4) = some ac'.sessionKey.toNat ∧
      p.read (3 + 8) (XOR_KEY_LEN + 1) = some (load ac'.xorKey 0 (XOR_KEY_LEN + 1)) ∧
      p.read (3 + 8 + (XOR_KEY_LEN + 1)) (SWAP_KEY_LEN + 1) =
        some (load ac'.swapKey 0 (SWAP_KEY_LEN + 1)) ∧
      ac'.sequenceId = 0 :=
  handshake_roundTrip (by decide) _ 5 300 _ (by decide)

end SendKey

end LeoNet
