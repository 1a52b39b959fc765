import LeoNet.DesCrypto
import LeoNet.Lib.Transducer

namespace LeoNet

open Memory Transducer

/-!
# `cbc_crypt` — chained blocks

Both loops of `cbc_crypt` work on the buffer and on `ivec` in place.  Over the blocks of the buffer
each is a transducer whose state is `ivec`; the two update it by different code.

* `cbcLoop_eq_some` — a loop whose body is a step of a transducer is its run;
* `cbcCrypt_eq_some` — `cbc_crypt` is the transducer of its direction;
* `cbcEncrypt_state` — what encryption leaves in `ivec`;
* `cbcCrypt_inverse` — decryption undoes encryption, and leaves the same `ivec`;
* `cbcCrypt_append` — a buffer may be crypted in pieces, with the `ivec` that each one leaves.
-/

variable {w : ℕ}

/-- `buf[0] ^= ivec[0]` and so on. -/
def xorBlock (s ivec : List UInt8) : List UInt8 := List.zipWith (· ^^^ ·) s ivec

/-- The body of the loop that encrypts: the block at `buf`, and `ivec`. -/
def cbcEncryptBody (keys : List (RoundKeys w)) (b : Block UInt8) (buf : ℕ) (ivec : ℕ → UInt8) :
    Option (Block UInt8 × (ℕ → UInt8)) :=
  (b.read buf 8).bind fun s =>
  (b.write buf (xorBlock s (load ivec 0 8))).bind fun b =>
  (desCrypt keys b buf DES_ENCRYPT.toInt32).bind fun b =>
  (b.read buf 8).map fun s => (b, store ivec 0 s)

/-- The body of the loop that decrypts; `nvec` keeps the block as it was. -/
def cbcDecryptBody (keys : List (RoundKeys w)) (b : Block UInt8) (buf : ℕ) (ivec : ℕ → UInt8) :
    Option (Block UInt8 × (ℕ → UInt8)) :=
  (b.read buf 8).bind fun nvec =>
  (desCrypt keys b buf DES_DECRYPT.toInt32).bind fun b =>
  (b.read buf 8).bind fun s =>
  (b.write buf (xorBlock s (load ivec 0 8))).map fun b => (b, store ivec 0 nvec)

/-- A loop over the blocks, with `n` of them to go. -/
def cbcLoop (body : Block UInt8 → ℕ → (ℕ → UInt8) → Option (Block UInt8 × (ℕ → UInt8))) :
    ℕ → ℕ → Block UInt8 → (ℕ → UInt8) → Option (Block UInt8 × (ℕ → UInt8))
  | 0, _, b, ivec => some (b, ivec)
  | n + 1, buf, b, ivec => (body b buf ivec).bind fun r => cbcLoop body n (buf + 8) r.1 r.2

/-- `cbc_crypt(key, buf, len, mode, ivec)`: what it returns, the buffer and `ivec`, which is an
    object of its own. -/
def cbcCrypt (w : ℕ) (key : ℕ → UInt8) (b : Block UInt8) (buf : ℕ) (len mode : UInt32)
    (ivec : ℕ → UInt8) : Option (Int32 × Block UInt8 × (ℕ → UInt8)) :=
  let keys := desSetkey w key
  let n := (roundUp len).toNat / 8
  let body :=
    if mode &&& DES_DIRMASK = DES_ENCRYPT then cbcEncryptBody keys else cbcDecryptBody keys
  (cbcLoop body n buf b ivec).map fun r => (desError mode, r)

/-! ### The transducers -/

/-- `des_crypt` on the bytes of a block. -/
def desBlock (keys : List (RoundKeys w)) (flag : Int32) (s : List UInt8) : List UInt8 :=
  desBytes keys (fun i => s.getD i 0) flag

/-- One block encrypted: what is stored is the next chaining value. -/
def cbcEncryptStep (keys : List (RoundKeys w)) (ivec s : List UInt8) : List UInt8 × List UInt8 :=
  let c := desBlock keys DES_ENCRYPT.toInt32 (xorBlock s ivec)
  (c, c)

/-- One block decrypted: what was read is the next chaining value. -/
def cbcDecryptStep (keys : List (RoundKeys w)) (ivec s : List UInt8) : List UInt8 × List UInt8 :=
  (xorBlock (desBlock keys DES_DECRYPT.toInt32 s) ivec, s)

/-- The bytes of one block. -/
abbrev IsBlock (s : List UInt8) : Prop := s.length = 8

/-- The sum of two blocks is a block. -/
theorem xorBlock_length {s ivec : List UInt8} (hs : s.length = 8) (hivec : ivec.length = 8) :
    (xorBlock s ivec).length = 8 := by
  rw [xorBlock, List.length_zipWith, hs, hivec, min_self]

/-- Adding the chaining value twice takes it away. -/
theorem xorBlock_xorBlock {s ivec : List UInt8} (h : s.length = ivec.length) :
    xorBlock (xorBlock s ivec) ivec = s := by
  induction s generalizing ivec with
  | nil => rfl
  | cons x s ih =>
    obtain _ | ⟨y, ivec⟩ := ivec
    · cases h
    · rw [xorBlock, xorBlock, List.zipWith_cons_cons, List.zipWith_cons_cons, UInt8.xor_assoc,
          UInt8.xor_self, UInt8.xor_zero]
      exact congrArg (List.cons x) (ih (Nat.succ.inj h))

/-- `des_crypt` undone on the bytes of a block. -/
theorem desBlock_inverse (hw : 32 ≤ w) (keys : List (RoundKeys w)) {s : List UInt8}
    (hs : s.length = 8) {flag flag' : Int32} (hflag : flag = 0 ↔ flag' ≠ 0) :
    desBlock keys flag' (desBlock keys flag s) = s := by
  rw [desBlock, desBlock, desBytes_inverse hw keys _ hflag]
  apply List.ext_getElem (by simpa using hs.symm)
  intro i _ hi
  rw [List.getElem_map, List.getElem_range, List.getD_eq_getElem _ _ hi]

/-- `des_crypt` on a block that lies inside the buffer. -/
theorem desCrypt_eq_store {b : Block UInt8} {buf : ℕ} (h : buf + 8 ≤ b.size)
    (keys : List (RoundKeys w)) (flag : Int32) :
    desCrypt keys b buf flag =
      some { b with byte := store b.byte buf (desBlock keys flag (load b.byte buf 8)) } := by
  have hread : desBlock keys flag (load b.byte buf 8) =
      desBytes keys (fun i => b.byte (buf + i)) flag :=
    desBytes_congr (fun i hi => load_getD b.byte buf hi 0) keys flag
  rw [hread]
  exact desCrypt_eq_some h keys flag

/-- The body of a loop is a step of a transducer: inside the buffer it stores what the step puts
    out over the block, and the next state over `ivec`. -/
structure Implements
    (body : Block UInt8 → ℕ → (ℕ → UInt8) → Option (Block UInt8 × (ℕ → UInt8)))
    (step : List UInt8 → List UInt8 → List UInt8 × List UInt8) : Prop where
  eq_some : ∀ b buf ivec, buf + 8 ≤ b.size → body b buf ivec =
    some ({ b with byte := store b.byte buf (step (load ivec 0 8) (load b.byte buf 8)).1 },
      store ivec 0 (step (load ivec 0 8) (load b.byte buf 8)).2)
  length : ∀ ivec s, ivec.length = 8 → s.length = 8 →
    (step ivec s).1.length = 8 ∧ (step ivec s).2.length = 8

/-- The loop body for encrypting does one step of the chain. -/
theorem cbcEncrypt_implements (keys : List (RoundKeys w)) :
    Implements (cbcEncryptBody keys) (cbcEncryptStep keys) where
  length _ _ _ _ := ⟨rfl, rfl⟩
  eq_some b buf ivec h := by
    set x := xorBlock (load b.byte buf 8) (load ivec 0 8) with hx
    set c := desBlock keys DES_ENCRYPT.toInt32 x with hc
    have hxlen : x.length = 8 := xorBlock_length (load_length _ _ _) (load_length _ _ _)
    have hclen : c.length = 8 := rfl
    have hcrypt : desCrypt keys { b with byte := store b.byte buf x } buf DES_ENCRYPT.toInt32 =
        some { b with byte := store b.byte buf c } := by
      have hsame : x.length = c.length := hxlen.trans hclen.symm
      rw [desCrypt_eq_store (by exact h), load_store_of_length _ _ hxlen, ← hc,
          store_store_self _ _ hsame]
    have hread : load (store b.byte buf c) buf 8 = c := load_store_of_length _ _ hclen
    rw [cbcEncryptBody, Block.read_eq_some h, Option.bind_some, ← hx,
        Block.write_eq_some (by rw [hxlen]; exact h), Option.bind_some, hcrypt, Option.bind_some,
        Block.read_eq_some (by exact h), Option.map_some, hread]
    rfl

/-- So does the body for decrypting. -/
theorem cbcDecrypt_implements (keys : List (RoundKeys w)) :
    Implements (cbcDecryptBody keys) (cbcDecryptStep keys) where
  length _ _ hivec hs := ⟨xorBlock_length rfl hivec, hs⟩
  eq_some b buf ivec h := by
    set nvec := load b.byte buf 8 with hnvec
    set p := desBlock keys DES_DECRYPT.toInt32 nvec with hp
    have hplen : p.length = 8 := rfl
    have hx : (xorBlock p (load ivec 0 8)).length = 8 := xorBlock_length hplen (load_length _ _ _)
    have hread : load (store b.byte buf p) buf 8 = p := load_store_of_length _ _ hplen
    rw [cbcDecryptBody, Block.read_eq_some h, Option.bind_some, desCrypt_eq_store h, ← hnvec, ← hp,
        Option.bind_some, Block.read_eq_some (by exact h), Option.bind_some, hread,
        Block.write_eq_some (by rw [hx]; exact h), Option.map_some,
        store_store_self _ _ (hplen.trans hx.symm)]
    rfl

/-- **The loop.**  It is the run of its transducer over the blocks of the buffer, from the state in
    `ivec`. -/
theorem cbcLoop_eq_some
    {body : Block UInt8 → ℕ → (ℕ → UInt8) → Option (Block UInt8 × (ℕ → UInt8))}
    {step : List UInt8 → List UInt8 → List UInt8 × List UInt8} (hbody : Implements body step)
    {n buf : ℕ} {b : Block UInt8} (h : buf + 8 * n ≤ b.size) (ivec : ℕ → UInt8) :
    cbcLoop body n buf b ivec =
      some ({ b with
          byte := store b.byte buf
            (transduce step (load ivec 0 8) (chunks b.byte buf 8 n)).1.flatten },
        store ivec 0 (transduce step (load ivec 0 8) (chunks b.byte buf 8 n)).2) := by
  induction n generalizing buf b ivec with
  | zero => simp [cbcLoop, chunks, store_load_self]
  | succ n ih =>
    set r := step (load ivec 0 8) (load b.byte buf 8) with hr
    obtain ⟨hout, hstate⟩ : r.1.length = 8 ∧ r.2.length = 8 :=
      hbody.length _ _ (load_length _ _ _) (load_length _ _ _)
    -- the blocks behind the first are still as they were, and `ivec` holds the next state
    have hrest : chunks (store b.byte buf r.1) (buf + 8) 8 n = chunks b.byte (buf + 8) 8 n := by
      apply chunks_eq_of_load_eq
      exact load_congr fun i _ => store_apply_of_not _ _ _ (Or.inr (by omega))
    have hivec : load (store ivec 0 r.2) 0 8 = r.2 := load_store_of_length _ _ hstate
    have hend : (transduce step r.2 (chunks b.byte (buf + 8) 8 n)).2.length = 8 :=
      (transduce_inv (W := IsBlock)
        (fun s a hs ha => hbody.length s a hs ha) hstate fun c hc => length_of_mem_chunks hc).2
    rw [cbcLoop, hbody.eq_some b buf ivec (by omega), Option.bind_some,
        ih (by show buf + 8 + 8 * n ≤ b.size; omega), chunks, transduce_cons, ← hr,
        List.flatten_cons, store_append, hout]
    simp only
    rw [hrest, hivec, store_store_self _ _ (hstate.trans hend.symm)]

/-! ### `cbc_crypt` -/

/-- The step of the direction that `mode` says. -/
def cbcStep (keys : List (RoundKeys w)) (mode : UInt32) :
    List UInt8 → List UInt8 → List UInt8 × List UInt8 :=
  if mode &&& DES_DIRMASK = DES_ENCRYPT then cbcEncryptStep keys else cbcDecryptStep keys

/-- A step makes a block and a chaining value of eight bytes each. -/
theorem cbcStep_length (keys : List (RoundKeys w)) (mode : UInt32) {ivec s : List UInt8}
    (hivec : ivec.length = 8) (hs : s.length = 8) :
    (cbcStep keys mode ivec s).1.length = 8 ∧ (cbcStep keys mode ivec s).2.length = 8 := by
  unfold cbcStep
  split
  · exact (cbcEncrypt_implements keys).length ivec s hivec hs
  · exact (cbcDecrypt_implements keys).length ivec s hivec hs

/-- The rounded length, in blocks. -/
theorem roundUp_blocks (len : UInt32) : 8 * ((roundUp len).toNat / 8) = (roundUp len).toNat := by
  rw [roundUp_toNat]
  omega

/-- **`cbc_crypt`** is the transducer of its direction over the blocks of the rounded length. -/
theorem cbcCrypt_eq_some (key : ℕ → UInt8) {b : Block UInt8} {buf : ℕ} {len : UInt32}
    (mode : UInt32) (h : buf + (roundUp len).toNat ≤ b.size) (ivec : ℕ → UInt8) :
    cbcCrypt w key b buf len mode ivec =
      some (desError mode,
        { b with
          byte := store b.byte buf (transduce (cbcStep (desSetkey w key) mode) (load ivec 0 8)
            (chunks b.byte buf 8 ((roundUp len).toNat / 8))).1.flatten },
        store ivec 0 (transduce (cbcStep (desSetkey w key) mode) (load ivec 0 8)
          (chunks b.byte buf 8 ((roundUp len).toNat / 8))).2) := by
  have hin : buf + 8 * ((roundUp len).toNat / 8) ≤ b.size := by rwa [roundUp_blocks]
  simp only [cbcCrypt, cbcStep]
  split
  · rw [cbcLoop_eq_some (cbcEncrypt_implements _) hin, Option.map_some]
  · rw [cbcLoop_eq_some (cbcDecrypt_implements _) hin, Option.map_some]

/-- Decrypting a block that was encrypted with the same chaining value. -/
theorem cbcStep_inverse (hw : 32 ≤ w) (keys : List (RoundKeys w)) {mode mode' : UInt32}
    (hmode : mode &&& DES_DIRMASK = DES_ENCRYPT) (hmode' : mode' &&& DES_DIRMASK = DES_DECRYPT)
    {ivec s : List UInt8} (hivec : ivec.length = 8) (hs : s.length = 8) :
    cbcStep keys mode' ivec (cbcStep keys mode ivec s).1 = (s, (cbcStep keys mode ivec s).2) := by
  have hne : ¬ mode' &&& DES_DIRMASK = DES_ENCRYPT := by
    rw [hmode']
    decide
  rw [cbcStep, cbcStep, if_pos hmode, if_neg hne]
  simp only [cbcEncryptStep, cbcDecryptStep]
  -- what was xored in before the cipher is xored in again behind it
  rw [desBlock_inverse hw keys (xorBlock_length hs hivec) (by decide),
      xorBlock_xorBlock (hs.trans hivec.symm)]

/-- What a run puts out are blocks, as many as it reads, and its state stays one. -/
theorem cbcRun_spec (keys : List (RoundKeys w)) (mode : UInt32) {iv : List UInt8}
    (hiv : IsBlock iv) (m : ℕ → UInt8) (p n : ℕ) :
    (∀ c ∈ (transduce (cbcStep keys mode) iv (chunks m p 8 n)).1, IsBlock c) ∧
      (transduce (cbcStep keys mode) iv (chunks m p 8 n)).1.flatten.length = 8 * n ∧
      IsBlock (transduce (cbcStep keys mode) iv (chunks m p 8 n)).2 := by
  obtain ⟨hblocks, hstate⟩ := transduce_inv (I := IsBlock) (V := IsBlock) (W := IsBlock)
    (fun s a hs ha => cbcStep_length keys mode hs ha) hiv
    fun c (hc : c ∈ chunks m p 8 n) => length_of_mem_chunks hc
  refine ⟨hblocks, ?_, hstate⟩
  rw [length_flatten hblocks, transduce_length, chunks_length]

/-- The chaining value that encryption leaves: the last block of what it has written, if there is
    one. -/
theorem cbcEncrypt_state (keys : List (RoundKeys w)) {mode : UInt32}
    (hmode : mode &&& DES_DIRMASK = DES_ENCRYPT) (ivec m : ℕ → UInt8) (p n : ℕ) :
    store ivec 0 (transduce (cbcStep keys mode) (load ivec 0 8) (chunks m p 8 n)).2 =
      if n = 0 then ivec
      else store ivec 0 (load (store m p (transduce (cbcStep keys mode) (load ivec 0 8)
        (chunks m p 8 n)).1.flatten) (p + 8 * (n - 1)) 8) := by
  obtain ⟨hblocks, -, -⟩ := cbcRun_spec keys mode (load_length ivec 0 8) m p n
  set q := transduce (cbcStep keys mode) (load ivec 0 8) (chunks m p 8 n) with hq
  have hcount : q.1.length = n := by
    rw [hq, transduce_length, chunks_length]
  -- encryption chains with what it puts out, so the state is the last block written
  have hlast : q.2 = (q.1.getLast?).getD (load ivec 0 8) := by
    refine transduce_state_eq_last (fun s a => ?_) _ _
    rw [cbcStep, if_pos hmode]
    rfl
  rw [hlast]
  rcases n with _ | k
  · rw [if_pos rfl, List.length_eq_zero_iff.1 hcount, List.getLast?_nil, Option.getD_none,
        store_load_self]
  · -- the last block is where the run has stored it
    have hchunks : chunks (store m p q.1.flatten) p 8 (k + 1) = q.1 := by
      rw [← hcount]
      exact chunks_store_flatten m p hblocks
    have hget := chunks_getLast? (store m p q.1.flatten) p 8 k
    rw [hchunks] at hget
    rw [if_neg (Nat.succ_ne_zero k), hget, Option.getD_some, Nat.add_sub_cancel]

/-- **Decryption undoes encryption.**  Whatever the key, the initial vector and the length,
    `cbc_crypt` to decrypt, from the same `ivec`, gives back the buffer that it encrypted.  Both
    calls leave the last encrypted block in `ivec`, or leave it as it was when there is none. -/
theorem cbcCrypt_inverse (hw : 32 ≤ w) (key : ℕ → UInt8) (len : UInt32) {mode mode' : UInt32}
    (hmode : mode &&& DES_DIRMASK = DES_ENCRYPT) (hmode' : mode' &&& DES_DIRMASK = DES_DECRYPT)
    (ivec : ℕ → UInt8) {buf : ℕ} {b : Block UInt8} (hbuf : buf + (roundUp len).toNat ≤ b.size) :
    ∃ b' ivec', cbcCrypt w key b buf len mode ivec = some (desError mode, b', ivec') ∧
      cbcCrypt w key b' buf len mode' ivec = some (desError mode', b, ivec') ∧
      ivec' = if (roundUp len).toNat = 0 then ivec
        else store ivec 0 (load b'.byte (buf + (roundUp len).toNat - 8) 8) := by
  set keys := desSetkey w key
  set n := (roundUp len).toNat / 8 with hn
  set q := transduce (cbcStep keys mode) (load ivec 0 8) (chunks b.byte buf 8 n) with hq
  obtain ⟨hlen, hflat, -⟩ := cbcRun_spec keys mode (load_length ivec 0 8) b.byte buf n
  have hcount : q.1.length = n := by
    rw [hq, transduce_length, chunks_length]
  -- decryption reads the blocks that encryption has written
  have hchunks : chunks (store b.byte buf q.1.flatten) buf 8 n = q.1 := by
    rw [← hcount]
    exact chunks_store_flatten b.byte buf hlen
  have hstep (iv s : List UInt8) (hiv : IsBlock iv) (hs : IsBlock s) :
      cbcStep keys mode' iv (cbcStep keys mode iv s).1 = (s, (cbcStep keys mode iv s).2) ∧
        IsBlock (cbcStep keys mode iv s).2 :=
    ⟨cbcStep_inverse hw keys hmode hmode' hiv hs, (cbcStep_length keys mode hiv hs).2⟩
  -- the two directions keep the same chaining value, block by block
  have hundo : transduce (cbcStep keys mode') (load ivec 0 8) q.1 =
      (chunks b.byte buf 8 n, q.2) :=
    transduce_inverse hstep (load_length ivec 0 8) fun c hc => length_of_mem_chunks hc
  refine ⟨_, _, cbcCrypt_eq_some key mode hbuf ivec, ?_, ?_⟩
  · rw [cbcCrypt_eq_some key mode' (by exact hbuf)]
    simp only
    rw [← hn, ← hq, hchunks, hundo]
    simp only
    have hbytes : q.1.flatten.length = (chunks b.byte buf 8 n).flatten.length := by
      rw [hflat, flatten_chunks, load_length]
    rw [store_store_self _ _ hbytes, flatten_chunks, store_load_self]
  · -- without a block, `ivec` is stored back as it was loaded
    have hblocks := roundUp_blocks len
    rw [← hn] at hblocks
    rw [← hn, cbcEncrypt_state keys hmode]
    rcases Nat.eq_zero_or_pos n with hzero | hpos
    · rw [if_pos hzero, if_pos (by omega)]
    · have hplace : buf + 8 * (n - 1) = buf + (roundUp len).toNat - 8 := by omega
      rw [if_neg (by omega), if_neg (by omega), hplace]

/-- Two blocks, the second of them cut off. -/
theorem cbcCrypt_inverse_two :
    ∃ b' ivec', cbcCrypt 32 (fun i => .ofNat (i + 1)) ⟨17, fun a => .ofNat a⟩ 1 9 DES_ENCRYPT
        (fun i => .ofNat (7 * i)) = some (desError DES_ENCRYPT, b', ivec') ∧
      cbcCrypt 32 (fun i => .ofNat (i + 1)) b' 1 9 DES_DECRYPT (fun i => .ofNat (7 * i)) =
        some (desError DES_DECRYPT, ⟨17, fun a => .ofNat a⟩, ivec') ∧
      ivec' = if (roundUp 9).toNat = 0 then fun i => .ofNat (7 * i)
        else store (fun i => .ofNat (7 * i)) 0 (load b'.byte (1 + (roundUp 9).toNat - 8) 8) :=
  cbcCrypt_inverse (by decide) _ 9 (by decide) (by decide) _ (by decide)

/-! ### In pieces -/

/-- A length of whole blocks is not rounded. -/
theorem roundUp_of_dvd {len : UInt32} (h : 8 ∣ len.toNat) : (roundUp len).toNat = len.toNat := by
  have hlt := len.toNat_lt
  obtain ⟨n, hn⟩ := h
  rw [roundUp_toNat, UInt32.toNat_add]
  show (len.toNat + 7) % 2 ^ 32 / 8 * 8 = _
  omega

/-- **In pieces.**  In either direction, one call over a buffer that holds the bytes of two others
    leaves the bytes, and the `ivec`, that a call over the first and one over the second do, the
    second with the `ivec` that the first has left. -/
theorem cbcCrypt_append (w : ℕ) (key : ℕ → UInt8) (mode : UInt32) (ivec : ℕ → UInt8)
    {a b ab : Block UInt8} {pa pb pab : ℕ} {la lb : UInt32} (ha : 8 ∣ la.toNat)
    (hb : 8 ∣ lb.toNat) (hsum : la.toNat + lb.toNat < 2 ^ 32) (hain : pa + la.toNat ≤ a.size)
    (hbin : pb + lb.toNat ≤ b.size) (habin : pab + (la.toNat + lb.toNat) ≤ ab.size)
    (hbytes : load ab.byte pab (la.toNat + lb.toNat) =
      load a.byte pa la.toNat ++ load b.byte pb lb.toNat) :
    ∃ a' b' ab' ivec₁ ivec₂, cbcCrypt w key a pa la mode ivec = some (desError mode, a', ivec₁) ∧
      cbcCrypt w key b pb lb mode ivec₁ = some (desError mode, b', ivec₂) ∧
      cbcCrypt w key ab pab (la + lb) mode ivec = some (desError mode, ab', ivec₂) ∧
      load ab'.byte pab (la.toNat + lb.toNat) =
        load a'.byte pa la.toNat ++ load b'.byte pb lb.toNat := by
  have hlab : (la + lb).toNat = la.toNat + lb.toNat := by
    rw [UInt32.toNat_add]
    exact Nat.mod_eq_of_lt hsum
  have hra := roundUp_of_dvd ha
  have hrb := roundUp_of_dvd hb
  have hrab : (roundUp (la + lb)).toNat = (la + lb).toNat :=
    roundUp_of_dvd (by rw [hlab]; exact Nat.dvd_add ha hb)
  obtain ⟨n, hn⟩ := ha
  obtain ⟨m, hm⟩ := hb
  set keys := desSetkey w key
  -- the runs over the two pieces, the second from the state of the first
  set q₁ := transduce (cbcStep keys mode) (load ivec 0 8) (chunks a.byte pa 8 n) with hq₁
  set q₂ := transduce (cbcStep keys mode) q₁.2 (chunks b.byte pb 8 m) with hq₂
  obtain ⟨-, hflat₁, hstate₁⟩ := cbcRun_spec keys mode (load_length ivec 0 8) a.byte pa n
  obtain ⟨-, hflat₂, hstate₂⟩ := cbcRun_spec keys mode hstate₁ b.byte pb m
  rw [← hq₁] at hflat₁ hstate₁
  rw [← hq₁, ← hq₂] at hflat₂ hstate₂
  -- what the first call stores in `ivec` is what the second one loads
  have hivec₁ : load (store ivec 0 q₁.2) 0 8 = q₁.2 := load_store_of_length _ _ hstate₁
  rw [hn, hm] at hbytes
  have hrun : transduce (cbcStep keys mode) (load ivec 0 8) (chunks ab.byte pab 8 (n + m)) =
      (q₁.1 ++ q₂.1, q₂.2) := by
    rw [chunks_eq_append hbytes, transduce_append]
  have hblocks (k : ℕ) : 8 * k / 8 = k := Nat.mul_div_cancel_left k (by decide)
  -- the three calls, each reduced to its run
  have hcalla := cbcCrypt_eq_some (w := w) key mode
    (by rwa [hra] : pa + (roundUp la).toNat ≤ a.size) ivec
  have hcallb := cbcCrypt_eq_some (w := w) key mode
    (by rwa [hrb] : pb + (roundUp lb).toNat ≤ b.size) (store ivec 0 q₁.2)
  have hcallab := cbcCrypt_eq_some (w := w) key mode
    (by rwa [hrab, hlab] : pab + (roundUp (la + lb)).toNat ≤ ab.size) ivec
  rw [hra, hn, hblocks, ← hq₁] at hcalla
  rw [hrb, hm, hblocks, hivec₁, ← hq₂, store_store_self _ _ (hstate₁.trans hstate₂.symm)] at hcallb
  rw [hrab, hlab, hn, hm, ← Nat.mul_add, hblocks, hrun] at hcallab
  refine ⟨_, _, _, _, _, hcalla, hcallb, hcallab, ?_⟩
  -- the bytes that the one call leaves, cut where the pieces meet
  have hflat : (q₁.1 ++ q₂.1).flatten.length = 8 * n + 8 * m := by
    rw [List.flatten_append, List.length_append, hflat₁, hflat₂]
  simp only
  rw [hn, hm, load_store_of_length _ _ hflat, load_store_of_length _ _ hflat₁,
      load_store_of_length _ _ hflat₂, List.flatten_append]

/-- A block and two more. -/
theorem cbcCrypt_append_three :
    ∃ a' b' ab' ivec₁ ivec₂,
      cbcCrypt 64 (fun i => .ofNat i) ⟨8, fun i => .ofNat i⟩ 0 8 DES_DECRYPT (fun _ => 7) =
        some (desError DES_DECRYPT, a', ivec₁) ∧
      cbcCrypt 64 (fun i => .ofNat i) ⟨17, fun i => .ofNat (i + 7)⟩ 1 16 DES_DECRYPT ivec₁ =
        some (desError DES_DECRYPT, b', ivec₂) ∧
      cbcCrypt 64 (fun i => .ofNat i) ⟨24, fun i => .ofNat i⟩ 0 (8 + 16) DES_DECRYPT (fun _ => 7) =
        some (desError DES_DECRYPT, ab', ivec₂) ∧
      load ab'.byte 0 (8 + 16) = load a'.byte 0 8 ++ load b'.byte 1 16 :=
  cbcCrypt_append 64 _ DES_DECRYPT _ (by decide : 8 ∣ (8 : UInt32).toNat)
    (by decide : 8 ∣ (16 : UInt32).toNat) (by decide) (by decide) (by decide) (by decide)
    (by decide)

end LeoNet
