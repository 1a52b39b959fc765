import LeoNet.Lib.Memory
import Mathlib.Algebra.Group.Nat.Defs

namespace Memory

/-!
# Little-endian words in memory

A word of `k` bytes is stored least significant byte first.  `ofBytes` and `toBytes` convert,
and a `Block` is read and written word by word, inside the object only.

* `ofBytes_toBytes` / `toBytes_ofBytes` — a word that fits its bytes is read back, and the bytes
  of a word are; `toBytes_xor` — the exclusive or of words is that of their bytes;
* `Block.readWord_eq_some` / `Block.writeWord_eq_some` — inside the object an access goes
  through;
* `Block.readWord_le` — and only there.
-/

/-- The object that holds the bytes `xs`. -/
def bytesBlock (xs : List UInt8) : Block UInt8 := ⟨xs.length, fun i => xs.getD i 0⟩

/-- The number whose little-endian bytes are `bs`. -/
def ofBytes (bs : List UInt8) : ℕ :=
  bs.foldr (fun b n => b.toNat + 256 * n) 0

/-- The `k` low bytes of a number, least significant first. -/
def toBytes : ℕ → ℕ → List UInt8
  | 0, _ => []
  | k + 1, n => UInt8.ofNat n :: toBytes k (n / 256)

/-- A word of `k` bytes has `k` bytes. -/
@[simp] theorem toBytes_length (k n : ℕ) : (toBytes k n).length = k := by
  induction k generalizing n with
  | zero => rfl
  | succ k ih => rw [toBytes, List.length_cons, ih]

/-- The first byte is the lowest. -/
theorem ofBytes_cons (b : UInt8) (bs : List UInt8) :
    ofBytes (b :: bs) = b.toNat + 256 * ofBytes bs := rfl

/-- A word fits its bytes. -/
theorem ofBytes_lt (bs : List UInt8) : ofBytes bs < 256 ^ bs.length := by
  induction bs with
  | nil => exact Nat.one_pos
  | cons b bs ih =>
    have hb := b.toNat_lt
    rw [ofBytes_cons, List.length_cons, Nat.pow_succ]
    omega

/-- A word that fits its bytes is read back. -/
theorem ofBytes_toBytes {k n : ℕ} (h : n < 256 ^ k) : ofBytes (toBytes k n) = n := by
  induction k generalizing n with
  | zero =>
    have hzero : n = 0 := by simpa using h
    rw [hzero]
    rfl
  | succ k ih =>
    rw [Nat.pow_succ] at h
    have hrest : n / 256 < 256 ^ k := by omega
    rw [toBytes, ofBytes_cons, ih hrest, UInt8.toNat_ofNat']
    omega

/-- The bytes of a word are read back. -/
theorem toBytes_ofBytes (bs : List UInt8) : toBytes bs.length (ofBytes bs) = bs := by
  induction bs with
  | nil => rfl
  | cons b bs ih =>
    have hb := b.toNat_lt
    have hfirst : UInt8.ofNat (b.toNat + 256 * ofBytes bs) = b := by
      apply UInt8.toNat_inj.1
      rw [UInt8.toNat_ofNat']
      omega
    rw [List.length_cons, toBytes, ofBytes_cons, hfirst,
        show (b.toNat + 256 * ofBytes bs) / 256 = ofBytes bs by omega, ih]

/-- The exclusive or of two words is that of their bytes. -/
theorem toBytes_xor {k : ℕ} {xs ys : List UInt8} (hx : xs.length = k) (hy : ys.length = k) :
    toBytes k (ofBytes xs ^^^ ofBytes ys) = List.zipWith (· ^^^ ·) xs ys := by
  induction k generalizing xs ys with
  | zero =>
    rw [List.length_eq_zero_iff.mp hx, List.length_eq_zero_iff.mp hy]
    rfl
  | succ k ih =>
    obtain ⟨x, xs, rfl⟩ := List.exists_cons_of_length_eq_add_one hx
    obtain ⟨y, ys, rfl⟩ := List.exists_cons_of_length_eq_add_one hy
    rw [List.length_cons, Nat.succ_inj] at hx hy
    have hxlt := x.toNat_lt
    have hylt := y.toNat_lt
    -- no carry passes from the low byte to the rest, in either direction
    have hrest : (x.toNat + 256 * ofBytes xs ^^^ y.toNat + 256 * ofBytes ys) / 256 =
        ofBytes xs ^^^ ofBytes ys := by
      rw [show (256 : ℕ) = 2 ^ 8 by rfl, Nat.xor_div_two_pow]
      congr 1 <;> omega
    have hfirst : UInt8.ofNat (x.toNat + 256 * ofBytes xs ^^^ y.toNat + 256 * ofBytes ys) =
        x ^^^ y := by
      apply UInt8.toNat_inj.mp
      rw [UInt8.toNat_ofNat', UInt8.toNat_xor, Nat.xor_mod_two_pow]
      congr 1 <;> omega
    rw [ofBytes_cons, ofBytes_cons, toBytes, hrest, hfirst, ih hx hy]
    rfl

/-- Adding words is adding their bytes. -/
theorem ofBytes_xor {xs ys : List UInt8} (hlen : xs.length = ys.length) :
    ofBytes (List.zipWith (· ^^^ ·) xs ys) = ofBytes xs ^^^ ofBytes ys := by
  have hx := ofBytes_lt xs
  have hy := ofBytes_lt ys
  rw [← hlen] at hy
  have hpow : (256 : ℕ) ^ xs.length = 2 ^ (8 * xs.length) := by rw [Nat.pow_mul]
  rw [hpow] at hx hy
  have hlt := Nat.xor_lt_two_pow hx hy
  rw [← hpow] at hlt
  rw [← toBytes_xor rfl hlen.symm, ofBytes_toBytes hlt]

namespace Block

/-- Read the `k`-byte word at offset `p`. -/
def readWord (b : Block UInt8) (k p : ℕ) : Option ℕ :=
  (b.read p k).map ofBytes

/-- Write the `k`-byte word `n` at offset `p`. -/
def writeWord (b : Block UInt8) (k p n : ℕ) : Option (Block UInt8) :=
  b.write p (toBytes k n)

/-- A word inside the block can be read. -/
theorem readWord_eq_some {b : Block UInt8} {k p : ℕ} (h : p + k ≤ b.size) :
    b.readWord k p = some (ofBytes (load b.byte p k)) := by
  rw [readWord, read_eq_some h, Option.map_some]

/-- A word that was read lies inside the object. -/
theorem readWord_le {b : Block UInt8} {k p n : ℕ} (h : b.readWord k p = some n) :
    p + k ≤ b.size := by
  rw [readWord, Option.map_eq_some_iff] at h
  obtain ⟨bs, hread, -⟩ := h
  exact read_le hread

/-- A word inside the block can be written. -/
theorem writeWord_eq_some {b : Block UInt8} {k p : ℕ} (n : ℕ) (h : p + k ≤ b.size) :
    ∃ b', b.writeWord k p n = some b' ∧ b'.size = b.size := by
  refine ⟨_, write_eq_some ?_, rfl⟩
  rw [toBytes_length]
  exact h

end Block

end Memory
