import LeoNet.DofCrypto
import LeoNet.Lib.StreamCipher

namespace LeoNet

open Memory StreamCipher

/-!
# `xor_crypt` as a stream cipher

What the two loops of `xor_crypt` do is one keystream over the range.  The loop over the words
goes through the key and starts again behind its sixteenth byte; the loop over the bytes that are
left starts with the first byte of the key, wherever the words have stopped.

* `xorCrypt_eq_mask` — the two loops together;
* `xorCrypt_xorCrypt` / `xorDecrypt_xorCrypt` — encrypting twice is decrypting;
* `repeatsKey_iff` — the keystream is the repeated key exactly when the bytes that are left get
  the same key bytes from it.
-/

variable {key : ℕ → UInt8} {p b : Block UInt8} {buf : ℕ} {len : UInt32}

/-- **The two loops** add `keystream` to the bytes of the range. -/
theorem xorCrypt_eq_mask (key : ℕ → UInt8) (h : buf + len.toNat ≤ b.size) :
    xorCrypt b buf len key = some { b with
      byte := mask (· ^^^ ·) (keystream key len.toNat) buf len.toNat b.byte } := by
  obtain ⟨b', hb', hsize⟩ := xorCrypt_eq_some key h
  obtain ⟨size', byte'⟩ := b'
  have hbyte : byte' = mask (· ^^^ ·) (keystream key len.toNat) buf len.toNat b.byte := by
    funext a
    exact xorCrypt_byte hb' a
  rw [hb', hbyte]
  simp only at hsize
  rw [hsize]

/-- Adding a byte of the key twice changes nothing. -/
theorem xor_cancel (x k : UInt8) : (x ^^^ k) ^^^ k = x := by
  rw [UInt8.xor_assoc, UInt8.xor_self, UInt8.xor_zero]

/-- Encrypting twice is decrypting. -/
theorem xorCrypt_xorCrypt (h : xorCrypt p buf len key = some b) (hpos : 0 < len.toNat) :
    xorCrypt b buf len key = some p := by
  have hin := xorCrypt_le h hpos
  rw [xorCrypt_eq_mask key hin, Option.some.injEq] at h
  subst h
  rw [xorCrypt_eq_mask key (by exact hin)]
  simp only [mask_mask xor_cancel]

/-- **Decryption undoes encryption.**  Whatever the buffer, the length and the key, `xor_decrypt`
    gives back the buffer that `xor_crypt` was given, and outside the range no byte changes on the
    way. -/
theorem xorDecrypt_xorCrypt (key : ℕ → UInt8) (h : buf + len.toNat ≤ b.size) :
    ∃ b', xorCrypt b buf len key = some b' ∧ xorDecrypt b' buf len key = some b ∧
      ∀ a, ¬ (buf ≤ a ∧ a < buf + len.toNat) → b'.byte a = b.byte a := by
  refine ⟨_, xorCrypt_eq_mask key h, ?_, fun a ha => mask_outside _ ha⟩
  rw [xorDecrypt, xorCrypt_eq_mask key (by exact h)]
  simp only [mask_mask xor_cancel]

/-- One word and three bytes, between others. -/
theorem xorDecrypt_xorCrypt_seven :
    ∃ b', xorCrypt (bytesBlock [1, 2, 3, 4, 5, 6, 7, 8, 9]) 1 7 (fun i => .ofNat (i + 1)) =
        some b' ∧
      xorDecrypt b' 1 7 (fun i => .ofNat (i + 1)) =
        some (bytesBlock [1, 2, 3, 4, 5, 6, 7, 8, 9]) ∧
      ∀ a, ¬ (1 ≤ a ∧ a < 1 + (7 : UInt32).toNat) →
        b'.byte a = (bytesBlock [1, 2, 3, 4, 5, 6, 7, 8, 9]).byte a :=
  xorDecrypt_xorCrypt _ (by decide)

/-! ### The repeated key -/

/-- `xor_crypt` adds the key, over and over, to the bytes of the range, and to no others. -/
def RepeatsKey (key : ℕ → UInt8) (b : Block UInt8) (buf : ℕ) (len : UInt32) : Prop :=
  ∃ b', xorCrypt b buf len key = some b' ∧
    (∀ i < len.toNat, b'.byte (buf + i) = b.byte (buf + i) ^^^ key (i % 16)) ∧
    ∀ a, ¬ (buf ≤ a ∧ a < buf + len.toNat) → b'.byte a = b.byte a

/-- **When the key is repeated.**  Exactly when every byte behind the last whole word gets from the
    beginning of the key what stands next in the key. -/
theorem repeatsKey_iff (key : ℕ → UInt8) (h : buf + len.toNat ≤ b.size) :
    RepeatsKey key b buf len ↔
      ∀ i < len.toNat, len.toNat - len.toNat % 4 ≤ i → key (i % 16) = key (i % 4) := by
  -- the words take the key in order, the bytes behind them start it again
  have hstream (i : ℕ) : keystream key len.toNat i = key (i % 16) ↔
      (len.toNat - len.toNat % 4 ≤ i → key (i % 16) = key (i % 4)) := by
    unfold keystream
    split
    case isTrue hword => exact iff_of_true rfl fun hle => absurd hword (by omega)
    case isFalse htail =>
      rw [eq_comm]
      exact ⟨fun heq _ => heq, fun himp => himp (by omega)⟩
  -- the two ciphers do the same to the buffer
  have hmask : RepeatsKey key b buf len ↔
      mask (· ^^^ ·) (keystream key len.toNat) buf len.toNat b.byte =
        mask (· ^^^ ·) (fun i => key (i % 16)) buf len.toNat b.byte := by
    rw [eq_mask_iff]
    constructor
    · rintro ⟨b', hb', hcells⟩
      rw [xorCrypt_eq_mask key h, Option.some.injEq] at hb'
      subst hb'
      exact hcells
    · intro hcells
      exact ⟨_, xorCrypt_eq_mask key h, hcells⟩
  have hmix : ∀ x : UInt8, Function.Injective (x ^^^ ·) := fun x _ _ => (UInt8.xor_right_inj x).1
  rw [hmask, mask_eq_iff hmix]
  exact forall₂_congr fun i _ => hstream i

/-- Six bytes under a key whose words are all the same. -/
theorem repeatsKey_iff_six :
    RepeatsKey (fun i => .ofNat (i % 4)) (bytesBlock [9, 9, 9, 9, 9, 9]) 0 6 ↔
      ∀ i < (6 : UInt32).toNat, (6 : UInt32).toNat - (6 : UInt32).toNat % 4 ≤ i →
        UInt8.ofNat (i % 16 % 4) = UInt8.ofNat (i % 4 % 4) :=
  repeatsKey_iff _ (by decide)

/-- The fifth of five bytes gets the first byte of the key. -/
theorem repeatsKey_fails :
    ¬ ∀ (key : ℕ → UInt8) (b : Block UInt8) (buf : ℕ) (len : UInt32),
      buf + len.toNat ≤ b.size → RepeatsKey key b buf len := by
  intro h
  obtain ⟨b', hb', hinside, -⟩ := h (fun i => .ofNat i) (bytesBlock [0, 0, 0, 0, 0]) 0 5 (by decide)
  have hlast : (xorCrypt (bytesBlock [0, 0, 0, 0, 0]) 0 5 fun i => .ofNat i).map
      (fun b => b.byte 4) = some 0 := by decide
  rw [hb', Option.map_some, Option.some.injEq] at hlast
  have hbyte := hinside 4 (by decide)
  rw [Nat.zero_add, hlast] at hbyte
  exact absurd hbyte (by decide)

end LeoNet
