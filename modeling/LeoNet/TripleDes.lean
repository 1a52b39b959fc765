import LeoNet.DesKeys

namespace LeoNet.StandardDes

open Bits

/-!
# `three_des_crypt` — three passes of DES

The passes go through the schedules of the three parts of the key, the middle one in the other mode.

* `desCrypt_inverse` — a pass undoes one through the schedule in reverse;
* `threeDesCrypt_inverse` — the three passes undo those of the other mode;
* `threeDesCrypt_single` — they are one pass where two parts next to each other agree.
-/

/-- `!mode`. -/
def DesMode.not : DesMode → DesMode
  | .encrypt => .decrypt
  | .decrypt => .encrypt

/-- Each mode is the opposite of its opposite. -/
theorem DesMode.not_not (mode : DesMode) : mode.not.not = mode := by cases mode <;> rfl

/-- `&key[n]`. -/
def keyAt (key : ℕ → UInt8) (n : ℕ) : ℕ → UInt8 := fun i => key (n + i)

/-- `three_des_key_setup(key,schedule,mode)`: `schedule[0]` to `schedule[2]`. -/
def threeDesKeySetup (key : ℕ → UInt8) (mode : DesMode) :
    List (List (BitVec 8)) × List (List (BitVec 8)) × List (List (BitVec 8)) :=
  match mode with
  | .encrypt =>
    (desKeySetup (keyAt key 0) mode, desKeySetup (keyAt key 8) mode.not,
      desKeySetup (keyAt key 16) mode)
  | .decrypt =>
    (desKeySetup (keyAt key 16) mode, desKeySetup (keyAt key 8) mode.not,
      desKeySetup (keyAt key 0) mode)

/-- `three_des_crypt(in,out,key)`: the bytes of `out`.  The second and the third call read and write
    `out`; each has read its block before it writes. -/
def threeDesCrypt (s : ℕ → UInt8)
    (key : List (List (BitVec 8)) × List (List (BitVec 8)) × List (List (BitVec 8))) :
    List UInt8 :=
  let out := desCrypt s key.1
  let out := desCrypt (fun i => out.getD i 0) key.2.1
  desCrypt (fun i => out.getD i 0) key.2.2

/-! ### One pass -/

/-- The schedule has one row for each shift. -/
theorem keyRows_length (ns : List ℕ) (C D : BitVec 32) : (keyRows ns C D).length = ns.length := by
  induction ns generalizing C D with
  | nil => rfl
  | cons n ns ih => rw [keyRows, List.length_cons, List.length_cons, ih]

/-- There are sixteen rows. -/
theorem desKeySetup_length (key : ℕ → UInt8) (mode : DesMode) :
    (desKeySetup key mode).length = 16 := by
  cases mode with
  | encrypt => exact keyRows_length keyRndShift _ _
  | decrypt => exact List.length_reverse.trans (keyRows_length keyRndShift _ _)

/-- The schedule of the other mode is this one, in reverse. -/
theorem desKeySetup_not (key : ℕ → UInt8) (mode : DesMode) :
    desKeySetup key mode.not = (desKeySetup key mode).reverse := by
  cases mode with
  | encrypt => rfl
  | decrypt => exact (List.reverse_reverse _).symm

/-- What `des_crypt` reads of `in` is its eight bytes. -/
theorem desCrypt_congr {s s' : ℕ → UInt8} (h : ∀ i < 8, s i = s' i)
    (key : List (List (BitVec 8))) : desCrypt s key = desCrypt s' key := by
  have hip : ip s = ip s' := by
    have hmap : ((List.range 8).map fun i => (s i).toBitVec) =
        (List.range 8).map fun i => (s' i).toBitVec := by
      apply List.map_congr_left
      intro i hi
      rw [h i (List.mem_range.1 hi)]
    rw [← initialTranspose_eq_ip, ← initialTranspose_eq_ip]
    simp only [initialTranspose, hmap]
  rw [desCrypt, desCrypt, hip]

/-- **One pass.**  Through the schedule in reverse, a pass gives back the block. -/
theorem desCrypt_inverse (s : ℕ → UInt8) {key : List (List (BitVec 8))} (hkey : key.length = 16) :
    desCrypt (fun i => (desCrypt s key).getD i 0) key.reverse = (List.range 8).map s := by
  have hreverse : key.reverse.length = 16 := List.length_reverse.trans hkey
  set lr := Feistel.network (· ^^^ ·) f key (ip s) with hlr
  have hfits (x : BitVec 32) : Bits.Fits 32 x := fun i hi => BitVec.getLsbD_of_ge x i hi
  have hundo : Feistel.network (· ^^^ ·) f key.reverse lr.swap = (ip s).swap :=
    Feistel.network_reverse
      (fun x y => by rw [BitVec.xor_assoc, BitVec.xor_self, BitVec.xor_zero]) key _
  have hfinal (lr : BitVec 32 × BitVec 32) : invIp lr.swap = finalTranspose lr :=
    (finalTranspose_eq_invIp lr).symm
  rw [standardDes_desCrypt_eq s hkey, standardDes_desCrypt_eq _ hreverse, ← hlr, hfinal, hfinal,
      ← initialTranspose_eq_ip, initialTranspose_finalTranspose le_rfl (hfits lr.1) (hfits lr.2)]
  change finalTranspose (Feistel.network _ _ key.reverse lr.swap) = _
  rw [hundo, ← initialTranspose_eq_ip, finalTranspose_initialTranspose le_rfl]

/-- The same, for a pass over what a block holds. -/
theorem desCrypt_mode_inverse (s : ℕ → UInt8) (key : ℕ → UInt8) (mode : DesMode) :
    desCrypt (fun i => (desCrypt s (desKeySetup key mode)).getD i 0)
      (desKeySetup key mode.not) = (List.range 8).map s := by
  rw [desKeySetup_not]
  exact desCrypt_inverse s (desKeySetup_length key mode)

/-- `des_crypt` reads eight bytes. -/
theorem desCrypt_range_map (s : ℕ → UInt8) (key : List (List (BitVec 8))) :
    desCrypt (fun i => ((List.range 8).map s).getD i 0) key = desCrypt s key := by
  apply desCrypt_congr
  intro i hi
  rw [List.getD_eq_getElem?_getD, List.getElem?_map, List.getElem?_range hi]
  rfl

/-- It returns eight bytes. -/
theorem range_map_desCrypt (s : ℕ → UInt8) (key : List (List (BitVec 8))) :
    (List.range 8).map (fun i => (desCrypt s key).getD i 0) = desCrypt s key := by
  have hlen : (desCrypt s key).length = 8 := by rw [desCrypt, invIp_length]
  refine List.ext_getElem (by rw [List.length_map, List.length_range, hlen]) fun i _ hi => ?_
  rw [List.getElem_map, List.getElem_range, List.getD_eq_getElem _ _ hi]

/-- The permuted choice leaves the last bit of each byte out. -/
theorem keyPerm_congr {key key' : ℕ → UInt8} (h : SameHighBits key key') {perm : List ℕ}
    (hperm : ∀ i < 28, perm.getD i 0 < 64 ∧ perm.getD i 0 % 8 < 7) :
    keyPerm perm key = keyPerm perm key' := by
  have hterms : ((List.range 28).map fun i => bitNum key (perm.getD i 0) (31 - i)) =
      (List.range 28).map fun i => bitNum key' (perm.getD i 0) (31 - i) := by
    apply List.map_congr_left
    intro i hi
    obtain ⟨hlt, hlow⟩ := hperm i (List.mem_range.1 hi)
    apply BitVec.eq_of_getLsbD_eq
    intro k _
    rw [getLsbD_bitNum _ _ (by omega), getLsbD_bitNum _ _ (by omega),
        sameHighBits_iff.1 h _ hlt hlow]
  rw [keyPerm, keyPerm, hterms]

/-- The schedule reads only the high bits of the key. -/
theorem desKeySetup_congr {key key' : ℕ → UInt8} (h : SameHighBits key key') (mode : DesMode) :
    desKeySetup key mode = desKeySetup key' mode := by
  have hC : ∀ i < 28, keyPermC.getD i 0 < 64 ∧ keyPermC.getD i 0 % 8 < 7 := by decide
  have hD : ∀ i < 28, keyPermD.getD i 0 < 64 ∧ keyPermD.getD i 0 % 8 < 7 := by decide
  unfold desKeySetup
  rw [keyPerm_congr h hC, keyPerm_congr h hD]

/-! ### Three passes -/

/-- **Inversion.**  For every key and every block, `three_des_crypt` with the schedules of one mode
    undoes it with those of the other. -/
theorem threeDesCrypt_inverse (key s : ℕ → UInt8) (mode : DesMode) :
    threeDesCrypt (fun i => (threeDesCrypt s (threeDesKeySetup key mode)).getD i 0)
      (threeDesKeySetup key mode.not) = (List.range 8).map s := by
  have hdecrypt (k s : ℕ → UInt8) :
      desCrypt (fun i => (desCrypt s (desKeySetup k .encrypt)).getD i 0)
        (desKeySetup k .decrypt) = (List.range 8).map s := desCrypt_mode_inverse s k .encrypt
  have hencrypt (k s : ℕ → UInt8) :
      desCrypt (fun i => (desCrypt s (desKeySetup k .decrypt)).getD i 0)
        (desKeySetup k .encrypt) = (List.range 8).map s := desCrypt_mode_inverse s k .decrypt
  -- from the inside out, each pass meets its inverse
  cases mode with
  | encrypt =>
    simp only [threeDesCrypt, threeDesKeySetup, DesMode.not]
    rw [hdecrypt, desCrypt_range_map, hencrypt, desCrypt_range_map, hdecrypt]
  | decrypt =>
    simp only [threeDesCrypt, threeDesKeySetup, DesMode.not]
    rw [hencrypt, desCrypt_range_map, hdecrypt, desCrypt_range_map, hencrypt]

/-- **One key.**  Where the middle part of the key has the high bits of the first one, or of the last,
    two passes cancel: `three_des_crypt` is `des_crypt` with the part that is left. -/
theorem threeDesCrypt_single (key s : ℕ → UInt8) (mode : DesMode) :
    (SameHighBits (keyAt key 8) (keyAt key 0) → threeDesCrypt s (threeDesKeySetup key mode) =
      desCrypt s (desKeySetup (keyAt key 16) mode)) ∧
    (SameHighBits (keyAt key 8) (keyAt key 16) → threeDesCrypt s (threeDesKeySetup key mode) =
      desCrypt s (desKeySetup (keyAt key 0) mode)) := by
  -- the middle pass meets the first one in one mode, and the last one in the other
  have hfirst {k k' k'' : ℕ → UInt8} (h : SameHighBits k' k) (mode : DesMode) :
      threeDesCrypt s (desKeySetup k mode, desKeySetup k' mode.not, desKeySetup k'' mode) =
        desCrypt s (desKeySetup k'' mode) := by
    rw [threeDesCrypt, desKeySetup_congr h, desCrypt_mode_inverse, desCrypt_range_map]
  have hlast {k k' k'' : ℕ → UInt8} (h : SameHighBits k' k'') (mode : DesMode) :
      threeDesCrypt s (desKeySetup k mode, desKeySetup k' mode.not, desKeySetup k'' mode) =
        desCrypt s (desKeySetup k mode) := by
    have hundo := desCrypt_mode_inverse
      (fun i => (desCrypt s (desKeySetup k mode)).getD i 0) k'' mode.not
    rw [DesMode.not_not] at hundo
    rw [threeDesCrypt, desKeySetup_congr h, hundo, range_map_desCrypt]
  cases mode with
  | encrypt => exact ⟨fun h => hfirst h .encrypt, fun h => hlast h .encrypt⟩
  | decrypt => exact ⟨fun h => hlast h .decrypt, fun h => hfirst h .decrypt⟩

/-- Three parts that differ in their low bits alone. -/
theorem threeDesCrypt_single_parts :
    threeDesCrypt (fun i => .ofNat i)
        (threeDesKeySetup (fun i => .ofNat (i % 8 * 2 + i / 8 % 2)) .encrypt) =
      desCrypt (fun i => .ofNat i)
        (desKeySetup (keyAt (fun i => .ofNat (i % 8 * 2 + i / 8 % 2)) 16) .encrypt) ∧
    threeDesCrypt (fun i => .ofNat i)
        (threeDesKeySetup (fun i => .ofNat (i % 8 * 2 + i / 8 % 2)) .decrypt) =
      desCrypt (fun i => .ofNat i)
        (desKeySetup (keyAt (fun i => .ofNat (i % 8 * 2 + i / 8 % 2)) 0) .decrypt) :=
  ⟨(threeDesCrypt_single _ _ .encrypt).1 (by decide),
    (threeDesCrypt_single _ _ .decrypt).2 (by decide)⟩

end LeoNet.StandardDes
