import LeoNet.DesAgreement

namespace LeoNet

open Memory Bits

/-!
# DES and the width of `unsigned long`

`rol1` and `ror4` are rotations of `32` bits only where `unsigned long` has no more; in a wider
word they leave bits above.  The results are the same: what a round takes from a half is the
indices of its S-boxes, and these are the same bits in every width.

* `boxIndex_width` — the indices of the S-boxes;
* `roundValue_width` — hence a round mixes in the same bits;
* `desBytes_width` — and hence the whole cipher stores the same bytes.
-/

variable {w v : ℕ}

/-- Words of two widths that hold the same `32` bits, and no others. -/
structure SameWord (x : BitVec w) (y : BitVec v) : Prop where
  left : Fits 32 x
  right : Fits 32 y
  bits : ∀ k, x.getLsbD k = y.getLsbD k

/-- Words that are the same have the same sum. -/
theorem SameWord.xor {x x' : BitVec w} {y y' : BitVec v} (h : SameWord x y)
    (h' : SameWord x' y') : SameWord (x ^^^ x') (y ^^^ y') where
  left := h.left.xor h'.left
  right := h.right.xor h'.right
  bits k := by rw [BitVec.getLsbD_xor, BitVec.getLsbD_xor, h.bits, h'.bits]

/-- A number of 32 bits is the same word at every width. -/
theorem sameWord_ofNat (hw : 32 ≤ w) (hv : 32 ≤ v) {x : ℕ} (hx : x < 2 ^ 32) :
    SameWord (BitVec.ofNat w x) (BitVec.ofNat v x) where
  left := fits_ofNat w hx
  right := fits_ofNat v hx
  bits k := by
    rw [BitVec.getLsbD_ofNat, BitVec.getLsbD_ofNat]
    rcases Nat.lt_or_ge k 32 with hk | hk
    · rw [decide_eq_true (Nat.lt_of_lt_of_le hk hw), decide_eq_true (Nat.lt_of_lt_of_le hk hv)]
    · rw [Nat.testBit_lt_two_pow (Nat.lt_of_lt_of_le hx (Nat.pow_le_pow_right (by decide) hk)),
        Bool.and_false, Bool.and_false]

/-- Subkeys of two widths that mix the same bits into the indices of the S-boxes. -/
def SameBoxKeys (k : RoundKeys w) (k' : RoundKeys v) : Prop :=
  ∀ j < 8, ∀ u < 6, boxKey k j u = boxKey k' j u

/-- **Indices.**  The S-boxes are looked up at the same places. -/
theorem boxIndex_width (hw : 32 ≤ w) (hv : 32 ≤ v) {r : BitVec w} {r' : BitVec v}
    (hr : SameWord r r') {k : RoundKeys w} {k' : RoundKeys v} (hk : SameBoxKeys k k') {j : ℕ}
    (hj : j < 8) : (boxIndex r k j).toNat = (boxIndex r' k' j).toNat := by
  apply Nat.eq_of_testBit_eq
  intro u
  change (boxIndex r k j).getLsbD u = (boxIndex r' k' j).getLsbD u
  rcases Nat.lt_or_ge u 6 with hu | hu
  · rw [boxIndex_bit hw hr.left k hj hu, boxIndex_bit hv hr.right k' hj hu, hr.bits, hk j hj u hu]
  · rw [boxIndex_fits hw r k j u hu, boxIndex_fits hv r' k' j u hu]

/-- The entries of the S-boxes are the same words at every width. -/
theorem ps_width (hw : 32 ≤ w) (hv : 32 ≤ v) (j : ℕ) {x : BitVec w} {y : BitVec v}
    (h : x.toNat = y.toNat) : SameWord (ps j x) (ps j y) := by
  unfold ps
  rw [h]
  exact sameWord_ofNat hw hv (getD_getD_lt (by decide) psboxes_lt j y.toNat)

/-- **Rounds.**  A round mixes the same bits into the other half. -/
theorem roundValue_width (hw : 32 ≤ w) (hv : 32 ≤ v) {r : BitVec w} {r' : BitVec v}
    (hr : SameWord r r') {k : RoundKeys w} {k' : RoundKeys v} (hk : SameBoxKeys k k') :
    SameWord (roundValue r k) (roundValue r' k') := by
  have hbox {j : ℕ} (hj : j < 8) : SameWord (ps j (boxIndex r k j)) (ps j (boxIndex r' k' j)) :=
    ps_width hw hv j (boxIndex_width hw hv hr hk hj)
  rw [roundValue_eq, roundValue_eq]
  exact (((((((hbox (by decide)).xor (hbox (by decide))).xor (hbox (by decide))).xor
    (hbox (by decide))).xor (hbox (by decide))).xor (hbox (by decide))).xor
      (hbox (by decide))).xor (hbox (by decide))

/-- Lists that are both related to a third one, element by element. -/
theorem forall₂_common {α β γ : Type*} {R : α → γ → Prop} {S : β → γ → Prop} {xs : List α}
    {ys : List β} {zs : List γ} (hxs : List.Forall₂ R xs zs) (hys : List.Forall₂ S ys zs) :
    List.Forall₂ (fun x y => ∃ z, R x z ∧ S y z) xs ys := by
  induction hxs generalizing ys with
  | nil =>
    cases hys
    exact .nil
  | cons hx _ ih =>
    obtain _ | ⟨hy, hys⟩ := hys
    exact .cons ⟨_, hx, hy⟩ (ih hys)

/-- **Subkeys.**  The schedules of two widths mix in the same bits: those of the bit-by-bit
    schedule. -/
theorem desSetkey_width (hw : 32 ≤ w) (hv : 32 ≤ v) (key : ℕ → UInt8) :
    List.Forall₂ SameBoxKeys (desSetkey w key) (desSetkey v key) := by
  have hshifts : ∀ n ∈ nshifts, n ≤ 28 := by decide
  have hrows {u : ℕ} (hu : 32 ≤ u) : List.Forall₂ SameKey (desSetkey u key)
      (StandardDes.desKeySetup key .encrypt) := by
    obtain ⟨hC, hD⟩ := lifted_permutedChoice1 hu key
    exact keyLoop_rows hu hshifts hC hD
  refine (forall₂_common (hrows hw) (hrows hv)).imp ?_
  rintro k k' ⟨row, hk, hk'⟩ j hj u hu
  rw [hk j hj u hu, hk' j hj u hu]

/-- **One block.**  The cipher stores the same bytes in every width. -/
theorem desBytes_width (hw : 32 ≤ w) (hv : 32 ≤ v) (key s : ℕ → UInt8) (flag : Int32) :
    desBytes (desSetkey w key) s flag = desBytes (desSetkey v key) s flag := by
  have horder : List.Forall₂ SameBoxKeys (roundOrder flag (desSetkey w key))
      (roundOrder flag (desSetkey v key)) := by
    unfold roundOrder
    -- the final transpose reads the halves below bit 32 only, where they are the same
    split
    · exact desSetkey_width hw hv key
    · exact List.rel_reverse (desSetkey_width hw hv key)
  have hstart : SameWord (initialTranspose s : BitVec w × BitVec w).1
        (initialTranspose s : BitVec v × BitVec v).1 ∧
      SameWord (initialTranspose s : BitVec w × BitVec w).2
        (initialTranspose s : BitVec v × BitVec v).2 := by
    have hfits := initialTranspose_fits hw s
    have hfits' := initialTranspose_fits hv s
    refine ⟨⟨hfits.1, hfits'.1, fun k => ?_⟩, ⟨hfits.2, hfits'.2, fun k => ?_⟩⟩
    · rw [(initialTranspose_bit hw s k).1, (initialTranspose_bit hv s k).1]
    · rw [(initialTranspose_bit hw s k).2, (initialTranspose_bit hv s k).2]
  -- `SameWord` is kept by one round, hence by the network
  have hround (l : BitVec w) (l' : BitVec v) (r : BitVec w) (r' : BitVec v) (k : RoundKeys w)
      (k' : RoundKeys v) (hl : SameWord l l') (hr : SameWord r r') (hk : SameBoxKeys k k') :
      SameWord (l ^^^ roundValue r k) (l' ^^^ roundValue r' k') :=
    hl.xor (roundValue_width hw hv hr hk)
  obtain ⟨hl, hr⟩ := Feistel.network_rel hround horder hstart
  rw [desBytes_eq, desBytes_eq]
  apply List.ext_getElem ((finalTranspose_length _).trans (finalTranspose_length _).symm)
  intro i hi _
  rw [finalTranspose_length] at hi
  rw [← List.getD_eq_getElem _ 0, ← List.getD_eq_getElem _ 0]
  apply UInt8.toBitVec_inj.1
  apply BitVec.eq_of_getLsbD_eq
  intro m hm
  rw [finalTranspose_bit hw _ _ hi hm, finalTranspose_bit hv _ _ hi hm]
  split
  · exact hr.bits _
  · exact hl.bits _

/-- **The width does not matter.**  With `unsigned long` of `64` bits, `des_setkey` and `des_crypt`
    do to every block what they do to it with `32`. -/
theorem desCrypt_width (key : ℕ → UInt8) (b : Block UInt8) (block : ℕ) (flag : Int32) :
    desCrypt (desSetkey 64 key) b block flag = desCrypt (desSetkey 32 key) b block flag := by
  have hbytes (s : ℕ → UInt8) :
      desBytes (desSetkey 64 key) s flag = desBytes (desSetkey 32 key) s flag :=
    desBytes_width (by decide) (by decide) key s flag
  simp only [desCrypt, hbytes]

end LeoNet
