import LeoNet.DesWidth

namespace LeoNet

open Memory Bits

/-!
# Keys of DES — what the schedule does with the bits of a key

`des_setkey` copies bits, so each bit of a subkey is a bit of the key.  Which one is computed here
from the tables of the source.

* `desSetkey_bit` — the bit of the key that each bit of each subkey is;
* `desSetkey_eq_iff` — the schedule depends on the seven high bits of each byte, and on all of them;
* `desSetparity_schedule` — what `des_setparity` does to it;
* `ecbCrypt_complement` — inverting the key and the buffer inverts what `ecb_crypt` stores;
* `weak_keys` — the keys whose subkeys are all the same, for which the cipher undoes itself.
-/

variable {w : ℕ}

/-! ### Where a bit of a subkey comes from -/

/-- The bit that the rotation by `n` moves to place `k`. -/
def turn (n k : ℕ) : ℕ := if k < n then k + 28 - n else k - n

/-- The bit of `c` or `d`, as PC-1 leaves them, that is bit `k` of it in round `i`. -/
def origin : List ℕ → ℕ → ℕ → ℕ
  | [], _, k => k
  | n :: _, 0, k => turn n k
  | n :: ns, i + 1, k => turn n (origin ns i k)

/-- The bit of the key, from the left, that PC-1 copies to the place `q` of its table. -/
def pc1Source (q : ℕ) : ℕ := 8 * (pc1.idxOf q / 7) + pc1.idxOf q % 7

/-- The bit of the key, from the left, that is mixed into bit `u` of the index of `Psboxes[j]` in
    round `i`. -/
def keySource (i j u : ℕ) : ℕ :=
  pc1Source
    (if j < 4 then origin nshifts i (pc2C.getD (6 * j + 5 - u) 0) + 28
    else origin nshifts i (pc2D.getD (6 * j + 5 - u - 24) 0))

/-- A bit of a half comes from the same half. -/
theorem origin_lt {ns : List ℕ} (hns : ∀ n ∈ ns, n ≤ 28) {i k : ℕ} (hk : k < 28) :
    origin ns i k < 28 := by
  have hturn {n k : ℕ} (hn : n ≤ 28) (hk : k < 28) : turn n k < 28 := by
    unfold turn
    split <;> omega
  induction ns generalizing i with
  | nil => exact hk
  | cons n ns ih =>
    have hn := hns n List.mem_cons_self
    cases i with
    | zero => exact hturn hn hk
    | succ i => exact hturn hn (ih fun m hm => hns m (List.mem_cons_of_mem n hm))

/-- One round key for each shift. -/
theorem keyLoop_length (ns : List ℕ) (c d : BitVec w) : (keyLoop ns c d).length = ns.length := by
  induction ns generalizing c d with
  | nil => rfl
  | cons n ns ih => rw [keyLoop, List.length_cons, List.length_cons, ih]

/-- A bit of a subkey, as a bit of the halves that the loop starts with. -/
theorem keyLoop_bit (hw : 32 ≤ w) {ns : List ℕ} (hns : ∀ n ∈ ns, n ≤ 28) {c d : BitVec w}
    (hc : Fits 28 c) (hd : Fits 28 d) {i j u : ℕ} (hi : i < ns.length) (hj : j < 8) (hu : u < 6) :
    boxKey ((keyLoop ns c d).getD i (0, 0)) j u =
      if j < 4 then c.getLsbD (origin ns i (pc2C.getD (6 * j + 5 - u) 0))
      else d.getLsbD (origin ns i (pc2D.getD (6 * j + 5 - u - 24) 0)) := by
  have htabC : ∀ J < 24, pc2C.getD J 0 < 28 := by decide
  have htabD : ∀ J < 24, pc2D.getD J 0 < 28 := by decide
  induction ns generalizing c d i with
  | nil => exact absurd hi (Nat.not_lt_zero i)
  | cons n ns ih =>
    have hn := hns n List.mem_cons_self
    have hns' : ∀ m ∈ ns, m ≤ 28 := fun m hm => hns m (List.mem_cons_of_mem n hm)
    cases i with
    | zero =>
      rw [keyLoop, List.getD_cons_zero, boxKey_roundKeys hw _ hj hu,
          permutedChoice2_bit hw _ _ hj hu]
      split
      · exact rotate28_bit hw hc hn (htabC _ (by omega))
      · exact rotate28_bit hw hd hn (htabD _ (by omega))
    | succ i =>
      rw [keyLoop, List.getD_cons_succ, ih hns' (rotate28_fits hw c n) (rotate28_fits hw d n)
        (Nat.lt_of_succ_lt_succ hi)]
      split
      · exact rotate28_bit hw hc hn (origin_lt hns' (htabC _ (by omega)))
      · exact rotate28_bit hw hd hn (origin_lt hns' (htabD _ (by omega)))

/-- **PC-1**, through its own table. -/
theorem permutedChoice1_bit (hw : 32 ≤ w) (key : ℕ → UInt8) {q : ℕ} (hq : q < 56) :
    slot (permutedChoice1 key : BitVec w × BitVec w) q = StandardDes.bitAt key (pc1Source q) := by
  have htables : ∀ q < 56, pc1Source q =
      if q ≥ 28 then StandardDes.keyPermC.getD (55 - q) 0
      else StandardDes.keyPermD.getD (27 - q) 0 := by decide +kernel
  rw [permutedChoice1_slot hw key hq, htables q hq]

/-- **Subkeys**, bit by bit. -/
theorem desSetkey_bit (hw : 32 ≤ w) (key : ℕ → UInt8) {i j u : ℕ} (hi : i < 16) (hj : j < 8)
    (hu : u < 6) :
    boxKey ((desSetkey w key).getD i (0, 0)) j u = StandardDes.bitAt key (keySource i j u) := by
  have hshifts : ∀ n ∈ nshifts, n ≤ 28 := by decide
  have htabC : ∀ J < 24, pc2C.getD J 0 < 28 := by decide
  have htabD : ∀ J < 24, pc2D.getD J 0 < 28 := by decide
  obtain ⟨hc, hd⟩ := permutedChoice1_fits (w := w) key
  rw [desSetkey, keyLoop_bit hw hshifts hc hd hi hj hu, keySource]
  split
  · have hlt := origin_lt hshifts (i := i) (htabC (6 * j + 5 - u) (by omega))
    rw [← permutedChoice1_bit hw key (by omega), slot, if_pos (by omega), Nat.add_sub_cancel]
  · have hlt := origin_lt hshifts (i := i) (htabD (6 * j + 5 - u - 24) (by omega))
    rw [← permutedChoice1_bit hw key (by omega), slot, if_neg (by omega)]

/-! ### What the schedule depends on -/

/-- The keys agree on the seven high bits of each byte. -/
def SameHighBits (key key' : ℕ → UInt8) : Prop := ∀ i < 8, key i >>> 1 = key' i >>> 1

instance (key key' : ℕ → UInt8) : Decidable (SameHighBits key key') :=
  inferInstanceAs (Decidable (∀ i < 8, _))

/-- The high bits are those that do not stand last in their byte. -/
theorem sameHighBits_iff {key key' : ℕ → UInt8} :
    SameHighBits key key' ↔
      ∀ b < 64, b % 8 < 7 → StandardDes.bitAt key b = StandardDes.bitAt key' b := by
  have hbit (x : UInt8) (m : ℕ) : (x >>> 1).toBitVec.getLsbD m = x.toBitVec.getLsbD (m + 1) := by
    rw [UInt8.toBitVec_shiftRight]
    show (x.toBitVec >>> 1).getLsbD m = _
    rw [BitVec.getLsbD_ushiftRight, Nat.add_comm]
  constructor
  · intro h b hb hlow
    have hm : 7 - b % 8 = 6 - b % 8 + 1 := by omega
    rw [StandardDes.bitAt, StandardDes.bitAt, hm, ← hbit, ← hbit, h (b / 8) (by omega)]
  · intro h i hi
    apply UInt8.toBitVec_inj.1
    apply BitVec.eq_of_getLsbD_eq
    intro m hm
    rw [hbit, hbit]
    rcases Nat.lt_or_ge m 7 with hm7 | hm7
    · have hdiv : (8 * i + (6 - m)) / 8 = i := by omega
      have hmod : 7 - (8 * i + (6 - m)) % 8 = m + 1 := by omega
      have hkey := h (8 * i + (6 - m)) (by omega) (by omega)
      rwa [StandardDes.bitAt, StandardDes.bitAt, hdiv, hmod] at hkey
    · rw [BitVec.getLsbD_of_ge _ _ (by omega), BitVec.getLsbD_of_ge _ _ (by omega)]

/-- PC-1 leaves the last bit of each byte out. -/
theorem pc1Source_high : ∀ q < 56, pc1Source q < 64 ∧ pc1Source q % 8 < 7 := by decide +kernel

/-- The first two rounds use every bit that PC-1 copies. -/
theorem keySource_surjective :
    ∀ b < 64, b % 8 < 7 → ∃ i < 2, ∃ j < 8, ∃ u < 6, keySource i j u = b := by decide +kernel

/-- The first permuted choice reads only high bits of the key. -/
theorem permutedChoice1_congr (hw : 32 ≤ w) {key key' : ℕ → UInt8} (h : SameHighBits key key') :
    (permutedChoice1 key : BitVec w × BitVec w) = permutedChoice1 key' := by
  obtain ⟨hc, hd⟩ := permutedChoice1_fits (w := w) key
  obtain ⟨hc', hd'⟩ := permutedChoice1_fits (w := w) key'
  have hslot {q : ℕ} (hq : q < 56) : slot (permutedChoice1 key : BitVec w × BitVec w) q =
      slot (permutedChoice1 key' : BitVec w × BitVec w) q := by
    obtain ⟨hlt, hlow⟩ := pc1Source_high q hq
    rw [permutedChoice1_bit hw key hq, permutedChoice1_bit hw key' hq,
        sameHighBits_iff.1 h _ hlt hlow]
  ext1
  · apply eq_of_bits hc hc'
    intro k hk
    have hbit := hslot (q := k + 28) (by omega)
    have hge : k + 28 ≥ 28 := by omega
    rwa [slot, slot, if_pos hge, if_pos hge, Nat.add_sub_cancel] at hbit
  · apply eq_of_bits hd hd'
    intro k hk
    have hbit := hslot (q := k) (by omega)
    have hlt : ¬k ≥ 28 := by omega
    rwa [slot, slot, if_neg hlt, if_neg hlt] at hbit

/-- So does the key schedule. -/
theorem desSetkey_congr (hw : 32 ≤ w) {key key' : ℕ → UInt8} (h : SameHighBits key key') :
    desSetkey w key = desSetkey w key' := by
  rw [desSetkey, desSetkey, permutedChoice1_congr hw h]

/-- The round keys show all high bits of the key. -/
theorem sameHighBits_of_eq (hw : 32 ≤ w) {key key' : ℕ → UInt8}
    (h : desSetkey w key = desSetkey w key') : SameHighBits key key' := by
  rw [sameHighBits_iff]
  intro b hb hlow
  -- each bit that is not the last of its byte can be read off a subkey
  obtain ⟨i, hi, j, hj, u, hu, rfl⟩ := keySource_surjective b hb hlow
  rw [← desSetkey_bit hw key (by omega) hj hu, ← desSetkey_bit hw key' (by omega) hj hu, h]

/-- **What a key is.**  Two keys have the same schedule exactly when they agree on the seven high
    bits of each byte: the lowest ones do not matter, and each of the others does. -/
theorem desSetkey_eq_iff (hw : 32 ≤ w) (key key' : ℕ → UInt8) :
    desSetkey w key = desSetkey w key' ↔ SameHighBits key key' :=
  ⟨sameHighBits_of_eq hw, desSetkey_congr hw⟩

/-- Two keys that differ in parity bits alone. -/
theorem desSetkey_eq_iff_two :
    desSetkey 32 (fun i => .ofNat (2 * i)) = desSetkey 32 (fun i => .ofNat (2 * i + 1)) ↔
      SameHighBits (fun i => .ofNat (2 * i)) fun i => .ofNat (2 * i + 1) :=
  desSetkey_eq_iff (by decide) _ _

/-! ### `des_setparity` -/

/-- A pass of the loop of `des_setparity`: the byte at `key`. -/
def setparityByte (key : UInt8) : UInt8 :=
  let key := key &&& 0x7f
  let c := key
  let c := c ^^^ (c <<< 4)
  let c := c ^^^ (c <<< 2)
  let c := c ^^^ (c <<< 1)
  key ^^^ (~~~c &&& 0x80)

/-- `des_setparity(key)`: the bytes at `key`. -/
def desSetparity (key : ℕ → UInt8) : ℕ → UInt8 := fun i =>
  if i < 8 then setparityByte (key i) else key i

/-- The number of bits set is odd. -/
def OddParity (x : UInt8) : Prop :=
  (List.range 8).countP (fun m => x.toBitVec.getLsbD m) % 2 = 1

instance : DecidablePred OddParity := fun _ => inferInstanceAs (Decidable (_ = 1))

/-- The parity goes to the highest bit, and the others stay. -/
theorem setparityByte_spec (x : UInt8) : OddParity (setparityByte x) ∧
    setparityByte x &&& 0x7f = x &&& 0x7f ∧ (setparityByte x >>> 1 = x >>> 1 ↔ OddParity x) := by
  have hall : ∀ v : BitVec 8, OddParity (setparityByte ⟨v⟩) ∧
      setparityByte ⟨v⟩ &&& 0x7f = ⟨v⟩ &&& 0x7f ∧
      (setparityByte ⟨v⟩ >>> 1 = (⟨v⟩ : UInt8) >>> 1 ↔ OddParity ⟨v⟩) := by decide +kernel
  exact hall x.toBitVec

/-- **Parity.**  `des_setparity` gives each byte of a key odd parity and keeps its seven low bits.
    But it stores the parity in the bit that `des_setkey` reads first: the schedule stays the same
    for the keys alone that had odd parity already. -/
theorem desSetparity_schedule (hw : 32 ≤ w) (key : ℕ → UInt8) :
    (∀ i < 8, OddParity (desSetparity key i) ∧ desSetparity key i &&& 0x7f = key i &&& 0x7f) ∧
      (desSetkey w (desSetparity key) = desSetkey w key ↔ ∀ i < 8, OddParity (key i)) := by
  have hbyte {i : ℕ} (hi : i < 8) : desSetparity key i = setparityByte (key i) := if_pos hi
  refine ⟨fun i hi => ?_, ?_⟩
  · obtain ⟨hodd, hlow, -⟩ := setparityByte_spec (key i)
    rw [hbyte hi]
    exact ⟨hodd, hlow⟩
  · have hsame : SameHighBits (desSetparity key) key ↔ ∀ i < 8, OddParity (key i) := by
      refine forall_congr' fun i => imp_congr_right fun hi => ?_
      rw [hbyte hi]
      exact (setparityByte_spec (key i)).2.2
    exact ⟨fun h => hsame.1 (sameHighBits_of_eq hw h), fun h => desSetkey_congr hw (hsame.2 h)⟩

/-- A key of zeroes, whose parity is wrong in every byte. -/
theorem desSetparity_schedule_zero :
    (∀ i < 8, OddParity (desSetparity (fun _ => 0) i) ∧
        desSetparity (fun _ => 0) i &&& 0x7f = 0 &&& 0x7f) ∧
      (desSetkey 32 (desSetparity fun _ => 0) = desSetkey 32 (fun _ => 0) ↔
        ∀ i < 8, OddParity ((fun _ => 0 : ℕ → UInt8) i)) :=
  desSetparity_schedule (by decide) fun _ => 0

/-! ### Inverted keys -/

section Complement

/-- Halves of a block, each with the other's `32` bits inverted. -/
structure Opposite (x x' : BitVec w) : Prop where
  left : Fits 32 x
  right : Fits 32 x'
  bits : ∀ k < 32, x'.getLsbD k = !x.getLsbD k

/-- A word added to one of two opposite words, and to the other, leaves them opposite. -/
theorem Opposite.mix {x x' v : BitVec w} (h : Opposite x x') (hv : Fits 32 v) :
    Opposite (x ^^^ v) (x' ^^^ v) where
  left := h.left.xor hv
  right := h.right.xor hv
  bits k hk := by rw [BitVec.getLsbD_xor, BitVec.getLsbD_xor, h.bits k hk, Bool.not_xor]

/-- Subkeys that mix in inverted bits. -/
def OppositeKeys (k k' : RoundKeys w) : Prop := ∀ j < 8, ∀ u < 6, boxKey k' j u = !boxKey k j u

/-- The two inversions cancel where the subkey is mixed in. -/
theorem boxIndex_opposite (hw : 32 ≤ w) {r r' : BitVec w} (hr : Opposite r r')
    {k k' : RoundKeys w} (hk : OppositeKeys k k') {j : ℕ} (hj : j < 8) :
    boxIndex r' k' j = boxIndex r k j := by
  apply eq_of_bits (boxIndex_fits hw r' k' j) (boxIndex_fits hw r k j)
  intro u hu
  rw [boxIndex_bit hw hr.right k' hj hu, boxIndex_bit hw hr.left k hj hu,
      hr.bits _ (Nat.mod_lt _ (by decide)), hk j hj u hu, Bool.not_xor_not]

/-- Opposite halves and keys cancel in the input of the S-boxes. -/
theorem roundValue_opposite (hw : 32 ≤ w) {r r' : BitVec w} (hr : Opposite r r')
    {k k' : RoundKeys w} (hk : OppositeKeys k k') : roundValue r' k' = roundValue r k := by
  have hbox {j : ℕ} (hj : j < 8) := boxIndex_opposite hw hr hk hj
  rw [roundValue_eq, roundValue_eq, hbox (by decide : 7 < 8), hbox (by decide : 5 < 8),
      hbox (by decide : 3 < 8), hbox (by decide : 1 < 8), hbox (by decide : 6 < 8),
      hbox (by decide : 4 < 8), hbox (by decide : 2 < 8), hbox (by decide : 0 < 8)]

/-- The bits of the complemented key. -/
theorem bitAt_not (key : ℕ → UInt8) (b : ℕ) :
    StandardDes.bitAt (fun i => ~~~key i) b = !StandardDes.bitAt key b := by
  have hbyte : 7 - b % 8 < 8 := by omega
  rw [StandardDes.bitAt, StandardDes.bitAt, UInt8.toBitVec_not, BitVec.getLsbD_not,
      decide_eq_true hbyte, Bool.true_and]

/-- A complemented key has complemented round keys. -/
theorem desSetkey_opposite (hw : 32 ≤ w) (key : ℕ → UInt8) :
    List.Forall₂ OppositeKeys (desSetkey w key) (desSetkey w fun i => ~~~key i) := by
  have hlen (key : ℕ → UInt8) : (desSetkey w key).length = 16 := keyLoop_length nshifts _ _
  refine List.forall₂_iff_get.2 ⟨(hlen _).trans (hlen _).symm, fun i hi hi' j hj u hu => ?_⟩
  rw [hlen] at hi hi'
  have hbit := desSetkey_bit hw key hi hj hu
  have hbit' := desSetkey_bit hw (fun i => ~~~key i) hi hj hu
  rw [List.getD_eq_getElem _ _ (by rwa [hlen])] at hbit hbit'
  rw [List.get_eq_getElem, List.get_eq_getElem, hbit, hbit', bitAt_not]

/-- A complemented block has complemented halves. -/
theorem initialTranspose_opposite (hw : 32 ≤ w) (s : ℕ → UInt8) :
    Opposite (initialTranspose s : BitVec w × BitVec w).1 (initialTranspose fun i => ~~~s i).1 ∧
      Opposite (initialTranspose s : BitVec w × BitVec w).2
        (initialTranspose fun i => ~~~s i).2 := by
  have hfits := initialTranspose_fits hw s
  have hfits' := initialTranspose_fits hw fun i => ~~~s i
  have hnot (x : UInt8) {m : ℕ} (hm : m < 8) :
      (~~~x).toBitVec.getLsbD m = !x.toBitVec.getLsbD m := by
    rw [UInt8.toBitVec_not, BitVec.getLsbD_not, decide_eq_true hm, Bool.true_and]
  refine ⟨⟨hfits.1, hfits'.1, fun k hk => ?_⟩, ⟨hfits.2, hfits'.2, fun k hk => ?_⟩⟩
  · rw [(initialTranspose_bit hw s k).1, (initialTranspose_bit hw _ k).1, hnot _ (by omega),
        decide_eq_true hk, Bool.true_and, Bool.true_and]
  · rw [(initialTranspose_bit hw s k).2, (initialTranspose_bit hw _ k).2, hnot _ (by omega),
        decide_eq_true hk, Bool.true_and, Bool.true_and]

/-- Complemented halves make a complemented block. -/
theorem finalTranspose_opposite (hw : 32 ≤ w) {lr lr' : BitVec w × BitVec w}
    (hl : Opposite lr.1 lr'.1) (hr : Opposite lr.2 lr'.2) :
    finalTranspose lr' = (finalTranspose lr).map (~~~·) := by
  obtain ⟨l, r⟩ := lr
  obtain ⟨l', r'⟩ := lr'
  apply List.ext_getElem ((finalTranspose_length _).trans
    ((List.length_map _).trans (finalTranspose_length _)).symm)
  intro i hi hi'
  rw [List.getElem_map, ← List.getD_eq_getElem _ 0, ← List.getD_eq_getElem _ 0]
  apply UInt8.toBitVec_inj.1
  apply BitVec.eq_of_getLsbD_eq
  intro m hm
  have hi8 : i < 8 := hi
  have hlt : 8 * (m / 2) + i < 32 := by omega
  rw [UInt8.toBitVec_not, BitVec.getLsbD_not, decide_eq_true hm, Bool.true_and,
      finalTranspose_bit hw l r hi8 hm, finalTranspose_bit hw l' r' hi8 hm]
  split
  · exact hr.bits _ hlt
  · exact hl.bits _ hlt

/-- **Complement**, for one block. -/
theorem desBytes_complement (hw : 32 ≤ w) (key s : ℕ → UInt8) (flag : Int32) :
    desBytes (desSetkey w fun i => ~~~key i) (fun i => ~~~s i) flag =
      (desBytes (desSetkey w key) s flag).map (~~~·) := by
  have horder : List.Forall₂ OppositeKeys (roundOrder flag (desSetkey w key))
      (roundOrder flag (desSetkey w fun i => ~~~key i)) := by
    unfold roundOrder
    split
    · exact desSetkey_opposite hw key
    · exact List.rel_reverse (desSetkey_opposite hw key)
  -- a round mixes the same value into halves that are opposite
  have hround (l l' r r' : BitVec w) (k k' : RoundKeys w) (hl : Opposite l l')
      (hr : Opposite r r') (hk : OppositeKeys k k') :
      Opposite (l ^^^ roundValue r k) (l' ^^^ roundValue r' k') := by
    rw [roundValue_opposite hw hr hk]
    exact hl.mix (roundValue_fits r k)
  obtain ⟨hl, hr⟩ := Feistel.network_rel hround horder (initialTranspose_opposite hw s)
  rw [desBytes_eq, desBytes_eq]
  exact finalTranspose_opposite hw hl hr

/-- The buffer with every bit inverted. -/
def invert (b : Block UInt8) : Block UInt8 := { b with byte := fun a => ~~~b.byte a }

/-- Storing complemented bytes in complemented memory. -/
theorem store_invert (m : ℕ → UInt8) (p : ℕ) (xs : List UInt8) :
    store (fun a => ~~~m a) p (xs.map (~~~·)) = fun a => ~~~store m p xs a := by
  funext a
  unfold store
  split
  · rw [List.getElem?_map]
    cases xs[a - p]? <;> rfl
  · rfl

/-- What the rounds do to complemented bytes, `des_crypt` does to a complemented buffer. -/
theorem desCrypt_invert {keys keys' : List (RoundKeys w)} {flag : Int32}
    (hkeys : ∀ s, desBytes keys' (fun i => ~~~s i) flag = (desBytes keys s flag).map (~~~·))
    (b : Block UInt8) (buf : ℕ) :
    desCrypt keys' (invert b) buf flag = (desCrypt keys b buf flag).map invert := by
  by_cases h : buf + 8 ≤ b.size
  · have hsize : buf + 8 ≤ (invert b).size := h
    rw [desCrypt_eq_some hsize, desCrypt_eq_some h, Option.map_some]
    unfold invert
    simp only
    rw [hkeys, store_invert]
  · -- neither reads a block
    have hnone (b : Block UInt8) (hb : ¬buf + 8 ≤ b.size) (keys : List (RoundKeys w)) :
        desCrypt keys b buf flag = none := by
      rw [desCrypt, Option.bind_eq_none_iff]
      intro s hs
      exact absurd (Block.read_le hs) hb
    have hsize : ¬buf + 8 ≤ (invert b).size := h
    rw [hnone _ hsize, hnone _ h, Option.map_none]

/-- The loop over the blocks does as well. -/
theorem ecbLoop_invert {keys keys' : List (RoundKeys w)} {flag : Int32}
    (hkeys : ∀ s, desBytes keys' (fun i => ~~~s i) flag = (desBytes keys s flag).map (~~~·))
    (n buf : ℕ) (b : Block UInt8) :
    ecbLoop keys' flag n buf (invert b) = (ecbLoop keys flag n buf b).map invert := by
  induction n generalizing buf b with
  | zero => rfl
  | succ n ih =>
    rw [ecbLoop, ecbLoop, desCrypt_invert hkeys, Option.map_bind, Option.bind_map]
    congr 1
    funext b'
    exact ih (buf + 8) b'

/-- **Complement.**  In either direction, for every key and every buffer, what `ecb_crypt` makes of
    the inverted buffer with the inverted key is the inverse of what it makes of the buffer with the
    key: a search through all keys needs to try one of each such pair. -/
theorem ecbCrypt_complement (hw : 32 ≤ w) (key : ℕ → UInt8) (b : Block UInt8) (buf : ℕ)
    (len mode : UInt32) :
    ecbCrypt w (fun i => ~~~key i) (invert b) buf len mode =
      (ecbCrypt w key b buf len mode).map fun r => (r.1, invert r.2) := by
  rw [ecbCrypt, ecbCrypt, ecbLoop_invert (fun s => desBytes_complement hw key s _), Option.map_map,
      Option.map_map]
  rfl

/-- Two blocks, the second of them cut off. -/
theorem ecbCrypt_complement_two :
    ecbCrypt 32 (fun i => ~~~.ofNat (i + 1)) (invert ⟨17, fun a => .ofNat a⟩) 1 9 DES_ENCRYPT =
      (ecbCrypt 32 (fun i => .ofNat (i + 1)) ⟨17, fun a => .ofNat a⟩ 1 9 DES_ENCRYPT).map
        fun r => (r.1, invert r.2) :=
  ecbCrypt_complement (by decide) _ _ 1 9 DES_ENCRYPT

end Complement

/-! ### Weak keys -/

section Weak

/-- Every round has the same subkeys. -/
def Weak (keys : List (RoundKeys w)) : Prop := ∀ k ∈ keys, ∀ k' ∈ keys, k = k'

/-- The key whose bits in `c` are all `a` and those in `d` all `a'`, with low bits `0`. -/
def weakKey (a a' : Bool) (i : ℕ) : UInt8 :=
  if i < 4 then (if a then 0xe0 else 0) ||| (if a' then 0x1e else 0)
  else (if a then 0xf0 else 0) ||| (if a' then 0x0e else 0)

/-- The bits of a weak key, by half. -/
theorem weakKey_bit : ∀ q < 56, ∀ a a' : Bool,
    StandardDes.bitAt (weakKey a a') (pc1Source q) = if q ≥ 28 then a else a' := by
  decide +kernel

/-- Neighbouring bits of a half are, in two rounds, the same bit of the subkeys. -/
theorem origin_neighbours : ∀ q < 27,
    (∃ i < 16, ∃ i' < 16, ∃ J < 24, origin nshifts i (pc2C.getD J 0) = q ∧
      origin nshifts i' (pc2C.getD J 0) = q + 1) ∧
    ∃ i < 16, ∃ i' < 16, ∃ J < 24, origin nshifts i (pc2D.getD J 0) = q ∧
      origin nshifts i' (pc2D.getD J 0) = q + 1 := by
  decide +kernel

/-- With the same subkeys in every round, so are all bits of a half. -/
theorem constant_of_weak (hw : 32 ≤ w) {c d : BitVec w} (hc : Fits 28 c) (hd : Fits 28 d)
    (h : Weak (keyLoop nshifts c d)) {k : ℕ} (hk : k < 28) :
    c.getLsbD k = c.getLsbD 0 ∧ d.getLsbD k = d.getLsbD 0 := by
  have hshifts : ∀ n ∈ nshifts, n ≤ 28 := by decide
  have hsame {i i' j u : ℕ} (hi : i < 16) (hi' : i' < 16) :
      boxKey ((keyLoop nshifts c d).getD i (0, 0)) j u =
        boxKey ((keyLoop nshifts c d).getD i' (0, 0)) j u := by
    have hlen : (keyLoop nshifts c d).length = 16 := keyLoop_length nshifts c d
    rw [List.getD_eq_getElem _ _ (by omega), List.getD_eq_getElem _ _ (by omega),
        h _ (List.getElem_mem _) _ (List.getElem_mem _)]
  induction k with
  | zero => exact ⟨rfl, rfl⟩
  | succ k ih =>
    obtain ⟨⟨i, hi, i', hi', J, hJ, hq, hq'⟩, ⟨e, he, e', he', L, hL, hp, hp'⟩⟩ :=
      origin_neighbours k (by omega)
    obtain ⟨ihc, ihd⟩ := ih (by omega)
    constructor
    · -- bit `u` of the box `j < 4` is the entry `J` of `pc2_c`
      have hplace : 6 * (J / 6) + 5 - (5 - J % 6) = J := by omega
      have hhalf : J / 6 < 4 := by omega
      have hbit := hsame (j := J / 6) (u := 5 - J % 6) hi hi'
      rw [keyLoop_bit hw hshifts hc hd hi (by omega) (by omega),
          keyLoop_bit hw hshifts hc hd hi' (by omega) (by omega), if_pos hhalf, if_pos hhalf, hplace,
          hq, hq'] at hbit
      rw [← hbit, ihc]
    · have hplace : 6 * (L / 6 + 4) + 5 - (5 - L % 6) - 24 = L := by omega
      have hhalf : ¬L / 6 + 4 < 4 := by omega
      have hbit := hsame (j := L / 6 + 4) (u := 5 - L % 6) he he'
      rw [keyLoop_bit hw hshifts hc hd he (by omega) (by omega),
          keyLoop_bit hw hshifts hc hd he' (by omega) (by omega), if_neg hhalf, if_neg hhalf, hplace,
          hp, hp'] at hbit
      rw [← hbit, ihd]

/-- A half of equal bits is left alone by the rotations. -/
theorem rotate28_of_constant (hw : 32 ≤ w) {c : BitVec w} (hc : Fits 28 c) {a : Bool}
    (hsame : ∀ k < 28, c.getLsbD k = a) {n : ℕ} (hn : n ≤ 28) : rotate28 c n = c := by
  apply eq_of_bits (rotate28_fits hw c n) hc
  intro k hk
  rw [rotate28_bit hw hc hn hk, hsame k hk]
  refine hsame _ ?_
  split <;> omega

/-- Halves that no rotation changes give the same key in every round. -/
theorem keyLoop_of_constant {ns : List ℕ} (hns : ∀ n ∈ ns, n ≤ 28) {c d : BitVec w}
    (hc : ∀ n ≤ 28, rotate28 c n = c) (hd : ∀ n ≤ 28, rotate28 d n = d) :
    keyLoop ns c d = List.replicate ns.length (roundKeys (permutedChoice2 c d)) := by
  induction ns with
  | nil => rfl
  | cons n ns ih =>
    have hn := hns n List.mem_cons_self
    rw [keyLoop, hc n hn, hd n hn, ih fun m hm => hns m (List.mem_cons_of_mem n hm),
        List.length_cons, List.replicate_succ]

/-- The bits of the halves, after PC-1. -/
theorem permutedChoice1_halves (hw : 32 ≤ w) (key : ℕ → UInt8) {k : ℕ} (hk : k < 28) :
    (permutedChoice1 key : BitVec w × BitVec w).1.getLsbD k =
        StandardDes.bitAt key (pc1Source (k + 28)) ∧
      (permutedChoice1 key : BitVec w × BitVec w).2.getLsbD k =
        StandardDes.bitAt key (pc1Source k) := by
  have hc := permutedChoice1_bit hw key (q := k + 28) (by omega)
  have hd := permutedChoice1_bit hw key (q := k) (by omega)
  rw [slot, if_pos (by omega), Nat.add_sub_cancel] at hc
  rw [slot, if_neg (by omega)] at hd
  exact ⟨hc, hd⟩

/-- A weak key has such halves. -/
theorem desSetkey_weakKey (hw : 32 ≤ w) (a a' : Bool) :
    ∃ k, desSetkey w (weakKey a a') = List.replicate nshifts.length k := by
  have hshifts : ∀ n ∈ nshifts, n ≤ 28 := by decide
  obtain ⟨hc, hd⟩ := permutedChoice1_fits (w := w) (weakKey a a')
  refine ⟨_, keyLoop_of_constant hshifts (fun n hn => ?_) (fun n hn => ?_)⟩
  · refine rotate28_of_constant hw hc (a := a) (fun k hk => ?_) hn
    rw [(permutedChoice1_halves hw _ hk).1, weakKey_bit _ (by omega), if_pos (by omega)]
  · refine rotate28_of_constant hw hd (a := a') (fun k hk => ?_) hn
    rw [(permutedChoice1_halves hw _ hk).2, weakKey_bit _ (by omega), if_neg (by omega)]

/-- The keys whose rounds are all the same, up to the bits that do not matter: there are four. -/
theorem weak_iff (hw : 32 ≤ w) (key : ℕ → UInt8) :
    Weak (desSetkey w key) ↔ ∃ a a', SameHighBits key (weakKey a a') := by
  have hcover : ∀ b < 64, b % 8 < 7 → ∃ q < 56, pc1Source q = b := by decide +kernel
  obtain ⟨hc, hd⟩ := permutedChoice1_fits (w := w) key
  constructor
  · intro h
    refine ⟨StandardDes.bitAt key (pc1Source 28), StandardDes.bitAt key (pc1Source 0),
      sameHighBits_iff.2 fun b hb hlow => ?_⟩
    obtain ⟨q, hq, rfl⟩ := hcover b hb hlow
    rw [weakKey_bit q hq]
    split
    · next hge =>
      have hk : q - 28 < 28 := by omega
      have hsplit : q - 28 + 28 = q := by omega
      have hbit := (constant_of_weak hw hc hd h hk).1
      rwa [(permutedChoice1_halves hw key hk).1, (permutedChoice1_halves hw key (by decide)).1,
          hsplit] at hbit
    · next hlt =>
      have hk : q < 28 := by omega
      have hbit := (constant_of_weak hw hc hd h hk).2
      rwa [(permutedChoice1_halves hw key hk).2,
          (permutedChoice1_halves hw key (by decide)).2] at hbit
  · rintro ⟨a, a', h⟩ k hk k' hk'
    obtain ⟨k₀, hkeys⟩ := desSetkey_weakKey hw a a'
    rw [desSetkey_congr hw h, hkeys] at hk hk'
    rw [List.eq_of_mem_replicate hk, List.eq_of_mem_replicate hk']

/-- With the same subkeys in every round, the order of the rounds does not matter. -/
theorem ecbLoop_of_weak {keys : List (RoundKeys w)} (h : Weak keys) (flag flag' : Int32) (n buf : ℕ)
    (b : Block UInt8) : ecbLoop keys flag n buf b = ecbLoop keys flag' n buf b := by
  have hreverse : keys.reverse = keys := by
    apply List.ext_getElem List.length_reverse
    intro i hi hi'
    exact h _ (List.mem_reverse.1 (List.getElem_mem hi)) _ (List.getElem_mem hi')
  have hcrypt (b : Block UInt8) (buf : ℕ) :
      desCrypt keys b buf flag = desCrypt keys b buf flag' := by
    simp only [desCrypt, desBytes, hreverse, ite_self]
  induction n generalizing buf b with
  | zero => rfl
  | succ n ih =>
    rw [ecbLoop, ecbLoop, hcrypt]
    congr 1
    funext b'
    exact ih (buf + 8) b'

/-- **Weak keys.**  Up to the bits that do not matter, there are four keys that have the same
    subkeys in every round.  With these, `ecb_crypt` in one direction is `ecb_crypt` in the other: a
    buffer encrypted twice is the buffer. -/
theorem weak_keys (hw : 32 ≤ w) (key : ℕ → UInt8) :
    (Weak (desSetkey w key) ↔ ∃ a a', SameHighBits key (weakKey a a')) ∧
      (Weak (desSetkey w key) → ∀ (len mode : UInt32) (buf : ℕ) (b : Block UInt8),
        buf + (roundUp len).toNat ≤ b.size →
          ∃ b', ecbCrypt w key b buf len mode = some (desError mode, b') ∧
            ecbCrypt w key b' buf len mode = some (desError mode, b)) := by
  refine ⟨weak_iff hw key, fun hweak len mode buf b hbuf => ?_⟩
  set flag := (mode &&& DES_DIRMASK).toInt32 with hflag
  set n := (roundUp len).toNat / 8 with hn
  have hin : buf + 8 * n ≤ b.size := by
    rw [hn, roundUp_toNat] at *
    omega
  obtain ⟨b', hloop, -, -, -⟩ := ecbLoop_spec (desSetkey w key) flag n buf hin
  obtain ⟨flag', hflag'⟩ := exists_other_flag flag
  refine ⟨b', ?_, ?_⟩
  · rw [ecbCrypt, ← hflag, ← hn, hloop, Option.map_some]
  · rw [ecbCrypt, ← hflag, ← hn, ecbLoop_of_weak hweak flag flag',
        ecbLoop_inverse hw _ hflag' hin hloop, Option.map_some]

/-- A key of zeros, with odd parity in its low bits. -/
theorem weak_keys_one :
    Weak (desSetkey 32 fun _ => 1) ∧ ∀ (len mode : UInt32) (buf : ℕ) (b : Block UInt8),
      buf + (roundUp len).toNat ≤ b.size →
        ∃ b', ecbCrypt 32 (fun _ => 1) b buf len mode = some (desError mode, b') ∧
          ecbCrypt 32 (fun _ => 1) b' buf len mode = some (desError mode, b) :=
  have hweak := (weak_keys (by decide) fun _ => 1).1.2 ⟨false, false, by decide⟩
  ⟨hweak, (weak_keys (by decide) fun _ => 1).2 hweak⟩

end Weak

end LeoNet
