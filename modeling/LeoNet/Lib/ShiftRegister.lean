import Mathlib.Data.List.Basic
import Mathlib.Data.List.GetD
import Mathlib.Data.List.Induction

namespace ShiftRegister

/-!
# Shift registers with a feedback table

A register of `w` bits takes in a symbol of `k` bits at its low end; the symbol that leaves at the
high end picks a word from a table, which is mixed into what stays.  Cyclic redundancy checks are
runs of such registers.

* `foldl_step_injective` — where the table's words differ in their low symbols, different
  registers stay different, whatever is taken in;
* `foldl_step_ne_of_burst` — and inputs that differ within one register's length only give
  different registers;
* `divide_eq_foldl_step` — division bit by bit is the run over the table of its own words;
* `foldl_step_zipWith` — a run over a linear table is linear, and a `linearTable` is;
* `foldl_step_eq_packed` — what the register holds before anything but zeros has left it;
* `foldl_step_eq_iff` — when the runs over two tables agree all along the input.
-/

variable {w k : ℕ}

/-- The symbol that the next shift pushes out. -/
def top (k : ℕ) (r : BitVec w) : BitVec k := r.extractLsb' (w - k) k

/-- The register after a shift that took in `c`. -/
def shift (r : BitVec w) (c : BitVec k) : BitVec w := r <<< k ||| c.setWidth w

/-- One step: a shift, and the table's word for the symbol that left. -/
def step (table : BitVec k → BitVec w) (r : BitVec w) (c : BitVec k) : BitVec w :=
  shift r c ^^^ table (top k r)

/-- The bits of the symbol at the top. -/
theorem getLsbD_top (r : BitVec w) (i : ℕ) :
    (top k r).getLsbD i = (decide (i < k) && r.getLsbD (w - k + i)) :=
  BitVec.getLsbD_extractLsb' _ _ _ _

/-- The bits of a register after a symbol was shifted in. -/
theorem getLsbD_shift (r : BitVec w) (c : BitVec k) {i : ℕ} (hi : i < w) :
    (shift r c).getLsbD i = if i < k then c.getLsbD i else r.getLsbD (i - k) := by
  rw [shift, BitVec.getLsbD_or, BitVec.getLsbD_shiftLeft, BitVec.getLsbD_setWidth,
      decide_eq_true hi]
  by_cases hk : i < k
  · simp [hk]
  · rw [if_neg hk, BitVec.getLsbD_of_ge c i (by omega)]
    simp [hk]

/-- The symbol taken in is the low symbol. -/
theorem setWidth_shift (hk : k ≤ w) (r : BitVec w) (c : BitVec k) :
    (shift r c).setWidth k = c := by
  apply BitVec.eq_of_getLsbD_eq
  intro i hi
  rw [BitVec.getLsbD_setWidth, getLsbD_shift r c (by omega), decide_eq_true hi, if_pos hi,
      Bool.true_and]

/-- Registers that agree on what leaves and on what stays are equal. -/
theorem eq_of_shift_eq (hk : k ≤ w) {r r' : BitVec w} {c c' : BitVec k} (htop : top k r = top k r')
    (hshift : shift r c = shift r' c') : r = r' := by
  apply BitVec.eq_of_getLsbD_eq
  intro i hi
  rcases Nat.lt_or_ge i (w - k) with hlt | hge
  · have hbit := congrArg (BitVec.getLsbD · (i + k)) hshift
    rwa [getLsbD_shift r c (by omega), getLsbD_shift r' c' (by omega), if_neg (by omega),
        if_neg (by omega), Nat.add_sub_cancel] at hbit
  · have hbit := congrArg (BitVec.getLsbD · (i - (w - k))) htop
    rwa [getLsbD_top, getLsbD_top, decide_eq_true (by omega), Bool.true_and, Bool.true_and,
        Nat.add_sub_cancel' hge] at hbit

/-! ### Different registers stay different -/

section Injective

variable {table : BitVec k → BitVec w}

/-- The low symbol after a step tells which symbol left, where the table's low symbols do. -/
theorem step_injective (hk : k ≤ w)
    (htable : Function.Injective fun t => (table t).setWidth k) (c : BitVec k) :
    Function.Injective fun r => step table r c := by
  intro r r' h
  have hstep : shift r c ^^^ table (top k r) = shift r' c ^^^ table (top k r') := h
  have hlow := congrArg (BitVec.setWidth k) hstep
  rw [BitVec.setWidth_xor, BitVec.setWidth_xor, setWidth_shift hk, setWidth_shift hk] at hlow
  have htop : top k r = top k r' := htable ((BitVec.xor_right_inj c).1 hlow)
  rw [htop] at hstep
  exact eq_of_shift_eq hk htop ((BitVec.xor_left_inj _).1 hstep)

/-- **Different registers stay different** over whatever both take in. -/
theorem foldl_step_injective (hk : k ≤ w)
    (htable : Function.Injective fun t => (table t).setWidth k) (cs : List (BitVec k)) :
    Function.Injective fun r => cs.foldl (step table) r := by
  induction cs with
  | nil => exact Function.injective_id
  | cons c cs ih =>
    intro r r' h
    exact step_injective hk htable c (ih h)

/-! ### Bursts -/

/-- Registers that agree from bit `n` on. -/
def AgreeFrom (n : ℕ) (r r' : BitVec w) : Prop := ∀ i, n ≤ i → r.getLsbD i = r'.getLsbD i

/-- Registers that agree at the top have the same symbol there. -/
theorem AgreeFrom.top_eq {n : ℕ} {r r' : BitVec w} (h : AgreeFrom n r r') (hn : n ≤ w - k) :
    top k r = top k r' := by
  apply BitVec.eq_of_getLsbD_eq
  intro i hi
  rw [getLsbD_top, getLsbD_top, h _ (by omega)]

/-- A step moves the bits that may differ up by one symbol. -/
theorem AgreeFrom.step {n : ℕ} {r r' : BitVec w} (h : AgreeFrom n r r') (hn : n + k ≤ w)
    (c c' : BitVec k) : AgreeFrom (n + k) (step table r c) (step table r' c') := by
  intro i hi
  rcases Nat.lt_or_ge i w with hlt | hge
  · rw [ShiftRegister.step, ShiftRegister.step, h.top_eq (by omega), BitVec.getLsbD_xor,
        BitVec.getLsbD_xor, getLsbD_shift r c hlt, getLsbD_shift r' c' hlt, if_neg (by omega),
        if_neg (by omega), h _ (by omega)]
  · rw [BitVec.getLsbD_of_ge _ _ hge, BitVec.getLsbD_of_ge _ _ hge]

/-- While the same symbols leave, a step keeps apart what differs. -/
theorem AgreeFrom.step_eq_iff {n : ℕ} {r r' : BitVec w} (h : AgreeFrom n r r') (hn : n + k ≤ w)
    (c c' : BitVec k) :
    ShiftRegister.step table r c = ShiftRegister.step table r' c' ↔ r = r' ∧ c = c' := by
  constructor
  · intro hstep
    rw [ShiftRegister.step, ShiftRegister.step, h.top_eq (by omega), BitVec.xor_left_inj] at hstep
    have hlow := congrArg (BitVec.setWidth k) hstep
    rw [setWidth_shift (by omega), setWidth_shift (by omega)] at hlow
    exact ⟨eq_of_shift_eq (by omega) (h.top_eq (by omega)) hstep, hlow⟩
  · rintro ⟨rfl, rfl⟩
    rfl

/-- Inputs that fit into the part of the register that agrees are told apart. -/
theorem AgreeFrom.foldl_eq_iff {cs cs' : List (BitVec k)} (hlen : cs.length = cs'.length) {n : ℕ}
    {r r' : BitVec w} (h : AgreeFrom n r r') (hn : n + k * cs.length ≤ w) :
    cs.foldl (ShiftRegister.step table) r = cs'.foldl (ShiftRegister.step table) r' ↔
      r = r' ∧ cs = cs' := by
  induction cs generalizing cs' n r r' with
  | nil =>
    rw [List.length_nil, eq_comm, List.length_eq_zero_iff] at hlen
    simp [hlen]
  | cons c cs ih =>
    obtain _ | ⟨c', cs'⟩ := cs'
    · cases hlen
    · rw [List.length_cons, Nat.mul_succ] at hn
      rw [List.foldl_cons, List.foldl_cons, ih (Nat.succ.inj hlen) (h.step (by omega) c c')
        (by omega), h.step_eq_iff (by omega), List.cons.injEq, and_assoc]

/-- **Bursts.**  Inputs that differ in a stretch of at most one register's length only give
    different registers. -/
theorem foldl_step_ne_of_burst (hk : k ≤ w)
    (htable : Function.Injective fun t => (table t).setWidth k) (r : BitVec w)
    (before after : List (BitVec k)) {cs cs' : List (BitVec k)} (hlen : cs.length = cs'.length)
    (hfit : k * cs.length ≤ w) (hne : cs ≠ cs') :
    (before ++ (cs ++ after)).foldl (step table) r ≠
      (before ++ (cs' ++ after)).foldl (step table) r := by
  rw [List.foldl_append, List.foldl_append, List.foldl_append, List.foldl_append]
  intro h
  have hburst := foldl_step_injective hk htable after h
  have hagree : AgreeFrom 0 (before.foldl (step table) r) (before.foldl (step table) r) :=
    fun _ _ => rfl
  rw [hagree.foldl_eq_iff hlen (by omega)] at hburst
  exact hne hburst.2

end Injective

/-! ### Before anything but zeros has left -/

/-- The last symbols of the input, as many as fit into the register. -/
def packed (cs : List (BitVec k)) : BitVec w := cs.foldl shift 0

/-- Nothing but zeros has left a register of `d` symbols. -/
def Quiet (d : ℕ) (cs : List (BitVec k)) : Prop := ∀ j, d ≤ j → cs.reverse.getD j 0 = 0

/-- Packing one more symbol is shifting it in. -/
theorem packed_concat (cs : List (BitVec k)) (c : BitVec k) :
    (packed (cs ++ [c]) : BitVec w) = shift (packed cs) c := by
  rw [packed, List.foldl_append]
  rfl

/-- The symbols shifted in, the last one lowest, and above them what the register held. -/
theorem getLsbD_foldl_shift (hk : 0 < k) (r : BitVec w) (cs : List (BitVec k)) {i : ℕ}
    (hi : i < w) :
    (cs.foldl shift r).getLsbD i =
      if i < k * cs.length then (cs.reverse.getD (i / k) 0).getLsbD (i % k)
      else r.getLsbD (i - k * cs.length) := by
  -- from the last symbol on: it is the one that stands lowest
  induction cs using List.reverseRecOn generalizing i with
  | nil => simp
  | append_singleton cs c ih =>
    rw [List.foldl_append, List.foldl_cons, List.foldl_nil, getLsbD_shift _ _ hi,
        List.reverse_concat, List.length_append, List.length_singleton, Nat.mul_succ]
    by_cases hlow : i < k
    · rw [if_pos hlow, if_pos (by omega), Nat.div_eq_of_lt hlow, Nat.mod_eq_of_lt hlow,
          List.getD_cons_zero]
    · have hdiv : i / k = (i - k) / k + 1 := by
        rw [← Nat.add_div_right _ hk, Nat.sub_add_cancel (by omega)]
      have hmod : i % k = (i - k) % k := by
        rw [← Nat.add_mod_right (i - k) k, Nat.sub_add_cancel (by omega)]
      rw [if_neg hlow, ih (by omega), hdiv, hmod, List.getD_cons_succ]
      by_cases hin : i < k * cs.length + k
      · rw [if_pos hin, if_pos (by omega)]
      · rw [if_neg hin, if_neg (by omega)]
        congr 1
        omega

/-- The bits of packed symbols, the last one lowest. -/
theorem getLsbD_packed (hk : 0 < k) (cs : List (BitVec k)) {i : ℕ} (hi : i < w) :
    (packed cs : BitVec w).getLsbD i = (cs.reverse.getD (i / k) 0).getLsbD (i % k) := by
  rw [packed, getLsbD_foldl_shift hk 0 cs hi]
  split
  · rfl
  · next hout =>
    have hle : cs.reverse.length ≤ i / k := by
      rw [List.length_reverse, Nat.le_div_iff_mul_le hk, Nat.mul_comm]
      omega
    rw [List.getD_eq_default _ _ hle, BitVec.ofNat_eq_ofNat, BitVec.getLsbD_zero,
        BitVec.ofNat_eq_ofNat, BitVec.getLsbD_zero]

/-- What a full register pushes out next. -/
theorem top_packed (hk : 0 < k) {d : ℕ} (hw : w = k * (d + 1)) (cs : List (BitVec k)) :
    top k (packed cs : BitVec w) = cs.reverse.getD d 0 := by
  have hsub : w - k = k * d := by
    rw [hw, Nat.mul_succ, Nat.add_sub_cancel]
  apply BitVec.eq_of_getLsbD_eq
  intro i hi
  have hlt : k * d + i < w := by
    rw [hw, Nat.mul_succ]
    omega
  rw [getLsbD_top, hsub, getLsbD_packed hk cs hlt, decide_eq_true hi, Bool.true_and,
      Nat.mul_add_div hk, Nat.div_eq_of_lt hi, Nat.mul_add_mod,
      Nat.mod_eq_of_lt hi, Nat.add_zero]

/-- What it takes to be quiet for one more symbol. -/
theorem quiet_concat (d : ℕ) (cs : List (BitVec k)) (c : BitVec k) :
    Quiet (d + 1) (cs ++ [c]) ↔ Quiet (d + 1) cs ∧ cs.reverse.getD d 0 = 0 := by
  constructor
  · intro h
    have hall (j : ℕ) (hj : d ≤ j) : cs.reverse.getD j 0 = 0 := by
      have hbit := h (j + 1) (by omega)
      rwa [List.reverse_concat, List.getD_cons_succ] at hbit
    exact ⟨fun j hj => hall j (by omega), hall d (Nat.le_refl d)⟩
  · rintro ⟨hcs, hd⟩ j hj
    obtain ⟨j, rfl⟩ : ∃ i, j = i + 1 := ⟨j - 1, by omega⟩
    rw [List.reverse_concat, List.getD_cons_succ]
    rcases Nat.lt_or_ge d j with hlt | hge
    · exact hcs j hlt
    · rwa [show j = d by omega]

section Quiet

variable {d : ℕ} {table table' : BitVec k → BitVec w}

/-- While nothing but zeros leaves, the table adds nothing. -/
theorem foldl_step_eq_packed (hk : 0 < k) (hw : w = k * (d + 1)) (hzero : table 0 = 0)
    {cs : List (BitVec k)} (h : Quiet (d + 1) cs) : cs.foldl (step table) 0 = packed cs := by
  induction cs using List.reverseRecOn with
  | nil => rfl
  | append_singleton cs c ih =>
    obtain ⟨hcs, hleaves⟩ := (quiet_concat d cs c).1 h
    rw [List.foldl_append, ih hcs, packed_concat, List.foldl_cons, List.foldl_nil, step,
        top_packed hk hw, hleaves, hzero]
    exact BitVec.xor_zero

/-- **Two tables.**  Where two tables have the zero word for the symbol zero in common and nothing
    else, their runs agree all along an input just when nothing but zeros leaves the register. -/
theorem foldl_step_eq_iff (hk : 0 < k) (hw : w = k * (d + 1)) (hzero : table 0 = 0)
    (hzero' : table' 0 = 0) (hne : ∀ t, table t = table' t → t = 0) (cs : List (BitVec k)) :
    (∀ l ≤ cs.length, (cs.take l).foldl (step table) 0 = (cs.take l).foldl (step table') 0) ↔
      Quiet (d + 1) cs := by
  induction cs using List.reverseRecOn with
  | nil => simp [Quiet]
  | append_singleton cs c ih =>
    -- the shorter inputs, which are those of `cs`, and the whole one
    have hsplit : (∀ l ≤ (cs ++ [c]).length, ((cs ++ [c]).take l).foldl (step table) 0 =
        ((cs ++ [c]).take l).foldl (step table') 0) ↔ Quiet (d + 1) cs ∧
          (cs ++ [c]).foldl (step table) 0 = (cs ++ [c]).foldl (step table') 0 := by
      rw [← ih, List.length_append, List.length_singleton]
      constructor
      · intro h
        refine ⟨fun l hl => ?_, ?_⟩
        · have hl' := h l (by omega)
          rwa [List.take_append_of_le_length hl] at hl'
        · have hall := h (cs.length + 1) (Nat.le_refl _)
          rwa [List.take_of_length_le (by simp)] at hall
      · rintro ⟨hcs, hall⟩ l hl
        rcases Nat.lt_or_ge cs.length l with hlt | hge
        · rwa [List.take_of_length_le (by simp; omega)]
        · rw [List.take_append_of_le_length hge]
          exact hcs l hge
    rw [hsplit, quiet_concat]
    apply and_congr_right
    intro hcs
    rw [List.foldl_append, List.foldl_append, foldl_step_eq_packed hk hw hzero hcs,
        foldl_step_eq_packed hk hw hzero' hcs, ← top_packed hk hw]
    constructor
    · intro h
      exact hne _ ((BitVec.xor_right_inj _).1 h)
    · intro h
      simp only [List.foldl_cons, List.foldl_nil, step, h, hzero, hzero']

end Quiet

/-! ### Division bit by bit -/

/-- The table of a register of bits: `g` is mixed in whenever a `1` leaves. -/
def feedback (g : BitVec w) (t : BitVec 1) : BitVec w := if t = 1 then g else 0

/-- The bits of a symbol, most significant first. -/
def bits (c : BitVec k) : List (BitVec 1) :=
  (List.range k).map fun i => BitVec.ofBool (c.getMsbD i)

/-- Division by `g`, below the leading bit that a register of `w` bits does not hold: the message
    goes in bit by bit, and `g` is mixed in whenever a `1` leaves. -/
def divide (g : BitVec w) (message : List (BitVec k)) : BitVec w :=
  (message.flatMap bits).foldl (step (feedback g)) 0

/-- What division does to a register that holds the symbol `t` at its high end, and takes in
    zeros until `t` has left. -/
def divisionTable (g : BitVec w) (t : BitVec k) : BitVec w :=
  (List.replicate k 0).foldl (step (feedback g)) (t.setWidth w <<< (w - k))

/-- A symbol of `k` bits has `k` bits. -/
@[simp] theorem bits_length (c : BitVec k) : (bits c).length = k := by
  rw [bits, List.length_map, List.length_range]

/-- The symbol at the top of a sum. -/
theorem top_xor (r r' : BitVec w) : top k (r ^^^ r') = top k r ^^^ top k r' := by
  apply BitVec.eq_of_getLsbD_eq
  intro i _
  rw [BitVec.getLsbD_xor, getLsbD_top, getLsbD_top, getLsbD_top, BitVec.getLsbD_xor,
      Bool.and_xor_distrib_left]

/-- Shifting in a sum. -/
theorem shift_xor (r r' : BitVec w) (c c' : BitVec k) :
    shift (r ^^^ r') (c ^^^ c') = shift r c ^^^ shift r' c' := by
  apply BitVec.eq_of_getLsbD_eq
  intro i hi
  rw [BitVec.getLsbD_xor, getLsbD_shift _ _ hi, getLsbD_shift _ _ hi, getLsbD_shift _ _ hi,
      BitVec.getLsbD_xor, BitVec.getLsbD_xor]
  split <;> rfl

/-- The feedback of a sum. -/
theorem feedback_xor (g : BitVec w) (t t' : BitVec 1) :
    feedback g (t ^^^ t') = feedback g t ^^^ feedback g t' := by
  have hbit (t : BitVec 1) : t = 0 ∨ t = 1 := by
    rcases BitVec.eq_zero_or_eq_one t with h | h
    · exact Or.inl h
    · exact Or.inr h
  rcases hbit t with rfl | rfl <;> rcases hbit t' with rfl | rfl <;> simp [feedback]

/-- A step over a linear table is linear. -/
theorem step_xor {table : BitVec k → BitVec w}
    (htable : ∀ t t', table (t ^^^ t') = table t ^^^ table t') (r r' : BitVec w)
    (c c' : BitVec k) :
    step table (r ^^^ r') (c ^^^ c') = step table r c ^^^ step table r' c' := by
  rw [step, step, step, shift_xor, top_xor, htable]
  ac_rfl

/-- So is a run, here with zeros taken in on one side. -/
theorem foldl_step_xor {table : BitVec k → BitVec w}
    (htable : ∀ t t', table (t ^^^ t') = table t ^^^ table t') (r r' : BitVec w)
    (cs : List (BitVec k)) :
    cs.foldl (step table) (r ^^^ r') =
      cs.foldl (step table) r ^^^ (List.replicate cs.length 0).foldl (step table) r' := by
  induction cs generalizing r r' with
  | nil => rfl
  | cons c cs ih =>
    have hstep := step_xor htable r r' c 0
    rw [BitVec.ofNat_eq_ofNat, BitVec.xor_zero] at hstep
    rw [List.foldl_cons, hstep, ih, List.length_cons, List.replicate_succ, List.foldl_cons,
        List.foldl_cons]
    rfl

/-- And so is a run that takes symbols in on both sides. -/
theorem foldl_step_zipWith {table : BitVec k → BitVec w}
    (htable : ∀ t t', table (t ^^^ t') = table t ^^^ table t') {cs cs' : List (BitVec k)}
    (hlen : cs.length = cs'.length) (r r' : BitVec w) :
    (List.zipWith (· ^^^ ·) cs cs').foldl (step table) (r ^^^ r') =
      cs.foldl (step table) r ^^^ cs'.foldl (step table) r' := by
  induction cs generalizing cs' r r' with
  | nil =>
    rw [List.length_eq_zero_iff.1 hlen.symm]
    rfl
  | cons c cs ih =>
    obtain ⟨c', cs', rfl⟩ := List.exists_cons_of_length_eq_add_one hlen.symm
    rw [List.zipWith_cons_cons, List.foldl_cons, step_xor htable, ih (Nat.succ.inj hlen),
        List.foldl_cons, List.foldl_cons]

/-- The table whose words are sums of the given ones: one for each bit of the symbol, from bit `i`
    on. -/
def linearTable : List (BitVec w) → ℕ → BitVec k → BitVec w
  | [], _, _ => 0
  | u :: us, i, t => (if t.getLsbD i then u else 0) ^^^ linearTable us (i + 1) t

/-- A linear table, looked up at a sum. -/
theorem linearTable_xor (us : List (BitVec w)) (i : ℕ) (t t' : BitVec k) :
    linearTable us i (t ^^^ t') = linearTable us i t ^^^ linearTable us i t' := by
  induction us generalizing i with
  | nil => exact BitVec.xor_zero.symm
  | cons u us ih =>
    have hbit : (if (t ^^^ t').getLsbD i then u else 0) =
        (if t.getLsbD i then u else 0) ^^^ (if t'.getLsbD i then u else 0) := by
      rw [BitVec.getLsbD_xor]
      cases t.getLsbD i <;> cases t'.getLsbD i <;> simp
    rw [linearTable, linearTable, linearTable, hbit, ih]
    ac_rfl

/-- A register with zeros at its high end lets as many symbols in before its table is used. -/
theorem foldl_step_eq_shift {table : BitVec k → BitVec w} (hzero : table 0 = 0)
    {cs : List (BitVec k)} (hfit : k * cs.length ≤ w) {r : BitVec w}
    (hr : ∀ i, w - k * cs.length ≤ i → r.getLsbD i = false) :
    cs.foldl (step table) r = cs.foldl shift r := by
  induction cs generalizing r with
  | nil => rfl
  | cons c cs ih =>
    rw [List.length_cons, Nat.mul_succ] at hfit hr
    -- the bits that select the entry are zeros, and the entry of zero is zero
    have htop : top k r = 0 := by
      apply BitVec.eq_of_getLsbD_eq
      intro i _
      rw [getLsbD_top, hr _ (by omega), Bool.and_false, BitVec.ofNat_eq_ofNat,
          BitVec.getLsbD_zero]
    have hstep : step table r c = shift r c := by
      rw [step, htop, hzero]
      exact BitVec.xor_zero
    rw [List.foldl_cons, List.foldl_cons, hstep]
    apply ih (by omega)
    intro i hi
    -- after one shift there are `k` zeros less at the high end, and `k` bits less to come
    rcases Nat.lt_or_ge i w with hlt | hge
    · rcases Nat.eq_zero_or_pos cs.length with hnil | hpos
      · rw [hnil] at hi
        omega
      · have hle : k ≤ k * cs.length := Nat.le_mul_of_pos_right k hpos
        rw [getLsbD_shift r c hlt]
        split
        · omega
        · exact hr _ (by omega)
    · exact BitVec.getLsbD_of_ge _ _ hge

/-- The bits of a symbol shifted in one by one are the symbol shifted in. -/
theorem foldl_shift_bits (r : BitVec w) (c : BitVec k) :
    (bits c).foldl shift r = shift r c := by
  apply BitVec.eq_of_getLsbD_eq
  intro i hi
  rw [getLsbD_foldl_shift Nat.one_pos r _ hi, getLsbD_shift r c hi, bits_length, Nat.one_mul,
      Nat.div_one, Nat.mod_one]
  split
  · next hlow =>
    have hlt : i < (bits c).reverse.length := by
      rwa [List.length_reverse, bits_length]
    rw [List.getD_eq_getElem _ _ hlt, List.getElem_reverse]
    simp only [bits, List.getElem_map, List.getElem_range, List.length_map, List.length_range]
    rw [BitVec.getLsbD_ofBool, BitVec.getMsbD_eq_getLsbD]
    simp only [decide_true, Bool.true_and]
    rw [decide_eq_true (by omega), Bool.true_and]
    congr 1
    omega
  · rfl

/-- **A symbol at a time.**  What division does while a symbol goes in is one step over the table
    of what it does to each symbol. -/
theorem foldl_bits (g : BitVec w) (hk : k ≤ w) (r : BitVec w) (c : BitVec k) :
    (bits c).foldl (step (feedback g)) r = step (divisionTable g) r c := by
  -- the symbol that leaves, at its place, and the rest of the register
  let high : BitVec w := (top k r).setWidth w <<< (w - k)
  have hhigh (i : ℕ) (hi : w - k ≤ i) : high.getLsbD i = r.getLsbD i := by
    rcases Nat.lt_or_ge i w with hlt | hge
    · rw [BitVec.getLsbD_shiftLeft, BitVec.getLsbD_setWidth, getLsbD_top, decide_eq_true hlt,
          decide_eq_false (by omega), decide_eq_true (by omega), decide_eq_true (by omega),
          Nat.add_sub_cancel' hi]
      rfl
    · rw [BitVec.getLsbD_of_ge _ _ hge, BitVec.getLsbD_of_ge _ _ hge]
  have hsplit : r = (r ^^^ high) ^^^ high := by
    rw [BitVec.xor_assoc, BitVec.xor_self, BitVec.xor_zero]
  have hlow (i : ℕ) (hi : w - 1 * (bits c).length ≤ i) : (r ^^^ high).getLsbD i = false := by
    rw [bits_length, Nat.one_mul] at hi
    rw [BitVec.getLsbD_xor, hhigh i hi, Bool.xor_self]
  have hshift : shift (r ^^^ high) c = shift r c := by
    apply BitVec.eq_of_getLsbD_eq
    intro i hi
    rw [getLsbD_shift _ _ hi, getLsbD_shift _ _ hi]
    split
    · rfl
    · rw [BitVec.getLsbD_xor, BitVec.getLsbD_shiftLeft,
          decide_eq_true (show i - k < w - k by omega)]
      simp
  calc (bits c).foldl (step (feedback g)) r
      = (bits c).foldl (step (feedback g)) ((r ^^^ high) ^^^ high) := by rw [← hsplit]
    _ = (bits c).foldl (step (feedback g)) (r ^^^ high) ^^^ divisionTable g (top k r) := by
        rw [foldl_step_xor (feedback_xor g), bits_length]
        rfl
    _ = step (divisionTable g) r c := by
        rw [foldl_step_eq_shift (by simp [feedback]) (by rwa [bits_length, Nat.one_mul]) hlow,
            foldl_shift_bits, hshift]
        rfl

/-- **Division.**  Division bit by bit is the run over the table of its own words. -/
theorem divide_eq_foldl_step (g : BitVec w) (hk : k ≤ w) (message : List (BitVec k)) :
    divide g message = message.foldl (step (divisionTable g)) 0 := by
  rw [divide, List.foldl_flatMap]
  congr 1
  funext r c
  exact foldl_bits g hk r c

end ShiftRegister
