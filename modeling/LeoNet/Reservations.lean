import LeoNet.NetMessage
import LeoNet.Lib.Machine
import LeoNet.Lib.Regions
import Mathlib.Algebra.Order.Group.Nat

namespace LeoNet

open Machine Regions

/-!
# Reservations in a message — `pop_ptr`

`pop_ptr<t>()` hands out the next `sizeof(t)` bytes of the message's buffer and moves `__real_size`
behind them, as long as it stays below `BUFFER_SIZE`.  The bytes handed out never overlap and never
leave the buffer; but a `t` that would fill the buffer to its last byte is refused.

* `reserve_spec` — one reservation, granted or refused;
* `reserves_iff_notExact` — all that a message promises holds in a sequence of calls exactly as
  long as none asks for all the bytes that are left.
-/

/-! ### One reservation -/

/-- A reservation is granted exactly when bytes are left behind it, and begins where the bytes in
    use end. -/
theorem NetMessage.reserve_spec (nm : NetMessage) (size : ℕ) :
    (∃ nm', nm.reserve size = some (nm.realSize.toNat, nm') ∧
        nm'.realSize.toNat = nm.realSize.toNat + size ∧
        nm.realSize.toNat + size < BUFFER_SIZE) ∨
      (nm.reserve size = none ∧ BUFFER_SIZE ≤ nm.realSize.toNat + size) := by
  unfold NetMessage.reserve
  split
  case isTrue hroom =>
    refine Or.inl ⟨_, rfl, ?_, hroom⟩
    -- the cursor has room for all sizes of a buffer
    have hsize : BUFFER_SIZE < 2 ^ 16 := by decide
    show (UInt16.ofNat (nm.realSize.toNat + size)).toNat = _
    rw [UInt16.toNat_ofNat']
    omega
  case isFalse hroom => exact Or.inr ⟨rfl, by omega⟩

/-! ### Sequences of calls -/

/-- A message, and the regions of its buffer that have been granted: where each begins, and its
    size. -/
structure Reserving where
  message : NetMessage
  granted : List (ℕ × ℕ)

namespace Reserving

/-- A new message, nothing granted. -/
def start : Reserving := ⟨.new, []⟩

/-- One call of `pop_ptr`, for a type of `size` bytes; it puts out what the call returned. -/
def step (s : Reserving) (size : ℕ) : Option (Option ℕ × Reserving) :=
  let r := s.message.popPtr size
  some (r.1, ⟨r.2, s.granted ++ (r.1.map fun p => (p, size)).toList⟩)

/-- The regions are consecutive, do not overlap and lie inside the buffer, and `__real_size` is the
    sum of their sizes. -/
structure Sound (s : Reserving) : Prop where
  consecutive : Consecutive 0 s.granted
  disjoint : s.granted.Pairwise fun r r' => ∀ x ∈ points r, x ∉ points r'
  inside : ∀ r ∈ s.granted, r.1 + r.2 ≤ BUFFER_SIZE
  realSize : s.message.realSize.toNat = total s.granted

/-- The promise of `pop_ptr`: the regions stay sound, and a call that is refused changes nothing and
    asked for more bytes than are left. -/
structure Reserves (s : Reserving) (size : ℕ) (p : Option ℕ) (t : Reserving) : Prop where
  sound : t.Sound
  granted : ∀ q, p = some q → t.granted = s.granted ++ [(q, size)]
  refused : p = none → t = s ∧ BUFFER_SIZE - s.message.realSize.toNat < size

/-- The call does not ask for exactly the bytes that are left. -/
def NotExact (s : Reserving) (size : ℕ) : Prop := s.message.realSize.toNat + size ≠ BUFFER_SIZE

instance (s : Reserving) (size : ℕ) : Decidable (s.NotExact size) :=
  inferInstanceAs (Decidable (_ ≠ _))

section Steps

variable {s t : Reserving} {size : ℕ} {p : Option ℕ}

/-- Consecutive regions that end in the buffer have all the other properties. -/
theorem sound_of_consecutive (hcons : Consecutive 0 s.granted)
    (hsize : s.message.realSize.toNat = total s.granted)
    (hend : s.message.realSize.toNat ≤ BUFFER_SIZE) : s.Sound where
  consecutive := hcons
  disjoint := hcons.pairwise_disjoint
  inside := by
    intro r hr
    have hle := (hcons.le_end r hr).2
    rw [Nat.zero_add, ← hsize] at hle
    exact hle.trans hend
  realSize := hsize

/-- What the calls keep: sound regions, and a byte behind them. -/
structure Inv (s : Reserving) : Prop where
  sound : s.Sound
  lt : s.message.realSize.toNat < BUFFER_SIZE

theorem start_inv : start.Inv where
  sound := sound_of_consecutive trivial rfl (Nat.zero_le _)
  lt := by decide

/-- **One call**, inverted. -/
theorem step_spec (h : s.step size = some (p, t)) :
    (p = some s.message.realSize.toNat ∧
        t.message.realSize.toNat = s.message.realSize.toNat + size ∧
        t.granted = s.granted ++ [(s.message.realSize.toNat, size)] ∧
        s.message.realSize.toNat + size < BUFFER_SIZE) ∨
      (p = none ∧ t = s ∧ BUFFER_SIZE ≤ s.message.realSize.toNat + size) := by
  rw [step, Option.some.injEq, Prod.mk.injEq, NetMessage.popPtr] at h
  rcases s.message.reserve_spec size with ⟨nm', hgrant, hsize, hroom⟩ | ⟨hrefuse, hfull⟩
  · rw [hgrant] at h
    obtain ⟨rfl, rfl⟩ := h
    exact Or.inl ⟨rfl, hsize, rfl, hroom⟩
  · rw [hrefuse] at h
    obtain ⟨rfl, rfl⟩ := h
    exact Or.inr ⟨rfl, by simp, hfull⟩

/-- A call keeps the promise exactly when it does not ask for all that is left, and the invariant
    in any case. -/
theorem reserves_step (hs : s.Inv) (h : s.step size = some (p, t)) :
    (Reserves s size p t ↔ s.NotExact size) ∧ t.Inv := by
  rcases step_spec h with ⟨rfl, hsize, hgranted, hroom⟩ | ⟨rfl, rfl, hfull⟩
  · -- granted, behind the others
    have htotal := hs.sound.realSize
    have hsound : t.Sound := by
      apply sound_of_consecutive
      · rw [hgranted, consecutive_concat, Nat.zero_add]
        exact ⟨hs.sound.consecutive, htotal⟩
      · rw [hsize, hgranted, total_concat, htotal]
      · omega
    refine ⟨iff_of_true ⟨hsound, ?_, nofun⟩ (Nat.ne_of_lt hroom), hsound, by rwa [hsize]⟩
    rintro q hq
    cases hq
    exact hgranted
  · -- refused
    have hlt := hs.lt
    refine ⟨⟨fun hres => ?_, fun hne => ⟨hs.sound, nofun, fun _ => ⟨rfl, ?_⟩⟩⟩, hs⟩
    · -- by the promise only a call that asks for more than is left may be refused
      have hleft := (hres.refused rfl).2
      unfold NotExact
      omega
    · unfold NotExact at hne
      omega

end Steps

end Reserving

/-- **Reservations.**  In every sequence of `pop_ptr` calls on a new message, the regions stay sound
    and only calls for more than is left are refused, exactly when no call asks for just the bytes
    that are left. -/
theorem reserves_iff_notExact (sizes : List ℕ) :
    AllTransitions Reserving.step Reserving.Reserves .start sizes ↔
      AllSteps Reserving.step Reserving.NotExact .start sizes := by
  refine allTransitions_iff_allSteps_of_none (I := Reserving.Inv) (V := fun _ _ => True) ?_ nofun
    Reserving.start_inv (AllSteps.of_forall (fun _ _ => trivial) _ _)
  intro s size p t hs _ hstep
  obtain ⟨hiff, hinv⟩ := Reserving.reserves_step hs hstep
  exact ⟨hiff, fun _ => hinv⟩

/-- Of `1024` bytes, `1000` are granted, and then the `24` that are left are refused. -/
theorem reserves_fails :
    ¬ ∀ sizes : List ℕ, (∀ size ∈ sizes, 1 ≤ size) →
      AllTransitions Reserving.step Reserving.Reserves .start sizes := by
  intro h
  have hall := h [1000, 24] (by decide)
  have hrefused := hall.mono
    (Q := fun s size p _ => p = none → BUFFER_SIZE - s.message.realSize.toNat < size)
    fun _ _ _ _ hres hnone => (hres.refused hnone).2
  exact absurd hrefused (by decide)

end LeoNet
