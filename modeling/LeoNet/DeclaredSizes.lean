import LeoNet.EncodedFrames
import LeoNet.Reservations

namespace LeoNet

open Memory Machine

/-!
# Declared sizes — what the encoder reads of a message

`transform_message_to_buffer` compares the message's size with the room in the buffer it writes to,
and then copies that many bytes out of the message.  `pop_ptr` and `pop_ref` never let the size grow
beyond `BUFFER_SIZE`; `set_real_size` takes any size.

* `encodesInside_iff` — the encoder stays inside the message exactly when its size does;
* `encodesInside_iff_setsWithin` — so it does for every message that calls can make exactly when
  `set_real_size` is given no size above `BUFFER_SIZE`.
-/

/-- Into every buffer with enough room, the encoder copies bytes of the message only. -/
def NetMessage.EncodesInside (nm : NetMessage) : Prop :=
  ∀ (ac : AboutCrypt) (b : Block UInt8) (buf : ℕ) (bufLen : Int32),
    6 + nm.realSize.toNat ≤ bufLen.toUInt32.toNat → buf + (6 + nm.realSize.toNat) ≤ b.size →
      (transformMessageToBuffer ac nm b buf bufLen).isSome

/-- An encoder that gets through has read the message's bytes inside its buffer. -/
theorem le_of_transformMessageToBuffer {ac : AboutCrypt} {nm : NetMessage} {b : Block UInt8}
    {buf : ℕ} {bufLen : Int32} (hlen : 6 + nm.realSize.toNat ≤ bufLen.toUInt32.toNat)
    (h : (transformMessageToBuffer ac nm b buf bufLen).isSome) :
    nm.realSize.toNat ≤ BUFFER_SIZE := by
  obtain ⟨r, hr⟩ := Option.isSome_iff_exists.1 h
  simp only [transformMessageToBuffer] at hr
  rw [if_neg (by rw [refuses_iff]; omega)] at hr
  simp only [Option.bind_eq_some_iff] at hr
  obtain ⟨_, -, _, -, data, hread, -⟩ := hr
  have hle := Block.read_le hread
  rwa [Nat.zero_add, UInt16.toNat_toUInt32] at hle

/-- **What the encoder reads.**  It stays inside the message exactly when the declared size does. -/
theorem encodesInside_iff (nm : NetMessage) :
    nm.EncodesInside ↔ nm.realSize.toNat ≤ BUFFER_SIZE := by
  constructor
  · intro h
    have hlt := nm.realSize.toNat_lt
    -- a buffer that is just large enough
    have hlen : 6 + nm.realSize.toNat ≤
        (UInt32.ofNat (6 + nm.realSize.toNat)).toInt32.toUInt32.toNat := by
      rw [UInt32.toUInt32_toInt32, UInt32.toNat_ofNat']
      omega
    exact le_of_transformMessageToBuffer hlen
      (h ⟨0, 0, fun _ => 0, fun _ => 0⟩ ⟨6 + nm.realSize.toNat, fun _ => 0⟩ 0 _ hlen (by simp))
  · intro hdata ac b buf bufLen hlen hin
    obtain ⟨b', -, hsome⟩ := transformMessageToBuffer_eq_some ac hdata hlen hin
    rw [hsome]
    rfl

/-! ### Sequences of calls -/

/-- A call that changes a message. -/
inductive MessageOp where
  | setId (id : UInt16)
  | setRealSize (size : UInt16)
  | popPtr (size : ℕ)
  | popRef (size : ℕ)

/-- One call; it puts out where the message has placed a `t`. -/
def NetMessage.perform (nm : NetMessage) : MessageOp → Option (Option ℕ × NetMessage)
  | .setId id => some (none, nm.setId id)
  | .setRealSize size => some (none, nm.setRealSize size)
  | .popPtr size => some (nm.popPtr size)
  | .popRef size => (nm.popRef size).map fun r => (some r.1, r.2)

/-- The encoder stays inside the message that a call leaves. -/
def StaysInside (_ : NetMessage) (_ : MessageOp) (_ : Option ℕ) (nm' : NetMessage) : Prop :=
  nm'.EncodesInside

/-- `set_real_size` is given a size that the buffer has. -/
def SetsWithin (_ : NetMessage) : MessageOp → Prop
  | .setRealSize size => size.toNat ≤ BUFFER_SIZE
  | .setId _ => True
  | .popPtr _ => True
  | .popRef _ => True

/-- A reservation keeps the size inside the buffer. -/
theorem NetMessage.reserve_le {nm nm' : NetMessage} {size p : ℕ}
    (h : nm.reserve size = some (p, nm')) : nm'.realSize.toNat ≤ BUFFER_SIZE := by
  rcases nm.reserve_spec size with ⟨nm'', hgrant, hsize, hroom⟩ | ⟨hrefuse, -⟩
  · rw [hgrant, Option.some.injEq] at h
    cases h
    omega
  · rw [hrefuse] at h
    cases h

/-- **One call** keeps the size inside the buffer unless it sets another. -/
theorem perform_le {nm nm' : NetMessage} {op : MessageOp} {o : Option ℕ}
    (hnm : nm.realSize.toNat ≤ BUFFER_SIZE) (h : nm.perform op = some (o, nm')) :
    nm'.realSize.toNat ≤ BUFFER_SIZE ↔ SetsWithin nm op := by
  -- `set_real_size` is the only one of the four that sets the size without looking at the buffer
  cases op with
  | setId id =>
    cases h
    exact iff_of_true hnm trivial
  | setRealSize size =>
    cases h
    exact Iff.rfl
  | popPtr size =>
    rw [NetMessage.perform, NetMessage.popPtr] at h
    refine iff_of_true ?_ trivial
    -- without room `pop_ptr` returns the null pointer and leaves the message as it was
    cases hres : nm.reserve size with
    | none =>
      rw [hres] at h
      cases h
      exact hnm
    | some r =>
      rw [hres] at h
      cases h
      exact NetMessage.reserve_le hres
  | popRef size =>
    rw [NetMessage.perform, NetMessage.popRef, Option.map_eq_some_iff] at h
    obtain ⟨⟨p, nm''⟩, hres, heq⟩ := h
    cases heq
    exact iff_of_true (NetMessage.reserve_le hres) trivial

/-- **Declared sizes.**  In every sequence of calls on a new message, the encoder stays inside all
    the messages that come about exactly when `set_real_size` is given no size above
    `BUFFER_SIZE`. -/
theorem encodesInside_iff_setsWithin (ops : List MessageOp) :
    (NetMessage.new.EncodesInside ∧ AllTransitions NetMessage.perform StaysInside .new ops) ↔
      AllSteps NetMessage.perform SetsWithin .new ops := by
  have hnew : NetMessage.new.realSize.toNat ≤ BUFFER_SIZE := Nat.zero_le _
  rw [and_iff_right ((encodesInside_iff _).2 hnew)]
  refine allTransitions_iff_allSteps_of_none (I := fun nm => nm.realSize.toNat ≤ BUFFER_SIZE)
    (V := fun _ _ => True) ?_ ?_ hnew (AllSteps.of_forall (fun _ _ => trivial) _ _)
  · intro nm op o nm' hnm _ h
    have hle := perform_le hnm h
    exact ⟨(encodesInside_iff nm').trans hle, hle.2⟩
  · -- only a reference for which there is no room is not defined
    intro nm op _ h
    cases op with
    | setRealSize size => cases h
    | setId id => trivial
    | popPtr size => trivial
    | popRef size => trivial

/-- A message of `1024` bytes whose size is set to `1025`. -/
theorem encodesInside_fails :
    ¬ ∀ ops : List MessageOp,
      NetMessage.new.EncodesInside ∧ AllTransitions NetMessage.perform StaysInside .new ops := by
  intro h
  have hstays : (NetMessage.new.setRealSize 1025).EncodesInside := (h [.setRealSize 1025]).2.1
  rw [encodesInside_iff] at hstays
  exact absurd hstays (by decide)

end LeoNet
