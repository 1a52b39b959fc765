import LeoNet.Lib.Memory

namespace LeoNet

open Memory

/-!
# `net_message` — the messages of `leo_net_message.h`

A message has an id, the number of bytes of its buffer that are in use, and a buffer of
`BUFFER_SIZE` bytes.  Messages live on a heap and are handed around as pointers; a pointer is
the message's place in the order of allocation, and one that no allocation returned points to
nothing.
-/

/-- `BUFFER_SIZE`. -/
def BUFFER_SIZE : ℕ := 1024

/-- `class net_message`. -/
structure NetMessage where
  id : UInt16
  realSize : UInt16
  buffer : ℕ → UInt8

/-- The constructor. -/
def NetMessage.new : NetMessage := ⟨0, 0, fun _ => 0⟩

/-- `__buffer`, the object behind `get_data()`. -/
def NetMessage.data (nm : NetMessage) : Block UInt8 := ⟨BUFFER_SIZE, nm.buffer⟩

namespace NetMessage

/-- `set_id(_id)`. -/
def setId (nm : NetMessage) (id : UInt16) : NetMessage := { nm with id }

/-- `set_real_size(_size)`. -/
def setRealSize (nm : NetMessage) (size : UInt16) : NetMessage := { nm with realSize := size }

/-- What `pop_ptr<t>()` and `pop_ref<t>()` do for a `t` of `size` bytes that has room: where they
    place it, and the message.  The sum is one of `size_t`, which no type is large enough to
    wrap. -/
def reserve (nm : NetMessage) (size : ℕ) : Option (ℕ × NetMessage) :=
  if nm.realSize.toNat + size < BUFFER_SIZE then
    some (nm.realSize.toNat, { nm with realSize := UInt16.ofNat (nm.realSize.toNat + size) })
  else none

/-- `pop_ptr<t>()`, where `sizeof(t)` is `size`: the place of the `t` in `__buffer`, or the null
    pointer, and the message. -/
def popPtr (nm : NetMessage) (size : ℕ) : Option ℕ × NetMessage :=
  match nm.reserve size with
  | some (p, nm') => (some p, nm')
  | none => (none, nm)

/-- `pop_ref<t>()`.  Without room it ends without a `return`: the call is undefined. -/
def popRef (nm : NetMessage) (size : ℕ) : Option (ℕ × NetMessage) := nm.reserve size

end NetMessage

/-- `net_message*`. -/
abbrev MessagePtr := ℕ

/-- The messages allocated so far. -/
abbrev Heap := List NetMessage

end LeoNet
