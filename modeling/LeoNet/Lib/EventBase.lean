import Mathlib.Data.List.Basic
import Mathlib.Logic.Function.Basic

namespace EventLoop

/-!
# Event libraries — events that exist, and events that are pending

An event is made with a description: what it waits for, and whom it calls.  It is not pending until
it is added, it stays pending when it fires, and it is gone when its memory is released.

`EventLibrary` is what a program may rely on, whichever library it is linked with: the calls, what
can be observed of a base, and the laws that the library's documentation gives.  The calls that may
fail take a `Bool`, which says whether the system underneath granted them what they needed.

* `Fires` — some event with this description exists and is pending;
* `fires_new` / `fires_add` — which events may fire after a call;
* `EventBase.library` — a library that keeps its events in a list, and numbers them as they are made.
-/

/-- A pointer to an event. -/
abbrev EventPtr := ℕ

/-- An event library, for events with descriptions in `ε`. -/
structure EventLibrary (ε : Type) where
  Base : Type
  empty : Base
  /-- What the event behind a pointer was made with; `none` when there is no event. -/
  find : Base → EventPtr → Option ε
  /-- The event has been added. -/
  pending : Base → EventPtr → Bool
  /-- Make an event; the flag says whether there was memory. -/
  new : Base → ε → Bool → Option EventPtr × Base
  /-- Add an event to the pending ones; the flag says whether the call succeeded. -/
  add : Base → EventPtr → Bool → Option Base
  /-- Remove an event from the pending ones, in the same way. -/
  del : Base → EventPtr → Bool → Option Base
  /-- Release the memory of an event. -/
  release : Base → EventPtr → Option Base
  find_empty : ∀ e, find empty e = none
  /-- Without memory, the pointer is null, and nothing has changed. -/
  new_failed : ∀ b x, new b x false = (none, b)
  /-- Events come into existence not pending, where there was none. -/
  new_made : ∀ b x, ∃ e b', new b x true = (some e, b') ∧ find b e = none ∧
    find b' = Function.update (find b) e (some x) ∧
    pending b' = Function.update (pending b) e false
  /-- An event must have been made before it is added. -/
  add_gone : ∀ b e added, find b e = none → add b e added = none
  /-- An event that was added is pending; a call that reports an error has added none. -/
  add_made : ∀ b e added x, find b e = some x → ∃ b', add b e added = some b' ∧ find b' = find b ∧
    pending b' = if added then Function.update (pending b) e true else pending b
  /-- An event whose memory was released does not exist. -/
  release_gone : ∀ b e b', release b e = some b' → find b' e = none

namespace EventLibrary

variable {ε : Type} (lib : EventLibrary ε)

/-- Some event made with this description is pending. -/
def Fires (b : lib.Base) (x : ε) : Prop := ∃ e, lib.find b e = some x ∧ lib.pending b e = true

variable {lib} {b b' : lib.Base} {e : EventPtr} {x y : ε} {added : Bool}

/-- A new event does not fire, and the others do as before. -/
theorem fires_new (hnone : lib.find b e = none)
    (hfind : lib.find b' = Function.update (lib.find b) e (some x))
    (hpending : lib.pending b' = Function.update (lib.pending b) e false) (y : ε) :
    lib.Fires b' y ↔ lib.Fires b y := by
  unfold Fires
  rw [hfind, hpending]
  refine exists_congr fun e' => ?_
  by_cases he : e' = e
  · -- the new event is not pending, and there was none before
    rw [he, Function.update_self, Function.update_self, hnone]
    simp
  · rw [Function.update_of_ne he, Function.update_of_ne he]

/-- An event that was added fires, and no other one does that did not before. -/
theorem fires_add (hx : lib.find b e = some x) (h : lib.add b e added = some b') (y : ε) :
    lib.Fires b' y ↔ lib.Fires b y ∨ (added = true ∧ y = x) := by
  obtain ⟨b'', hadd, hfind, hpending⟩ := lib.add_made b e added x hx
  cases h.symm.trans hadd
  unfold Fires
  rw [hfind, hpending]
  cases added with
  | false => simp
  | true =>
    rw [if_pos rfl]
    constructor
    · rintro ⟨e', hy, hp⟩
      by_cases he : e' = e
      · rw [he, hx] at hy
        exact Or.inr ⟨rfl, (Option.some.inj hy).symm⟩
      · rw [Function.update_of_ne he] at hp
        exact Or.inl ⟨e', hy, hp⟩
    · rintro (⟨e', hy, hp⟩ | ⟨-, rfl⟩)
      · refine ⟨e', hy, ?_⟩
        rw [Function.update_apply, hp]
        exact ite_self true
      · exact ⟨e, hx, Function.update_self _ _ _⟩

end EventLibrary

/-! ### A library -/

/-- The events that were made, `none` where the memory has been released, and which are pending. -/
structure EventBase (ε : Type) where
  events : List (Option ε)
  pending : EventPtr → Bool

namespace EventBase

variable {ε : Type}

/-- What an event that exists was made with. -/
def find (b : EventBase ε) (e : EventPtr) : Option ε := b.events[e]?.join

/-- A new event, not pending; when there is no memory for it, the null pointer. -/
def new (b : EventBase ε) (x : ε) (memory : Bool) : Option EventPtr × EventBase ε :=
  if memory then
    (some b.events.length,
      ⟨b.events ++ [some x], Function.update b.pending b.events.length false⟩)
  else (none, b)

/-- Make an event pending, or not, if the call succeeds. -/
def setPending (b : EventBase ε) (e : EventPtr) (pending success : Bool) : Option (EventBase ε) :=
  (b.find e).map fun _ =>
    if success then { b with pending := Function.update b.pending e pending } else b

/-- Release the memory of an event. -/
def release (b : EventBase ε) (e : EventPtr) : Option (EventBase ε) :=
  (b.find e).map fun _ => { b with events := b.events.set e none }

/-- A new event is found behind its number, and the others behind theirs. -/
theorem find_append (b : EventBase ε) (x : ε) (pending : EventPtr → Bool) :
    find ⟨b.events ++ [some x], pending⟩ = Function.update b.find b.events.length (some x) := by
  funext e
  unfold find
  rcases Nat.lt_trichotomy e b.events.length with hlt | rfl | hgt
  · rw [Function.update_of_ne (Nat.ne_of_lt hlt), List.getElem?_append_left hlt]
  · rw [Function.update_self, List.getElem?_concat_length]
    rfl
  · have hlen : (b.events ++ [some x]).length ≤ e := by
      rw [List.length_append, List.length_singleton]
      exact hgt
    rw [Function.update_of_ne (Nat.ne_of_gt hgt), List.getElem?_eq_none hlen,
        List.getElem?_eq_none (Nat.le_of_lt hgt)]

/-- No event has the number of the next one. -/
theorem find_length (b : EventBase ε) : b.find b.events.length = none := by
  rw [find, List.getElem?_eq_none (Nat.le_refl _)]
  rfl

/-- An event that was released is not found. -/
theorem find_release {b b' : EventBase ε} {e : EventPtr} (h : b.release e = some b') :
    b'.find e = none := by
  obtain ⟨x, -, rfl⟩ := Option.map_eq_some_iff.1 h
  unfold find
  rcases Nat.lt_or_ge e b.events.length with hlt | hge
  · rw [List.getElem?_set_self hlt]
    rfl
  · rw [List.getElem?_eq_none (by rw [List.length_set]; exact hge)]
    rfl

/-- Events in a list, as a library. -/
def library (ε : Type) : EventLibrary ε where
  Base := EventBase ε
  empty := ⟨[], fun _ => false⟩
  find := find
  pending := EventBase.pending
  new := new
  add b e success := b.setPending e true success
  del b e success := b.setPending e false success
  release := release
  find_empty _ := rfl
  new_failed _ _ := rfl
  new_made b x := ⟨_, _, rfl, b.find_length, b.find_append x _, rfl⟩
  add_gone b e added h := by rw [setPending, h, Option.map_none]
  add_made b e added x h := by
    refine ⟨_, by rw [setPending, h, Option.map_some], ?_, ?_⟩
    · split <;> rfl
    · split <;> rfl
  release_gone _ _ _ h := find_release h

/-- What fires from a list is decided by going through it. -/
theorem fires_iff (b : EventBase ε) (x : ε) : (library ε).Fires b x ↔
    ∃ e ∈ List.range b.events.length, b.find e = some x ∧ b.pending e = true := by
  constructor
  · rintro ⟨e, he, hp⟩
    refine ⟨e, ?_, he, hp⟩
    rw [List.mem_range]
    by_contra hge
    have hnone : b.find e = none := by
      rw [find, List.getElem?_eq_none (Nat.not_lt.1 hge)]
      rfl
    cases hnone.symm.trans he
  · rintro ⟨e, -, h⟩
    exact ⟨e, h⟩

instance [DecidableEq ε] (b : (library ε).Base) (x : ε) : Decidable ((library ε).Fires b x) :=
  decidable_of_iff _ (fires_iff b x).symm

end EventBase

end EventLoop
