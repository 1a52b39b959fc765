import Mathlib.Data.List.Nodup
import Mathlib.Data.Set.Insert

namespace FreeList

/-!
# Free lists — resources that are handed out and given back

A pool hands out the first of its free resources and puts what is given back behind the others.
Next to the free list stand the resources that have been handed out and not given back: nothing
but the free list decides what the pool does.

* `Exclusive.take` — from a free list without duplicates, what is handed out is held by nobody;
* `give_exclusive_iff` — the list stays so exactly when what is given back is not free already.
-/

variable {α : Type*}

/-- The free resources, and the ones that are held. -/
structure Pool (α : Type*) where
  free : List α
  held : Set α

namespace Pool

/-- Hand out the first free resource. -/
def take (p : Pool α) : Option α × Pool α :=
  match p.free with
  | [] => (none, p)
  | a :: free => (some a, ⟨free, insert a p.held⟩)

/-- Take a resource back. -/
def give (p : Pool α) (a : α) : Pool α := ⟨p.free ++ [a], p.held \ {a}⟩

/-- No resource is free twice, or free and held. -/
structure Exclusive (p : Pool α) : Prop where
  nodup : p.free.Nodup
  apart : ∀ a ∈ p.free, a ∉ p.held

variable {p q : Pool α} {a : α} {o : Option α}

/-- All resources free, none held. -/
theorem exclusive_of_nodup {free : List α} (h : free.Nodup) : (⟨free, ∅⟩ : Pool α).Exclusive where
  nodup := h
  apart _ _ := Set.notMem_empty _

/-- **Handing out.**  What is handed out was free and held by nobody, and is free no more. -/
theorem Exclusive.take (h : p.Exclusive) (htake : p.take = (o, q)) :
    (∀ a ∈ o, a ∈ p.free ∧ a ∉ p.held) ∧ q.Exclusive ∧ ∀ a ∈ q.free, a ∈ p.free := by
  rw [Pool.take] at htake
  -- with none free the pool stays as it is, and otherwise the first one leaves it
  rcases hfree : p.free with _ | ⟨b, free⟩
  · rw [hfree] at htake
    cases htake
    refine ⟨fun a ha => absurd ha (Option.not_mem_none a), h, fun a ha => ?_⟩
    rwa [hfree] at ha
  · rw [hfree] at htake
    cases htake
    have hnodup := h.nodup
    rw [hfree, List.nodup_cons] at hnodup
    have hapart := h.apart
    rw [hfree, List.forall_mem_cons] at hapart
    refine ⟨?_, ⟨hnodup.2, ?_⟩, fun a ha => List.mem_cons_of_mem b ha⟩
    · intro a ha
      cases ha
      exact ⟨List.mem_cons_self, hapart.1⟩
    · intro a ha
      rw [Set.mem_insert_iff, not_or]
      exact ⟨fun heq => hnodup.1 (heq ▸ ha), hapart.2 a ha⟩

/-- **Giving back.**  A resource may be given back exactly when it is not free already. -/
theorem give_exclusive_iff (h : p.Exclusive) : (p.give a).Exclusive ↔ a ∉ p.free := by
  constructor
  · intro hgive hmem
    have hnodup : (p.free ++ [a]).Nodup := hgive.nodup
    rw [List.nodup_append] at hnodup
    exact hnodup.2.2 a hmem a (List.mem_singleton_self a) rfl
  · intro hfree
    refine ⟨?_, ?_⟩
    · show (p.free ++ [a]).Nodup
      rw [List.nodup_append]
      refine ⟨h.nodup, List.nodup_singleton a, fun b hb c hc => ?_⟩
      rw [List.mem_singleton] at hc
      rw [hc]
      exact fun heq => hfree (heq ▸ hb)
    · intro b hb hheld
      rcases List.mem_append.1 hb with hmem | hmem
      · exact h.apart b hmem hheld.1
      · exact hheld.2 (List.mem_singleton.1 hmem)

end Pool

end FreeList
