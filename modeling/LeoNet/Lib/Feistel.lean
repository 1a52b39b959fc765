import Mathlib.Data.List.Forall2

namespace Feistel

/-!
# Feistel networks

A round mixes a function of one half and the round key into the other half and swaps the halves.
The function is arbitrary; the operation that mixes is one that undoes itself.

* `network_reverse` — run over the round keys in reverse, from the swapped result, a network
  gives back the swapped start;
* `network_congr` — networks whose rounds agree on related round keys agree;
* `network_rel` — networks over different halves, whose rounds keep a relation, keep it;
* `network_inv` — what a round keeps of both halves, a network keeps.
-/

variable {α κ κ' : Type*}

/-- One round: `(l, r)` becomes `(r, mix l (f r k))`. -/
def round (mix : α → α → α) (f : α → κ → α) (s : α × α) (k : κ) : α × α :=
  (s.2, mix s.1 (f s.2 k))

/-- The rounds, one for each key. -/
def network (mix : α → α → α) (f : α → κ → α) (keys : List κ) (s : α × α) : α × α :=
  keys.foldl (round mix f) s

variable {mix : α → α → α} {f : α → κ → α}

@[simp] theorem network_nil (s : α × α) : network mix f [] s = s := rfl

@[simp] theorem network_cons (k : κ) (ks : List κ) (s : α × α) :
    network mix f (k :: ks) s = network mix f ks (round mix f s k) := rfl

/-- The rounds of two lists of keys, one after the other. -/
theorem network_append (ks ks' : List κ) (s : α × α) :
    network mix f (ks ++ ks') s = network mix f ks' (network mix f ks s) :=
  List.foldl_append

/-- A round undoes itself on swapped halves. -/
theorem round_swap (hmix : ∀ x y, mix (mix x y) y = x) (s : α × α) (k : κ) :
    round mix f (round mix f s k).swap k = s.swap := by
  obtain ⟨l, r⟩ := s
  simp only [round, Prod.swap_prod_mk, hmix]

/-- **Inversion.**  Over the keys in reverse, a network undoes itself on swapped halves. -/
theorem network_reverse (hmix : ∀ x y, mix (mix x y) y = x) (keys : List κ) (s : α × α) :
    network mix f keys.reverse (network mix f keys s).swap = s.swap := by
  induction keys generalizing s with
  | nil => rfl
  | cons k ks ih =>
    rw [List.reverse_cons, network_append, network_cons k ks s, ih, network_cons, network_nil,
        round_swap hmix]

/-- **Agreement.**  Two round functions that agree on related keys give the same network over
    related lists of keys. -/
theorem network_congr {g : α → κ' → α} {Rel : κ → κ' → Prop}
    (hfg : ∀ x k k', Rel k k' → f x k = g x k') {keys : List κ} {keys' : List κ'}
    (h : List.Forall₂ Rel keys keys') (s : α × α) :
    network mix f keys s = network mix g keys' s := by
  induction h generalizing s with
  | nil => rfl
  | cons hk _ ih =>
    rw [network_cons, network_cons, ih, round, round, hfg _ _ _ hk]

/-- **Simulation.**  Two networks whose rounds keep a relation between their halves keep it over
    related lists of keys. -/
theorem network_rel {β : Type*} {mix' : β → β → β} {g : β → κ' → β} {R : α → β → Prop}
    {Rel : κ → κ' → Prop}
    (hround : ∀ l l' r r' k k', R l l' → R r r' → Rel k k' → R (mix l (f r k)) (mix' l' (g r' k')))
    {keys : List κ} {keys' : List κ'} (h : List.Forall₂ Rel keys keys') {s : α × α} {s' : β × β}
    (hs : R s.1 s'.1 ∧ R s.2 s'.2) :
    R (network mix f keys s).1 (network mix' g keys' s').1 ∧
      R (network mix f keys s).2 (network mix' g keys' s').2 := by
  refine List.rel_foldl (P := fun (s : α × α) (s' : β × β) => R s.1 s'.1 ∧ R s.2 s'.2) ?_ hs h
  rintro s s' ⟨hl, hr⟩ k k' hk
  exact ⟨hr, hround _ _ _ _ _ _ hl hr hk⟩

/-- **Invariant.**  What holds of both halves, and is kept by mixing in a round's value, holds of
    both halves of the result. -/
theorem network_inv {I : α → Prop} (hI : ∀ x y k, I x → I y → I (mix x (f y k))) (keys : List κ)
    {s : α × α} (hs : I s.1 ∧ I s.2) :
    I (network mix f keys s).1 ∧ I (network mix f keys s).2 := by
  induction keys generalizing s with
  | nil => exact hs
  | cons k ks ih => exact ih ⟨hs.2, hI _ _ _ hs.1 hs.2⟩

end Feistel
