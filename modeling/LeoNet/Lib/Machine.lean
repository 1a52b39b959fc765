import Mathlib.Data.List.Basic
import Mathlib.Data.List.ReduceOption

namespace Machine

/-!
# Deterministic machines — runs, step conditions, simulation

A machine is a partial step function `σ → ι → Option (ο × σ)`: from a state and an input, an
output and the next state.  `none` says that the step is not defined there.

* `AllSteps` / `AllTransitions` — a condition on every step of a run before it is made, a
  promise about every step once it is;
* `run_defined` — steps that are defined in every state make up runs that are;
* `AllTransitions.of_allSteps` — the invariant rule: steps that meet the condition keep the
  invariant and the promise;
* `allSteps_congr` — conditions that an invariant makes equivalent are so along a run;
* `allTransitions_iff_allSteps` — when the condition is exactly what one step needs for the
  promise, it is exactly what a run needs, also where it does not go through
  (`allTransitions_iff_allSteps_of_none`); `forall_outputs_iff` — the same for promises about
  the outputs alone, without an invariant;
* `run_inv` / `run_inv_history` / `forall_outputs_of_inv` — the invariant rule for the end of a run,
  with the outputs before it, and for the outputs themselves;
* `run_isSome_iff_allSteps` — when a run goes through;
* `run_history_iff` — what a run has made true by steps that never make it false;
* `run_counts` — steps that count, or change nothing, put out what is expected in order;
* `simulation` — a step-by-step simulation carries over to runs, outputs included.
-/

variable {σ τ ι ο : Type*}

/-- Feed a list of inputs, collecting the outputs. -/
def run (step : σ → ι → Option (ο × σ)) (s : σ) : List ι → Option (List ο × σ)
  | [] => some ([], s)
  | i :: is => (step s i).bind fun r => (run step r.2 is).map fun q => (r.1 :: q.1, q.2)

/-- `C` holds at every step of the run from `s`. -/
def AllSteps (step : σ → ι → Option (ο × σ)) (C : σ → ι → Prop) (s : σ) : List ι → Prop
  | [] => True
  | i :: is => C s i ∧
    match step s i with
    | none => True
    | some r => AllSteps step C r.2 is

/-- `R` holds of every step that the run from `s` makes. -/
def AllTransitions (step : σ → ι → Option (ο × σ)) (R : σ → ι → ο → σ → Prop) (s : σ) :
    List ι → Prop
  | [] => True
  | i :: is =>
    match step s i with
    | none => True
    | some r => R s i r.1 r.2 ∧ AllTransitions step R r.2 is

variable {step : σ → ι → Option (ο × σ)} {C V : σ → ι → Prop} {R : σ → ι → ο → σ → Prop}
  {I : σ → Prop}

instance decidableAllSteps [∀ s i, Decidable (C s i)] :
    (s : σ) → (is : List ι) → Decidable (AllSteps step C s is)
  | _, [] => inferInstanceAs (Decidable True)
  | s, i :: is =>
    @instDecidableAnd (C s i) _ inferInstance <|
      match step s i with
      | none => inferInstanceAs (Decidable True)
      | some r => decidableAllSteps r.2 is

instance decidableAllTransitions [∀ s i o t, Decidable (R s i o t)] :
    (s : σ) → (is : List ι) → Decidable (AllTransitions step R s is)
  | _, [] => inferInstanceAs (Decidable True)
  | s, i :: is =>
    match h : step s i with
    | none => decidable_of_iff True (by rw [AllTransitions, h])
    | some r =>
      @decidable_of_iff _ (R s i r.1 r.2 ∧ AllTransitions step R r.2 is)
        (by rw [AllTransitions, h])
        (@instDecidableAnd _ _ inferInstance (decidableAllTransitions r.2 is))

@[simp] theorem run_nil (s : σ) : run step s [] = some ([], s) := rfl

/-- One step of a run, inverted. -/
theorem run_cons_eq_some {s u : σ} {i : ι} {is : List ι} {os : List ο} :
    run step s (i :: is) = some (os, u) ↔
      ∃ o t os', step s i = some (o, t) ∧ run step t is = some (os', u) ∧ os = o :: os' := by
  constructor
  · intro h
    rw [run, Option.bind_eq_some_iff] at h
    obtain ⟨⟨o, t⟩, hstep, h⟩ := h
    rw [Option.map_eq_some_iff] at h
    obtain ⟨⟨os', u'⟩, hrun, h⟩ := h
    cases h
    exact ⟨o, t, os', hstep, hrun, rfl⟩
  · rintro ⟨o, t, os', hstep, hrun, rfl⟩
    rw [run, hstep, Option.bind_some, hrun]
    rfl

/-- Two runs, one starting where the other ends, are one run. -/
theorem run_append_eq_some {s t u : σ} {is js : List ι} {os₁ os₂ : List ο}
    (h₁ : run step s is = some (os₁, t)) (h₂ : run step t js = some (os₂, u)) :
    run step s (is ++ js) = some (os₁ ++ os₂, u) := by
  induction is generalizing s os₁ with
  | nil =>
    cases h₁
    exact h₂
  | cons i is ih =>
    obtain ⟨o, r, os', hstep, hrun, rfl⟩ := run_cons_eq_some.mp h₁
    exact run_cons_eq_some.mpr ⟨o, r, os' ++ os₂, hstep, ih hrun, rfl⟩

/-- A run, cut in two. -/
theorem run_append_inv {s u : σ} {is js : List ι} {os : List ο}
    (h : run step s (is ++ js) = some (os, u)) :
    ∃ os₁ t os₂, run step s is = some (os₁, t) ∧ run step t js = some (os₂, u) ∧
      os = os₁ ++ os₂ := by
  induction is generalizing s os with
  | nil => exact ⟨[], s, os, rfl, h, rfl⟩
  | cons i is ih =>
    obtain ⟨o, r, os', hstep, hrun, rfl⟩ := run_cons_eq_some.mp h
    obtain ⟨os₁, t, os₂, h₁, h₂, rfl⟩ := ih hrun
    exact ⟨o :: os₁, t, os₂, run_cons_eq_some.mpr ⟨o, r, os₁, hstep, h₁, rfl⟩, h₂, rfl⟩

/-- A run is defined when each of its inputs is, in every state. -/
theorem run_defined {is : List ι} (h : ∀ i ∈ is, ∀ s, ∃ o t, step s i = some (o, t)) (s : σ) :
    ∃ os t, run step s is = some (os, t) := by
  induction is generalizing s with
  | nil => exact ⟨[], s, rfl⟩
  | cons i is ih =>
    rw [List.forall_mem_cons] at h
    obtain ⟨o, t, hstep⟩ := h.1 s
    obtain ⟨os, u, hrun⟩ := ih h.2 t
    exact ⟨o :: os, u, run_cons_eq_some.mpr ⟨o, t, os, hstep, hrun, rfl⟩⟩

theorem AllSteps.head {s : σ} {i : ι} {is : List ι} (h : AllSteps step C s (i :: is)) : C s i :=
  h.1

/-- The steps behind a first part of a run. -/
theorem AllSteps.of_append {s t : σ} {is js : List ι} {os : List ο}
    (h : AllSteps step C s (is ++ js)) (hrun : run step s is = some (os, t)) :
    AllSteps step C s is ∧ AllSteps step C t js := by
  induction is generalizing s os with
  | nil =>
    cases hrun
    exact ⟨trivial, h⟩
  | cons i is ih =>
    obtain ⟨o, r, os', hstep, hrun', rfl⟩ := run_cons_eq_some.mp hrun
    rw [List.cons_append, AllSteps, hstep] at h
    obtain ⟨h₁, h₂⟩ := ih h.2 hrun'
    rw [AllSteps, hstep]
    exact ⟨⟨h.1, h₁⟩, h₂⟩

theorem AllSteps.tail {s t : σ} {i : ι} {is : List ι} {o : ο} (h : AllSteps step C s (i :: is))
    (hstep : step s i = some (o, t)) : AllSteps step C t is := by
  have h' := h.2
  rw [hstep] at h'
  exact h'

/-- A condition on the inputs alone holds at every step when it holds of every input. -/
theorem AllSteps.and_forall {P : ι → Prop} {s : σ} {is : List ι} (h : AllSteps step C s is)
    (hP : ∀ i ∈ is, P i) : AllSteps step (fun s i => C s i ∧ P i) s is := by
  induction is generalizing s with
  | nil => trivial
  | cons i is ih =>
    obtain ⟨hi, his⟩ := List.forall_mem_cons.1 hP
    refine ⟨⟨h.head, hi⟩, ?_⟩
    cases hstep : step s i with
    | none => trivial
    | some r => exact ih (h.tail hstep) his

/-- A condition that always holds holds at every step. -/
theorem AllSteps.of_forall (h : ∀ s i, C s i) (s : σ) (is : List ι) : AllSteps step C s is := by
  induction is generalizing s with
  | nil => trivial
  | cons i is ih =>
    refine ⟨h s i, ?_⟩
    cases step s i with
    | none => trivial
    | some r => exact ih r.2

/-- **Equivalent conditions.**  Conditions that say the same of states with an invariant that
    every step keeps say the same of a run that starts with it. -/
theorem allSteps_congr {D : σ → ι → Prop} (hCD : ∀ s i, I s → (C s i ↔ D s i))
    (hkeep : ∀ s i o t, I s → step s i = some (o, t) → I t) {s : σ} (hI : I s) (is : List ι) :
    AllSteps step C s is ↔ AllSteps step D s is := by
  induction is generalizing s with
  | nil => exact Iff.rfl
  | cons i is ih =>
    rw [AllSteps, AllSteps, hCD s i hI]
    refine and_congr_right fun _ => ?_
    rcases hstep : step s i with _ | ⟨o, t⟩
    · exact Iff.rfl
    · exact ih (hkeep s i o t hI hstep)

/-- A weaker promise is kept as well. -/
theorem AllTransitions.mono {Q : σ → ι → ο → σ → Prop} (hR : ∀ s i o t, R s i o t → Q s i o t)
    {s : σ} {is : List ι} (h : AllTransitions step R s is) : AllTransitions step Q s is := by
  induction is generalizing s with
  | nil => trivial
  | cons i is ih =>
    rw [AllTransitions] at h ⊢
    cases hstep : step s i with
    | none => trivial
    | some r =>
      rw [hstep] at h
      exact ⟨hR s i r.1 r.2 h.1, ih h.2⟩

/-- **Invariant rule.**  If steps that meet the condition keep an invariant and a promise, the
    promise is kept by every run that starts with the invariant and meets the condition. -/
theorem AllTransitions.of_allSteps {s : σ} {is : List ι}
    (hkeep : ∀ s i o t, I s → C s i → step s i = some (o, t) → R s i o t ∧ I t) (hI : I s)
    (h : AllSteps step C s is) : AllTransitions step R s is := by
  induction is generalizing s with
  | nil => trivial
  | cons i is ih =>
    rw [AllTransitions]
    cases hstep : step s i with
    | none => trivial
    | some r =>
      obtain ⟨hR, hIt⟩ := hkeep s i r.1 r.2 hI h.head hstep
      exact ⟨hR, ih hIt (h.tail hstep)⟩

/-- **Invariants.**  What the steps that meet the condition keep holds at the end of a run. -/
theorem run_inv {s t : σ} {is : List ι} {os : List ο}
    (hkeep : ∀ s i o t, I s → C s i → step s i = some (o, t) → I t) (hI : I s)
    (h : AllSteps step C s is) (hrun : run step s is = some (os, t)) : I t := by
  induction is generalizing s os with
  | nil =>
    cases hrun
    exact hI
  | cons i is ih =>
    obtain ⟨o, u, os', hstep, hrun', rfl⟩ := run_cons_eq_some.mp hrun
    exact ih (hkeep s i o u hI h.head hstep) (h.tail hstep) hrun'

/-- **Invariants with a history.**  The same for an invariant that also speaks of the outputs so
    far. -/
theorem run_inv_history {J : List ο → σ → Prop} {s t : σ} {is : List ι} {past os : List ο}
    (hkeep : ∀ past s i o t, J past s → C s i → step s i = some (o, t) → J (past ++ [o]) t)
    (hJ : J past s) (h : AllSteps step C s is) (hrun : run step s is = some (os, t)) :
    J (past ++ os) t := by
  induction is generalizing s past os with
  | nil =>
    cases hrun
    rwa [List.append_nil]
  | cons i is ih =>
    obtain ⟨o, u, os', hstep, hrun', rfl⟩ := run_cons_eq_some.mp hrun
    have hrest := ih (hkeep past s i o u hJ h.head hstep) (h.tail hstep) hrun'
    rwa [List.append_assoc] at hrest

/-- Outputs that the steps from states with an invariant put out. -/
theorem forall_outputs_of_inv {Q : ο → Prop} {s t : σ} {is : List ι} {os : List ο}
    (hkeep : ∀ s i o t, I s → C s i → step s i = some (o, t) → Q o ∧ I t) (hI : I s)
    (h : AllSteps step C s is) (hrun : run step s is = some (os, t)) : ∀ o ∈ os, Q o := by
  induction is generalizing s os with
  | nil =>
    cases hrun
    exact fun o ho => absurd ho List.not_mem_nil
  | cons i is ih =>
    obtain ⟨o, u, os', hstep, hrun', rfl⟩ := run_cons_eq_some.mp hrun
    obtain ⟨hQ, hIu⟩ := hkeep s i o u hI h.head hstep
    exact List.forall_mem_cons.2 ⟨hQ, ih hIu (h.tail hstep) hrun'⟩

/-- **History.**  If a step makes `P` true exactly when `E` holds of it, and never makes it false,
    `P` holds at the end of a run exactly when it did at the start or `E` held of some step. -/
theorem run_history_iff {P : σ → Prop} {E : σ → ι → Prop} {s t : σ} {is : List ι} {os : List ο}
    (hstep : ∀ s i o t, I s → V s i → step s i = some (o, t) → (P t ↔ P s ∨ E s i) ∧ I t)
    (hI : I s) (hV : AllSteps step V s is) (hrun : run step s is = some (os, t)) :
    P t ↔ P s ∨ ∃ before i after outs u, is = before ++ i :: after ∧
      run step s before = some (outs, u) ∧ E u i := by
  induction is generalizing s os with
  | nil =>
    cases hrun
    refine ⟨Or.inl, fun h => h.resolve_right ?_⟩
    rintro ⟨before, i, after, outs, u, hsplit, -, -⟩
    exact absurd hsplit.symm (List.append_ne_nil_of_right_ne_nil _ (List.cons_ne_nil i after))
  | cons i is ih =>
    obtain ⟨o, v, os', hs, hrun', rfl⟩ := run_cons_eq_some.mp hrun
    obtain ⟨hP, hIv⟩ := hstep s i o v hI hV.head hs
    rw [ih hIv (hV.tail hs) hrun', hP, or_assoc]
    refine or_congr_right ⟨?_, ?_⟩
    · rintro (hE | ⟨before, j, after, outs, u, rfl, hbefore, hE⟩)
      · exact ⟨[], i, is, [], s, rfl, rfl, hE⟩
      · exact ⟨i :: before, j, after, o :: outs, u, rfl,
          run_cons_eq_some.mpr ⟨o, v, outs, hs, hbefore, rfl⟩, hE⟩
    · rintro ⟨before, j, after, outs, u, hsplit, hbefore, hE⟩
      -- the step in question is the first one, or one behind it
      rcases before with _ | ⟨k, before⟩
      · cases hbefore
        cases hsplit
        exact Or.inl hE
      · cases hsplit
        obtain ⟨o', v', outs', hs', hbefore', rfl⟩ := run_cons_eq_some.mp hbefore
        cases hs.symm.trans hs'
        exact Or.inr ⟨before, j, after, outs', u, rfl, hbefore', hE⟩

/-- What every step keeps, every run does. -/
theorem AllTransitions.of_forall (h : ∀ s i o t, step s i = some (o, t) → R s i o t) (s : σ)
    (is : List ι) : AllTransitions step R s is :=
  AllTransitions.of_allSteps (I := fun _ => True) (C := fun _ _ => True)
    (fun s i o t _ _ hstep => ⟨h s i o t hstep, trivial⟩) trivial
    (AllSteps.of_forall (fun _ _ => trivial) s is)

/-- **Exact condition.**  Suppose that, from states with the invariant and for the inputs that
    `V` allows, a step keeps the promise exactly when it meets the condition, and then keeps the
    invariant; and that a step that is not defined meets it.  Then a run, followed as far as it
    goes, keeps the promise exactly when all its steps meet the condition. -/
theorem allTransitions_iff_allSteps_of_none {s : σ} {is : List ι}
    (hstep : ∀ s i o t, I s → V s i → step s i = some (o, t) →
      (R s i o t ↔ C s i) ∧ (C s i → I t))
    (hnone : ∀ s i, V s i → step s i = none → C s i) (hI : I s) (hV : AllSteps step V s is) :
    AllTransitions step R s is ↔ AllSteps step C s is := by
  induction is generalizing s with
  | nil => exact Iff.rfl
  | cons i is ih =>
    rw [AllTransitions, AllSteps]
    rcases hs : step s i with _ | ⟨o, t⟩
    · -- nothing behind this step is looked at
      exact iff_of_true trivial ⟨hnone s i hV.head hs, trivial⟩
    · obtain ⟨hiff, hIt⟩ := hstep s i o t hI hV.head hs
      show R s i o t ∧ AllTransitions step R t is ↔ C s i ∧ AllSteps step C t is
      rw [hiff]
      exact and_congr_right fun hC => ih (hIt hC) (hV.tail hs)

/-- Every step of a run that goes through is defined. -/
theorem AllSteps.and_isSome {s u : σ} {is : List ι} {os : List ο} (h : AllSteps step V s is)
    (hrun : run step s is = some (os, u)) :
    AllSteps step (fun s i => V s i ∧ (step s i).isSome) s is := by
  induction is generalizing s os with
  | nil => trivial
  | cons i is ih =>
    obtain ⟨o, t, os', hs, hrun', rfl⟩ := run_cons_eq_some.mp hrun
    rw [AllSteps, hs]
    exact ⟨⟨h.head, rfl⟩, ih (h.tail hs) hrun'⟩

/-- The same for a run that goes through. -/
theorem allTransitions_iff_allSteps {s u : σ} {is : List ι} {os : List ο}
    (hstep : ∀ s i o t, I s → V s i → step s i = some (o, t) →
      (R s i o t ↔ C s i) ∧ (C s i → I t))
    (hI : I s) (hV : AllSteps step V s is) (hrun : run step s is = some (os, u)) :
    AllTransitions step R s is ↔ AllSteps step C s is := by
  refine allTransitions_iff_allSteps_of_none (fun s i o t hI hV => hstep s i o t hI hV.1) ?_ hI
    (hV.and_isSome hrun)
  intro s i hV hnone
  rw [hnone] at hV
  cases hV.2

/-- **Exact condition on outputs.**  If a step's output is good exactly when the step meets `C`,
    all outputs of a run are good exactly when all its steps meet `C`. -/
theorem forall_outputs_iff {Q : ο → Prop} {s u : σ} {is : List ι} {os : List ο}
    (hstep : ∀ s i o t, step s i = some (o, t) → (Q o ↔ C s i))
    (hrun : run step s is = some (os, u)) : (∀ o ∈ os, Q o) ↔ AllSteps step C s is := by
  induction is generalizing s os with
  | nil =>
    cases hrun
    exact iff_of_true (fun o ho => absurd ho List.not_mem_nil) trivial
  | cons i is ih =>
    obtain ⟨o, t, os', hs, hrun', rfl⟩ := run_cons_eq_some.mp hrun
    rw [List.forall_mem_cons, hstep s i o t hs, ih hrun', AllSteps, hs]

/-- **Counting.**  Suppose that a step from the state of count `j` either puts out what is expected
    at `j` and counts on, or puts out nothing and changes nothing.  Then a run puts out what is
    expected in order, and ends in the state of as many counts more. -/
theorem run_counts {α β : Type*} {step : σ → ι → Option (Option α × σ)} {state : ℕ → σ}
    {key : α → β} {expected : ℕ → β}
    (hstep : ∀ j i o t, step (state j) i = some (o, t) →
      (∃ x, o = some x ∧ key x = expected j ∧ t = state (j + 1)) ∨ (o = none ∧ t = state j))
    {j : ℕ} {is : List ι} {os : List (Option α)} {t : σ}
    (hrun : run step (state j) is = some (os, t)) :
    t = state (j + os.reduceOption.length) ∧
      os.reduceOption.map key = (List.range' j os.reduceOption.length).map expected := by
  induction is generalizing j os with
  | nil =>
    cases hrun
    exact ⟨rfl, rfl⟩
  | cons i is ih =>
    obtain ⟨o, u, os', hs, hrun', rfl⟩ := run_cons_eq_some.mp hrun
    -- a step that puts out nothing leaves the count as well
    rcases hstep j i o u hs with ⟨x, rfl, hx, rfl⟩ | ⟨rfl, rfl⟩
    · obtain ⟨ht, hkeys⟩ := ih hrun'
      rw [List.reduceOption_cons_of_some, List.length_cons, List.map_cons, List.range'_succ,
          List.map_cons, hx, hkeys, ht]
      exact ⟨congrArg state (by omega), rfl⟩
    · rw [List.reduceOption_cons_of_none]
      exact ih hrun'

/-- Outputs that only say of their input what holds of all inputs. -/
theorem forall_outputs_of_inputs {P : ι → Prop} {Q : ο → Prop} {s u : σ} {is : List ι}
    {os : List ο} (hstep : ∀ s i o t, step s i = some (o, t) → P i → Q o)
    (hP : ∀ i ∈ is, P i) (hrun : run step s is = some (os, u)) : ∀ o ∈ os, Q o := by
  induction is generalizing s os with
  | nil =>
    cases hrun
    exact fun o ho => absurd ho List.not_mem_nil
  | cons i is ih =>
    obtain ⟨o, t, os', hs, hrun', rfl⟩ := run_cons_eq_some.mp hrun
    rw [List.forall_mem_cons] at hP ⊢
    exact ⟨hstep s i o t hs hP.1, ih hP.2 hrun'⟩

/-- **Simulation.**  If every step of the specification is matched by a step with the same
    output, every run of the specification is matched by a run with the same outputs. -/
theorem simulation {spec : τ → ι → Option (ο × τ)} {Q : σ → τ → Prop}
    (hsim : ∀ s q i o q', Q s q → spec q i = some (o, q') → ∃ t, step s i = some (o, t) ∧ Q t q')
    {s : σ} {q q' : τ} {is : List ι} {os : List ο} (hQ : Q s q)
    (hrun : run spec q is = some (os, q')) : ∃ t, run step s is = some (os, t) ∧ Q t q' := by
  induction is generalizing s q os with
  | nil =>
    cases hrun
    exact ⟨s, rfl, hQ⟩
  | cons i is ih =>
    obtain ⟨o, p, os', hspec, hrun', rfl⟩ := run_cons_eq_some.mp hrun
    obtain ⟨t, hstep, hQt⟩ := hsim s q i o p hQ hspec
    obtain ⟨u, hu, hQu⟩ := ih hQt hrun'
    exact ⟨u, run_cons_eq_some.mpr ⟨o, t, os', hstep, hu, rfl⟩, hQu⟩

end Machine
