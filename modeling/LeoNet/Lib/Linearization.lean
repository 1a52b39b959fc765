import LeoNet.Lib.Machine

open Machine

namespace Linearization

/-!
# Linearization points

A concurrent object is called by threads, each of which makes one call after the other; the steps of
different threads come in any order.  The object is linearizable when every call takes effect at one
of its own steps: when all its calls have, in the order in which they take effect, the results of an
atomic object.

* `agrees_history` — from what each step does to the calls of its own thread, what every history has
  to say about each thread;
* `linearized` — the simulation rule: steps at which a call takes effect are steps of the atomic
  object, and all others are none.
-/

variable {σ ι θ ω ρ τ : Type*}

/-- What a step does to the calls of its thread. -/
inductive Move (ω ρ : Type*) where
  | silent
  | begins (op : ω)
  | effect (op : ω) (r : ρ)
  | returns (r : ρ)
  /-- a call takes effect and returns -/
  | ends (op : ω) (r : ρ)

/-- What a thread is doing between two steps. -/
inductive Phase (ω ρ : Type*) where
  | idle
  | before (op : ω)
  | after (op : ω) (r : ρ)

/-- A step takes its thread from one phase to another. -/
inductive Phase.Moves : Phase ω ρ → Move ω ρ → Phase ω ρ → Prop
  | silent (p : Phase ω ρ) : Moves p .silent p
  | begins (op : ω) : Moves .idle (.begins op) (.before op)
  | effect (op : ω) (r : ρ) : Moves (.before op) (.effect op r) (.after op r)
  | returns (op : ω) (r : ρ) : Moves (.after op r) (.returns r) .idle
  | ends (op : ω) (r : ρ) : Moves (.before op) (.ends op r) .idle

namespace Move

/-- The call that a step begins. -/
def begun : Move ω ρ → List ω
  | .begins op => [op]
  | .silent | .effect _ _ | .returns _ | .ends _ _ => []

/-- The call that takes effect, with its result. -/
def took : Move ω ρ → List (ω × ρ)
  | .effect op r | .ends op r => [(op, r)]
  | .silent | .begins _ | .returns _ => []

/-- What the call returns that a step ends. -/
def returned : Move ω ρ → List ρ
  | .returns r | .ends _ r => [r]
  | .silent | .begins _ | .effect _ _ => []

/-- The atomic object makes the call that takes effect, with the same result; `post` holds of what
    it is then. -/
def Leaves (atomic : τ → ω → ρ × τ) (q : τ) (post : τ → Prop) : Move ω ρ → Prop
  | .effect op r | .ends op r => (atomic q op).1 = r ∧ post (atomic q op).2
  | .silent | .begins _ | .returns _ => post q

/-- What a move takes, and what it leaves. -/
theorem Leaves.took {atomic : τ → ω → ρ × τ} {q : τ} {post : τ → Prop} {m : Move ω ρ}
    (h : m.Leaves atomic q post) : (m.took = [] ∧ post q) ∨
      ∃ op r, m.took = [(op, r)] ∧ (atomic q op).1 = r ∧ post (atomic q op).2 := by
  cases m with
  | silent => exact Or.inl ⟨rfl, h⟩
  | begins op => exact Or.inl ⟨rfl, h⟩
  | effect op r => exact Or.inr ⟨op, r, rfl, h⟩
  | returns r => exact Or.inl ⟨rfl, h⟩
  | ends op r => exact Or.inr ⟨op, r, rfl, h⟩

end Move

/-- A concurrent object: its steps, the threads that make them, what they do to the calls, and what
    each thread is doing. -/
structure ConcurrentObject (σ ι θ ω ρ : Type*) where
  step : σ → ι → σ
  thread : ι → θ
  move : σ → ι → Move ω ρ
  phase : σ → θ → Phase ω ρ

/-! ### Histories -/

/-- The moves of a run, each with its thread. -/
def history (C : ConcurrentObject σ ι θ ω ρ) (s : σ) : List ι → List (θ × Move ω ρ)
  | [] => []
  | i :: is => (C.thread i, C.move s i) :: history C (C.step s i) is

/-- The calls of all threads, in the order in which they take effect, with their results. -/
def effects (h : List (θ × Move ω ρ)) : List (ω × ρ) := h.flatMap (·.2.took)

section Threads

variable [DecidableEq θ]

/-- The moves of one thread. -/
def movesOf (t : θ) (h : List (θ × Move ω ρ)) : List (Move ω ρ) :=
  (h.filter (·.1 = t)).map (·.2)

/-- The calls that a thread has begun. -/
def begun (t : θ) (h : List (θ × Move ω ρ)) : List ω := (movesOf t h).flatMap Move.begun

/-- Its calls that have taken effect, with their results. -/
def took (t : θ) (h : List (θ × Move ω ρ)) : List (ω × ρ) := (movesOf t h).flatMap Move.took

/-- What its calls have returned. -/
def returned (t : θ) (h : List (θ × Move ω ρ)) : List ρ := (movesOf t h).flatMap Move.returned

/-- The calls of a history have the results of an atomic object that starts as `q` and ends as `q'`.
    At every moment before, the calls that returned have taken effect, and those that took effect
    have begun: a call that returned before another began takes effect before it. -/
structure Linearized (atomic : τ → ω → ρ × τ) (q : τ) (h : List (θ × Move ω ρ)) (q' : τ) : Prop where
  results : run (fun q op => some (atomic q op)) q ((effects h).map Prod.fst) =
    some ((effects h).map Prod.snd, q')
  order : ∀ past, past <+: h → ∀ t, returned t past <+: (took t past).map Prod.snd ∧
    (took t past).map Prod.fst <+: begun t past ∧
    (begun t past).length ≤ (returned t past).length + 1

end Threads

/-! ### What each thread has done -/

/-- What a thread has done, by what it is doing. -/
def Phase.Agrees (begun : List ω) (took : List (ω × ρ)) (returned : List ρ) : Phase ω ρ → Prop
  | .idle => begun = took.map Prod.fst ∧ returned = took.map Prod.snd
  | .before op => begun = took.map Prod.fst ++ [op] ∧ returned = took.map Prod.snd
  | .after _ r => begun = took.map Prod.fst ∧ took.map Prod.snd = returned ++ [r]

/-- A move keeps a call in step with its log. -/
theorem Phase.Agrees.moves {bs : List ω} {ts : List (ω × ρ)} {rs : List ρ} {p p' : Phase ω ρ}
    {m : Move ω ρ} (h : p.Agrees bs ts rs) (hm : p.Moves m p') :
    p'.Agrees (bs ++ m.begun) (ts ++ m.took) (rs ++ m.returned) := by
  cases hm with
  | silent =>
    rw [Move.begun, Move.took, Move.returned, List.append_nil, List.append_nil, List.append_nil]
    exact h
  | begins op =>
    obtain ⟨rfl, rfl⟩ := h
    exact ⟨by rw [Move.took, List.append_nil]; rfl, by
      rw [Move.took, Move.returned, List.append_nil, List.append_nil]⟩
  | effect op r =>
    obtain ⟨rfl, rfl⟩ := h
    exact ⟨by rw [Move.begun, List.append_nil, List.map_append]; rfl, by
      rw [Move.returned, List.append_nil, List.map_append]; rfl⟩
  | returns op r =>
    obtain ⟨rfl, htook⟩ := h
    exact ⟨by rw [Move.begun, Move.took, List.append_nil, List.append_nil], by
      rw [Move.took, List.append_nil, htook]; rfl⟩
  | ends op r =>
    obtain ⟨rfl, rfl⟩ := h
    exact ⟨by rw [Move.begun, List.append_nil, List.map_append]; rfl, by
      rw [List.map_append]; rfl⟩

/-- A thread that agrees has at most one call under way. -/
theorem Phase.Agrees.order {bs : List ω} {ts : List (ω × ρ)} {rs : List ρ} {p : Phase ω ρ}
    (h : p.Agrees bs ts rs) : rs <+: ts.map Prod.snd ∧ ts.map Prod.fst <+: bs ∧
      bs.length ≤ rs.length + 1 := by
  cases p with
  | idle =>
    obtain ⟨rfl, rfl⟩ := h
    refine ⟨List.prefix_rfl, List.prefix_rfl, ?_⟩
    rw [List.length_map, List.length_map]
    exact Nat.le_succ _
  | before op =>
    obtain ⟨rfl, rfl⟩ := h
    refine ⟨List.prefix_rfl, List.prefix_append _ _, ?_⟩
    rw [List.length_append, List.length_map, List.length_map]
    exact Nat.le_refl _
  | after op r =>
    obtain ⟨rfl, htook⟩ := h
    refine ⟨htook ▸ List.prefix_append _ _, List.prefix_rfl, ?_⟩
    have hlen := congrArg List.length htook
    rw [List.length_map, List.length_append, List.length_singleton] at hlen
    rw [List.length_map]
    exact Nat.le_of_eq hlen

section Rules

variable {C : ConcurrentObject σ ι θ ω ρ} {I : σ → Prop}

/-- Each step keeps the invariant, moves its thread as it says, and no other thread. -/
structure ConcurrentObject.Moves (C : ConcurrentObject σ ι θ ω ρ) (I : σ → Prop) : Prop where
  inv : ∀ s i, I s → I (C.step s i)
  own : ∀ s i, I s → (C.phase s (C.thread i)).Moves (C.move s i) (C.phase (C.step s i) (C.thread i))
  others : ∀ s i t, I s → t ≠ C.thread i → C.phase (C.step s i) t = C.phase s t

/-- The calls that take effect are steps of the atomic object, with the same results, and nothing
    else changes what the state stands for. -/
def ConcurrentObject.Refines (C : ConcurrentObject σ ι θ ω ρ) (I : σ → Prop)
    (atomic : τ → ω → ρ × τ) (R : σ → τ → Prop) : Prop :=
  ∀ s i q, I s → R s q → (C.move s i).Leaves atomic q (R (C.step s i))

/-- The history of the first steps. -/
theorem history_take (s : σ) (is : List ι) (k : ℕ) :
    (history C s is).take k = history C s (is.take k) := by
  induction is generalizing s k with
  | nil => rw [history, List.take_nil, List.take_nil, history]
  | cons i is ih =>
    cases k with
    | zero => rfl
    | succ k => rw [history, List.take_succ_cons, List.take_succ_cons, history, ih]

/-- **Threads.**  From what every thread has done before, what it has done after a run. -/
theorem agrees_history [DecidableEq θ] (hC : C.Moves I) {s : σ} (is : List ι) (hI : I s)
    {bs : θ → List ω} {ts : θ → List (ω × ρ)} {rs : θ → List ρ}
    (h : ∀ t, (C.phase s t).Agrees (bs t) (ts t) (rs t)) (t : θ) :
    (C.phase (is.foldl C.step s) t).Agrees (bs t ++ begun t (history C s is))
      (ts t ++ took t (history C s is)) (rs t ++ returned t (history C s is)) := by
  induction is generalizing s bs ts rs with
  | nil =>
    rw [history, begun, took, returned, movesOf]
    simpa using h t
  | cons i is ih =>
    -- one step later, its thread has moved
    have hstep (u : θ) : (C.phase (C.step s i) u).Agrees
        (bs u ++ begun u [(C.thread i, C.move s i)]) (ts u ++ took u [(C.thread i, C.move s i)])
        (rs u ++ returned u [(C.thread i, C.move s i)]) := by
      by_cases hu : u = C.thread i
      · subst hu
        have hmoves := (h (C.thread i)).moves (hC.own s i hI)
        simpa [begun, took, returned, movesOf] using hmoves
      · rw [hC.others s i u hI hu]
        have hne : ¬ C.thread i = u := fun heq => hu heq.symm
        simpa [begun, took, returned, movesOf, hne] using h u
    have hsplit : history C s (i :: is) =
        [(C.thread i, C.move s i)] ++ history C (C.step s i) is := rfl
    have hrest := ih (hC.inv s i hI) hstep
    rw [hsplit, begun, took, returned, movesOf, List.filter_append, List.map_append,
        List.flatMap_append, List.flatMap_append, List.flatMap_append, ← List.append_assoc,
        ← List.append_assoc, ← List.append_assoc]
    exact hrest

/-- **Results.**  The calls have the results of the atomic object. -/
theorem results_history {atomic : τ → ω → ρ × τ} {R : σ → τ → Prop} (hC : C.Moves I)
    (href : C.Refines I atomic R) {s : σ} {q : τ} (is : List ι) (hI : I s) (hR : R s q) :
    ∃ q', run (fun q op => some (atomic q op)) q ((effects (history C s is)).map Prod.fst) =
        some ((effects (history C s is)).map Prod.snd, q') ∧ R (is.foldl C.step s) q' := by
  induction is generalizing s q with
  | nil => exact ⟨q, rfl, hR⟩
  | cons i is ih =>
    have hsplit : effects (history C s (i :: is)) =
        (C.move s i).took ++ effects (history C (C.step s i) is) := rfl
    rcases (href s i q hI hR).took with ⟨hnone, hquiet⟩ | ⟨op, r, hsome, hr, hnext⟩
    · obtain ⟨q', hrun, hR'⟩ := ih (hC.inv s i hI) hquiet
      refine ⟨q', ?_, hR'⟩
      rw [hsplit, hnone, List.nil_append]
      exact hrun
    · obtain ⟨q', hrun, hR'⟩ := ih (hC.inv s i hI) hnext
      refine ⟨q', ?_, hR'⟩
      rw [hsplit, hsome, List.singleton_append, List.map_cons, List.map_cons]
      exact run_cons_eq_some.2 ⟨r, (atomic q op).2, _, by rw [← hr], hrun, rfl⟩

/-- **Simulation.**  When all threads are idle at the start, every run is linearized. -/
theorem linearized [DecidableEq θ] {atomic : τ → ω → ρ × τ} {R : σ → τ → Prop} (hC : C.Moves I)
    (href : C.Refines I atomic R) {s : σ} {q : τ} (is : List ι) (hI : I s) (hR : R s q)
    (hidle : ∀ t, C.phase s t = .idle) :
    ∃ q', Linearized atomic q (history C s is) q' ∧ R (is.foldl C.step s) q' := by
  obtain ⟨q', hrun, hR'⟩ := results_history hC href is hI hR
  refine ⟨q', ⟨hrun, fun past hpast t => ?_⟩, hR'⟩
  -- what has happened up to some moment is the history of a shorter run
  rw [List.prefix_iff_eq_take.1 hpast, history_take]
  have hstart (t : θ) : (C.phase s t).Agrees [] [] [] := by
    rw [hidle]
    exact ⟨rfl, rfl⟩
  exact (agrees_history hC (is.take past.length) hI hstart t).order

end Rules

end Linearization
