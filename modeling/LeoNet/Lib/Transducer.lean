import Mathlib.Data.List.Basic

namespace Transducer

/-!
# Transducers — one output for each input symbol

A transducer puts out a symbol for each one it reads, and carries a state along: modes of
operation of block ciphers are transducers over blocks whose state is the chaining value.

* `transduce_append` — reading two pieces, the second from the state that the first has left, is
  reading both at once;
* `transduce_state_eq_last` — the state at the end, where it is the last output;
* `transduce_succ_of_input` / `transduce_succ_of_output` — what is put out at a place, where the
  state is the last symbol read, or put out;
* `transduce_inverse` — a transducer whose steps undo those of another, in the same states, undoes
  its runs, and ends in the same state.
-/

variable {σ α β : Type*}

/-- The symbols put out, and the state at the end. -/
def transduce (step : σ → α → β × σ) : σ → List α → List β × σ
  | s, [] => ([], s)
  | s, a :: as =>
    let r := step s a
    let q := transduce step r.2 as
    (r.1 :: q.1, q.2)

variable {step : σ → α → β × σ}

@[simp] theorem transduce_nil (s : σ) : transduce step s [] = ([], s) := rfl

@[simp] theorem transduce_cons (s : σ) (a : α) (as : List α) :
    transduce step s (a :: as) =
      ((step s a).1 :: (transduce step (step s a).2 as).1,
        (transduce step (step s a).2 as).2) := rfl

/-- There is one output for each input. -/
@[simp] theorem transduce_length (s : σ) (as : List α) :
    (transduce step s as).1.length = as.length := by
  induction as generalizing s with
  | nil => rfl
  | cons a as ih => rw [transduce_cons, List.length_cons, List.length_cons, ih]

/-- **Pieces.**  Reading two pieces in a row is reading both at once. -/
theorem transduce_append (s : σ) (as bs : List α) :
    transduce step s (as ++ bs) =
      ((transduce step s as).1 ++ (transduce step (transduce step s as).2 bs).1,
        (transduce step (transduce step s as).2 bs).2) := by
  induction as generalizing s with
  | nil => rfl
  | cons a as ih => rw [List.cons_append, transduce_cons, ih, transduce_cons, List.cons_append]

/-- Where each step leaves what it puts out as the next state, a run ends in its last output. -/
theorem transduce_state_eq_last {step : σ → α → σ × σ} (hstep : ∀ s a, (step s a).2 = (step s a).1)
    (s : σ) (as : List α) :
    (transduce step s as).2 = ((transduce step s as).1.getLast?).getD s := by
  induction as generalizing s with
  | nil => rfl
  | cons a as ih => rw [transduce_cons, ih, hstep, List.getLast?_cons, Option.getD_some]

section Coordinates

variable {s : σ} {as : List α} {k : ℕ} {a a' : α}

/-- The symbol put out at a place is that of the step from the state in which the place is
    reached. -/
theorem transduce_getElem? (s : σ) (as : List α) (k : ℕ) :
    (transduce step s as).1[k]? =
      as[k]?.map fun a => (step (transduce step s (as.take k)).2 a).1 := by
  induction as generalizing s k with
  | nil => rfl
  | cons a as ih =>
    cases k with
    | zero => rfl
    | succ k =>
      rw [transduce_cons, List.getElem?_cons_succ, List.getElem?_cons_succ, ih, List.take_succ_cons,
          transduce_cons]

/-- The state in which the next place is reached. -/
theorem transduce_take_succ (h : as[k]? = some a) :
    (transduce step s (as.take (k + 1))).2 = (step (transduce step s (as.take k)).2 a).2 := by
  rw [List.take_add_one, h, transduce_append]
  rfl

/-- Where each step leaves what it reads as the next state, two symbols read say what is put out. -/
theorem transduce_succ_of_input {step : α → α → β × α} (hstate : ∀ s a, (step s a).2 = a) {s : α}
    (h : as[k]? = some a) (h' : as[k + 1]? = some a') :
    (transduce step s as).1[k + 1]? = some (step a a').1 := by
  rw [transduce_getElem?, h', Option.map_some, transduce_take_succ h, hstate]

/-- Where each step leaves what it puts out as the next state, this and the symbol read say what is
    put out next. -/
theorem transduce_succ_of_output {step : β → α → β × β}
    (hstate : ∀ s a, (step s a).2 = (step s a).1) {s b : β} (h : as[k]? = some a)
    (h' : as[k + 1]? = some a') (hb : (transduce step s as).1[k]? = some b) :
    (transduce step s as).1[k + 1]? = some (step b a').1 := by
  rw [transduce_getElem?, h, Option.map_some] at hb
  rw [transduce_getElem?, h', Option.map_some, transduce_take_succ h, hstate, Option.some.inj hb]

end Coordinates

section Inverse

variable {I : σ → Prop} {V : α → Prop} {W : β → Prop}

/-- What every step keeps of the state, and promises of its output, a run does. -/
theorem transduce_inv (hstep : ∀ s a, I s → V a → W (step s a).1 ∧ I (step s a).2) {s : σ}
    (hs : I s) {as : List α} (has : ∀ a ∈ as, V a) :
    (∀ b ∈ (transduce step s as).1, W b) ∧ I (transduce step s as).2 := by
  induction as generalizing s with
  | nil => exact ⟨fun b hb => absurd hb List.not_mem_nil, hs⟩
  | cons a as ih =>
    rw [List.forall_mem_cons] at has
    obtain ⟨hout, hstate⟩ := hstep s a hs has.1
    obtain ⟨houts, hend⟩ := ih hstate has.2
    rw [transduce_cons, List.forall_mem_cons]
    exact ⟨⟨hout, houts⟩, hend⟩

/-- **Inversion.**  A transducer whose steps undo those of another, from the same states into the
    same states, undoes its runs. -/
theorem transduce_inverse {step' : σ → β → α × σ}
    (hundo : ∀ s a, I s → V a → step' s (step s a).1 = (a, (step s a).2) ∧ I (step s a).2)
    {s : σ} (hs : I s) {as : List α} (has : ∀ a ∈ as, V a) :
    transduce step' s (transduce step s as).1 = (as, (transduce step s as).2) := by
  induction as generalizing s with
  | nil => rfl
  | cons a as ih =>
    rw [List.forall_mem_cons] at has
    obtain ⟨hback, hstate⟩ := hundo s a hs has.1
    rw [transduce_cons, transduce_cons, hback, ih hstate has.2]

end Inverse

end Transducer
