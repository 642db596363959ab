import Mathlib.Tactic.Common

/-!
# Transducers

A state that consumes a list of inputs and emits a list of outputs for each of them.
-/

namespace Transducer

variable {σ α ι β : Type*}

def run (step : σ → α → σ × List β) : σ → List α → σ × List β
  | s, [] => (s, [])
  | s, x :: xs => ((run step (step s x).1 xs).1, (step s x).2 ++ (run step (step s x).1 xs).2)

variable (step : σ → α → σ × List β)

theorem run_cons (s : σ) (x : α) (xs : List α) :
    run step s (x :: xs) =
      ((run step (step s x).1 xs).1, (step s x).2 ++ (run step (step s x).1 xs).2) :=
  rfl

theorem run_append (s : σ) (xs ys : List α) :
    run step s (xs ++ ys) =
      ((run step (run step s xs).1 ys).1,
        (run step s xs).2 ++ (run step (run step s xs).1 ys).2) := by
  induction xs generalizing s with
  | nil => rfl
  | cons x xs ih => rw [List.cons_append, run_cons, run_cons, ih, List.append_assoc]

/-- A loop around a loop consumes the inputs of its passes one after the other. -/
theorem run_nested {outer : σ → ι → σ × List β} {inputs : ι → List α}
    (h : ∀ s i, outer s i = run step s (inputs i)) (s : σ) (is : List ι) :
    run outer s is = run step s (is.flatMap inputs) := by
  induction is generalizing s with
  | nil => rfl
  | cons i is ih => rw [run_cons, ih, h, List.flatMap_cons, run_append]

end Transducer
