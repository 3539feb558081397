import Mathlib

/-!
# Machines that write as they read

A transducer reads its input element by element, keeps a state and writes some output at
every element. What it writes on a whole input, and the state it ends in, do not depend
on how the input was cut (`Transducer.run_append`): a program that takes its input in chunks
of whatever size, and does on every chunk what such a machine does, inherits this.

`Transducer.run_keeps` is the induction principle: a property of the state and of what is
left to read, kept by every element, is kept by every chunk.
-/

namespace Transducer

variable {σ α β : Type} {step : σ → α → List β × σ}

/-- What the machine writes on an input, and the state it ends in. -/
def run (step : σ → α → List β × σ) : σ → List α → List β × σ
  | s, [] => ([], s)
  | s, a :: as =>
    ((step s a).1 ++ (run step (step s a).2 as).1, (run step (step s a).2 as).2)

@[simp] theorem run_nil (s : σ) : run step s [] = ([], s) := rfl

theorem run_cons (s : σ) (a : α) (as : List α) :
    run step s (a :: as) =
      ((step s a).1 ++ (run step (step s a).2 as).1, (run step (step s a).2 as).2) := rfl

/-- **Reading in two parts** is reading at once. -/
theorem run_append (s : σ) (as bs : List α) :
    run step s (as ++ bs) =
      ((run step s as).1 ++ (run step (run step s as).2 bs).1,
        (run step (run step s as).2 bs).2) := by
  induction as generalizing s with
  | nil => rfl
  | cons a as ih => rw [List.cons_append, run_cons, ih, run_cons, List.append_assoc]

/-- What was written on a part from the front is a part from the front. -/
theorem run_front (s : σ) (as bs : List α) : (run step s as).1 <+: (run step s (as ++ bs)).1 := by
  rw [run_append]
  exact List.prefix_append _ _

/-- **What every element keeps, a chunk keeps.** -/
theorem run_keeps {P : σ → List α → Prop} (hstep : ∀ s a as, P s (a :: as) → P (step s a).2 as)
    {s : σ} {as bs : List α} (h : P s (as ++ bs)) : P (run step s as).2 bs := by
  induction as generalizing s with
  | nil => exact h
  | cons a as ih => exact ih (hstep s a _ h)

end Transducer
