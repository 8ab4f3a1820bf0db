import Mathlib.Data.List.Induction

/-! Machines that take inputs one after the other and give outputs. -/

namespace Nestchain.Lib

variable {σ ι ο : Type}

/-- The state after the inputs, and all outputs, the first first. -/
def runMachine (step : σ → ι → σ × List ο) (s : σ) : List ι → σ × List ο
  | [] => (s, [])
  | i :: is =>
    let (next, sent) := step s i
    let (last, more) := runMachine step next is
    (last, sent ++ more)

variable {step : σ → ι → σ × List ο}

theorem runMachine_append (s : σ) (is js : List ι) :
    runMachine step s (is ++ js) =
      ((runMachine step (runMachine step s is).1 js).1,
        (runMachine step s is).2 ++ (runMachine step (runMachine step s is).1 js).2) := by
  induction is generalizing s with
  | nil => rfl
  | cons i is ih =>
    simp only [List.cons_append, runMachine, ih]
    rw [List.append_assoc]

theorem runMachine_snoc (s : σ) (is : List ι) (i : ι) :
    runMachine step s (is ++ [i]) =
      ((step (runMachine step s is).1 i).1,
        (runMachine step s is).2 ++ (step (runMachine step s is).1 i).2) := by
  rw [runMachine_append]
  simp [runMachine]

/-- What holds at the start and is kept by each step, about the inputs so far, the state and the
outputs so far, holds after every run. -/
theorem runMachine_induction {P : List ι → σ → List ο → Prop} (s : σ) (start : P [] s [])
    (next : ∀ is i s' os, P is s' os → P (is ++ [i]) (step s' i).1 (os ++ (step s' i).2))
    (is : List ι) : P is (runMachine step s is).1 (runMachine step s is).2 := by
  induction is using List.reverseRecOn with
  | nil => exact start
  | append_singleton is i ih =>
    rw [runMachine_snoc]
    exact next is i _ _ ih

end Nestchain.Lib
