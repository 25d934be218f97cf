/-
Systems that take steps: what every step keeps holds in every state of a run, and a
measure that every step makes smaller bounds the number of steps.
-/
import Mathlib.Tactic.TypeStar

namespace Prusti.Lib

variable {S : Type*}

/-- A run, with the number of its steps. -/
inductive Run (step : S → S → Prop) (first : S) : Nat → S → Prop where
  | nil : Run step first 0 first
  | snoc {count : Nat} {middle last : S} (hrun : Run step first count middle)
      (hstep : step middle last) : Run step first (count + 1) last

/-- No step is possible. -/
def Stuck (step : S → S → Prop) (state : S) : Prop := ∀ next, ¬ step state next

namespace Run

variable {step : S → S → Prop} {first last : S} {count : Nat}

theorem invariant {motive : S → Prop} (hrun : Run step first count last)
    (hkeep : ∀ {state next}, motive state → step state next → motive next)
    (hfirst : motive first) : motive last := by
  induction hrun with
  | nil => exact hfirst
  | snoc _ hstep ih => exact hkeep ih hstep

theorem count_le {measure : S → Nat}
    (hless : ∀ {state next}, step state next → measure next < measure state)
    (hrun : Run step first count last) : count + measure last ≤ measure first := by
  induction hrun with
  | nil => omega
  | snoc _ hstep ih =>
    have hlast := hless hstep
    omega

end Run

end Prusti.Lib
