import LispCore.Seq.Walk
/-!
Reduction. A step function folds the elements of a value into an accumulator and may stop the fold
with an early-stop marker, of which one layer is taken off. A failing sequence is noticed only after
the step function has seen every element before the failure. `Fold` is the outcome together with the
number of calls of the step function.
-/

namespace LispCore

/-- A new early-stop marker around a value. -/
def Value.marked (v : Value) : Act Value := do return .reduced (← Act.freshStamp) v

/-- Takes one layer of the early-stop marker off, if there is one. -/
def Value.unreduced : Value → Value
  | .reduced _ v => v
  | v => v

/-- A step function. -/
abbrev Step := Value → Value → Act Value

/-- The outcome of a fold and how often its step function was called. -/
structure Fold (α : Type) where
  outcome : Except Error α
  calls : Nat

namespace Fold

/-- Folds the elements left into the accumulator after as many calls. -/
def run (step : Step) : (rounds calls : Nat) → Value → Walk → Act (Fold Value)
  | 0, _, _, _ => Act.exhausted
  | rounds + 1, calls, acc, walk => do
    match ← walk.pull with
    | (none, _) => return ⟨.ok acc, calls⟩
    | (some (.error e), _) => return ⟨.error e, calls⟩
    | (some (.ok x), walk) =>
      match ← Act.attempt (step acc x) with
      | .error e => return ⟨.error e, calls + 1⟩
      | .ok acc =>
        if acc.isReduced then return ⟨.ok acc.unreduced, calls + 1⟩
        run step rounds (calls + 1) acc walk

/-- Folds the elements of a value, starting from `init`. -/
def of (coll init : Value) (step : Step) : Act (Fold Value) := do
  match ← Act.attempt (Walk.of coll) with
  | .error e => return ⟨.error e, 0⟩
  | .ok walk => run step (← Act.budget) 0 init walk

/-- Folds the elements of a value, starting from the first; none when there is no element. -/
def ofFirst (coll : Value) (step : Step) : Act (Fold (Option Value)) := do
  match ← Act.attempt (Walk.of coll) with
  | .error e => return ⟨.error e, 0⟩
  | .ok walk =>
    match ← walk.pull with
    | (none, _) => return ⟨.ok none, 0⟩
    | (some (.error e), _) => return ⟨.error e, 0⟩
    | (some (.ok first), walk) =>
      let fold ← run step (← Act.budget) 0 first walk
      return ⟨fold.outcome.map some, fold.calls⟩

end Fold

namespace Value

/-- Folds the elements of a value, starting from `init`. -/
def reduce (coll init : Value) (step : Step) : Act Value := do
  Act.ofExcept (← Fold.of coll init step).outcome

/-- Folds the elements of a value, starting from the first; none when there is no element. -/
def reduceFirst (coll : Value) (step : Step) : Act (Option Value) := do
  Act.ofExcept (← Fold.ofFirst coll step).outcome

end Value

end LispCore
