import LispCore.Collection.Basic
import LispCore.Reduce
/-!
Step functions for reductions: the wrapping sum, building collections, keeping the last element, and
variants that stop early. They are ready-made for callers. No part of the core folds with them, and nothing
is proved about them.
-/

namespace LispCore.Step

/-- The sum, wrapping around at 64 bits. -/
def sum : Step := fun acc x =>
  match acc, x with
  | .int a, .int b => pure (.int (a + b))
  | .int _, x => Act.fail (.wrongKind "sum" "integer" x.kind)
  | acc, _ => Act.fail (.typeError "integer" acc.kind none)

def conj : Step := fun acc x => acc.conj x

def cons : Step := fun acc x => do return .seq (← Seq.consOnto x acc)

def last : Step := fun _ x => pure x

/-- The sum, stopping once it has reached a bound; anything but an integer is reached at once. -/
def sumUntil (stop : Value) : Step := fun acc x => do
  match ← sum acc x, stop with
  | .int n, .int bound => if bound ≤ n then Value.marked (.int n) else return .int n
  | v, _ => v.marked

/-- Adds each element to a collection, stopping at one that is equal to `stop`. -/
def conjUntil (stop : Value) : Step := fun acc x => do
  if ← x.same stop then acc.marked else acc.conj x

/-- Stops at once, with a marker still around the element. -/
def twiceReduced : Step := fun _ x => do (← x.marked).marked

/-- The step function of a name; `stop` is for those that stop early. -/
def ofName? (stop : Value) : String → Option Step
  | "sum" => some sum
  | "conj" => some conj
  | "cons" => some cons
  | "last" => some last
  | "sum_until" => some (sumUntil stop)
  | "conj_until" => some (conjUntil stop)
  | "twice_reduced" => some twiceReduced
  | _ => none

end LispCore.Step
