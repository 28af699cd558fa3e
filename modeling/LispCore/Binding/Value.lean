import LispCore.Binding.Stack
/-!
Reading and setting through dynamic bindings. The value of a var on a thread is that of its
innermost binding, else its root. Setting writes the cell of the innermost binding, which every
frame that inherits it shares; roots are never set this way. A var that is not dynamic at the moment
has no visible binding.
-/

namespace LispCore

namespace Var

/-- The cell of the innermost binding on this thread. -/
def bindingCell? (v : Var) : Act (Option Nat) := do
  if ← v.isDynamic then return (← Binding.chain).cell? v else return none

/-- The value of the innermost binding on this thread. -/
def binding? (v : Var) : Act (Option Value) := do
  match ← v.bindingCell? with
  | some cell => return some ((← get).cells.getD cell .nil)
  | none => return none

/-- Whether there is a binding on this thread. -/
def hasBinding (v : Var) : Act Bool := do return (← v.bindingCell?).isSome

/-- The value on this thread: the innermost binding, else the root. -/
def current (v : Var) : Act Value := do
  match ← v.binding? with
  | some x => return x
  | none => v.derefRoot

def isBound (v : Var) : Act Bool := do
  if ← v.hasBinding then return true
  return (← v.root?).isSome

/-- Replaces the value of the innermost binding on this thread. -/
def set (v : Var) (x : Value) : Act Unit := do
  match ← v.bindingCell? with
  | some cell => modify fun w => { w with cells := w.cells.setIfInBounds cell x }
  | none => Act.fail (.noThreadBinding (← v.qualifiedName))

/-- The values of several vars on this thread, each with its own error. -/
def currentAll : List Var → Act (List (Except Error Value))
  | [] => pure []
  | v :: vs => do
    let r ← Act.attempt v.current
    return r :: (← currentAll vs)

end Var

end LispCore
