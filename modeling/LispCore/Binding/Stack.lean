import LispCore.Var.Basic
/-!
Pushing and popping dynamic bindings. A manual push is matched by a pop of the same var; a guarded
frame is popped by its guard alone, which takes everything above it along. Only dynamic vars are
bound, and a push of several vars with an offender among them pushes nothing.
-/

namespace LispCore

/-- Owns a binding frame. -/
structure BindingGuard where
  frame : Nat
deriving DecidableEq, Repr, Inhabited

namespace Binding

def chain : Act Chain := fun _ w => .ok w.chain w

def setChain (c : Chain) : Act Unit := modify fun w => { w with chain := c }

def depth : Act Nat := do return (← chain).depth

def makeCell (x : Value) : Act Nat :=
  modifyGet fun w => (w.cells.size, { w with cells := w.cells.push x })

/-- New cells for several bindings. -/
def makeCells : List (Var × Value) → Act (List (Var × Nat))
  | [] => pure []
  | p :: ps => do
    let cell ← makeCell p.2
    return (p.1, cell) :: (← makeCells ps)

/-- A number that no frame has had. -/
def freshFrame : Act Nat :=
  modifyGet fun w => (w.nextFrame, { w with nextFrame := w.nextFrame + 1 })

/-- Fails unless the var may be bound. -/
def checkDynamic (v : Var) : Act Unit := do
  if !(← v.isDynamic) then Act.fail (.notDynamic (← v.qualifiedName))

/-- Fails at the first var that may not be bound. -/
def checkAllDynamic : List Var → Act Unit
  | [] => pure ()
  | v :: vs => do
    checkDynamic v
    checkAllDynamic vs

/-- Pushes a frame and gives its number. -/
def pushFrame (pairs : List (Var × Value)) (guarded : Bool) : Act Nat := do
  let cells ← makeCells pairs
  let id ← freshFrame
  setChain ((← chain).push id cells guarded)
  return id

/-- Binds a var until the matching pop. -/
def push (v : Var) (x : Value) : Act Unit := do
  checkDynamic v
  let _ ← pushFrame [(v, x)] false

/-- The names of the vars that a frame binds itself. -/
def frameNames (f : Frame) : Act (List String) := Var.qualifiedNames (f.pushed.map (·.1))

/-- Undoes the matching push: the innermost frame must be a manual one of just this var. -/
def pop (v : Var) : Act Unit := do
  match ← chain with
  | [] =>
    Act.fail (.unbalancedBinding ("pop of " ++ (← v.qualifiedName) ++ " with no binding pushed"))
  | f :: below =>
    if f.guarded then
      Act.fail (.unbalancedBinding
        ("pop of " ++ (← v.qualifiedName) ++ " would release a frame owned by a binding guard"))
    else if f.pushed.map (·.1) = [v] then setChain below
    else
      Act.fail (.unbalancedBinding
        ("pop of " ++ (← v.qualifiedName) ++ " out of order, innermost frame binds " ++
          ", ".intercalate (← frameNames f)))

/-- Binds several vars in one frame until its guard is dropped. -/
def pushGuarded (pairs : List (Var × Value)) : Act BindingGuard := do
  checkAllDynamic (pairs.map (·.1))
  return ⟨← pushFrame pairs true⟩

/-- Reports the frames that are unwound. -/
def reportUnwound : List Frame → Act Unit
  | [] => pure ()
  | f :: fs => do
    Act.notice (.frameUnwound f.id (← frameNames f))
    reportUnwound fs

/-- Drops a guard: its frame is popped along with the frames above it. A frame that is not on this
thread's chain is only reported. -/
def dropGuard (g : BindingGuard) : Act Unit := do
  let c ← chain
  if c.holds g.frame then
    reportUnwound (c.above g.frame)
    setChain (c.below g.frame)
  else Act.notice (.frameNotOnChain g.frame)

/-- Runs an action with a var bound; however it ends, the binding is gone afterwards. -/
def during {α : Type} (v : Var) (x : Value) (body : Act α) : Act α := do
  let g ← pushGuarded [(v, x)]
  Act.ensure body (dropGuard g)

end Binding

end LispCore
