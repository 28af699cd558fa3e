import LispCore.Binding.Value
/-!
Conveying bindings. A snapshot of a thread's bindings can be installed elsewhere; the guard of that
installation puts back what was there before. The cells of the bindings are shared with whoever else
sees them. A new thread starts without bindings.
-/

namespace LispCore

/-- A snapshot of a thread's bindings. -/
structure BindingFrame where
  chain : Chain := []
deriving Inhabited

/-- Puts back the bindings that a snapshot replaced. -/
structure FrameGuard where
  saved : Chain
deriving Inhabited

namespace BindingFrame

/-- The snapshot without bindings. -/
def empty : BindingFrame := {}

def isEmpty (f : BindingFrame) : Bool := f.chain.isEmpty

def debugText (f : BindingFrame) : String :=
  "BindingFrame \x7b depth: " ++ toString f.chain.depth ++ " \x7d"

/-- The bindings of this thread. -/
def capture : Act BindingFrame := do return ⟨← Binding.chain⟩

/-- Installs the snapshot on this thread until the guard is dropped. -/
def enter (f : BindingFrame) : Act FrameGuard := do
  let saved ← Binding.chain
  Binding.setChain f.chain
  return ⟨saved⟩

end BindingFrame

namespace FrameGuard

/-- Puts back what was there before. -/
def drop (g : FrameGuard) : Act Unit := Binding.setChain g.saved

end FrameGuard

namespace Binding

variable {α : Type}

/-- An action that runs with the bindings of the moment at which it was wrapped. -/
def bound (body : Act α) : Act (Act α) := do
  let frame ← BindingFrame.capture
  return do
    let g ← frame.enter
    Act.ensure body g.drop

/-- Runs an action on a thread of its own, to its end. -/
def onNewThread (body : Act α) : Act α := do
  let g ← BindingFrame.empty.enter
  Act.ensure body g.drop

end Binding

end LispCore
