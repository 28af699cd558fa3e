import LispCore.Table
import LispCore.Value.Handle
/-!
Binding frames. A frame lists the vars that it binds itself and carries the cells of all bindings
visible at its depth, so a look-up asks the innermost frame alone. A chain is the stack of frames of
a thread, innermost first. `Chain.searched?` says the same frame by frame.
-/

namespace LispCore

/-- A frame of dynamic bindings. -/
structure Frame where
  id : Nat
  /-- The vars that this frame binds itself, with their cells, in the order given. -/
  pushed : List (Var × Nat)
  /-- The cell of every binding visible at this depth. -/
  visible : Table Var Nat
  depth : Nat
  /-- Whether a guard owns the frame; only the guard may pop it. -/
  guarded : Bool
deriving Inhabited

/-- The frames of a thread, innermost first. -/
abbrev Chain := List Frame

namespace Chain

/-- The depth that the innermost frame records. -/
def depth : Chain → Nat
  | [] => 0
  | f :: _ => f.depth

/-- The cells visible at the innermost frame. -/
def visible : Chain → Table Var Nat
  | [] => .empty
  | f :: _ => f.visible

/-- Pushes a frame. Of a var that is listed twice the last cell is visible. -/
def push (c : Chain) (id : Nat) (pairs : List (Var × Nat)) (guarded : Bool) : Chain :=
  { id, pushed := pairs, guarded, depth := c.depth + 1
    visible := pairs.foldl (fun t p => t.insert p.1 p.2) c.visible } :: c

def cell? (c : Chain) (v : Var) : Option Nat := c.visible.find? v

/-- The cell of a var, searched frame by frame; in a frame the last pair of the var counts. -/
def searched? (c : Chain) (v : Var) : Option Nat :=
  c.findSome? fun f => (f.pushed.reverse.find? (·.1 = v)).map (·.2)

def holds (c : Chain) (id : Nat) : Bool := c.any (·.id == id)

def above (c : Chain) (id : Nat) : List Frame := c.takeWhile (·.id != id)

def below (c : Chain) (id : Nat) : Chain := (c.dropWhile (·.id != id)).tail

end Chain

end LispCore
