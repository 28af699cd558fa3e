import LispCore.Binding.Frame
import LispCore.Lazy.Producer
import LispCore.Name.Table
import LispCore.Namespace.Cell
import LispCore.Notice
import LispCore.Session.Basic
import LispCore.Var.Cell
/-!
The world: what operations may read and change. Lazy sequences, vars, binding cells, namespaces and
registries are looked up by number; the chain is that of the thread now running. `ofNames` is the
world in which nothing has been made yet.
-/

namespace LispCore

/-- All that operations share. -/
structure World where
  symbols : InternTable := {}
  keywords : InternTable := {}
  lazies : Array LazyCell := #[]
  vars : Array VarCell := #[]
  /-- The values of dynamic bindings. -/
  cells : Array Value := #[]
  namespaces : Array NamespaceCell := #[]
  registries : Array (Table Symbol Namespace) := #[]
  /-- The binding frames of this thread. -/
  chain : Chain := []
  /-- The next number for a list node, an early-stop marker or a handle. -/
  nextStamp : Nat := 0
  /-- The next number for a binding frame. -/
  nextFrame : Nat := 0
  /-- How many anonymous vars there are. -/
  anonymous : Nat := 0
  /-- The lines that producers wrote. -/
  produced : Array String := #[]
  notices : Array Notice := #[]
  /-- The session shared by the whole process, once it has been started. -/
  shared : Option Session := none
deriving Inhabited

namespace World

/-- Nothing made yet but the names. -/
def ofNames (symbols keywords : InternTable) : World := { symbols, keywords }

def names (w : World) : NameKind → InternTable
  | .symbol => w.symbols
  | .keyword => w.keywords

def setNames (w : World) (t : InternTable) : NameKind → World
  | .symbol => { w with symbols := t }
  | .keyword => { w with keywords := t }

def lazyCell (w : World) (l : Lazy) : LazyCell := w.lazies.getD l.id default

def varCell (w : World) (v : Var) : VarCell := w.vars.getD v.id default

def namespaceCell (w : World) (ns : Namespace) : NamespaceCell := w.namespaces.getD ns.id default

def registry (w : World) (r : Registry) : Table Symbol Namespace := w.registries.getD r.id {}

end World

end LispCore
