import LispCore.Name.Basic
import LispCore.Table
import LispCore.Value.Handle
/-!
What a namespace holds: its name, the vars that symbols mean in it (its own and those it refers to),
its aliases of other namespaces, the handle that stands for it as a value, made on first use, and
whether it is still there.
-/

namespace LispCore

/-- What a namespace holds. -/
structure NamespaceCell where
  name : Symbol
  mappings : Table Symbol Var := {}
  aliases : Table Symbol Namespace := {}
  handle : Option Handle := none
  alive : Bool := true
deriving Inhabited

end LispCore
