import LispCore.Namespace.Basic
/-!
Registries of namespaces, and what a symbol means as seen from one of them. A qualified symbol names
an alias of the current namespace or else a registered one, and finds only that namespace's own
vars; an unqualified symbol finds whatever the current namespace maps it to.
-/

namespace LispCore

namespace Registry

def table (r : Registry) : Act (Table Symbol Namespace) := fun _ w => .ok (w.registry r) w

def make : Act Registry :=
  modifyGet fun w => (⟨w.registries.size⟩, { w with registries := w.registries.push {} })

def find? (r : Registry) (name : Symbol) : Act (Option Namespace) := do
  return (← r.table).find? name

/-- The namespace of a name, made and registered now if there is none. -/
def findOrCreate (r : Registry) (name : Symbol) : Act Namespace := do
  match ← r.find? name with
  | some ns => return ns
  | none =>
    let ns ← Namespace.make name
    modify fun w => { w with registries := w.registries.modify r.id (·.insert name ns) }
    return ns

/-- The names of the registered namespaces in their order. -/
def names (r : Registry) : Act (List Symbol) := do
  return ((← r.table).entries.map (·.1)).mergeSort fun a b => (a.order b).isLE

def size (r : Registry) : Act Nat := do return (← r.table).size

def debugText (r : Registry) : Act String := do
  return "NamespaceRegistry \x7b namespaces: [" ++
    ", ".intercalate ((← r.names).map Name.debugText) ++ "] \x7d"

/-- The var that a symbol means as seen from a namespace. -/
def resolve (r : Registry) (current : Namespace) (sym : Symbol) : Act (Option Var) := do
  match sym.ns with
  | none => current.mapping? sym
  | some part =>
    match ← Act.attempt (Symbol.plain part) with
    | .error _ => return none
    | .ok part =>
      let target ← do
        match ← current.aliased? part with
        | some ns => pure (some ns)
        | none => r.find? part
      match target with
      | none => return none
      | some ns => ns.findVar? (← sym.withoutNs)

/-- Interns a var in the namespace of a name, which is made if there is none. -/
def var (r : Registry) (ns name : String) (init : Option Value) : Act Var := do
  let ns ← r.findOrCreate (← Symbol.plain ns)
  ns.internVar (← Symbol.plain name) init

end Registry

end LispCore
