import LispCore.Session.Start
/-!
Using a session. The current namespace is what `*ns*` holds on this thread, as long as it is there;
switching it needs a binding of `*ns*`. Values are printed as `*print-readably*` and `*print-length*` say.
-/

namespace LispCore.Session

/-- The namespace that `*ns*` holds on this thread. -/
def currentNamespace (s : Session) : Act Namespace := do
  let v ← s.vars.currentNs.current
  match ← Namespace.ofValue? v with
  | some ns => return ns
  | none => Act.fail (.wrongKind "*ns*" "namespace" v.kind)

/-- The namespace of a name; a new one refers to everything public in the core namespace. -/
def enterable (s : Session) (name : Symbol) : Act Namespace := do
  match ← s.registry.find? name with
  | some ns => return ns
  | none =>
    let ns ← s.registry.findOrCreate name
    if ns ≠ s.core then ns.referAll s.core
    return ns

/-- Switches `*ns*` to the namespace of a name. -/
def inNs (s : Session) (name : Symbol) : Act Namespace := do
  let ns ← s.enterable name
  s.vars.currentNs.set (← ns.toValue)
  return ns

/-- Renders a value as the print flags of this thread say. -/
def printStr (s : Session) (v : Value) : Act String := do
  let readably := (← s.vars.printReadably.current).isTruthy
  let limit := (← s.vars.printLength.current).int?.map fun n => (indexOf? n).getD 0
  v.print { readably, limit }

/-- Interns a var in the namespace of a name, which is made if there is none. -/
def var (s : Session) (ns name : String) (init : Option Value) : Act Var :=
  s.registry.var ns name init

end LispCore.Session
