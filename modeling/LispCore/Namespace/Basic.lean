import LispCore.Var.Basic
/-!
Namespaces. A namespace maps symbols to vars, its own (interned here) and others that it refers to;
a var is its own when the var's namespace has its name. Interning never hands out a var of another
name: a referred var of such a namespace gives way to a new one. Aliases name other namespaces. A
namespace is there as long as someone holds it: a caller, a registry, or an alias of a namespace that is
there. The value that stands for it does not hold it.
-/

namespace LispCore

namespace Namespace

def cell (ns : Namespace) : Act NamespaceCell := fun _ w => .ok (w.namespaceCell ns) w

/-- Changes what the namespace holds. -/
def update (ns : Namespace) (f : NamespaceCell → NamespaceCell) : Act Unit :=
  modify fun w => { w with namespaces := w.namespaces.modify ns.id f }

/-- A new namespace, in no registry. -/
def make (name : Symbol) : Act Namespace :=
  modifyGet fun w =>
    (⟨w.namespaces.size⟩, { w with namespaces := w.namespaces.push { name } })

def name (ns : Namespace) : Act Symbol := do return (← ns.cell).name

/-- The written form is that of the name. -/
def text (ns : Namespace) : Act String := do return (← ns.name).text

def debugText (ns : Namespace) : Act String := do return "#namespace[" ++ (← ns.text) ++ "]"

def mappings (ns : Namespace) : Act (List (Symbol × Var)) := do
  return (← ns.cell).mappings.entries

/-- Whether a var is the namespace's own. -/
def owns (ns : Namespace) (v : Var) : Act Bool := do return (← v.ns?) = some (← ns.name)

/-- Whatever a symbol means here. -/
def mapping? (ns : Namespace) (sym : Symbol) : Act (Option Var) := do
  return (← ns.cell).mappings.find? sym

/-- Maps a symbol to a var, whatever it meant before. -/
def refer (ns : Namespace) (sym : Symbol) (v : Var) : Act Unit :=
  ns.update fun c => { c with mappings := c.mappings.insert sym v }

/-- Maps a symbol to a new unbound var of the namespace. -/
def internNew (ns : Namespace) (sym : Symbol) : Act Var := do
  let v ← Var.named (← ns.name) sym none
  ns.refer sym v
  return v

/-- The namespace's own var of that name, made now if there is none. -/
def intern (ns : Namespace) (sym : Symbol) : Act Var := do
  if sym.ns.isSome then
    Act.fail (.invalidName sym.text "can't intern a namespace-qualified symbol")
  match ← ns.mapping? sym with
  | none => ns.internNew sym
  | some v =>
    if ← ns.owns v then return v
    Act.notice (.referReplaced sym.text (← Print.varText v) (← ns.text))
    ns.internNew sym

/-- Interns a var and gives it a root if there is a value. -/
def internVar (ns : Namespace) (sym : Symbol) (init : Option Value) : Act Var := do
  let v ← ns.intern sym
  match init with
  | some x => v.bindRoot x
  | none => pure ()
  return v

/-- Interns a var and lets it be bound dynamically. -/
def internDynamic (ns : Namespace) (sym : Symbol) (init : Option Value) : Act Var := do
  let v ← ns.internVar sym init
  v.setDynamic true
  return v

/-- The namespace's own var that a symbol means. -/
def findVar? (ns : Namespace) (sym : Symbol) : Act (Option Var) := do
  match ← ns.mapping? sym with
  | none => return none
  | some v => return if ← ns.owns v then some v else none

/-- Removes the mapping of a symbol; gives what it was. -/
def unmap (ns : Namespace) (sym : Symbol) : Act (Option Var) := do
  let v ← ns.mapping? sym
  ns.update fun c => { c with mappings := c.mappings.erase sym }
  return v

/-- Those of some mappings that pass a test. -/
def select (test : Var → Act Bool) : List (Symbol × Var) → Act (List (Symbol × Var))
  | [] => pure []
  | m :: ms => do
    let keep ← test m.2
    let rest ← select test ms
    return if keep then m :: rest else rest

/-- The mappings to the namespace's own vars. -/
def interns (ns : Namespace) : Act (List (Symbol × Var)) := do select ns.owns (← ns.mappings)

/-- The mappings to the namespace's own public vars. -/
def publics (ns : Namespace) : Act (List (Symbol × Var)) := do
  select Var.isPublic (← ns.interns)

/-- Takes over several mappings. -/
def referEach (ns : Namespace) : List (Symbol × Var) → Act Unit
  | [] => pure ()
  | m :: ms => do
    ns.refer m.1 m.2
    ns.referEach ms

/-- Refers to every public var of another namespace. -/
def referAll (ns other : Namespace) : Act Unit := do ns.referEach (← other.publics)

/-- Names another namespace. -/
def addAlias (ns : Namespace) (short : Symbol) (target : Namespace) : Act Unit :=
  ns.update fun c => { c with aliases := c.aliases.insert short target }

/-- The namespace that an alias names. -/
def aliased? (ns : Namespace) (short : Symbol) : Act (Option Namespace) := do
  return (← ns.cell).aliases.find? short

/-- Removes an alias; gives what it named. -/
def removeAlias (ns : Namespace) (short : Symbol) : Act (Option Namespace) := do
  let target ← ns.aliased? short
  ns.update fun c => { c with aliases := c.aliases.erase short }
  return target

/-- The namespace as a value, always the same one. -/
def toValue (ns : Namespace) : Act Value := do
  let c ← ns.cell
  match c.handle with
  | some h => return .handle h
  | none =>
    let h : Handle := ⟨← Act.freshStamp, "Namespace", c.name.name, .names ns⟩
    ns.update fun c => { c with handle := some h }
    return .handle h

/-- The namespace that a value stands for, if it is still there. -/
def ofValue? : Value → Act (Option Namespace)
  | .handle ⟨_, _, _, .names ns⟩ => do return if (← ns.cell).alive then some ns else none
  | _ => pure none

end Namespace

/-- Whether a registry or an alias holds a namespace. -/
def World.keeps (w : World) (ns : Namespace) : Bool :=
  w.registries.any (fun r => r.entries.any (·.2 = ns)) ||
    w.namespaces.any fun c => c.alive && c.aliases.entries.any (·.2 = ns)

/-- What becomes of a namespace that no caller holds any more: it is gone, unless a registry or an alias
holds it. What only its aliases held is released after it. -/
def Namespace.release (ns : Namespace) : Act Unit := fun n w =>
  if w.keeps ns then .ok () w else ns.update (fun c => { c with alive := false }) n w

end LispCore
