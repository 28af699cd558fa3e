import LispCore.Map.Update
/-!
Vars: named cells with a root value. This module knows about roots only; dynamic bindings are looked
up first elsewhere. A var is public unless its metadata has something true at `:private`.
-/

namespace LispCore

namespace Var

def cell (v : Var) : Act VarCell := fun _ w => .ok (w.varCell v) w

def update (v : Var) (f : VarCell → VarCell) : Act Unit :=
  modify fun w => { w with vars := w.vars.modify v.id f }

/-- A new var holding this. -/
def make (c : VarCell) : Act Var :=
  modifyGet fun w => (⟨w.vars.size⟩, { w with vars := w.vars.push c })

/-- A new var, unbound when there is no root. -/
def named (ns : Option Symbol) (sym : Symbol) (root : Option Value) : Act Var :=
  make { label := .named ns sym, root }

/-- A new var that belongs to no namespace and has no symbol. -/
def anonymous (root : Option Value) : Act Var := do
  let number ← modifyGet fun w => (w.anonymous, { w with anonymous := w.anonymous + 1 })
  make { label := .anonymous number, root }

/-- The name with its namespace. -/
def qualifiedName (v : Var) : Act String := do return (← v.cell).label.text

/-- The names of several vars. -/
def qualifiedNames : List Var → Act (List String)
  | [] => pure []
  | v :: vs => do
    let name ← v.qualifiedName
    return name :: (← qualifiedNames vs)

/-- The name of the namespace that the var belongs to. -/
def ns? (v : Var) : Act (Option Symbol) := do return (← v.cell).label.ns?

def isDynamic (v : Var) : Act Bool := do return (← v.cell).dynamic

/-- Says whether the var may be bound dynamically. -/
def setDynamic (v : Var) (dynamic : Bool) : Act Unit := v.update fun c => { c with dynamic }

/-- The root value, none while unbound. -/
def root? (v : Var) : Act (Option Value) := do return (← v.cell).root

/-- The root value; an error while unbound. -/
def derefRoot (v : Var) : Act Value := do
  match ← v.root? with
  | some x => return x
  | none => Act.fail (.unboundVar (← v.qualifiedName))

/-- Gives the var a root value. -/
def bindRoot (v : Var) (x : Value) : Act Unit := v.update fun c => { c with root := some x }

def unbindRoot (v : Var) : Act Unit := v.update fun c => { c with root := none }

def info (v : Var) : Act (Map Value Value) := do return (← v.cell).info

def setInfo (v : Var) (info : Map Value Value) : Act Unit := v.update fun c => { c with info }

/-- Replaces the metadata by what a function makes of it; when that ends early, it stays. -/
def alterInfo (v : Var) (f : Map Value Value → Act (Map Value Value)) :
    Act (Map Value Value) := do
  let info ← f (← v.info)
  v.setInfo info
  return info

def isPublic (v : Var) : Act Bool := do
  let key ← Keyword.plain "private"
  match ← (← v.info).find? (.keyword key) with
  | some x => return !x.isTruthy
  | none => return true

end Var

end LispCore
