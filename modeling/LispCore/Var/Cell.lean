import LispCore.Value.Basic
/-!
What a var holds: what it is called, its root value, whether it may be bound dynamically, and its
metadata.
-/

namespace LispCore

/-- What a var is called. Anonymous vars are numbered in the order in which they are made. -/
inductive VarLabel where
  | named (ns : Option Symbol) (sym : Symbol)
  | anonymous (number : Nat)
deriving DecidableEq, Repr, Inhabited

namespace VarLabel

/-- The name of the namespace that the var belongs to. -/
def ns? : VarLabel → Option Symbol
  | named ns _ => ns
  | anonymous _ => none

def sym? : VarLabel → Option Symbol
  | named _ sym => some sym
  | anonymous _ => none

/-- The name of the var with its namespace. -/
def text : VarLabel → String
  | named (some ns) sym => ns.text ++ "/" ++ sym.text
  | named none sym => sym.text
  | anonymous number => "<anonymous-#" ++ toString number ++ ">"

end VarLabel

/-- What a var holds. There is no root while the var is unbound. -/
structure VarCell where
  label : VarLabel
  root : Option Value := none
  dynamic : Bool := false
  info : Map Value Value := .empty

instance : Inhabited VarCell := ⟨{ label := .anonymous 0 }⟩

end LispCore
