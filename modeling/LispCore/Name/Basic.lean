/-!
Symbols and keywords. A name has an optional namespace and a plain name; it is interned, so its
`serial` tells it from every other name of its kind. Names are ordered by content: those without a
namespace first, then by namespace, then by plain name. Reading splits a text at its first slash,
and the lone slash is a plain name.
-/

namespace LispCore

/-- Symbols and keywords live in tables of their own. -/
inductive NameKind where
  | symbol
  | keyword
deriving DecidableEq, Repr, Inhabited

/-- An interned name. -/
structure Name (kind : NameKind) where
  serial : Nat
  ns : Option String
  name : String
deriving DecidableEq, Repr, Inhabited

/-- An identifier. -/
abbrev Symbol := Name .symbol

/-- A self-evaluating identifier, written with a leading colon. -/
abbrev Keyword := Name .keyword

namespace Name

/-- `ns/name`, or the plain name when there is no namespace. -/
def path {kind : NameKind} (n : Name kind) : String :=
  match n.ns with
  | some ns => ns ++ "/" ++ n.name
  | none => n.name

/-- The written form: keywords carry a colon. -/
def text : {kind : NameKind} → Name kind → String
  | .symbol, n => n.path
  | .keyword, n => ":" ++ n.path

def debugText : {kind : NameKind} → Name kind → String
  | .symbol, n => "Symbol(" ++ n.text ++ ")"
  | .keyword, n => "Keyword(" ++ n.text ++ ")"

def order {kind : NameKind} (a b : Name kind) : Ordering :=
  match a.ns, b.ns with
  | none, some _ => .lt
  | some _, none => .gt
  | none, none => compare a.name b.name
  | some x, some y => (compare x y).then (compare a.name b.name)

/-- Splits `ns/name` at the first slash; a lone slash is the plain name `/`. -/
def splitPath (s : String) : Option String × String :=
  if s = "/" then (none, s)
  else
    let cs := s.toList
    match cs.dropWhile (· ≠ '/') with
    | [] => (none, s)
    | _ :: rest => (some (String.ofList (cs.takeWhile (· ≠ '/'))), String.ofList rest)

def dropColon (s : String) : String :=
  match s.toList with
  | ':' :: rest => String.ofList rest
  | _ => s

/-- The parts that a written name of this kind stands for. -/
def parse : NameKind → String → Option String × String
  | .symbol, s => splitPath s
  | .keyword, s => splitPath (dropColon s)

end Name

end LispCore
