import LispCore.Print.Render
/-!
Diagnostic text. Collections show their elements between commas; a lazy sequence shows what is known
of it without being realized.
-/

namespace LispCore

namespace Print

def debugItem (v : Value) : Act String := do
  match ← v.shown with
  | .ok text => return text
  | .error _ =>
    Act.panic
      "a formatting trait implementation returned an error when the underlying stream did not: Error"

def debugItems : List Value → Act (List String)
  | [] => pure []
  | v :: vs => do
    let text ← debugItem v
    return text :: (← debugItems vs)

def debugEntries : List (Value × Value) → Act (List String)
  | [] => pure []
  | e :: es => do
    let key ← debugItem e.1
    let val ← debugItem e.2
    return (key ++ ": " ++ val) :: (← debugEntries es)

def debugList (vs : List Value) : Act String := do
  return "[" ++ ", ".intercalate (← debugItems vs) ++ "]"

def debugMap (es : List (Value × Value)) : Act String := do
  return "\x7b" ++ ", ".intercalate (← debugEntries es) ++ "\x7d"

/-- What is known of a lazy sequence. -/
def debugLazy (l : Lazy) : Act String := do
  match (← l.cell).realized with
  | none => return "#<LazySeq: pending>"
  | some (.ok none) => return "()"
  | some (.ok (some s)) => debugItem (.seq s)
  | some (.error e) => return "#<LazySeq: failed: " ++ e.message ++ ">"

end Print

/-- The diagnostic text of a value. -/
def Value.debug : Value → Act String
  | .symbol s => pure s.debugText
  | .keyword k => pure k.debugText
  | .list l => Print.debugList l.toList
  | .vector items => Print.debugList items.toList
  | .view v => Print.debugList v.toList
  | .map m => Print.debugMap m.toList
  | .lazy l => Print.debugLazy l
  | v => Print.debugItem v

end LispCore
