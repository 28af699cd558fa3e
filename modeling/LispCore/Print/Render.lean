import LispCore.Decimal.Layout
import LispCore.Print.Sink
import LispCore.Seq.Walk
/-!
Rendering. Sequences are written `(a b c)`, vectors `[a b c]`, maps as entries in braces, and every
other value in its own form. `readably` quotes strings and names characters; with a `limit` each
collection shows as many of its elements and then `...`. A separator is written before it is known
whether the limit has been reached, and the element behind it is asked for before the separator. What is
no collection is handed to the sink in the pieces that formatting makes of it, so a sink may take its
beginning only.
-/

namespace LispCore

structure RenderOptions where
  readably : Bool := true
  /-- The most elements shown of each collection. -/
  limit : Option Nat := none
deriving DecidableEq, Repr, Inhabited

namespace Print

/-- The name of a character after the backslash. -/
def charName (c : Char) : String :=
  if c = '\n' then "newline"
  else if c = ' ' then "space"
  else if c = '\t' then "tab"
  else if c = '\r' then "return"
  else if c = '\x08' then "backspace"
  else if c = '\x0c' then "formfeed"
  else c.toString

/-- A character inside a string. -/
def escapeChar (c : Char) : List Char :=
  if c = '\n' then ['\\', 'n']
  else if c = '\t' then ['\\', 't']
  else if c = '\r' then ['\\', 'r']
  else if c = '\\' then ['\\', '\\']
  else if c = '"' then ['\\', '"']
  else [c]

/-- The inside of a string. -/
def escape (cs : List Char) : List Char := cs.flatMap escapeChar

/-- A string, quoted so that its end can be told. -/
def stringPieces (s : String) : List String := ["\"", String.ofList (escape s.toList), "\""]

/-- An integer: its sign, if it has one, and its digits. -/
def intPieces (n : Int64) : List String :=
  let digits := toString n.toInt.natAbs
  if n < 0 then ["-", digits] else [digits]

/-- A name: the colon of a keyword, the namespace in front of its slash, and the plain name. -/
def namePieces : {kind : NameKind} → Name kind → List String
  | .symbol, n => path n
  | .keyword, n => ":" :: path n
where
  /-- The namespace and the plain name. -/
  path {kind : NameKind} (n : Name kind) : List String :=
    match n.ns with
    | some ns => [ns, "/", n.name]
    | none => [n.name]

/-- The name of a var. -/
def varName (v : Var) : Act String := fun _ w => .ok (w.varCell v).label.text w

/-- A var, by its name. -/
def varText (v : Var) : Act String := do return "#'" ++ (← varName v)

/-- Writes the elements of a walk from index `i` on. -/
def writeItems (write : Value → Writing Unit) (limit : Option Nat) :
    (rounds i : Nat) → Walk → Writing Unit
  | 0, _, _ => Writing.act Act.exhausted
  | rounds + 1, i, walk => do
    let (item, walk) ← Writing.act walk.pull
    match item with
    | none => pure ()
    | some item =>
      if 0 < i then Writing.put " "
      if limit = some i then Writing.put "..."
      else
        write (← Writing.ofExcept item)
        writeItems write limit rounds (i + 1) walk

/-- Writes a sequential value between brackets. Its sequence is asked for first. -/
def writeSequence (write : Value → Writing Unit) (limit : Option Nat) (opening closing : String)
    (v : Value) : Writing Unit := do
  let walk ← Writing.act (Walk.of v)
  Writing.put opening
  writeItems write limit (← Writing.act Act.budget) 0 walk
  Writing.put closing

/-- Writes the entries of a map from index `i` on. -/
def writeEntries (write : Value → Writing Unit) (limit : Option Nat) :
    Nat → List (Value × Value) → Writing Unit
  | _, [] => pure ()
  | i, e :: es => do
    if 0 < i then Writing.put ", "
    if limit = some i then Writing.put "..."
    else
      write e.1
      Writing.put " "
      write e.2
      writeEntries write limit (i + 1) es

/-- Writes a value; `depth` bounds how deep values nest. -/
def writeAt (o : RenderOptions) : (depth : Nat) → Value → Writing Unit
  | 0, _ => Writing.act Act.exhausted
  | depth + 1, v =>
    match v with
    | .nil => Writing.puts ["nil"]
    | .bool b => Writing.puts [if b then "true" else "false"]
    | .int n => Writing.puts (intPieces n)
    | .float bits => Writing.puts (Decimal.floatPieces bits)
    | .char c => Writing.puts (if o.readably then ["\\", charName c] else [c.toString])
    | .str s => Writing.puts (if o.readably then stringPieces s else [s])
    | .symbol s => Writing.puts (namePieces s)
    | .keyword k => Writing.puts (namePieces k)
    | .vector _ | .view _ => writeSequence (writeAt o depth) o.limit "[" "]" v
    | .list _ | .seq _ | .lazy _ => writeSequence (writeAt o depth) o.limit "(" ")" v
    | .map m => do
      Writing.put "\x7b"
      writeEntries (writeAt o depth) o.limit 0 m.toList
      Writing.put "\x7d"
    | .var v => do Writing.puts ["#'", ← Writing.act (varName v)]
    | .reduced _ v => do
      Writing.put "#reduced["
      writeAt o depth v
      Writing.put "]"
    | .handle h => Writing.puts ["#object[", h.kind, " ", h.label, "]"]

def write (o : RenderOptions) (v : Value) : Writing Unit := do
  writeAt o (← Writing.act Act.budget) v

end Print

namespace Value

/-- Renders into a sink: the outcome, and the sink after it. -/
def render (o : RenderOptions) (v : Value) (sink : Sink) : Act (Except Error Unit × Sink) :=
  (Print.write o v).runOn sink

def print (o : RenderOptions) (v : Value) : Act String := do
  let (outcome, sink) ← v.render o {}
  match outcome with
  | .ok () => return sink.text
  | .error e => Act.fail e

/-- The text of a value for messages. A failing lazy sequence breaks it off with the error; only
when the failure is a refusal of text itself is there no text, and that is the outcome. -/
def shown (v : Value) : Act (Except Error String) := do
  let (outcome, sink) ← v.render {} {}
  match outcome with
  | .ok () => return .ok sink.text
  | .error .format => return .error .format
  | .error e => return .ok (sink.text ++ "#error[" ++ e.message ++ "]")

/-- The text of a value for messages. That there is no text is a defect, so a panic. -/
def display (v : Value) : Act String := do
  match ← v.shown with
  | .ok text => return text
  | .error _ => Act.panic "a Display implementation returned an error unexpectedly: Error"

end Value

end LispCore
