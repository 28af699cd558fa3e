import LispCore.Act
/-!
Sinks for text. A sink holds what has been written; one with a cap refuses a piece that would take
it past as many bytes, and keeps what it had. Writing keeps the sink's text when it fails.
-/

namespace LispCore

/-- A sink, perhaps with a cap in bytes. -/
structure Sink where
  text : String := ""
  cap : Option Nat := none
deriving DecidableEq, Repr, Inhabited

def Sink.fits (s : Sink) (piece : String) : Bool :=
  match s.cap with
  | none => true
  | some cap => s.text.utf8ByteSize + piece.utf8ByteSize ≤ cap

/-- An action that writes to a sink. -/
abbrev Writing := ExceptT Error (StateT Sink Act)

namespace Writing

variable {α : Type}

/-- Writes a piece, or fails when it does not fit. -/
def put (piece : String) : Writing Unit := fun s =>
  if s.fits piece then pure (.ok (), { s with text := s.text ++ piece })
  else pure (.error .format, s)

def puts : List String → Writing Unit
  | [] => pure ()
  | piece :: pieces => do
    put piece
    puts pieces

/-- Runs an action that writes nothing. -/
def act (x : Act α) : Writing α := fun s => do return (← Act.attempt x, s)

/-- Ends with the result or the error given. -/
def ofExcept (r : Except Error α) : Writing α := fun s => pure (r, s)

/-- The outcome of writing to a sink, and the sink after it. -/
def runOn (x : Writing α) (s : Sink) : Act (Except Error α × Sink) := x s

end Writing

end LispCore
