import LispCore.Text.Quoted
/-!
The causes for which an operation of the library fails, and their messages. Absence is never an
error: a missing key gives the caller's default and an exhausted sequence gives no sequence.
-/

namespace LispCore

inductive Error where
  /-- A symbol or keyword with an empty or malformed part. -/
  | invalidName (name reason : String)
  /-- A map was built from pairs two of which have equal keys. -/
  | duplicateKey (key : String)
  /-- An index or a bound outside the collection. -/
  | indexOutOfBounds (index : Int64) (count : Nat)
  /-- `peek` or `pop` of an empty stack. -/
  | emptyCollection (op kind : String)
  /-- A binding was popped out of order or with nothing pushed. -/
  | unbalancedBinding (detail : String)
  /-- A var with neither a root value nor a binding was read. -/
  | unboundVar (name : String)
  /-- A var that is not dynamic was to be bound. -/
  | notDynamic (name : String)
  /-- A var without a binding on this thread was to be set. -/
  | noThreadBinding (name : String)
  /-- A value with no sequence view was to be traversed. -/
  | notSeqable (kind : String)
  /-- A lazy sequence whose producer panicked earlier. -/
  | producerPanicked
  /-- A value of the wrong kind; the context is usually the operation. -/
  | typeError (expected got : String) (context : Option String)
  /-- Rendered text was refused by its sink. -/
  | format
deriving DecidableEq, Repr, Inhabited

namespace Error

/-- A type error that names its operation. -/
def wrongKind (context expected got : String) : Error := .typeError expected got (some context)

def message : Error → String
  | invalidName name reason => "Invalid name: " ++ Text.quoted name ++ " (" ++ reason ++ ")"
  | duplicateKey key => "Duplicate key: " ++ key
  | indexOutOfBounds index count =>
    "Index out of bounds: " ++ toString index ++ " (count: " ++ toString count ++ ")"
  | emptyCollection op kind => "Can't " ++ op ++ " empty " ++ kind
  | unbalancedBinding detail => "Unbalanced binding: " ++ detail
  | unboundVar name => "Var " ++ name ++ " is unbound"
  | notDynamic name => "Can't dynamically bind non-dynamic var: " ++ name
  | noThreadBinding name => "Can't change/establish root binding of: " ++ name ++ " with set"
  | notSeqable kind => "Don't know how to create a sequence from: " ++ kind
  | producerPanicked => "Lazy seq producer panicked; the sequence can't be realized"
  | typeError expected got (some context) => context ++ ": expected " ++ expected ++ ", got " ++ got
  | typeError expected got none => "Type error: expected " ++ expected ++ ", got " ++ got
  | format => "Format error: an error occurred when formatting an argument"

end Error

end LispCore
