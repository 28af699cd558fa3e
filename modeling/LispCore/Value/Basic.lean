import LispCore.Linked
import LispCore.Map.Basic
import LispCore.Name.Basic
import LispCore.Value.Handle
import LispCore.View
/-!
Values and sequences. A value is a scalar, a name, a collection, a sequence view, a lazy sequence,
a var, an early-stop marker or a handle. A sequence rests on an element of some collection and is
never empty; that there is nothing left is said by the absence of a sequence.
-/

namespace LispCore

mutual

inductive Value where
  | nil
  | bool (b : Bool)
  | int (n : Int64)
  /-- A binary64 number, known by its bits. -/
  | float (bits : UInt64)
  | char (c : Char)
  | str (s : String)
  | symbol (s : Symbol)
  | keyword (k : Keyword)
  | list (l : Linked Value)
  | vector (items : Array Value)
  | view (v : View Value)
  | map (m : Map Value Value)
  | seq (s : Seq)
  | lazy (l : Lazy)
  | var (v : Var)
  /-- An early-stop marker: tells a reduction to stop with the value inside. Markers are stamped when
  they are made, so one marker is told from another around the same value. -/
  | reduced (stamp : Nat) (v : Value)
  | handle (h : Handle)

/-- A sequence, resting on its first element. -/
inductive Seq where
  /-- A list that is not empty. -/
  | list (l : Linked Value)
  /-- One element in front of any rest that can be traversed. -/
  | cons (first rest : Value)
  /-- The elements `items[index..stop)`. -/
  | slice (items : Array Value) (index stop : Nat)
  /-- The entries of a map, as pairs in a vector. -/
  | entries (c : Cursor Value Value)
  /-- The characters of a string from here on. -/
  | chars (left : List Char)
  /-- The keys of the entries. -/
  | keys (c : Cursor Value Value)
  /-- The values of the entries. -/
  | vals (c : Cursor Value Value)

end

instance : Inhabited Value := ⟨.nil⟩

instance : Inhabited Seq := ⟨.chars []⟩

namespace Value

/-- A value of an optional sequence: nil when there is none. -/
def ofSeq? : Option Seq → Value
  | some s => .seq s
  | none => .nil

def kind : Value → String
  | nil => "nil"
  | bool _ => "boolean"
  | int _ => "integer"
  | float _ => "float"
  | char _ => "char"
  | str _ => "string"
  | symbol _ => "symbol"
  | keyword _ => "keyword"
  | list _ => "list"
  | vector _ => "vector"
  | view _ => "subvector"
  | map _ => "map"
  | seq _ => "seq"
  | lazy _ => "lazy-seq"
  | var _ => "var"
  | reduced .. => "reduced"
  | handle h => h.kind

def isNil : Value → Bool
  | nil => true
  | _ => false

/-- Everything is true but nil and false. -/
def isTruthy : Value → Bool
  | nil | bool false => false
  | _ => true

/-- Lists, vectors, views and sequences, realized or not. -/
def isSequential : Value → Bool
  | list _ | vector _ | view _ | seq _ | lazy _ => true
  | _ => false

def isReduced : Value → Bool
  | reduced .. => true
  | _ => false

def int? : Value → Option Int64
  | int n => some n
  | _ => none

def str? : Value → Option String
  | str s => some s
  | _ => none

/-- The number of elements when it is known without a walk. -/
def knownCount? : Value → Option Nat
  | nil => some 0
  | list l => some l.count
  | vector items => some items.size
  | view v => some v.count
  | map m => some m.count
  | _ => none

end Value

/-- The natural number that an index stands for, if it is not negative. -/
def indexOf? (n : Int64) : Option Nat := if n < 0 then none else some n.toNatClampNeg

end LispCore
