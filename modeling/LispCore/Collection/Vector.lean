import LispCore.Error
import LispCore.Value.Basic
/-!
Vectors and views of them. A view is written through to a new backing array, in which only the
written place changes; an append writes the place after the view's last element. An empty range
gives the empty vector, so a view always has an element. Indices are natural numbers here; a key is
an index when it is an integer that is not negative.
-/

namespace LispCore

/-- The error for an index that is not below the count. -/
def Error.outOfRange (index count : Nat) : Error := .indexOutOfBounds (Int64.ofNat index) count

/-- The index that a key stands for. -/
def Value.toIndex (key : Value) (op : String) : Except Error Nat :=
  match key with
  | .int n =>
    match indexOf? n with
    | some i => .ok i
    | none => .error (.indexOutOfBounds n 0)
  | v => .error (.wrongKind op "integer index" v.kind)

/-- The index that a key stands for, if it is one. -/
def Value.index? (key : Value) : Option Nat := key.int?.bind indexOf?

namespace Vec

def empty : Value := .vector #[]

/-- Replaces the element at an index; the index after the last element appends. -/
def assocN (items : Array Value) (i : Nat) (x : Value) : Except Error (Array Value) :=
  if i = items.size then .ok (items.push x)
  else if h : i < items.size then .ok (items.set i x)
  else .error (.outOfRange i items.size)

/-- Replaces the element that a key stands for. -/
def assoc (items : Array Value) (key x : Value) : Except Error (Array Value) := do
  assocN items (← key.toIndex "assoc") x

/-- The element that a key stands for. -/
def valAt? (items : Array Value) (key : Value) : Option Value := do items[← key.index?]?

def peek (items : Array Value) : Except Error Value :=
  match items.back? with
  | some x => .ok x
  | none => .error (.emptyCollection "peek" "vector")

def pop (items : Array Value) : Except Error (Array Value) :=
  if items.isEmpty then .error (.emptyCollection "pop" "vector") else .ok items.pop

end Vec

namespace View

/-- A view of `backing[start..stop)`. -/
def ofRange (backing : Array Value) (start stop : Nat) : Except Error Value :=
  if stop < start then .error (.outOfRange stop backing.size)
  else if backing.size < stop then .error (.outOfRange stop backing.size)
  else if start = stop then .ok Vec.empty
  else .ok (.view { backing, start, stop })

/-- A view of a range of a view; it points at the same backing array. -/
def subvec (v : View Value) (start stop : Nat) : Except Error Value :=
  if stop < start ∨ v.count < stop then .error (.outOfRange stop v.count)
  else ofRange v.backing (v.start + start) (v.start + stop)

/-- Appends an element after the last one viewed. -/
def conj (v : View Value) (x : Value) : Except Error (View Value) := do
  return { backing := ← Vec.assocN v.backing v.stop x, start := v.start, stop := v.stop + 1 }

/-- Replaces the element at an index; the index after the last element appends. -/
def assocN (v : View Value) (i : Nat) (x : Value) : Except Error (View Value) :=
  if i = v.count then v.conj x
  else if i < v.count then do
    return { v with backing := ← Vec.assocN v.backing (v.start + i) x }
  else .error (.outOfRange i v.count)

/-- Replaces the element that a key stands for. -/
def assoc (v : View Value) (key x : Value) : Except Error (View Value) := do
  v.assocN (← key.toIndex "assoc") x

/-- The element that a key stands for. -/
def valAt? (v : View Value) (key : Value) : Option Value := do v.get? (← key.index?)

def peek (v : View Value) : Except Error Value :=
  match v.last? with
  | some x => .ok x
  | none => .error (.emptyCollection "peek" "vector")

/-- All but the last element; the empty vector when there is one only. -/
def pop (v : View Value) : Value :=
  if v.stop - 1 = v.start then Vec.empty else .view { v with stop := v.stop - 1 }

end View

namespace Linked

def peek (l : Linked Value) : Except Error Value :=
  match l.first? with
  | some x => .ok x
  | none => .error (.emptyCollection "peek" "list")

def pop (l : Linked Value) : Except Error (Linked Value) :=
  if l.isEmpty then .error (.emptyCollection "pop" "list") else .ok l.rest

end Linked

end LispCore
