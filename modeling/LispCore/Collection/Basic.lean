import LispCore.Collection.Vector
import LispCore.Map.Update
import LispCore.Seq.Build
/-!
Operations on collections of any kind. Nil behaves as an empty collection: `get` gives the default,
`assoc` starts a map, `conj` starts a list, `peek` and `pop` give nil. Each operation names itself in
the error for a value that it does not apply to.
-/

namespace LispCore

namespace Value

/-- The number of elements; sequences are walked. -/
def count (coll : Value) : Act Nat :=
  match coll.knownCount? with
  | some n => pure n
  | none =>
    match coll with
    | str s => pure s.length
    | seq _ | lazy _ => coll.length
    | v => Act.fail (.wrongKind "count" "countable" v.kind)

/-- The value at a key, or the default when there is none or the value has no keyed look-up. -/
def get (coll key default : Value) : Act Value :=
  match coll with
  | map m => do return (← m.find? key).getD default
  | vector items => pure ((Vec.valAt? items key).getD default)
  | view v => pure ((v.valAt? key).getD default)
  | str s => pure (((key.index?.bind (s.toList[·]?)).map char).getD default)
  | _ => pure default

def assoc (coll key x : Value) : Act Value :=
  match coll with
  | nil => do return map (← Map.smallOfPairs [(key, x)])
  | map m => do return map (← m.assoc key x)
  | vector items => do return vector (← Act.ofExcept (Vec.assoc items key x))
  | view v => do return view (← Act.ofExcept (v.assoc key x))
  | v => Act.fail (.wrongKind "assoc" "associative" v.kind)

def dissoc (coll key : Value) : Act Value :=
  match coll with
  | nil => pure nil
  | map m => do return map (← m.dissoc key)
  | v => Act.fail (.wrongKind "dissoc" "map" v.kind)

/-- Whether a key is present; in a vector, whether it is an index. -/
def contains (coll key : Value) : Act Bool :=
  match coll with
  | map m => m.contains key
  | vector items => pure (Vec.valAt? items key).isSome
  | view v => pure (v.valAt? key).isSome
  | _ => pure false

/-- Adds an entry to a map: a pair in a vector, or all entries of a map. -/
def conjEntry (m : Map Value Value) (entry : Value) : Act Value :=
  match entry with
  | vector #[key, val] => do return map (← m.assoc key val)
  | map other => do return map (← m.assocAll other.toList)
  | v => Act.fail (.wrongKind "conj" "map entry" v.kind)

/-- Adds an element the way the collection grows: lists at the front, vectors at the back. -/
def conj (coll x : Value) : Act Value :=
  match coll with
  | nil => do return list (← Linked.push .nil x)
  | list l => do return list (← l.push x)
  | vector items => pure (vector (items.push x))
  | view v => do return view (← Act.ofExcept (v.conj x))
  | map m => conjEntry m x
  | seq _ | lazy _ => do return seq (← Seq.consOnto x coll)
  | v => Act.fail (.wrongKind "conj" "collection" v.kind)

/-- The element at an index that is not negative, if there is one; a walk realizes what it passes. -/
def elementAt (coll : Value) (i : Nat) : Act (Option Value) :=
  match coll with
  | vector items => pure items[i]?
  | view v => pure (v.get? i)
  | str s => pure (s.toList[i]?.map char)
  | list _ | seq _ | lazy _ => do
    return (← Seq.skip? i (← coll.seq?)).map Seq.first
  | v => Act.fail (.wrongKind "nth" "sequential" v.kind)

/-- The element at an index; nil has nil everywhere. -/
def nth (coll : Value) (index : Int64) : Act Value :=
  let outside := Error.indexOutOfBounds index (coll.knownCount?.getD 0)
  match indexOf? index with
  | none => Act.fail outside
  | some i =>
    match coll with
    | nil => pure nil
    | coll => do
      match ← coll.elementAt i with
      | some x => return x
      | none => Act.fail outside

/-- The element that `pop` removes. -/
def peek (coll : Value) : Act Value :=
  match coll with
  | nil => pure nil
  | list l => Act.ofExcept l.peek
  | vector items => Act.ofExcept (Vec.peek items)
  | view v => Act.ofExcept v.peek
  | v => Act.fail (.wrongKind "peek" "stack" v.kind)

/-- All but the element that `peek` gives. -/
def pop (coll : Value) : Act Value :=
  match coll with
  | nil => pure nil
  | list l => do return list (← Act.ofExcept l.pop)
  | vector items => do return vector (← Act.ofExcept (Vec.pop items))
  | view v => pure v.pop
  | v => Act.fail (.wrongKind "pop" "stack" v.kind)

/-- The natural bounds of a range within a count. -/
def checkRange (start stop : Int64) (count : Nat) : Except Error (Nat × Nat) :=
  if stop < start then .error (.indexOutOfBounds stop count)
  else
    match indexOf? start with
    | none => .error (.indexOutOfBounds start count)
    | some first =>
      match indexOf? stop with
      | some last =>
        if last ≤ count then .ok (first, last) else .error (.indexOutOfBounds stop count)
      | none => .error (.indexOutOfBounds stop count)

/-- A view of the range from `start` to before `stop` of a vector or a view. -/
def subvec (coll : Value) (start stop : Int64) : Act Value :=
  match coll with
  | vector items => Act.ofExcept do
    let (first, last) ← checkRange start stop items.size
    View.ofRange items first last
  | view v => Act.ofExcept do
    let (first, last) ← checkRange start stop v.count
    v.subvec first last
  | v => Act.fail (.wrongKind "subvec" "vector" v.kind)

end Value

end LispCore
