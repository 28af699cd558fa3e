import LispCore.Lazy.Realize
/-!
The traversal protocol: `first`, `next?` and `more`. Only a cell put in front of a lazy rest can
fail to move on; `more` hands out such a rest unrealized, and the empty list at the end. The shown
counts are what a sequence knows about itself without a walk.
-/

namespace LispCore

/-- An entry of a map as a value: key and value in a vector. -/
def Value.pair (e : Value × Value) : Value := .vector #[e.1, e.2]

def Value.emptyList : Value := .list .nil

namespace Seq

/-- The first element. -/
def first : Seq → Value
  | list l => l.first?.getD .nil
  | cons x _ => x
  | slice items index _ => items[index]?.getD .nil
  | entries c => (c.entry?.map Value.pair).getD .nil
  | chars left => (left.head?.map Value.char).getD .nil
  | keys c => (c.entry?.map (·.1)).getD .nil
  | vals c => (c.entry?.map (·.2)).getD .nil

/-- What is left after the first element, without realizing anything; nothing is said of a cell. -/
def step? : Seq → Option Seq
  | list l => Seq.ofLinked l.rest
  | cons _ _ => none
  | slice items index stop => Seq.ofSlice items (index + 1) stop
  | entries c => c.next?.map entries
  | chars left => Seq.ofChars left.tail
  | keys c => c.next?.map keys
  | vals c => c.next?.map vals

/-- What is left after the first element, none at the end. -/
def next? : Seq → Act (Option Seq)
  | cons _ rest => rest.seq?
  | s => pure s.step?

/-- What is left after the first element as a value that is never nil; realizes nothing. -/
def more : Seq → Value
  | list l => .list l.rest
  | cons _ .nil => Value.emptyList
  | cons _ rest => rest
  | s =>
    match s.step? with
    | some t => .seq t
    | none => Value.emptyList

/-- The number of elements when it is known without a walk. -/
def knownCount? : Seq → Option Nat
  | list l => some l.count
  | cons _ _ => none
  | slice _ index stop => some (stop - index)
  | entries c => some c.remaining
  | chars left => some left.length
  | keys c => some c.remaining
  | vals c => some c.remaining

/-- Adds the number of elements to those already counted. -/
def countFrom : (rounds : Nat) → Nat → Seq → Act Nat
  | 0, _, _ => Act.exhausted
  | rounds + 1, n, s =>
    match s.knownCount? with
    | some known => pure (n + known)
    | none => do
      match ← s.next? with
      | some t => countFrom rounds (n + 1) t
      | none => pure (n + 1)

/-- The number of elements; walks as far as needed. -/
def count (s : Seq) : Act Nat := do countFrom (← Act.budget) 0 s

/-- The sequence after as many elements, none if it ends before. -/
def skip? : Nat → Option Seq → Act (Option Seq)
  | 0, s => pure s
  | _ + 1, none => pure none
  | n + 1, some s => do skip? n (← s.next?)

end Seq

namespace Value

/-- The first element, or nil. -/
def first (v : Value) : Act Value := do
  match ← v.seq? with
  | some s => return s.first
  | none => return .nil

/-- Everything after the first element, none when there is nothing. -/
def next? (v : Value) : Act (Option Seq) := do
  match ← v.seq? with
  | some s => s.next?
  | none => return none

/-- Everything after the first element; the empty list when there is nothing. -/
def more (v : Value) : Act Value := do
  match ← v.seq? with
  | some s => return s.more
  | none => return emptyList

/-- The first element after skipping as many, or nil. -/
def firstAfter (v : Value) (n : Nat) : Act Value := do
  match ← Seq.skip? n (← v.seq?) with
  | some s => return s.first
  | none => return .nil

def second (v : Value) : Act Value := v.firstAfter 1

def third (v : Value) : Act Value := v.firstAfter 2

/-- The fourth element, or nil. -/
def fourth (v : Value) : Act Value := v.firstAfter 3

def length (v : Value) : Act Nat := do
  match ← v.seq? with
  | some s => s.count
  | none => return 0

/-- What a cursor shows of the entries of a map, none for nil or an empty map. Errors name the operation. -/
def ofEntries? (op : String) (f : Cursor Value Value → Seq) : Value → Act (Option Seq)
  | .nil => pure none
  | .map m => pure (m.cursor?.map f)
  | v => Act.fail (.wrongKind op "map" v.kind)

def keys? (v : Value) : Act (Option Seq) := v.ofEntries? "keys" .keys

def vals? (v : Value) : Act (Option Seq) := v.ofEntries? "vals" .vals

end Value

end LispCore
