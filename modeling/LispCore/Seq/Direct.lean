import LispCore.Error
import LispCore.Value.Basic
/-!
The sequence view of every value that holds its elements itself. Strings give their characters and
maps their entries; other scalars have no sequence view.
-/

namespace LispCore

/-- A sequence over `items[index..stop)`, if there is an element. -/
def Seq.ofSlice (items : Array Value) (index stop : Nat) : Option Seq :=
  if index < stop ∧ stop ≤ items.size then some (.slice items index stop) else none

/-- A sequence over a list, if there is an element. -/
def Seq.ofLinked (l : Linked Value) : Option Seq :=
  if l.isEmpty then none else some (.list l)

/-- A sequence over characters, if there is one. -/
def Seq.ofChars : List Char → Option Seq
  | [] => none
  | cs => some (.chars cs)

/-- The sequence of a value that is not lazy. -/
def Value.directSeq : Value → Except Error (Option Seq)
  | .nil => .ok none
  | .list l => .ok (Seq.ofLinked l)
  | .vector items => .ok (Seq.ofSlice items 0 items.size)
  | .view v => .ok (Seq.ofSlice v.backing v.start v.stop)
  | .map m => .ok (m.cursor?.map .entries)
  | .seq s => .ok (some s)
  | .str s => .ok (Seq.ofChars s.toList)
  | v => .error (.notSeqable v.kind)

end LispCore
