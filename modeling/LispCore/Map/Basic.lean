import LispCore.Trie.Cursor
/-!
Maps. A small map is an array of entries in the order in which their keys were first added; a
hashed map is a hash trie. A cursor walks the entries of either and knows how many are left.
-/

namespace LispCore

/-- A persistent map in one of its two representations. -/
inductive Map (κ ν : Type) where
  | small (entries : Array (κ × ν))
  | hashed (m : HashMap κ ν)

/-- A place in the entries of a map, on an entry. -/
inductive Cursor (κ ν : Type) where
  | small (entries : Array (κ × ν)) (index : Nat)
  | hashed (path : List (Level κ ν)) (remaining : Nat)
deriving Inhabited

namespace Map

variable {κ ν : Type}

/-- The most entries that a small map grows to; one more makes it a hashed map. -/
def smallLimit : Nat := 8

def empty : Map κ ν := .small #[]

instance : Inhabited (Map κ ν) := ⟨empty⟩

def toList : Map κ ν → List (κ × ν)
  | small entries => entries.toList
  | hashed m => m.toList

def count : Map κ ν → Nat
  | small entries => entries.size
  | hashed m => m.count

def isEmpty (m : Map κ ν) : Bool := m.count == 0

def isSmall : Map κ ν → Bool
  | small _ => true
  | hashed _ => false

end Map

namespace Cursor

variable {κ ν : Type}

/-- The cursor at an index of a small map, if there is an entry. -/
def smallAt (entries : Array (κ × ν)) (index : Nat) : Option (Cursor κ ν) :=
  if index < entries.size then some (small entries index) else none

/-- The cursor on the first entry of a hash map, if there is one. -/
def ofHashMap (m : HashMap κ ν) : Option (Cursor κ ν) :=
  if m.count = 0 then none
  else (Path.firstIn m.root.children).map (hashed · m.count)

def entry? : Cursor κ ν → Option (κ × ν)
  | small entries index => entries[index]?
  | hashed path _ => Path.entry? path

def next? : Cursor κ ν → Option (Cursor κ ν)
  | small entries index => smallAt entries (index + 1)
  | hashed path remaining =>
    if remaining ≤ 1 then none else (Path.next? path).map (hashed · (remaining - 1))

/-- The number of entries from the current one on. -/
def remaining : Cursor κ ν → Nat
  | small entries index => entries.size - index
  | hashed _ remaining => remaining

end Cursor

/-- The cursor on the first entry of a map, if there is one. -/
def Map.cursor? {κ ν : Type} : Map κ ν → Option (Cursor κ ν)
  | .small entries => Cursor.smallAt entries 0
  | .hashed m => Cursor.ofHashMap m

end LispCore
