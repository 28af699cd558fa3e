import LispCore.Trie.Update
/-!
Hash maps: a hash trie with the number of its entries. `assoc` of an equal key takes the new key as
well as the new value; `dissoc` of an absent key gives the map itself.
-/

namespace LispCore

/-- A hash map. The root is a branch. -/
structure HashMap (κ ν : Type) where
  root : Node κ ν
  count : Nat

namespace HashMap

variable {κ ν : Type}

def empty : HashMap κ ν := ⟨.branch 0 [], 0⟩

instance : Inhabited (HashMap κ ν) := ⟨empty⟩

/-- The entries in trie order. -/
def toList (m : HashMap κ ν) : List (κ × ν) := m.root.toList

def find? (K : Keying κ) (m : HashMap κ ν) (key : κ) : Option ν :=
  m.root.find? K (K.hash key) key 0

def contains (K : Keying κ) (m : HashMap κ ν) (key : κ) : Bool := (m.find? K key).isSome

/-- Adds or replaces an entry; the flag says whether the key was new. -/
def insert (K : Keying κ) (m : HashMap κ ν) (key : κ) (val : ν) : HashMap κ ν × Bool :=
  let (root, added) := m.root.insert K (K.hash key) key val 0
  (⟨root, if added then m.count + 1 else m.count⟩, added)

def assoc (K : Keying κ) (m : HashMap κ ν) (key : κ) (val : ν) : HashMap κ ν :=
  (m.insert K key val).1

def dissoc (K : Keying κ) (m : HashMap κ ν) (key : κ) : HashMap κ ν :=
  match m.root.erase K (K.hash key) key 0 with
  | .absent => m
  | .gone => empty
  | .kept root => ⟨root, m.count - 1⟩

end HashMap

end LispCore
