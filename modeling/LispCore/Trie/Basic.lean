/-!
Hash tries. Keys are hashed to 64 bits and told apart five bits a level, so a branch has up to 32
slots, kept densely beside a bitmap of the occupied ones. Keys whose whole hashes agree share a
collision node. This module has the shape of the trie, its view `toList` as a list of entries, and
lookup; both work for any hash and any test for equal keys, given as a `Keying`.
-/

namespace LispCore

/-- How keys are compared and hashed. The stored key is the first one compared. -/
structure Keying (κ : Type) where
  same : κ → κ → Bool
  hash : κ → UInt64

/-- A node of a hash trie. -/
inductive Node (κ ν : Type) where
  | leaf (key : κ) (val : ν)
  /-- Two or more entries whose keys have this whole hash. -/
  | collision (hash : UInt64) (pairs : List (κ × ν))
  /-- The occupied slots in ascending order, and which they are. -/
  | branch (bitmap : BitVec 32) (entries : List (Node κ ν))
deriving Inhabited

namespace Trie

/-- The number of levels that use up a hash: twelve of five bits and one of four. -/
def levels : Nat := 13

/-- The five-bit group of a hash that selects a slot at a depth, counted from the low end. -/
def slotAt (hash : UInt64) (depth : Nat) : Nat :=
  ((hash >>> UInt64.ofNat (5 * depth)) &&& 31).toNat

/-- Whether a slot is occupied. -/
def occupied (bitmap : BitVec 32) (slot : Nat) : Bool := bitmap.getLsbD slot

/-- The position of a slot among the occupied ones: the number of occupied slots below it. -/
def position (bitmap : BitVec 32) (slot : Nat) : Nat :=
  (List.range slot).countP (occupied bitmap)

/-- The bitmap of one slot. -/
def only (slot : Nat) : BitVec 32 := BitVec.twoPow 32 slot

end Trie

namespace Node

variable {κ ν : Type}

mutual

/-- The entries below a node, in slot order. -/
def toList : Node κ ν → List (κ × ν)
  | leaf k v => [(k, v)]
  | collision _ pairs => pairs
  | branch _ entries => listAll entries

/-- The entries below several nodes. -/
def listAll : List (Node κ ν) → List (κ × ν)
  | [] => []
  | n :: ns => n.toList ++ listAll ns

end

/-- The nodes that a cursor starts from. -/
def children : Node κ ν → List (Node κ ν)
  | branch _ entries => entries
  | n => [n]

/-- Whether a node holds entries itself. -/
def isTerminal : Node κ ν → Bool
  | branch .. => false
  | _ => true

mutual

/-- The value at a key whose hash is `hash`, below a node at `depth`. -/
def find? (K : Keying κ) (hash : UInt64) (key : κ) (depth : Nat) : Node κ ν → Option ν
  | leaf k v => if K.same k key then some v else none
  | collision h pairs =>
    if h = hash then (pairs.find? fun e => K.same e.1 key).map (·.2) else none
  | branch bitmap entries =>
    let slot := Trie.slotAt hash depth
    if Trie.occupied bitmap slot then
      findAt K hash key (depth + 1) entries (Trie.position bitmap slot)
    else none

/-- The value at a key below the node at a position. -/
def findAt (K : Keying κ) (hash : UInt64) (key : κ) (depth : Nat) :
    List (Node κ ν) → Nat → Option ν
  | [], _ => none
  | n :: _, 0 => n.find? K hash key depth
  | _ :: ns, i + 1 => findAt K hash key depth ns i

end

end Node

end LispCore
