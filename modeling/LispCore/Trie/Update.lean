import LispCore.Trie.Basic
/-!
Insertion into and removal from a hash trie. An insertion splits a leaf or a collision node whose
slot is taken by a key with another hash, one level at a time, until the two hashes part. A removal
pulls a lone leaf or collision node up to the branch above, so that no branch below the root is
empty or holds just one of these; the root itself is left as it is.
-/

namespace LispCore.Node

variable {κ ν : Type}

/-- A branch of two nodes with different hashes, split at the first level from `depth` on at which
the hashes differ. The count of levels left bounds the descent; two different hashes part before it
runs out. -/
def split (a : Node κ ν) (aHash : UInt64) (b : Node κ ν) (bHash : UInt64) :
    (left depth : Nat) → Node κ ν
  | 0, _ => branch 0 []
  | left + 1, depth =>
    let aSlot := Trie.slotAt aHash depth
    let bSlot := Trie.slotAt bHash depth
    if aSlot = bSlot then
      branch (Trie.only aSlot) [split a aHash b bHash left (depth + 1)]
    else
      branch (Trie.only aSlot ||| Trie.only bSlot) (if aSlot < bSlot then [a, b] else [b, a])

/-- Splits from a depth on. -/
def splitFrom (depth : Nat) (a : Node κ ν) (aHash : UInt64) (b : Node κ ν) (bHash : UInt64) :
    Node κ ν :=
  split a aHash b bHash (Trie.levels - depth) depth

/-- Puts an entry among those of a collision node: an equal key and its value are both replaced,
a new key goes last. The flag says whether the key was new. -/
def insertPair (K : Keying κ) (key : κ) (val : ν) : List (κ × ν) → List (κ × ν) × Bool
  | [] => ([(key, val)], true)
  | e :: es =>
    if K.same e.1 key then ((key, val) :: es, false)
    else
      let (es, added) := insertPair K key val es
      (e :: es, added)

mutual

/-- Puts an entry below a node at `depth`. The flag says whether the key was new; an equal key is
replaced along with its value. -/
def insert (K : Keying κ) (hash : UInt64) (key : κ) (val : ν) (depth : Nat) :
    Node κ ν → Node κ ν × Bool
  | leaf k v =>
    if K.same k key then (leaf key val, false)
    else
      let other := K.hash k
      if other = hash then (collision hash [(k, v), (key, val)], true)
      else (splitFrom depth (leaf k v) other (leaf key val) hash, true)
  | collision h pairs =>
    if h = hash then
      let (pairs, added) := insertPair K key val pairs
      (collision h pairs, added)
    else (splitFrom depth (collision h pairs) h (leaf key val) hash, true)
  | branch bitmap entries =>
    let slot := Trie.slotAt hash depth
    let i := Trie.position bitmap slot
    if Trie.occupied bitmap slot then
      let (entries, added) := insertAt K hash key val (depth + 1) entries i
      (branch bitmap entries, added)
    else (branch (bitmap ||| Trie.only slot) (entries.insertIdx i (leaf key val)), true)

/-- Puts an entry below the node at a position. -/
def insertAt (K : Keying κ) (hash : UInt64) (key : κ) (val : ν) (depth : Nat) :
    List (Node κ ν) → Nat → List (Node κ ν) × Bool
  | [], _ => ([], false)
  | n :: ns, 0 =>
    let (n, added) := n.insert K hash key val depth
    (n :: ns, added)
  | n :: ns, i + 1 =>
    let (ns, added) := insertAt K hash key val depth ns i
    (n :: ns, added)

end

/-- What a removal did to a node. -/
inductive Removal (κ ν : Type) where
  /-- The key was not there. -/
  | absent
  /-- Nothing is left of the node. -/
  | gone
  /-- This is left of the node. -/
  | kept (node : Node κ ν)

/-- What stays of a branch in the branch above: nothing of an empty one, the leaf or collision node
that is alone in it, and otherwise the branch. -/
def pullUp : Node κ ν → Option (Node κ ν)
  | branch _ [] => none
  | branch bitmap [n] => if n.isTerminal then some n else some (branch bitmap [n])
  | n => some n

/-- Removes the first entry with an equal key. -/
def erasePair (K : Keying κ) (key : κ) : List (κ × ν) → Option (List (κ × ν))
  | [] => none
  | e :: es => if K.same e.1 key then some es else (erasePair K key es).map (e :: ·)

mutual

/-- Removes a key below a node at `depth`. -/
def erase (K : Keying κ) (hash : UInt64) (key : κ) (depth : Nat) : Node κ ν → Removal κ ν
  | leaf k _ => if K.same k key then .gone else .absent
  | collision h pairs =>
    if h = hash then
      match erasePair K key pairs with
      | none => .absent
      | some [(k, v)] => .kept (leaf k v)
      | some pairs => .kept (collision h pairs)
    else .absent
  | branch bitmap entries =>
    let slot := Trie.slotAt hash depth
    let i := Trie.position bitmap slot
    if Trie.occupied bitmap slot then
      match eraseAt K hash key (depth + 1) entries i with
      | .absent => .absent
      | .gone => .kept (branch (bitmap &&& ~~~ Trie.only slot) (entries.eraseIdx i))
      | .kept n =>
        match n.pullUp with
        | none => .kept (branch (bitmap &&& ~~~ Trie.only slot) (entries.eraseIdx i))
        | some n => .kept (branch bitmap (entries.set i n))
    else .absent

/-- Removes a key below the node at a position, and says what happened to that node. -/
def eraseAt (K : Keying κ) (hash : UInt64) (key : κ) (depth : Nat) :
    List (Node κ ν) → Nat → Removal κ ν
  | [], _ => .absent
  | n :: _, 0 => n.erase K hash key depth
  | _ :: ns, i + 1 => eraseAt K hash key depth ns i

end

end LispCore.Node
