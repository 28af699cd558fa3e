import LispCore.Trie.HashMap
/-!
Cursors into a hash trie. A cursor is the path from its entry up to the root: at each level what
is left there, the current node or pair first. `entriesFrom` is the view of the entries from the
cursor on; moving forward drops the first of them.
-/

namespace LispCore

/-- What is left at one level of a path, the current node or pair included. -/
inductive Level (κ ν : Type) where
  | nodes (left : List (Node κ ν))
  | pairs (left : List (κ × ν))
deriving Inhabited

/-- A path from a current entry, innermost level first. -/
abbrev Path (κ ν : Type) := List (Level κ ν)

namespace Path

variable {κ ν : Type}

/-- The path to the first entry below the nodes, if they have one. -/
def firstIn : List (Node κ ν) → Option (Path κ ν)
  | [] => none
  | .leaf k v :: left => some [.nodes (.leaf k v :: left)]
  | .collision _ [] :: left => firstIn left
  | .collision h (e :: es) :: left => some [.pairs (e :: es), .nodes (.collision h (e :: es) :: left)]
  | .branch bitmap entries :: left =>
    match firstIn entries with
    | some path => some (path ++ [.nodes (.branch bitmap entries :: left)])
    | none => firstIn left

def entry? : Path κ ν → Option (κ × ν)
  | .nodes (.leaf k v :: _) :: _ => some (k, v)
  | .pairs (e :: _) :: _ => some e
  | _ => none

/-- The path to the entry after the current one. -/
def next? : Path κ ν → Option (Path κ ν)
  | [] => none
  | .pairs left :: path =>
    match left.tail with
    | [] => next? path
    | e :: es => some (.pairs (e :: es) :: path)
  | .nodes left :: path =>
    match firstIn left.tail with
    | some inner => some (inner ++ path)
    | none => next? path

/-- The entries of a level after its current node. -/
def laterIn : Level κ ν → List (κ × ν)
  | .nodes left => Node.listAll left.tail
  | .pairs left => left.tail

/-- The entries after the current one. -/
def later (path : Path κ ν) : List (κ × ν) := path.flatMap laterIn

/-- The entries from the current one on. -/
def entriesFrom (path : Path κ ν) : List (κ × ν) := path.entry?.toList ++ path.later

end Path

end LispCore
