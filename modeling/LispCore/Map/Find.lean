import LispCore.Value.Hash
/-!
Looking keys up in maps. The keys of a small map are compared one after the other until one is
equal. For a hashed map the key is hashed first, which realizes all of it; after that, comparing it
with stored keys realizes nothing more, so the trie is searched in the world as it is.
-/

namespace LispCore

/-- How keys compare and hash in the world as it is now. -/
def Act.keying (same : Value → Value → Act Bool) (hash : Value → Act UInt64) :
    Act (Keying Value) :=
  fun n w => .ok ⟨fun a b => (same a b).peek n w false, fun k => (hash k).peek n w 0⟩ w

/-- The index of the first entry whose key is equal. -/
def Map.indexFrom (same : Value → Value → Act Bool) (key : Value) :
    Nat → List (Value × Value) → Act (Option Nat)
  | _, [] => pure none
  | i, e :: es => do
    if ← same e.1 key then return some i
    indexFrom same key (i + 1) es

/-- The value at a key, with a given test for equal keys. -/
def Map.findWith? (same : Value → Value → Act Bool) (m : Map Value Value) (key : Value) :
    Act (Option Value) :=
  match m with
  | .small entries => do
    match ← indexFrom same key 0 entries.toList with
    | some i => return entries[i]?.map (·.2)
    | none => return none
  | .hashed m => do
    let _ ← key.hash
    let K ← Act.keying same Value.hash
    return m.find? K key

end LispCore
