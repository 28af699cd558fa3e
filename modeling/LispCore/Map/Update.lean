import LispCore.Print.Render
import LispCore.Value.Equality
/-!
Building and updating maps. A small map keeps its entries in the order of first addition and keeps
the old key when an equal one is put; a ninth key turns it into a hashed map, which takes the new
key instead. Hashed maps stay hashed when they shrink. A map is not built from pairs two of which
have equal keys.
-/

namespace LispCore

namespace HashMap

/-- Adds or replaces an entry; the flag says whether the key was new. -/
def put (m : HashMap Value Value) (key val : Value) : Act (HashMap Value Value × Bool) := do
  let _ ← key.hash
  let K ← Act.keying Value.same Value.hash
  return m.insert K key val

def remove (m : HashMap Value Value) (key : Value) : Act (HashMap Value Value) := do
  let _ ← key.hash
  let K ← Act.keying Value.same Value.hash
  return m.dissoc K key

/-- Puts several entries one by one. -/
def putAll (m : HashMap Value Value) : List (Value × Value) → Act (HashMap Value Value)
  | [] => pure m
  | e :: es => do
    let (m, _) ← m.put e.1 e.2
    putAll m es

/-- Puts several entries whose keys must be new. -/
def putNew (m : HashMap Value Value) : List (Value × Value) → Act (HashMap Value Value)
  | [] => pure m
  | e :: es => do
    let (m, added) ← m.put e.1 e.2
    if added then putNew m es else Act.fail (.duplicateKey (← e.1.display))

end HashMap

namespace Map

/-- Adds entries whose keys must be new at the end of others. -/
def appendNew (entries : Array (Value × Value)) :
    List (Value × Value) → Act (Array (Value × Value))
  | [] => pure entries
  | e :: es => do
    match ← indexFrom Value.same e.1 0 entries.toList with
    | some _ => Act.fail (.duplicateKey (← e.1.display))
    | none => appendNew (entries.push e) es

/-- A small map of the pairs, however many. -/
def smallOfPairs (pairs : List (Value × Value)) : Act (Map Value Value) := do
  return .small (← appendNew #[] pairs)

/-- A hashed map of the pairs, however few. -/
def hashedOfPairs (pairs : List (Value × Value)) : Act (Map Value Value) := do
  return .hashed (← HashMap.empty.putNew pairs)

/-- A map of the pairs, small if there are at most eight. -/
def ofPairs (pairs : List (Value × Value)) : Act (Map Value Value) :=
  if pairs.length ≤ smallLimit then smallOfPairs pairs else hashedOfPairs pairs

def assoc (m : Map Value Value) (key val : Value) : Act (Map Value Value) :=
  match m with
  | .small entries => do
    match ← indexFrom Value.same key 0 entries.toList with
    | some i => return .small (entries.modify i fun e => (e.1, val))
    | none =>
      if smallLimit ≤ entries.size then
        let m ← HashMap.empty.putAll entries.toList
        return .hashed (← m.put key val).1
      else return .small (entries.push (key, val))
  | .hashed m => do return .hashed (← m.put key val).1

def dissoc (m : Map Value Value) (key : Value) : Act (Map Value Value) :=
  match m with
  | .small entries => do
    match ← indexFrom Value.same key 0 entries.toList with
    | some i => return .small (entries.eraseIdxIfInBounds i)
    | none => return .small entries
  | .hashed m => do return .hashed (← m.remove key)

/-- Adds or replaces several entries one by one. -/
def assocAll (m : Map Value Value) : List (Value × Value) → Act (Map Value Value)
  | [] => pure m
  | e :: es => do assocAll (← m.assoc e.1 e.2) es

def contains (m : Map Value Value) (key : Value) : Act Bool := do
  return (← m.find? key).isSome

end Map

end LispCore
