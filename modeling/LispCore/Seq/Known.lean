import LispCore.Print.Sorted
/-!
What is known of a sequence. The elements are followed through cells as far as lazy rests have been
realized; no producer is run. Where the rest is a walk over a hashed map, the elements are put in
the order of their texts. This is for inspecting a sequence from outside. No operation of the core looks at
one so, and nothing is proved about it.
-/

namespace LispCore

/-- What comes after the elements that are known. -/
inductive Unknown where
  /-- Nothing. -/
  | done
  /-- A lazy rest that has not been realized. -/
  | pending
  /-- A lazy rest that failed. -/
  | failed (e : Error)

namespace Seq

/-- The name of the kind of sequence. -/
def kind : Seq → String
  | list _ => "list"
  | cons .. => "cons"
  | slice .. => "vector"
  | entries (.small ..) => "array-map"
  | entries (.hashed ..) => "hash-map"
  | chars _ => "str"
  | keys _ => "keys"
  | vals _ => "vals"

/-- Whether the elements come in trie order. -/
def inTrieOrder : Seq → Bool
  | entries (.hashed ..) | keys (.hashed ..) | vals (.hashed ..) => true
  | _ => false

/-- Adds the known elements to those seen before. -/
def knownFrom : (rounds : Nat) → Array Value → Seq → Act (Array Value × Unknown)
  | 0, _, _ => Act.exhausted
  | rounds + 1, out, s =>
    if s.inTrieOrder then do
      let left ← Value.toArray (.seq s)
      return (out ++ (← Print.sorted left.toList), .done)
    else
      match s with
      | cons x rest => do
        let out := out.push x
        let open? ← match rest with
          | .lazy l => l.isRealized
          | _ => pure true
        if !open? then return (out, .pending)
        match ← Act.attempt rest.seq? with
        | .error e => return (out, .failed e)
        | .ok none => return (out, .done)
        | .ok (some s) => knownFrom rounds out s
      | s =>
        match s.step? with
        | none => return (out.push s.first, .done)
        | some t => knownFrom rounds (out.push s.first) t

/-- The known elements, and what comes after them. -/
def known (s : Seq) : Act (Array Value × Unknown) := do knownFrom (← Act.budget) #[] s

/-- All elements, each with the number of elements from there on; these are asked for. -/
def survey : (rounds : Nat) → Array (Value × Nat) → Option Seq → Act (Array (Value × Nat))
  | 0, _, _ => Act.exhausted
  | _ + 1, out, none => pure out
  | rounds + 1, out, some s => do
    let left ← s.count
    survey rounds (out.push (s.first, left)) (← s.next?)

end Seq

/-- The known elements of a lazy sequence, and what comes after them. -/
def Lazy.known (l : Lazy) : Act (Array Value × Unknown) := do
  if !(← l.isRealized) then return (#[], .pending)
  match ← Act.attempt l.seq? with
  | .error e => return (#[], .failed e)
  | .ok none => return (#[], .done)
  | .ok (some s) => s.known

end LispCore
