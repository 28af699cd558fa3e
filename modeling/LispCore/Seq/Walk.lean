import LispCore.Seq.Basic
/-!
Draining a sequence. A walk asks for the rest of the sequence before it hands out an element; when
the rest fails, the error is handed out once after that element, and then the walk is over.
-/

namespace LispCore

/-- The state of a walk. -/
structure Walk where
  current : Option Seq := none
  failed : Option Error := none
deriving Inhabited

namespace Walk

/-- The walk over the elements of a value. -/
def of (v : Value) : Act Walk := do return { current := ← v.seq? }

/-- The next element, the error, or none at the end, with the walk after it. -/
def pull (walk : Walk) : Act (Option (Except Error Value) × Walk) :=
  match walk.failed with
  | some e => pure (some (.error e), { walk with failed := none })
  | none =>
    match walk.current with
    | none => pure (none, walk)
    | some s => do
      match ← Act.attempt s.next? with
      | .ok rest => return (some (.ok s.first), { current := rest })
      | .error e => return (some (.ok s.first), { failed := some e })

/-- Adds the elements left to those collected; ends with the error of the walk. -/
def collect : (rounds : Nat) → Array Value → Walk → Act (Array Value)
  | 0, _, _ => Act.exhausted
  | rounds + 1, out, walk => do
    match ← walk.pull with
    | (none, _) => return out
    | (some (.error e), _) => Act.fail e
    | (some (.ok x), walk) => collect rounds (out.push x) walk

/-- The outcomes of as many pulls. -/
def pulls : Nat → Walk → Act (List (Option (Except Error Value)))
  | 0, _ => pure []
  | n + 1, walk => do
    let (item, walk) ← walk.pull
    return item :: (← pulls n walk)

end Walk

namespace Seq

/-- Takes as many elements after those taken before; gives them with the sequence behind them. -/
def take : Nat → Array Value → Option Seq → Act (Array Value × Option Seq)
  | n + 1, out, some s => do take n (out.push s.first) (← s.next?)
  | _, out, s => pure (out, s)

end Seq

namespace Value

def toArray (v : Value) : Act (Array Value) := do
  Walk.collect (← Act.budget) #[] (← Walk.of v)

/-- The elements of a value, put into an array. Elements that do not fit come back alone; in a
longer array the slot after the last element becomes nil and the later slots stay. -/
def intoArray (v : Value) (dest : Array Value) : Act (Array Value) := do
  let items ← v.toArray
  if dest.size < items.size then return items
  return items ++ (dest.extract items.size dest.size).setIfInBounds 0 .nil

end Value

end LispCore
