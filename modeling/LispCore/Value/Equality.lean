import LispCore.Map.Find
/-!
Equality. Sequential values are equal when both drain to equal elements, whatever their kinds; a
failure makes them unequal. Maps are equal when they have as many entries and every key of one has
an equal value in the other. Vars and handles are equal when they are the same one, floats when
their bits are, and values of different kinds never. Early-stop markers are equal when they are the
same marker, whatever is inside, or when the values inside are equal.
-/

namespace LispCore

namespace Value

/-- Whether two walks hand out equal elements and then both end. -/
def sameWalks (same : Value → Value → Act Bool) : (rounds : Nat) → Walk → Walk → Act Bool
  | 0, _, _ => Act.exhausted
  | rounds + 1, xs, ys => do
    let x ← xs.pull
    let y ← ys.pull
    match x, y with
    | (none, _), (none, _) => return true
    | (some (.ok x), xs), (some (.ok y), ys) =>
      if ← same x y then sameWalks same rounds xs ys else return false
    | _, _ => return false

/-- Whether two sequential values have equal elements. Lengths known beforehand are compared first;
both are asked for their sequences before either is walked. -/
def sameItems (same : Value → Value → Act Bool) (a b : Value) : Act Bool := do
  match a.knownCount?, b.knownCount? with
  | some m, some n => if m != n then return false
  | _, _ => pure ()
  let xs ← Act.attempt (Walk.of a)
  match xs with
  | .error _ =>
    let _ ← Act.attempt (Walk.of b)
    return false
  | .ok xs =>
    match ← Act.attempt (Walk.of b) with
    | .error _ => return false
    | .ok ys => sameWalks same (← Act.budget) xs ys

/-- Whether two lists have equal elements, compared as far as both go. -/
def sameLists (same : Value → Value → Act Bool) : List Value → List Value → Act Bool
  | x :: xs, y :: ys => do
    if ← same x y then sameLists same xs ys else return false
  | [], [] => pure true
  | _, _ => pure false

/-- Whether each of the entries has an equal value in the map. -/
def allFound (same : Value → Value → Act Bool) (m : Map Value Value) :
    List (Value × Value) → Act Bool
  | [] => pure true
  | e :: es => do
    match ← m.findWith? same e.1 with
    | none => return false
    | some v => if ← same v e.2 then allFound same m es else return false

/-- Whether two maps have equal entries. -/
def sameMaps (same : Value → Value → Act Bool) (a b : Map Value Value) : Act Bool :=
  if a.count = b.count then allFound same b a.toList else pure false

/-- Equality of values; `depth` bounds how deep they nest. -/
def sameAt : (depth : Nat) → Value → Value → Act Bool
  | 0, _, _ => Act.exhausted
  | depth + 1, a, b =>
    match a, b with
    | nil, nil => pure true
    | bool a, bool b => pure (a == b)
    | int a, int b => pure (a == b)
    | float a, float b => pure (a == b)
    | char a, char b => pure (a == b)
    | str a, str b => pure (a == b)
    | symbol a, symbol b => pure (a == b)
    | keyword a, keyword b => pure (a == b)
    | vector a, vector b =>
      if a.size = b.size then sameLists (sameAt depth) a.toList b.toList else pure false
    | map a, map b => sameMaps (sameAt depth) a b
    | var a, var b => pure (a == b)
    | reduced s a, reduced t b => if s = t then pure true else sameAt depth a b
    | handle a, handle b => pure (a.id == b.id)
    | a, b =>
      if a.isSequential && b.isSequential then sameItems (sameAt depth) a b else pure false

def same (a b : Value) : Act Bool := do sameAt (← Act.budget) a b

end Value

namespace Map

/-- The value at a key. -/
def find? (m : Map Value Value) (key : Value) : Act (Option Value) := m.findWith? Value.same key

def same (a b : Map Value Value) : Act Bool := Value.sameMaps Value.same a b

end Map

/-- Whether two lists are the same or have equal elements; lists that share their head node are
equal without a look at the elements. -/
def Linked.same (a b : Linked Value) : Act Bool :=
  if a.sameHead b then pure true
  else if a.count = b.count then Value.sameLists Value.same a.toList b.toList
  else pure false

end LispCore
