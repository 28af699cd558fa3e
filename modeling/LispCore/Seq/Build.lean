import LispCore.Seq.Basic
/-!
Putting elements in front. `cons` onto nil and lists gives a list, onto any other sequence a cell
whose rest is that sequence, unrealized; a collection of another kind is first turned into its
sequence. `listStar` puts several elements in front of a tail that is spliced in.
-/

namespace LispCore

/-- A list with one more element in front. -/
def Linked.push (l : Linked Value) (x : Value) : Act (Linked Value) := do
  return .cons (← Act.freshStamp) x l

/-- The list of the elements, in order. -/
def Linked.ofList (xs : List Value) : Act (Linked Value) := do
  return .consAll (← Act.freshStamps xs.length) xs.reverse .nil

/-- A sequence with `x` in front of a collection. -/
def Seq.consOnto (x : Value) : Value → Act Seq
  | .nil => do return .list (← Linked.push .nil x)
  | .list l => do return .list (← l.push x)
  | .seq (.list l) => do return .list (← l.push x)
  | .seq s => return .cons x (.seq s)
  | .lazy l => return .cons x (.lazy l)
  | other => do
    match ← other.seq? with
    | none => return .list (← Linked.push .nil x)
    | some s => return .cons x (.seq s)

/-- Puts the elements, given last first, in front of a value one by one. -/
def Value.consAll : List Value → Value → Act Value
  | [], v => pure v
  | x :: xs, v => do
    let s ← Seq.consOnto x v
    consAll xs (.seq s)

/-- The leading elements in order, followed by those of the tail. -/
def Value.listStar (leading : List Value) (tail : Value) : Act Value :=
  match leading with
  | [] => do return .ofSeq? (← tail.seq?)
  | leading => Value.consAll leading.reverse tail

end LispCore
