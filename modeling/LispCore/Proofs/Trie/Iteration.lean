import LispCore.Proofs.Trie.Layout
import LispCore.Trie.Iter
/-!
Iteration and the list of entries: `drain` hands out what is left level by level, so the iteration
over a hash map hands out exactly its entries in trie order.
-/

namespace LispCore

namespace Iter

variable {κ ν : Type}

/-- The entries that a level has left. -/
def leftIn : Level κ ν → List (κ × ν)
  | .nodes left => Node.listAll left
  | .pairs left => left

/-- Taking the next entry takes the first of those left. -/
theorem flatMap_leftIn_next? (it : Iter κ ν) :
    it.flatMap leftIn = match it.next? with
      | none => []
      | some (e, rest) => e :: rest.flatMap leftIn := by
  fun_induction next? it with
  | case1 => rfl
  | case2 outer ih | case4 outer ih => simpa [leftIn] using ih
  | case3 | case5 => simp [leftIn]
  | case6 _ _ _ _ ih | case7 _ _ _ _ ih => simpa [leftIn] using ih

/-- All that is handed out is all that is left. -/
theorem drain_eq (it : Iter κ ν) : it.drain = it.flatMap leftIn := by
  fun_induction drain it with
  | case1 it h => rw [flatMap_leftIn_next?, h]
  | case2 it e rest h ih =>
    rw [flatMap_leftIn_next?, h]
    exact congrArg (e :: ·) ih

end Iter

namespace Node

@[simp] theorem listAll_children {κ ν : Type} (n : Node κ ν) : listAll n.children = n.toList := by
  cases n <;> simp [children]

end Node

/-- An iteration over a hash map hands out its entries in order. -/
theorem HashMap.drain_iter {κ ν : Type} (m : HashMap κ ν) : m.iter.drain = m.toList := by
  simp [Iter.drain_eq, HashMap.iter, Iter.leftIn, HashMap.toList]

end LispCore
