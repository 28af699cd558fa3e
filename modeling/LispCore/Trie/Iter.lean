import LispCore.Trie.Cursor
/-!
Iteration over a hash trie. The state is what is left to visit at each level, innermost first, as in
a cursor, but between two entries: the innermost level starts with what comes next. `drain` collects
what an iteration hands out.
-/

namespace LispCore

/-- What an iteration has left to visit, innermost level first. -/
abbrev Iter (κ ν : Type) := List (Level κ ν)

namespace Iter

variable {κ ν : Type}

/-- A measure of what an iteration has left to visit. -/
noncomputable def size : Iter κ ν → Nat
  | [] => 0
  | level :: outer => sizeOf level + size outer

/-- The next entry, and what is left after it. -/
def next? : Iter κ ν → Option ((κ × ν) × Iter κ ν)
  | [] => none
  | .pairs [] :: outer => next? outer
  | .pairs (e :: es) :: outer => some (e, .pairs es :: outer)
  | .nodes [] :: outer => next? outer
  | .nodes (.leaf k v :: ns) :: outer => some ((k, v), .nodes ns :: outer)
  | .nodes (.branch _ entries :: ns) :: outer => next? (.nodes entries :: .nodes ns :: outer)
  | .nodes (.collision _ pairs :: ns) :: outer => next? (.pairs pairs :: .nodes ns :: outer)
termination_by it => it.size
decreasing_by all_goals simp [size] <;> omega

/-- Every entry takes something from what is left. -/
theorem size_lt_of_next? {it rest : Iter κ ν} {e : κ × ν} (h : it.next? = some (e, rest)) :
    rest.size < it.size := by
  fun_induction next? it with
  | case1 => simp at h
  | case2 outer ih | case4 outer ih =>
    have := ih h
    rw [size]
    omega
  | case3 =>
    obtain ⟨-, rfl⟩ : _ ∧ _ := by simpa using h
    simp only [size, Level.pairs.sizeOf_spec, List.cons.sizeOf_spec]
    omega
  | case5 =>
    obtain ⟨-, rfl⟩ : _ ∧ _ := by simpa using h
    simp only [size, Level.nodes.sizeOf_spec, List.cons.sizeOf_spec]
    omega
  | case6 _ _ _ _ ih | case7 _ _ _ _ ih =>
    have := ih h
    simp [size] at this ⊢
    omega

/-- All that is handed out. -/
def drain (it : Iter κ ν) : List (κ × ν) :=
  match _h : it.next? with
  | none => []
  | some (e, rest) => e :: drain rest
termination_by it.size
decreasing_by exact size_lt_of_next? _h

end Iter

/-- The iteration over the entries of a hash map. -/
def HashMap.iter {κ ν : Type} (m : HashMap κ ν) : Iter κ ν := [.nodes m.root.children]

end LispCore
