/-!
Views of a contiguous range of an array. A view points at its backing array and never copies it; a
write through the view goes to a new backing array. `toList` is the view of the elements, and
`WellFormed` says that the range is not empty and lies within the backing.
-/

namespace LispCore

/-- The elements `backing[start..stop)`. -/
structure View (α : Type) where
  backing : Array α
  start : Nat
  stop : Nat
deriving Inhabited

namespace View

variable {α : Type}

/-- A proper view: at least one element, all within the backing. -/
def WellFormed (v : View α) : Prop := v.start < v.stop ∧ v.stop ≤ v.backing.size

def toList (v : View α) : List α := (v.backing.toList.take v.stop).drop v.start

/-- A standalone array of the viewed elements. -/
def toArray (v : View α) : Array α := v.backing.extract v.start v.stop

def count (v : View α) : Nat := v.stop - v.start

def get? (v : View α) (i : Nat) : Option α :=
  if i < v.count then v.backing[v.start + i]? else none

def last? (v : View α) : Option α := v.backing[v.stop - 1]?

theorem toList_toArray (v : View α) : v.toArray.toList = v.toList := by
  simp [toArray, toList, List.extract_eq_take_drop, List.drop_take]

theorem length_toList {v : View α} (h : v.WellFormed) : v.toList.length = v.count := by
  have := h.2
  simp [toList, count]; omega

end View

end LispCore
