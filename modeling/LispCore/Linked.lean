/-!
Linked lists with identity. Every node carries the stamp it was made with, so two lists with the
same elements are told apart unless they share their head node; the rest of a list is shared, never
copied. `toList` is the view of the elements.
-/

namespace LispCore

/-- A persistent list whose nodes are stamped. -/
inductive Linked (α : Type) where
  | nil
  | cons (stamp : Nat) (first : α) (rest : Linked α)
deriving Inhabited

namespace Linked

variable {α : Type}

def toList : Linked α → List α
  | nil => []
  | cons _ x rest => x :: rest.toList

/-- Counts on from a number already counted. -/
def countFrom : Nat → Linked α → Nat
  | n, nil => n
  | n, cons _ _ rest => countFrom (n + 1) rest

def count (l : Linked α) : Nat := countFrom 0 l

def first? : Linked α → Option α
  | nil => none
  | cons _ x _ => some x

/-- Everything after the first element; the rest of the empty list is empty. -/
def rest : Linked α → Linked α
  | nil => nil
  | cons _ _ r => r

def isEmpty : Linked α → Bool
  | nil => true
  | cons .. => false

/-- Whether two lists are empty or share their head node. -/
def sameHead : Linked α → Linked α → Bool
  | nil, nil => true
  | cons s _ _, cons t _ _ => s == t
  | _, _ => false

/-- Puts the elements, given last first, in front of a list; stamps count up from `stamp`. -/
def consAll : (stamp : Nat) → List α → Linked α → Linked α
  | _, [], l => l
  | stamp, x :: xs, l => consAll (stamp + 1) xs (cons stamp x l)

theorem countFrom_eq (n : Nat) (l : Linked α) : countFrom n l = n + l.toList.length := by
  induction l generalizing n with
  | nil => rfl
  | cons s x r ih => simp only [countFrom, toList, List.length_cons, ih]; omega

@[simp] theorem count_eq (l : Linked α) : l.count = l.toList.length := by
  simp [count, countFrom_eq]

@[simp] theorem toList_rest (l : Linked α) : l.rest.toList = l.toList.tail := by
  cases l <;> rfl

@[simp] theorem first?_eq (l : Linked α) : l.first? = l.toList.head? := by
  cases l <;> rfl

theorem toList_consAll (stamp : Nat) (xs : List α) (l : Linked α) :
    (consAll stamp xs l).toList = xs.reverse ++ l.toList := by
  induction xs generalizing stamp l with
  | nil => rfl
  | cons x xs ih => simp [consAll, ih, toList]

end Linked

end LispCore
