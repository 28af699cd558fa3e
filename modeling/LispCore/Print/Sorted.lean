import LispCore.Print.Render
/-!
Sorting by text. What stands in trie order is put into the order of the texts that values have in
messages; values with the same text keep their order. This serves inspection (`Seq.Known`) only: nothing is
printed in this order, and nothing is proved about it.
-/

namespace LispCore.Print

variable {α : Type}

/-- Pairs each item with the text of the value that it is sorted by. -/
def withTexts (value : α → Value) : List α → Act (List (String × α))
  | [] => pure []
  | x :: xs => do
    let text ← (value x).display
    return (text, x) :: (← withTexts value xs)

/-- Sorts items by the text of a value of theirs. -/
def sortedBy (value : α → Value) (xs : List α) : Act (List α) := do
  let keyed ← withTexts value xs
  return (keyed.mergeSort fun a b => decide (a.1 ≤ b.1)).map (·.2)

/-- Sorts values by their texts. -/
def sorted (vs : List Value) : Act (List Value) := sortedBy id vs

end LispCore.Print
