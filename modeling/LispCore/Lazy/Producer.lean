import LispCore.Error
import LispCore.Value.Basic
/-!
Producers and the cells of lazy sequences. A producer is run at most once, when its sequence is
realized. The slot of a cell says who has the producer: nobody yet, a realization of this sequence,
or the realization of an outer sequence whose producer returned this one.
-/

namespace LispCore

/-- What a lazy sequence does when it is realized. -/
inductive Producer where
  /-- Returns a value. -/
  | give (v : Value)
  /-- Returns an error. -/
  | fail (e : Error)
  /-- Panics. -/
  | panic (text : String)
  /-- Writes a line to the log and goes on. -/
  | log (line : String) (next : Producer)
  /-- Returns an element in front of a new lazy sequence. -/
  | cell (first : Value) (rest : Producer)
  /-- Returns a new lazy sequence. -/
  | defer (inner : Producer)
  /-- Cell `i` of an unbounded sequence: writes its line, and returns its element in front of the
  lazy sequence of the next cell. -/
  | stream (line : Nat → String) (item : Nat → Value) (i : Nat)

instance : Inhabited Producer := ⟨.give .nil⟩

/-- Who has the producer of a lazy sequence. -/
inductive Slot where
  /-- It has not run. -/
  | ready (p : Producer)
  /-- It was taken by the realization of its own sequence. -/
  | running
  /-- It was taken by the realization of an outer sequence; both have the same result. -/
  | delegated (outer : Lazy)

instance : Inhabited Slot := ⟨.running⟩

/-- The outcome of a realization: a sequence, none, or an error. -/
abbrev Realized := Except Error (Option Seq)

/-- What is known about a lazy sequence. -/
structure LazyCell where
  slot : Slot
  realized : Option Realized := none

instance : Inhabited LazyCell := ⟨⟨.running, none⟩⟩

end LispCore
