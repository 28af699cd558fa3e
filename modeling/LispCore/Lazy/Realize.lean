import LispCore.Act
import LispCore.Seq.Direct
/-!
Realization of lazy sequences. A sequence is realized once: its producer is run, and the result or
the error is kept. A producer may return another lazy sequence; then the producer of that one is run
at once, in a loop, and its slot is left pointing at the sequence that is being realized, so that
both come to the same result. A producer that panicked is gone: whoever asks again gets an error.
-/

namespace LispCore

namespace Lazy

def cell (l : Lazy) : Act LazyCell := fun _ w => .ok (w.lazyCell l) w

def make (p : Producer) : Act Lazy :=
  modifyGet fun w => (⟨w.lazies.size⟩, { w with lazies := w.lazies.push ⟨.ready p, none⟩ })

/-- Says who has the producer now. -/
def setSlot (l : Lazy) (slot : Slot) : Act Unit :=
  modify fun w => { w with lazies := w.lazies.modify l.id fun c => { c with slot } }

/-- Keeps the outcome of the realization. -/
def keep (l : Lazy) (r : Realized) : Act Unit :=
  modify fun w => { w with lazies := w.lazies.modify l.id fun c => { c with realized := some r } }

end Lazy

def Producer.run : Producer → Act Value
  | give v => pure v
  | fail e => Act.fail e
  | panic text => Act.panic text
  | log line next => do
    modify fun w => { w with produced := w.produced.push line }
    next.run
  | cell first rest => do
    let l ← Lazy.make rest
    return .seq (.cons first (.lazy l))
  | defer inner => do
    let l ← Lazy.make inner
    return .lazy l
  | stream line item i => do
    modify fun w => { w with produced := w.produced.push (line i) }
    let l ← Lazy.make (.stream line item (i + 1))
    return .seq (.cons (item i) (.lazy l))

namespace Lazy

/-- Follows what a producer of `self` returned to a sequence. The producer of an unrealized lazy
sequence on the way is run here and its slot is delegated to `self`; when it is gone, the outcome is
that of the sequence itself or of the one that has the producer, asked for by `ask`. -/
def chase (ask : Lazy → Act (Option Seq)) (self : Lazy) : (rounds : Nat) → Value → Act (Option Seq)
  | 0, _ => Act.exhausted
  | rounds + 1, .lazy next => do
    let c ← next.cell
    match c.realized with
    | some r => Act.ofExcept r
    | none =>
      match c.slot with
      | .ready p =>
        next.setSlot (.delegated self)
        let v ← p.run
        chase ask self rounds v
      | .running => ask next
      | .delegated outer => ask outer
  | _ + 1, v => Act.ofExcept v.directSeq

/-- Realizes a sequence whose outcome is not kept yet. -/
def realize (ask : Lazy → Act (Option Seq)) (self : Lazy) : Act (Option Seq) := do
  let c ← self.cell
  self.setSlot .running
  match c.slot with
  | .ready p =>
    let v ← p.run
    chase ask self (← Act.budget) v
  | .delegated outer => ask outer
  | .running =>
    Act.notice .realizedAfterPanic
    Act.fail .producerPanicked

/-- The sequence, realized now if it was not yet; `depth` bounds how far realizations nest. -/
def seqAt : (depth : Nat) → Lazy → Act (Option Seq)
  | 0, _ => Act.exhausted
  | depth + 1, self => do
    let c ← self.cell
    match c.realized with
    | some r => Act.ofExcept r
    | none =>
      let r ← Act.attempt (realize (seqAt depth) self)
      self.keep r
      Act.ofExcept r

/-- The sequence, none if it is empty; realizes it if that has not been done. -/
def seq? (l : Lazy) : Act (Option Seq) := do seqAt (← Act.budget) l

/-- Whether the sequence, or the one that has its producer, has been realized. -/
def isRealized (l : Lazy) : Act Bool := do
  let c ← l.cell
  if c.realized.isSome then return true
  match c.slot with
  | .delegated outer => return (← outer.cell).realized.isSome
  | _ => return false

end Lazy

/-- The sequence of a value, none when there is nothing to traverse. -/
def Value.seq? : Value → Act (Option Seq)
  | .lazy l => l.seq?
  | v => Act.ofExcept v.directSeq

/-- A new lazy sequence as a value. -/
def Value.ofProducer (p : Producer) : Act Value := do return .lazy (← Lazy.make p)

end LispCore
