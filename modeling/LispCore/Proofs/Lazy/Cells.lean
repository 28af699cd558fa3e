import LispCore.Lazy.Realize
import LispCore.Proofs.Act
import Mathlib.Data.List.Basic
/-!
The cells of lazy sequences under the steps of a realization. Giving a slot to somebody and keeping
an outcome change one cell. What a run of a producer does is read off the producer: the lines it
writes, the sequence it makes, and how it ends once that sequence has a number (`Producer.run_eq`).
-/

namespace LispCore

namespace World

/-- The world in which a lazy sequence has this slot. -/
def slotted (w : World) (l : Lazy) (slot : Slot) : World :=
  { w with lazies := w.lazies.modify l.id fun c => { c with slot } }

/-- The world in which this is kept as the outcome of a lazy sequence. -/
def kept (w : World) (l : Lazy) (r : Realized) : World :=
  { w with lazies := w.lazies.modify l.id fun c => { c with realized := some r } }

variable {w : World} {l m : Lazy}

@[simp] theorem size_slotted (w : World) (l : Lazy) (slot : Slot) :
    (w.slotted l slot).lazies.size = w.lazies.size := Array.size_modify ..

@[simp] theorem size_kept (w : World) (l : Lazy) (r : Realized) :
    (w.kept l r).lazies.size = w.lazies.size := Array.size_modify ..

theorem lazyCell_modify_self (f : LazyCell → LazyCell) (h : l.id < w.lazies.size) :
    { w with lazies := w.lazies.modify l.id f }.lazyCell l = f (w.lazyCell l) := by
  simp only [lazyCell, Array.getD_eq_getD_getElem?, Array.getElem?_modify, if_true,
    Array.getElem?_eq_getElem h, Option.map_some, Option.getD_some]

theorem lazyCell_modify_of_ne (f : LazyCell → LazyCell) (h : m ≠ l) :
    { w with lazies := w.lazies.modify l.id f }.lazyCell m = w.lazyCell m := by
  have hid : ¬l.id = m.id := fun hid => h (by cases l; cases m; exact congrArg Lazy.mk hid.symm)
  simp only [lazyCell, Array.getD_eq_getD_getElem?, Array.getElem?_modify, if_neg hid]

theorem lazyCell_modify_of_le (f : LazyCell → LazyCell) (h : w.lazies.size ≤ l.id) :
    { w with lazies := w.lazies.modify l.id f }.lazyCell m = w.lazyCell m := by
  by_cases hid : l.id = m.id
  · simp [lazyCell, Array.getD_eq_getD_getElem?, Array.getElem?_modify,
      Array.getElem?_eq_none (hid ▸ h)]
  · simp only [lazyCell, Array.getD_eq_getD_getElem?, Array.getElem?_modify, if_neg hid]

theorem lazyCell_slotted_self (slot : Slot) (h : l.id < w.lazies.size) :
    (w.slotted l slot).lazyCell l = ⟨slot, (w.lazyCell l).realized⟩ := lazyCell_modify_self _ h

theorem lazyCell_slotted_of_ne (slot : Slot) (h : m ≠ l) :
    (w.slotted l slot).lazyCell m = w.lazyCell m := lazyCell_modify_of_ne _ h

theorem lazyCell_kept_self (r : Realized) (h : l.id < w.lazies.size) :
    (w.kept l r).lazyCell l = ⟨(w.lazyCell l).slot, some r⟩ := lazyCell_modify_self _ h

theorem lazyCell_kept_of_ne (r : Realized) (h : m ≠ l) :
    (w.kept l r).lazyCell m = w.lazyCell m := lazyCell_modify_of_ne _ h

/-- Keeping an outcome leaves all slots as they are. -/
theorem slot_kept (w : World) (l : Lazy) (r : Realized) (m : Lazy) :
    ((w.kept l r).lazyCell m).slot = (w.lazyCell m).slot := by
  by_cases hm : m = l
  · subst hm
    rcases Nat.lt_or_ge m.id w.lazies.size with hlt | hle
    · rw [lazyCell_kept_self r hlt]
    · exact congrArg LazyCell.slot (lazyCell_modify_of_le _ hle)
  · rw [lazyCell_kept_of_ne r hm]

/-- Sequences that were never made count as taken. -/
theorem lt_of_slot_ne_running (h : (w.lazyCell l).slot ≠ .running) : l.id < w.lazies.size := by
  refine Nat.lt_of_not_le fun hle => h ?_
  rw [lazyCell, Array.getD_eq_getD_getElem?, Array.getElem?_eq_none hle]
  rfl

/-- Nothing is kept for sequences that were never made. -/
theorem lt_of_realized {r : Realized} (h : (w.lazyCell l).realized = some r) :
    l.id < w.lazies.size := by
  refine Nat.lt_of_not_le fun hle => ?_
  rw [lazyCell, Array.getD_eq_getD_getElem?, Array.getElem?_eq_none hle] at h
  cases h

end World

/-! ### Runs of producers -/

namespace Producer

def lines : Producer → List String
  | log line next => line :: next.lines
  | stream line _ i => [line i]
  | _ => []

/-- The producer of the sequence that a run makes, if it makes one. -/
def makes? : Producer → Option Producer
  | log _ next => next.makes?
  | cell _ rest => some rest
  | defer inner => some inner
  | stream line item i => some (.stream line item (i + 1))
  | _ => none

/-- How a run ends when the sequence that it makes is this one. -/
def outcome (made : Lazy) : Producer → Except Fault Value
  | give v => .ok v
  | fail e => .error (.error e)
  | panic text => .error (.panic text)
  | log _ next => next.outcome made
  | cell first _ => .ok (.seq (.cons first (.lazy made)))
  | defer _ => .ok (.lazy made)
  | stream _ item i => .ok (.seq (.cons (item i) (.lazy made)))

theorem outcome_ne_exhausted (made : Lazy) : ∀ p : Producer, p.outcome made ≠ .error .exhausted
  | give _ | fail _ | panic _ | cell .. | defer _ | stream .. => nofun
  | log _ next => outcome_ne_exhausted made next

end Producer

namespace World

/-- The world after a run of a producer. -/
def produce (w : World) (p : Producer) : World :=
  { w with
    lazies := w.lazies ++ (p.makes?.toList.map fun q => ⟨.ready q, none⟩).toArray
    produced := w.produced ++ p.lines.toArray }

def nextLazy (w : World) : Lazy := ⟨w.lazies.size⟩

variable {w : World} {p q : Producer} {l : Lazy}

theorem size_produce (w : World) (p : Producer) :
    (w.produce p).lazies.size = w.lazies.size + p.makes?.toList.length := by
  simp [produce]

theorem lazyCell_produce (p : Producer) (h : l.id < w.lazies.size) :
    (w.produce p).lazyCell l = w.lazyCell l := by
  simp only [lazyCell, produce, Array.getD_eq_getD_getElem?, Array.getElem?_append_left h]

theorem lazyCell_produce_made (h : p.makes? = some q) :
    (w.produce p).lazyCell w.nextLazy = ⟨.ready q, none⟩ := by
  simp [lazyCell, produce, nextLazy, h]

/-- A run delegates no sequence. -/
theorem delegated_of_produce {o : Lazy} (h : ((w.produce p).lazyCell l).slot = .delegated o) :
    l.id < w.lazies.size ∧ (w.lazyCell l).slot = .delegated o := by
  by_cases hlt : l.id < w.lazies.size
  · rw [lazyCell_produce p hlt] at h
    exact ⟨hlt, h⟩
  · simp only [lazyCell, produce, Array.getD_eq_getD_getElem?,
      Array.getElem?_append_right (Nat.le_of_not_lt hlt), List.getElem?_toArray,
      List.getElem?_map] at h
    cases hq : p.makes?.toList[l.id - w.lazies.size]? <;> rw [hq] at h <;> cases h

theorem produce_log (w : World) (line : String) (next : Producer) :
    w.produce (.log line next) =
      { w with produced := w.produced.push line }.produce next := by
  simp [produce, Producer.lines, Producer.makes?]

end World

/-- How a run ends, in which world. -/
def Act.ended {α : Type} (r : Except Fault α) (w : World) : EStateM.Result Fault World α :=
  match r with
  | .ok a => .ok a w
  | .error f => .error f w

theorem Act.ended_inj {α : Type} {r r' : Except Fault α} {w w' : World}
    (h : Act.ended r w = Act.ended r' w') : r = r' ∧ w = w' := by
  cases r <;> cases r' <;> cases h <;> exact ⟨rfl, rfl⟩

/-- A run of a producer writes its lines, makes its sequence under the next number, and ends as that
number has it. -/
theorem Producer.run_eq : ∀ (p : Producer) (n : Nat) (w : World),
    p.run n w = Act.ended (p.outcome w.nextLazy) (w.produce p)
  | give v, n, w => by simp [run, outcome, Act.ended, World.produce, makes?, lines]
  | fail e, n, w => by simp [run, outcome, Act.ended, World.produce, makes?, lines]
  | panic text, n, w => by
    simp [run, outcome, Act.ended, World.produce, makes?, lines, Act.panic]
  | log line next, n, w => by
    rw [run, Act.bind_of_ok (Act.modify_apply ..), run_eq next, World.produce_log]
    rfl
  | cell first rest, n, w => by
    have hm : Lazy.make rest n w =
        .ok w.nextLazy { w with lazies := w.lazies.push ⟨.ready rest, none⟩ } := rfl
    rw [run, Act.bind_of_ok hm]
    simp [outcome, Act.ended, World.produce, makes?, lines]
  | defer inner, n, w => by
    have hm : Lazy.make inner n w =
        .ok w.nextLazy { w with lazies := w.lazies.push ⟨.ready inner, none⟩ } := rfl
    rw [run, Act.bind_of_ok hm]
    simp [outcome, Act.ended, World.produce, makes?, lines]
  | stream line item i, n, w => by
    have hm (w : World) : Lazy.make (.stream line item (i + 1)) n w = .ok w.nextLazy
        { w with lazies := w.lazies.push ⟨.ready (.stream line item (i + 1)), none⟩ } := rfl
    rw [run, Act.bind_of_ok (Act.modify_apply ..), Act.bind_of_ok (hm _)]
    simp [outcome, Act.ended, World.produce, World.nextLazy, makes?, lines]

namespace Lazy

variable {n : Nat} {w : World}

@[simp] theorem cell_apply (l : Lazy) : l.cell n w = .ok (w.lazyCell l) w := rfl

@[simp] theorem setSlot_apply (l : Lazy) (slot : Slot) :
    l.setSlot slot n w = .ok ⟨⟩ (w.slotted l slot) := rfl

@[simp] theorem keep_apply (l : Lazy) (r : Realized) :
    l.keep r n w = .ok ⟨⟩ (w.kept l r) := rfl

end Lazy

end LispCore
