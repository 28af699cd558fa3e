import LispCore.Proofs.Lazy.Delegation
/-!
The moments of a call on a lazy sequence. A `Moment` is what a call is at: the sequences that are being
realized, what is done next, and the world; `Move` is one step from it. The moments that follow the asking of
a sequence are one way to one end (`Moves.on_the_way`), and that end is the answer of the call
(`Lazy.moves_seqAt`), so what holds at every moment that is passed holds all through the call.
-/

namespace LispCore

inductive Doing where
  /-- A sequence is asked for. -/
  | ask (l : Lazy)
  /-- A producer is run. -/
  | run (p : Producer)
  /-- What a producer returned is followed. -/
  | follow (v : Value)
  /-- The realization ends. -/
  | close (a : Except Fault (Option Seq))
  /-- A sequence that was asked for has answered. -/
  | back (l : Lazy) (a : Except Fault (Option Seq))

/-- A moment of a call: the sequences that are being realized, innermost first, and what is done next. -/
structure Moment where
  stack : List Lazy
  doing : Doing
  world : World

/-- The world in which the realization of a sequence whose producer is gone has begun. -/
def World.retaken (w : World) (l : Lazy) : World :=
  { w.slotted l .running with notices := w.notices.push .realizedAfterPanic }

@[simp] theorem World.lazies_retaken (w : World) (l : Lazy) :
    (w.retaken l).lazies = (w.slotted l .running).lazies := rfl

@[simp] theorem World.lazyCell_retaken (w : World) (l m : Lazy) :
    (w.retaken l).lazyCell m = (w.slotted l .running).lazyCell m := rfl

inductive Move : Moment → Moment → Prop
  /-- The outcome of the sequence is kept. -/
  | told {st : List Lazy} {l : Lazy} {r : Realized} {w : World}
      (h : (w.lazyCell l).realized = some r) : Move ⟨st, .ask l, w⟩ ⟨st, .back l r.answer, w⟩
  /-- The sequence has its producer. -/
  | take {st : List Lazy} {l : Lazy} {p : Producer} {w : World} (h : w.lazyCell l = ⟨.ready p, none⟩) :
      Move ⟨st, .ask l, w⟩ ⟨l :: st, .run p, w.slotted l .running⟩
  /-- The producer ran for an outer sequence. -/
  | pass {st : List Lazy} {l o : Lazy} {w : World} (h : w.lazyCell l = ⟨.delegated o, none⟩) :
      Move ⟨st, .ask l, w⟩ ⟨l :: st, .ask o, w.slotted l .running⟩
  /-- The producer is gone. -/
  | gone {st : List Lazy} {l : Lazy} {w : World} (h : w.lazyCell l = ⟨.running, none⟩) :
      Move ⟨st, .ask l, w⟩ ⟨l :: st, .close (.error (.error .producerPanicked)), w.retaken l⟩
  | returned {st : List Lazy} {p : Producer} {v : Value} {w : World}
      (h : p.outcome w.nextLazy = .ok v) : Move ⟨st, .run p, w⟩ ⟨st, .follow v, w.produce p⟩
  | failed {st : List Lazy} {p : Producer} {f : Fault} {w : World}
      (h : p.outcome w.nextLazy = .error f) :
      Move ⟨st, .run p, w⟩ ⟨st, .close (.error f), w.produce p⟩
  | direct {st : List Lazy} {v : Value} {w : World} (hv : ∀ m, v ≠ .lazy m) :
      Move ⟨st, .follow v, w⟩ ⟨st, .close (Realized.answer v.directSeq), w⟩
  /-- The outcome of the sequence that was returned is kept. -/
  | found {st : List Lazy} {m : Lazy} {r : Realized} {w : World}
      (h : (w.lazyCell m).realized = some r) :
      Move ⟨st, .follow (.lazy m), w⟩ ⟨st, .close r.answer, w⟩
  /-- The sequence that was returned has its producer, which is run for the one that is realized. -/
  | claim {st : List Lazy} {l m : Lazy} {p : Producer} {w : World}
      (h : w.lazyCell m = ⟨.ready p, none⟩) :
      Move ⟨l :: st, .follow (.lazy m), w⟩ ⟨l :: st, .run p, w.slotted m (.delegated l)⟩
  /-- The producer of the sequence that was returned is gone. -/
  | wait {st : List Lazy} {m : Lazy} {w : World} (h : w.lazyCell m = ⟨.running, none⟩) :
      Move ⟨st, .follow (.lazy m), w⟩ ⟨st, .ask m, w⟩
  /-- The producer of the sequence that was returned ran for an outer one. -/
  | waitOuter {st : List Lazy} {m o : Lazy} {w : World} (h : w.lazyCell m = ⟨.delegated o, none⟩) :
      Move ⟨st, .follow (.lazy m), w⟩ ⟨st, .ask o, w⟩
  /-- The outcome, which may be an error, is kept. -/
  | keep {st : List Lazy} {l : Lazy} {r : Realized} {a : Except Fault (Option Seq)} {w : World}
      (h : a = r.answer) : Move ⟨l :: st, .close a, w⟩ ⟨st, .back l a, w.kept l r⟩
  /-- A panic goes on to whoever asked. -/
  | unwind {st : List Lazy} {l : Lazy} {f : Fault} {w : World} (hf : ∀ e, f ≠ .error e) :
      Move ⟨l :: st, .close (.error f), w⟩ ⟨st, .back l (.error f), w⟩
  /-- A realization ends as a sequence that it asked for did. -/
  | resume {st : List Lazy} {l o : Lazy} {a : Except Fault (Option Seq)} {w : World} :
      Move ⟨l :: st, .back o a, w⟩ ⟨l :: st, .close a, w⟩

abbrev Moves : Moment → Moment → Prop := Relation.ReflTransGen Move

/-- What can be kept is no panic. -/
theorem Realized.answer_ne_error {r : Realized} {f : Fault} (hf : ∀ e, f ≠ .error e) :
    .error f ≠ r.answer := by
  cases r with
  | ok => exact nofun
  | error e => exact fun h => hf e (Except.error.inj h)

/-- There is one way to go on at most. -/
theorem Move.unique {c d d' : Moment} (h : Move c d) (h' : Move c d') : d = d' := by
  cases h with
  | keep ha =>
    cases h' with
    | keep ha' => rw [Realized.answer_inj (ha.symm.trans ha')]
    | unwind hf => exact absurd ha (Realized.answer_ne_error hf)
  | unwind hf =>
    cases h' with
    | keep ha => exact absurd ha (Realized.answer_ne_error hf)
    | unwind => rfl
  | _ => cases h' <;> simp_all

/-- The call is over once the first sequence has answered. -/
theorem Move.not_over {l : Lazy} {a : Except Fault (Option Seq)} {w : World} {d : Moment} :
    ¬Move ⟨[], .back l a, w⟩ d := nofun

/-- All that is passed is on the way to the end. -/
theorem Moves.on_the_way {c d : Moment} {l : Lazy} {a : Except Fault (Option Seq)} {w : World}
    (h : Moves c d) (he : Moves c ⟨[], .back l a, w⟩) : Moves d ⟨[], .back l a, w⟩ := by
  have huniq : Relator.RightUnique Move := fun _ _ _ hm hm' => hm.unique hm'
  rcases Relation.ReflTransGen.total_of_right_unique huniq h he with hd | hd
  · exact hd
  · rcases hd.cases_head with rfl | ⟨_, hm, -⟩
    · exact .refl
    · exact absurd hm Move.not_over

namespace Lazy

variable {n depth : Nat} {st : List Lazy} {l o owner : Lazy} {w w' : World}
  {a : Except Fault (Option Seq)}

/-- An action ends somehow. -/
theorem exists_ended (x : Act (Option Seq)) (n : Nat) (w : World) :
    ∃ a w', x n w = Act.ended a w' := by
  cases h : x n w with
  | ok s w' => exact ⟨.ok s, w', rfl⟩
  | error f w' => exact ⟨.error f, w', rfl⟩

/-- The sequences that are asked for pass to their answers. -/
def Answering (ask : Lazy → Act (Option Seq)) (n : Nat) : Prop :=
  ∀ st l w a w', ask l n w = Act.ended a w' → a ≠ .error .exhausted →
    Moves ⟨st, .ask l, w⟩ ⟨st, .back l a, w'⟩

/-- A realization that asks for a sequence ends with its answer. -/
theorem Answering.close {ask : Lazy → Act (Option Seq)} (hask : Answering ask n)
    (h : ask o n w = Act.ended a w') (ha : a ≠ .error .exhausted) :
    Moves ⟨l :: st, .ask o, w⟩ ⟨l :: st, .close a, w'⟩ :=
  (hask _ o w a w' h ha).tail .resume

/-- What a producer does and what is made of its value by `f` passes to how that ends. -/
theorem moves_run {f : Value → Act (Option Seq)} {p : Producer}
    (hf : ∀ v w, f v n w = Act.ended a w' →
      Moves ⟨l :: st, .follow v, w⟩ ⟨l :: st, .close a, w'⟩)
    (h : (p.run >>= f) n w = Act.ended a w') :
    Moves ⟨l :: st, .run p, w⟩ ⟨l :: st, .close a, w'⟩ := by
  rw [Act.bind_apply, p.run_eq] at h
  cases ho : p.outcome w.nextLazy with
  | ok v =>
    rw [ho] at h
    exact .head (.returned ho) (hf v _ h)
  | error e =>
    rw [ho] at h
    obtain ⟨rfl, rfl⟩ := Act.ended_inj (r := .error e) h
    exact .single (.failed ho)

theorem moves_chase {ask : Lazy → Act (Option Seq)} (hask : Answering ask n)
    (ha : a ≠ .error .exhausted) : ∀ (rounds : Nat) (v : Value) (w : World),
    chase ask l rounds v n w = Act.ended a w' →
      Moves ⟨l :: st, .follow v, w⟩ ⟨l :: st, .close a, w'⟩
  | 0, v, w, h => by
    obtain ⟨rfl, -⟩ := Act.ended_inj (r := .error .exhausted) h
    exact absurd rfl ha
  | rounds + 1, v, w, h => by
    by_cases hv : ∃ m, v = .lazy m
    · obtain ⟨m, rfl⟩ := hv
      cases hr : (w.lazyCell m).realized with
      | some r =>
        rw [chase_told hr] at h
        obtain ⟨rfl, rfl⟩ := Act.ended_inj h
        exact .single (.found hr)
      | none =>
        cases hs : (w.lazyCell m).slot with
        | ready p =>
          have hc : w.lazyCell m = ⟨.ready p, none⟩ := by rw [← hs, ← hr]
          rw [chase_ready hc] at h
          exact .head (.claim hc) (moves_run (fun v w h => moves_chase hask ha rounds v w h) h)
        | running =>
          have hc : w.lazyCell m = ⟨.running, none⟩ := by rw [← hs, ← hr]
          rw [chase_running hc] at h
          exact .head (.wait hc) (hask.close h ha)
        | delegated o =>
          have hc : w.lazyCell m = ⟨.delegated o, none⟩ := by rw [← hs, ← hr]
          rw [chase_delegated hc] at h
          exact .head (.waitOuter hc) (hask.close h ha)
    · have hv : ∀ m, v ≠ .lazy m := fun m hm => hv ⟨m, hm⟩
      rw [chase_direct hv] at h
      obtain ⟨rfl, rfl⟩ := Act.ended_inj h
      exact .single (.direct hv)

/-- A realization begins in one step. -/
theorem moves_realize (hask : Answering (seqAt depth) n) (hr : (w.lazyCell l).realized = none)
    (h : realize (seqAt depth) l n w = Act.ended a w') (ha : a ≠ .error .exhausted) :
    Moves ⟨st, .ask l, w⟩ ⟨l :: st, .close a, w'⟩ := by
  cases hs : (w.lazyCell l).slot with
  | ready p =>
    rw [realize_ready hs] at h
    exact .head (.take (by rw [← hs, ← hr])) (moves_run (moves_chase hask ha n) h)
  | delegated o =>
    rw [realize_delegated hs] at h
    exact .head (.pass (by rw [← hs, ← hr])) (hask.close h ha)
  | running =>
    rw [realize_running hs] at h
    obtain ⟨rfl, rfl⟩ := Act.ended_inj (r := .error (.error .producerPanicked)) h
    exact .single (.gone (by rw [← hs, ← hr]))

/-- A call passes from the asking to its answer. -/
theorem moves_seqAt (n : Nat) : ∀ depth, Answering (seqAt depth) n
  | 0, _, _, _, _, _, h, ha => by
    obtain ⟨rfl, -⟩ := Act.ended_inj (r := .error .exhausted) h
    exact absurd rfl ha
  | depth + 1, st, l, w, a, w', h, ha => by
    cases hr : (w.lazyCell l).realized with
    | some r =>
      rw [seqAt_told hr] at h
      obtain ⟨rfl, rfl⟩ := Act.ended_inj h
      exact .single (.told hr)
    | none =>
      obtain ⟨a', w₁, hrealize⟩ := exists_ended (realize (seqAt depth) l) n w
      have hpass : a' ≠ .error .exhausted → Moves ⟨st, .ask l, w⟩ ⟨l :: st, .close a', w₁⟩ :=
        moves_realize (moves_seqAt n depth) hr hrealize
      by_cases hf : ∃ r : Realized, a' = r.answer
      · obtain ⟨r, rfl⟩ := hf
        rw [seqAt_keeps hr hrealize] at h
        obtain ⟨rfl, rfl⟩ := Act.ended_inj h
        exact (hpass ha).tail (.keep rfl)
      · cases a' with
        | ok s => exact absurd ⟨.ok s, rfl⟩ hf
        | error f =>
          have hf : ∀ e, f ≠ .error e := fun e he => hf ⟨.error e, by rw [he]; rfl⟩
          rw [seqAt_unwinds hf hr hrealize] at h
          obtain ⟨rfl, rfl⟩ := Act.ended_inj (r := .error f) h
          exact (hpass ha).tail (.unwind hf)

end Lazy

end LispCore
