import LispCore.Proofs.Seq.Folds
/-!
What realizations leave alone. Asking for a sequence runs producers and keeps outcomes, and no producer
reaches a var, so vars are as they were however the realization ends (`Value.keepsVars_seq?`). A world
`Unfolds` to another when realizations alone lead there; what is read of sequences stays, and so do the
labels of vars.
-/

namespace LispCore

variable {α β : Type} {n : Nat} {w w₁ w' : World} {v : Value}

/-! ### Actions that keep vars -/

/-- However the action ends, vars are as they were. -/
def Act.KeepsVars (x : Act α) : Prop := x.Leads fun w w' => w'.vars = w.vars

namespace Act.KeepsVars

variable {x : Act α} {f : α → Act β}

theorem pure (a : α) : (Pure.pure a : Act α).KeepsVars := fun _ _ => rfl

theorem fail (e : Error) : (Act.fail e : Act α).KeepsVars := fun _ _ => rfl

theorem modify (g : World → World) (hg : ∀ w, (g w).vars = w.vars) :
    (modify g : Act PUnit).KeepsVars := fun _ w => hg w

theorem bind (hx : x.KeepsVars) (hf : ∀ a, (f a).KeepsVars) : (x >>= f).KeepsVars :=
  Leads.bind (fun h h' => h'.trans h) hx hf

theorem attempt (hx : x.KeepsVars) : (Act.attempt x).KeepsVars := Leads.attempt hx

theorem ofExcept (r : Except Error α) : (Act.ofExcept r).KeepsVars := by
  cases r with
  | ok a => exact .pure a
  | error e => exact .fail e

end Act.KeepsVars

/-! ### Realizing -/

theorem Producer.keepsVars_run : ∀ p : Producer, p.run.KeepsVars
  | give v => .pure v
  | fail e => .fail e
  | panic _ => fun _ _ => rfl
  | log line next =>
    (Act.KeepsVars.modify (fun w => { w with produced := w.produced.push line }) fun _ => rfl).bind
      fun _ => keepsVars_run next
  | cell _ _ => fun _ _ => rfl
  | defer _ => fun _ _ => rfl
  | stream _ _ _ => fun _ _ => rfl

theorem Value.keepsVars_directSeq (v : Value) : (Act.ofExcept v.directSeq).KeepsVars := .ofExcept _

namespace Lazy

variable {ask : Lazy → Act (Option Seq)}

theorem keepsVars_cell (l : Lazy) : l.cell.KeepsVars := fun _ _ => rfl

theorem keepsVars_chase (hask : ∀ l, (ask l).KeepsVars) (self : Lazy) :
    ∀ (rounds : Nat) (v : Value), (chase ask self rounds v).KeepsVars
  | 0, _ => fun _ _ => rfl
  | rounds + 1, v => by
    cases v with
    | lazy next =>
      refine next.keepsVars_cell.bind fun c => ?_
      cases c.realized with
      | some r => exact .ofExcept r
      | none =>
        cases c.slot with
        | ready p =>
          refine Act.KeepsVars.bind (fun _ _ => rfl) fun _ => p.keepsVars_run.bind fun v => ?_
          exact keepsVars_chase hask self rounds v
        | running => exact hask next
        | delegated outer => exact hask outer
    | _ => exact Value.keepsVars_directSeq _

theorem keepsVars_realize (hask : ∀ l, (ask l).KeepsVars) (self : Lazy) :
    (realize ask self).KeepsVars := by
  refine self.keepsVars_cell.bind fun c => Act.KeepsVars.bind (fun _ _ => rfl) fun _ => ?_
  cases c.slot with
  | ready p =>
    refine p.keepsVars_run.bind fun v n w => ?_
    exact keepsVars_chase hask self n v n w
  | delegated outer => exact hask outer
  | running => exact Act.KeepsVars.bind (fun _ _ => rfl) fun _ => .fail .producerPanicked

theorem keepsVars_seqAt : ∀ (depth : Nat) (l : Lazy), (seqAt depth l).KeepsVars
  | 0, _ => fun _ _ => rfl
  | depth + 1, l => by
    refine l.keepsVars_cell.bind fun c => ?_
    cases c.realized with
    | some r => exact .ofExcept r
    | none =>
      refine (keepsVars_realize (keepsVars_seqAt depth) l).attempt.bind fun r => ?_
      exact Act.KeepsVars.bind (fun _ _ => rfl) fun _ => .ofExcept r

end Lazy

/-- Asked for its sequence, a value leaves vars as they were. -/
theorem Value.keepsVars_seq? (v : Value) : v.seq?.KeepsVars := by
  intro n w
  by_cases hl : ∃ l, v = .lazy l
  · obtain ⟨l, rfl⟩ := hl
    exact Lazy.keepsVars_seqAt n l n w
  · rw [Act.worldAfter, Value.seq?_direct fun l h => hl ⟨l, h⟩]
    cases Realized.answer v.directSeq <;> rfl

/-! ### Worlds that realizations lead to -/

/-- The second world follows the first, and vars are as they were. -/
structure Unfolds (w w' : World) : Prop where
  evolves : Evolves w w'
  vars : w'.vars = w.vars

theorem Unfolds.refl (w : World) : Unfolds w w := ⟨.refl w, rfl⟩

theorem Unfolds.trans (h : Unfolds w w₁) (h' : Unfolds w₁ w') : Unfolds w w' :=
  ⟨h.evolves.trans h'.evolves, h'.vars.trans h.vars⟩

theorem Asked.unfolds (h : Asked n w w') : Unfolds w w' := by
  refine ⟨h.evolves, ?_⟩
  induction h with
  | refl => rfl
  | @ask w₁ w₂ v a _ hv _ ih =>
    have hkeeps := v.keepsVars_seq? n w₁
    rw [Act.worldAfter, hv] at hkeeps
    cases a <;> exact hkeeps.trans ih

/-- The elements of a value stay. -/
theorem Unfolds.spells {m : Nat} {xs : List Value} {b : Behind} (h : Unfolds w w') (hw : Orderly w)
    (hb : ∀ text, b ≠ .panic text) (hs : v.Spells m w xs b) : v.Spells m w' xs b := by
  obtain ⟨u, hu, hs⟩ := hs
  -- read as what comes behind an element
  have hcons : Spells m w (.outcome (.ok (some (.cons .nil v)))) (.nil :: xs) b := .cons hu hs
  cases h.evolves.spells hw hb hcons with
  | cons hu' hs' => exact ⟨_, hu', hs'⟩
  | step hne => exact absurd rfl (hne _ _)

end LispCore
