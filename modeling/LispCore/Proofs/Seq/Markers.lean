import LispCore.Proofs.Seq.Traversal
/-!
Early-stop markers in a fold. No call of the step function gets a marker as what was folded so far, so
it makes no difference what a step function does with one (`Fold.run_unmarked`). One layer of the marker
that ends the fold is taken off: a fold ends with a marker only when the last call returned one marker
around another (`Fold.run_doubled`, `markers_come_off`).
-/

namespace LispCore

variable {n rounds calls k : Nat} {w w' : World} {acc init v coll : Value} {walk : Walk}
  {step step' : Step}

/-- The step functions agree on everything but early-stop markers. -/
def Step.AgreeUnmarked (step step' : Step) : Prop :=
  ∀ acc x, acc.isReduced = false → step acc x = step' acc x

/-- A call of the step function on something that is no marker ended in this world with a marker around
this. -/
def Step.Wraps (step : Step) (n : Nat) (v : Value) (w : World) : Prop :=
  ∃ acc x w₀ stamp, acc.isReduced = false ∧ step acc x n w₀ = .ok (.reduced stamp v) w

/-- The fold goes on without markers, whatever the step function returns. -/
theorem Fold.run_unmarked (h : step.AgreeUnmarked step') (ha : acc.isReduced = false) :
    Fold.run step rounds calls acc walk = Fold.run step' rounds calls acc walk := by
  induction rounds generalizing calls acc walk with
  | zero => rfl
  | succ rounds ih =>
    rw [Fold.run, Fold.run]
    refine bind_congr fun p => ?_
    rcases p with ⟨_ | _ | x, rest⟩
    · rfl
    · rfl
    · simp only [h acc x ha]
      refine bind_congr fun r => ?_
      rcases r with _ | acc'
      · rfl
      · cases hr : acc'.isReduced with
        | true => simp only [hr, if_true]
        | false => simp only [hr, Bool.false_eq_true, if_false, ih hr]

/-- A fold ends with a marker only when that was in another one. -/
theorem Fold.run_doubled (ha : acc.isReduced = false)
    (h : Fold.run step rounds calls acc walk n w = .ok ⟨.ok v, k⟩ w') (hv : v.isReduced = true) :
    step.Wraps n v w' := by
  induction rounds generalizing calls acc walk w with
  | zero => cases h
  | succ rounds ih =>
    obtain ⟨⟨item, rest⟩, w₁, -, h⟩ := Act.ok_of_bind h
    rcases item with _ | _ | x
    · cases h
      rw [ha] at hv
      cases hv
    · cases h
    · obtain ⟨r, w₂, hs, h⟩ := Act.ok_of_bind h
      rcases Act.ok_of_attempt hs with ⟨acc', rfl, hres⟩ | ⟨e, rfl, -⟩
      · cases hr : acc'.isReduced with
        | false =>
          simp only [hr, Bool.false_eq_true, if_false] at h
          exact ih hr h
        | true =>
          simp only [hr, if_true] at h
          cases h
          cases acc' with
          | reduced stamp a => exact ⟨acc, x, w₁, stamp, ha, hres⟩
          | _ => cases hr
      · cases h

/-- The action that was reduced to a value ended with it. -/
theorem Act.ok_of_outcome {α : Type} {x : Act (Fold α)} {a : α}
    (h : (x >>= fun fold => Act.ofExcept fold.outcome) n w = .ok a w') :
    ∃ calls, x n w = .ok ⟨.ok a, calls⟩ w' := by
  obtain ⟨⟨outcome, calls⟩, w₁, hx, h⟩ := Act.ok_of_bind h
  cases outcome with
  | error e => cases h
  | ok b =>
    cases h
    exact ⟨calls, hx⟩

/-- The first element that is handed out, if there is one, is no marker. -/
def Value.StartsUnmarked (coll : Value) (n : Nat) (w : World) : Prop :=
  ∀ x rest w', (Walk.of coll >>= Walk.pull) n w = .ok (some (.ok x), rest) w' → x.isReduced = false

namespace Value.StartsUnmarked

theorem ofFirst_unmarked (hx : coll.StartsUnmarked n w) (h : step.AgreeUnmarked step') :
    Fold.ofFirst coll step n w = Fold.ofFirst coll step' n w := by
  refine Act.bind_congr_at fun r w₁ hr => ?_
  rcases Act.ok_of_attempt hr with ⟨walk, rfl, hwalk⟩ | ⟨e, rfl, -⟩
  · refine Act.bind_congr_at fun p w₂ hp => ?_
    rcases p with ⟨_ | _ | x, rest⟩
    · rfl
    · rfl
    · have ha := hx x rest w₂ ((Act.bind_of_ok hwalk).trans hp)
      simp only [Fold.run_unmarked h ha]
  · rfl

theorem ofFirst_doubled (hx : coll.StartsUnmarked n w)
    (h : Fold.ofFirst coll step n w = .ok ⟨.ok (some v), k⟩ w') (hv : v.isReduced = true) :
    step.Wraps n v w' := by
  obtain ⟨r, w₁, hr, h⟩ := Act.ok_of_bind h
  rcases Act.ok_of_attempt hr with ⟨walk, rfl, hwalk⟩ | ⟨e, rfl, -⟩
  · obtain ⟨⟨item, rest⟩, w₂, hp, h⟩ := Act.ok_of_bind h
    rcases item with _ | _ | x
    · cases h
    · cases h
    · have ha := hx x rest w₂ ((Act.bind_of_ok hwalk).trans hp)
      obtain ⟨_, _, -, h⟩ := Act.ok_of_bind h
      obtain ⟨⟨outcome, calls⟩, w₃, hrun, h⟩ := Act.ok_of_bind h
      cases outcome with
      | error e => cases h
      | ok a =>
        cases h
        exact Fold.run_doubled ha hrun hv
  · cases h

end Value.StartsUnmarked

theorem Fold.of_doubled (hi : init.isReduced = false)
    (h : Fold.of coll init step n w = .ok ⟨.ok v, k⟩ w') (hv : v.isReduced = true) :
    step.Wraps n v w' := by
  obtain ⟨r, w₁, -, h⟩ := Act.ok_of_bind h
  rcases r with e | walk
  · cases h
  · exact Fold.run_doubled hi h hv

/-- When a fold starts from no marker, what is folded is never one while it goes on: no call of the
step function is given a marker, and a value that comes out as a marker was wrapped in another one by
the last call. -/
theorem markers_come_off (init : Value) (step : Step) (hi : init.isReduced = false)
    (hx : coll.StartsUnmarked n w) :
    (∀ step', step.AgreeUnmarked step' →
      Fold.of coll init step n w = Fold.of coll init step' n w ∧
      Fold.ofFirst coll step n w = Fold.ofFirst coll step' n w) ∧
    (∀ v w', coll.reduce init step n w = .ok v w' → v.isReduced = true → step.Wraps n v w') ∧
    ∀ v w', coll.reduceFirst step n w = .ok (some v) w' → v.isReduced = true → step.Wraps n v w' := by
  refine ⟨fun step' h => ⟨?_, hx.ofFirst_unmarked h⟩, fun v w' h hv => ?_, fun v w' h hv => ?_⟩
  · simp only [Fold.of, Fold.run_unmarked h hi]
  · obtain ⟨calls, h⟩ := Act.ok_of_outcome h
    exact Fold.of_doubled hi h hv
  · obtain ⟨calls, h⟩ := Act.ok_of_outcome h
    exact hx.ofFirst_doubled h hv

def Step.twice : Step := fun _ x => pure (.reduced 1 (.reduced 0 x))

/-- A marker that was in another one comes out of both folds. -/
theorem wrapped_marker_comes_out :
    (Value.vector #[.int 1]).reduce .nil .twice 4 {} = .ok (.reduced 0 (.int 1)) {} ∧
    (Value.vector #[.int 1, .int 2]).reduceFirst .twice 4 {} = .ok (some (.reduced 0 (.int 2))) {} :=
  ⟨rfl, rfl⟩

/-- That marker was wrapped by the last call; what a step function would do with a marker does not
matter. -/
theorem markers_come_off_twice : Step.twice.Wraps 4 (.reduced 0 (.int 1)) {} ∧
    Fold.of (.vector #[.int 1]) .nil .twice 4 {} = Fold.of (.vector #[.int 1]) .nil
      (fun acc x => if acc.isReduced then Act.panic "marker" else Step.twice acc x) 4 {} := by
  have hx : (Value.vector #[.int 1]).StartsUnmarked 4 {} := by
    rintro x rest w' h
    cases h
    rfl
  obtain ⟨hunmarked, hwrapped, -⟩ := markers_come_off .nil .twice rfl hx
  refine ⟨hwrapped _ _ rfl rfl, (hunmarked _ fun acc x ha => ?_).1⟩
  rw [ha, if_neg Bool.false_ne_true]

end LispCore
