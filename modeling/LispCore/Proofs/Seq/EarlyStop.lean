import LispCore.Proofs.Seq.Folds
/-!
Early stops. A fold asks for what comes behind an element before it calls the step function on it, so
a panic there is met although the step function would have stopped, and a step function that looks at
how far sequences have been realized sees what that changed (`panic_behind_stop`). Nothing else that
comes behind the element on which it stops has an influence: over any two values that begin alike, a
step function that answers the calls by a rule stops after the same calls with the same result
(`stops_alike`).
-/

namespace LispCore

variable {σ : Type} {n m : Nat} {w w₀ : World} {acc init : Value} {xs : List Value}
  {r : Realized} {step : Step} {rule : Rule σ} {mem : World → σ}

/-- What the fold of a rule over these elements stops with, and what is remembered then, if it stops on
the last of them and not before. -/
def Rule.stop? (rule : Rule σ) : σ → Value → List Value → Option (Value × σ)
  | _, _, [] => none
  | s, acc, x :: xs =>
    match rule s acc x with
    | (.error _, _) => none
    | (.ok acc, s) =>
      if acc.isReduced then if xs.isEmpty then some (acc.unreduced, s) else none
      else rule.stop? s acc xs

/-- A fold over elements of which the rule stops on the last makes as many calls. -/
theorem Spells.run_stops (rounds calls : Nat) (ha₀ : Asked n w₀ w)
    (hs : step.Follows rule mem n w₀ acc xs) (hn : 2 ≤ n) (hm : m ≤ n) (hlen : xs.length ≤ rounds)
    (hw : Orderly w) (h : Spells m w (.outcome r) xs .anything) {a : Value} {s : σ}
    (hstop : rule.stop? (mem w₀) acc xs = some (a, s)) :
    ∃ w', Fold.run step rounds calls acc (.onto r) n w = .ok ⟨.ok a, calls + xs.length⟩ w' ∧
      mem w' = s := by
  induction xs generalizing rounds calls acc r w₀ w with
  | nil => cases hstop
  | cons x xs ih =>
    obtain ⟨rounds, rfl⟩ := Nat.exists_eq_succ_of_ne_zero (Nat.ne_zero_of_lt hlen)
    obtain ⟨r', w₁, hpull, ha, h⟩ := h.pull hw hn hm nofun
    obtain ⟨w₂, hres, hmem, hrest⟩ := hs w₁ (ha₀.trans ha)
    rw [Rule.stop?] at hstop
    rcases hrule : rule (mem w₀) acc x with ⟨e | acc', s'⟩ <;> rw [hrule] at hres hmem hrest hstop
    · cases hstop
    · have hrun : Fold.run step (rounds + 1) calls acc (.onto r) n w = _ :=
        Fold.run_called hpull hres
      cases hred : acc'.isReduced with
      | true =>
        cases xs with
        | cons =>
          simp only [hred, if_true, List.isEmpty_cons, Bool.false_eq_true, if_false] at hstop
          cases hstop
        | nil =>
          simp only [hred, if_true, List.isEmpty_nil] at hstop
          cases hstop
          rw [hred, if_pos rfl] at hrun
          exact ⟨w₂, hrun, hmem⟩
      | false =>
        simp only [hred, Bool.false_eq_true, if_false] at hstop
        rw [hred, if_neg Bool.false_ne_true] at hrun
        have hmem : mem w₂ = s' := hmem
        have hw₁ := ha.evolves.orderly hw
        obtain ⟨hev, hs⟩ := hrest acc' rfl hred
        obtain ⟨w₃, hrun', hs₃⟩ := ih rounds (calls + 1) .refl hs (Nat.le_of_succ_le_succ hlen)
          (hev.orderly hw₁) (hev.spells hw₁ nofun h) (hmem ▸ hstop)
        refine ⟨w₃, hrun.trans (hrun'.trans ?_), hs₃⟩
        rw [List.length_cons, Nat.add_right_comm, Nat.add_assoc]

/-- A value that begins with elements of which the rule stops on the last is reduced by as many
calls. -/
theorem Value.Spells.stops {v a : Value} {s : σ} (h : v.Spells m w xs .anything)
    (hs : step.Follows rule mem n w init xs) (hw : Orderly w) (hm : m ≤ n) (hlen : xs.length + 1 < n)
    (hstop : rule.stop? (mem w) init xs = some (a, s)) :
    ∃ w', Fold.of v init step n w = .ok ⟨.ok a, xs.length⟩ w' ∧ mem w' = s := by
  have hn : 2 ≤ n := by omega
  obtain ⟨r, w₁, hr, ha, h⟩ := h.seq? hw hn hm nofun
  obtain ⟨w', hrun, hmem⟩ := h.run_stops n 0 ha hs hn hm (by omega) (ha.evolves.orderly hw) hstop
  rw [Nat.zero_add] at hrun
  exact ⟨w', (Fold.of_asked (by omega) hr).trans hrun, hmem⟩

def Step.atOnce : Step := fun _ x => pure (.reduced 0 x)

/-- A world with a lazy sequence whose producer panics, and one with an element in front of a panic. -/
def panicsAhead : World :=
  { lazies := #[⟨.ready (.panic "boom"), none⟩, ⟨.ready (.cell (.int 2) (.panic "boom")), none⟩] }

/-- An element in front of one of these sequences. -/
def beforePanic (l : Lazy) : Value := .seq (.cons (.int 1) (.lazy l))

/-- Two values that hand out the same first elements, on which the step function answers by a rule that
stops on the last, are reduced to the same by the same calls, whatever comes behind in either of them. -/
theorem stops_alike {a b : Value} {j k : Nat} {wa wb : World} (xs : List Value) (hw : Reached w)
    (hg : w.Grounded) (ha : a.Formed w.lazies.size) (hb : b.Formed w.lazies.size)
    (hpa : (Walk.of a >>= Walk.pulls xs.length) j w = .ok (xs.map fun x => some (.ok x)) wa)
    (hpb : (Walk.of b >>= Walk.pulls xs.length) k w = .ok (xs.map fun x => some (.ok x)) wb) :
    ∃ N, ∀ m ≥ N, ∀ {σ : Type} (rule : Rule σ) (mem : World → σ) (step : Step) (init y : Value) (s : σ),
      step.Follows rule mem m w init xs → rule.stop? (mem w) init xs = some (y, s) → ∃ va vb,
        Fold.of a init step m w = .ok ⟨.ok y, xs.length⟩ va ∧
        Fold.of b init step m w = .ok ⟨.ok y, xs.length⟩ vb ∧
        a.reduce init step m w = .ok y va ∧ b.reduce init step m w = .ok y vb ∧
        mem va = s ∧ mem vb = s := by
  obtain ⟨ka, hka⟩ := Value.spells_of_pulls hpa hw.orderly hg ha
  obtain ⟨kb, hkb⟩ := Value.spells_of_pulls hpb hw.orderly hg hb
  refine ⟨max (max ka kb) (xs.length + 2), fun m hm σ rule mem step init y s hs hstop => ?_⟩
  obtain ⟨va, hva, hma⟩ := hka.stops hs hw.orderly (by omega) (by omega) hstop
  obtain ⟨vb, hvb, hmb⟩ := hkb.stops hs hw.orderly (by omega) (by omega) hstop
  exact ⟨va, vb, hva, hvb, Act.bind_of_ok hva, Act.bind_of_ok hvb, hma, hmb⟩

/-- Stops on the first element, and tells whether it has been realized. -/
def Step.realizedAtOnce : Step := fun acc x => do return .reduced 0 (← Step.realized acc x)

/-- The step function stops on the first element, which is that of both values. Where nothing comes
behind it, its result is that of the fold; where a panic does, it is not even called. And where the
element itself comes behind it, a step function that looks at the element finds it realized. -/
theorem panic_behind_stop :
    (Value.vector #[.int 1]).first 4 panicsAhead = .ok (.int 1) panicsAhead ∧
    (beforePanic ⟨0⟩).first 4 panicsAhead = .ok (.int 1) panicsAhead ∧
    Step.atOnce .nil (.int 1) 4 panicsAhead = .ok (.reduced 0 (.int 1)) panicsAhead ∧
    (Value.vector #[.int 1]).reduce .nil .atOnce 4 panicsAhead = .ok (.int 1) panicsAhead ∧
    (∃ w, (beforePanic ⟨0⟩).reduce .nil .atOnce 4 panicsAhead = .error (.panic "boom") w) ∧
    (Value.vector #[.lazy ⟨0⟩]).first 4 emptyAhead = .ok (.lazy ⟨0⟩) emptyAhead ∧
    (Value.seq (.cons (.lazy ⟨0⟩) (.lazy ⟨0⟩))).first 4 emptyAhead = .ok (.lazy ⟨0⟩) emptyAhead ∧
    (∃ w, Fold.of (.vector #[.lazy ⟨0⟩]) .nil .realizedAtOnce 4 emptyAhead =
      .ok ⟨.ok (.bool false), 1⟩ w) ∧
    ∃ w, Fold.of (.seq (.cons (.lazy ⟨0⟩) (.lazy ⟨0⟩))) .nil .realizedAtOnce 4 emptyAhead =
      .ok ⟨.ok (.bool true), 1⟩ w :=
  ⟨rfl, rfl, rfl, rfl, ⟨_, rfl⟩, rfl, rfl, ⟨_, rfl⟩, _, rfl⟩

/-- A panic behind the cell that comes next is not met. -/
theorem stops_alike_before_panic : ∃ m va vb,
    Fold.of (.vector #[.int 1]) .nil .atOnce m panicsAhead = .ok ⟨.ok (.int 1), 1⟩ va ∧
    Fold.of (beforePanic ⟨1⟩) .nil .atOnce m panicsAhead = .ok ⟨.ok (.int 1), 1⟩ vb := by
  have hreached : Reached panicsAhead :=
    ⟨{}, rfl, .make (n := 0) (l := ⟨1⟩) (p := .cell (.int 2) (.panic "boom"))
      (.make (n := 0) (l := ⟨0⟩) (p := .panic "boom") (.refl _) rfl) rfl⟩
  have hgrounded : panicsAhead.Grounded :=
    ((World.Grounded.of_empty (w := {}) rfl).push (p := .panic "boom") trivial).push
      (p := .cell (.int 2) (.panic "boom")) trivial
  have hb : (beforePanic ⟨1⟩).Formed panicsAhead.lazies.size := Nat.one_lt_two
  obtain ⟨m, h⟩ := stops_alike (a := .vector #[.int 1]) (b := beforePanic ⟨1⟩) (j := 4) (k := 4)
    [.int 1] hreached hgrounded trivial hb rfl rfl
  have hf : Step.atOnce.Follows (fun _ _ x => (.ok (.reduced 0 x), ())) (fun _ => ()) m panicsAhead .nil
      [.int 1] := by
    refine fun w₁ _ => ⟨w₁, rfl, rfl, fun acc' hacc' hr => ?_⟩
    cases hacc'
    cases hr
  obtain ⟨va, vb, hva, hvb, -⟩ := h m (Nat.le_refl m) _ _ .atOnce .nil (.int 1) () hf rfl
  exact ⟨m, va, vb, hva, hvb⟩

end LispCore
