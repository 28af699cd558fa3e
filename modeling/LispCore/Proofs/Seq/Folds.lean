import LispCore.Proofs.Seq.Spelling
import LispCore.Reduce
import LispCore.Proofs.Value.Settles
/-!
Folds call by call. `Folded` plays the calls of a step function over some elements one after the
other: each gets what the one before returned, with nothing but realizations in between, and the first
one that fails, returns an early-stop marker or does not return at all ends it. A fold over a value is
played so over the elements that a walk over it meets, in whatever way the step function changes the
world (`reduced_as_walked`). When the step function answers the calls by a rule that has a memory, so
that it does not look at how far sequences have been realized, a fold is the fold of the rule over the
list. One that does look can tell values apart that hand out the same elements, since what is behind an
element is asked for before the call (`reduced_unlike_when_asked_ahead`).
-/

namespace LispCore

variable {σ : Type} {n m rounds calls : Nat} {w w₀ w₁ w' : World} {x v acc init : Value}
  {xs : List Value} {b : Behind} {r : Realized} {o : Option Seq} {err : Option Error} {step : Step}

/-! ### Asking a walk -/

/-- Some values have been asked for their sequences, one after the other. -/
inductive Asked (n : Nat) (w : World) : World → Prop
  | refl : Asked n w w
  | ask {w₁ w₂ : World} {v : Value} {a : Except Fault (Option Seq)} (h : Asked n w w₁)
      (hv : v.seq? n w₁ = Act.ended a w₂) (ha : a ≠ .error .exhausted) : Asked n w w₂

namespace Asked

theorem evolves (h : Asked n w w') : Evolves w w' := by
  induction h with
  | refl => exact .refl w
  | @ask w₁ w₂ v a _ hv ha ih =>
    by_cases hl : ∃ l, v = .lazy l
    · obtain ⟨l, rfl⟩ := hl
      exact .call ih hv ha
    · rw [Value.seq?_direct fun l h => hl ⟨l, h⟩] at hv
      obtain ⟨-, rfl⟩ := Act.ended_inj hv
      exact ih

theorem trans (h : Asked n w w₁) (h' : Asked n w₁ w') : Asked n w w' := by
  induction h' with
  | refl => exact h
  | ask _ hv ha ih => exact .ask ih hv ha

end Asked

/-- A value that can be read is asked for its sequence. -/
theorem Value.Spells.seq? (hw : Orderly w) (hn : 2 ≤ n) (hm : m ≤ n) (h : v.Spells m w xs b)
    (hb : ∀ text, b ≠ .panic text) : ∃ r w', v.seq? n w = Act.ended (Realized.answer r) w' ∧
      Asked n w w' ∧ LispCore.Spells m w' (.outcome r) xs b := by
  obtain ⟨u, hu, h⟩ := h
  have hne : ∀ text, u ≠ .panic text := by
    rintro text rfl
    exact hb text h.panics
  obtain ⟨r, w', hr⟩ := LispCore.Spells.answers hw hn hm hu hne
  exact ⟨r, w', hr, .ask .refl hr r.answer_ne_exhausted, (h.answered hw hu hr).1⟩

/-- A pull hands out the first element that is read. -/
theorem Spells.pull (hw : Orderly w) (hn : 2 ≤ n) (hm : m ≤ n)
    (h : Spells m w (.outcome r) (x :: xs) b) (hb : ∀ text, b ≠ .panic text) :
    ∃ r' w', (Walk.onto r).pull n w = .ok (some (.ok x), .onto r') w' ∧ Asked n w w' ∧
      Spells m w' (.outcome r') xs b := by
  cases h with
  | @cons _ v _ _ _ hu h =>
    obtain ⟨r', w', hr, ha, hs⟩ := Value.Spells.seq? hw hn hm ⟨_, hu, h⟩ hb
    exact ⟨r', w', Walk.pull_onto hr, ha, hs⟩
  | @step s _ _ hs h =>
    refine ⟨.ok s.step?, w, Walk.pull_onto ?_, .refl, h⟩
    cases s with
    | cons x v => exact absurd rfl (hs x v)
    | _ => rfl

/-! ### The calls of a step function -/

namespace Fold

variable {α : Type}

/-- What becomes of a fold that has seen all elements. -/
def past (err : Option Error) (a : α) : Fold α := ⟨err.elim (.ok a) .error, 0⟩

/-- The fold with as many calls in front. -/
def behind (calls : Nat) (fold : Fold α) : Fold α := ⟨fold.outcome, calls + fold.calls⟩

/-- The fold that starts from its first element. -/
def started (fold : Fold α) : Fold (Option α) := ⟨fold.outcome.map some, fold.calls⟩

/-- How a fold ends, of which a call may not have returned. -/
def ended : Except Fault (Fold α) → Except Fault α
  | .ok fold => fold.outcome.mapError .error
  | .error f => .error f

theorem behind_zero (fold : Fold α) : fold.behind 0 = fold := by
  rw [behind, Nat.zero_add]

theorem behind_behind (a b : Nat) (fold : Fold α) : (fold.behind b).behind a = fold.behind (a + b) := by
  rw [behind, behind, behind, Nat.add_assoc]

end Fold

/-- The step function is called on the elements one after the other, until a call fails, does not
return, or returns an early-stop marker, or there is no element left. -/
inductive Folded (step : Step) (n : Nat) (err : Option Error) :
    World → Value → List Value → Except Fault (Fold Value) → World → Prop
  | past {w w₁ : World} {acc : Value} (ha : Asked n w w₁) :
      Folded step n err w acc [] (.ok (Fold.past err acc)) w₁
  | fails {w w₁ w₂ : World} {acc x : Value} {xs : List Value} {e : Error} (ha : Asked n w w₁)
      (hs : step acc x n w₁ = .error (.error e) w₂) :
      Folded step n err w acc (x :: xs) (.ok ⟨.error e, 1⟩) w₂
  | breaks {w w₁ w₂ : World} {acc x : Value} {xs : List Value} {f : Fault} (ha : Asked n w w₁)
      (hs : step acc x n w₁ = .error f w₂) (hf : ∀ e, f ≠ .error e) :
      Folded step n err w acc (x :: xs) (.error f) w₂
  | stops {w w₁ w₂ : World} {acc x acc' : Value} {xs : List Value} (ha : Asked n w w₁)
      (hs : step acc x n w₁ = .ok acc' w₂) (hr : acc'.isReduced = true) :
      Folded step n err w acc (x :: xs) (.ok ⟨.ok acc'.unreduced, 1⟩) w₂
  | goes {w w₁ w₂ w₃ : World} {acc x acc' : Value} {xs : List Value} {fold : Except Fault (Fold Value)}
      (ha : Asked n w w₁) (hs : step acc x n w₁ = .ok acc' w₂) (hr : acc'.isReduced = false)
      (h : Folded step n err w₂ acc' xs fold w₃) :
      Folded step n err w acc (x :: xs) (fold.map (Fold.behind 1)) w₃

/-- The same, where the first element is what the fold starts from. -/
inductive FoldedFirst (step : Step) (n : Nat) (err : Option Error) :
    World → List Value → Except Fault (Fold (Option Value)) → World → Prop
  | past {w w₁ : World} (ha : Asked n w w₁) :
      FoldedFirst step n err w [] (.ok (Fold.past err none)) w₁
  | starts {w w₁ : World} {x : Value} {xs : List Value} {fold : Except Fault (Fold Value)}
      (h : Folded step n err w x xs fold w₁) :
      FoldedFirst step n err w (x :: xs) (fold.map Fold.started) w₁

/-- Each call that the fold goes on from leaves a world that follows, where values may have been asked
for their sequences before it. -/
def Step.Proceeds (step : Step) (n : Nat) : World → Value → List Value → Prop
  | _, _, [] => True
  | w, acc, x :: xs => ∀ w₁ acc' w₂, Asked n w w₁ → step acc x n w₁ = .ok acc' w₂ →
      acc'.isReduced = false → Evolves w₁ w₂ ∧ step.Proceeds n w₂ acc' xs

theorem Step.Proceeds.after (ha : Asked n w w₁) (h : step.Proceeds n w acc xs) :
    step.Proceeds n w₁ acc xs := by
  cases xs with
  | nil => trivial
  | cons x xs => exact fun w₂ acc' w₃ ha' => h w₂ acc' w₃ (ha.trans ha')

theorem Folded.after {fold : Except Fault (Fold Value)} (ha : Asked n w w₁)
    (h : Folded step n err w₁ acc xs fold w') : Folded step n err w acc xs fold w' := by
  cases h with
  | past ha' => exact .past (ha.trans ha')
  | fails ha' hs => exact .fails (ha.trans ha') hs
  | breaks ha' hs hf => exact .breaks (ha.trans ha') hs hf
  | stops ha' hs hr => exact .stops (ha.trans ha') hs hr
  | goes ha' hs hr h => exact .goes (ha.trans ha') hs hr h

theorem Behind.of_ne_panic (err : Option Error) (text : String) : Behind.of err ≠ .panic text := by
  cases err <;> nofun

/-! ### One round of a fold -/

namespace Fold

variable {walk rest : Walk} {acc' : Value} {e : Error} {f : Fault}

theorem run_fails (hp : walk.pull n w = .ok (some (.ok x), rest) w₁)
    (hs : step acc x n w₁ = .error (.error e) w') :
    run step (rounds + 1) calls acc walk n w = .ok ⟨.error e, calls + 1⟩ w' := by
  rw [run, Act.bind_of_ok hp]
  exact Act.bind_of_ok (Act.attempt_of_error hs)

/-- A call that does not return takes the fold with it. -/
theorem run_breaks (hp : walk.pull n w = .ok (some (.ok x), rest) w₁)
    (hs : step acc x n w₁ = .error f w') (hf : ∀ e, f ≠ .error e) :
    run step (rounds + 1) calls acc walk n w = .error f w' := by
  rw [run, Act.bind_of_ok hp]
  exact Act.bind_of_error (Act.attempt_of_fault hs hf)

/-- A call that returns something ends the fold with a marker taken off, or the fold goes on. -/
theorem run_called (hp : walk.pull n w = .ok (some (.ok x), rest) w₁)
    (hs : step acc x n w₁ = .ok acc' w') :
    run step (rounds + 1) calls acc walk n w =
      (if acc'.isReduced then pure ⟨.ok acc'.unreduced, calls + 1⟩
        else run step rounds (calls + 1) acc' rest : Act (Fold Value)) n w' := by
  rw [run, Act.bind_of_ok hp]
  exact Act.bind_of_ok (Act.attempt_of_ok hs)

/-- Behind the elements, a fold ends with what it has or with the error. -/
theorem run_past (h : Spells m w (.outcome r) [] (.of err)) :
    run step (rounds + 1) calls acc (.onto r) n w = .ok ((past err acc).behind calls) w := by
  cases err with
  | none =>
    cases h
    rfl
  | some e =>
    cases h
    rfl

end Fold

/-- A fold plays the calls over the elements that are read. -/
theorem Folded.run (rounds calls : Nat) (hstep : step.Proceeds n w acc xs) (hn : 2 ≤ n) (hm : m ≤ n)
    (hlen : xs.length < rounds) (hw : Orderly w) (h : Spells m w (.outcome r) xs (.of err)) :
    ∃ fold w', Folded step n err w acc xs fold w' ∧
      Fold.run step rounds calls acc (.onto r) n w = Act.ended (fold.map (Fold.behind calls)) w' := by
  induction xs generalizing rounds calls acc r w with
  | nil =>
    obtain ⟨rounds, rfl⟩ := Nat.exists_eq_succ_of_ne_zero (Nat.ne_zero_of_lt hlen)
    exact ⟨_, w, .past .refl, Fold.run_past h⟩
  | cons x xs ih =>
    obtain ⟨rounds, rfl⟩ := Nat.exists_eq_succ_of_ne_zero (Nat.ne_zero_of_lt hlen)
    obtain ⟨r', w₁, hpull, ha, h⟩ := h.pull hw hn hm (Behind.of_ne_panic err)
    cases hres : step acc x n w₁ with
    | error f w₂ =>
      by_cases hf : ∃ e, f = .error e
      · obtain ⟨e, rfl⟩ := hf
        exact ⟨_, w₂, .fails ha hres, Fold.run_fails hpull hres⟩
      · have hf : ∀ e, f ≠ .error e := fun e he => hf ⟨e, he⟩
        exact ⟨_, w₂, .breaks ha hres hf, Fold.run_breaks hpull hres hf⟩
    | ok acc' w₂ =>
      have hrun : Fold.run step (rounds + 1) calls acc (.onto r) n w = _ :=
        Fold.run_called hpull hres
      cases hr : acc'.isReduced with
      | true =>
        rw [hr, if_pos rfl] at hrun
        exact ⟨_, w₂, .stops ha hres hr, hrun⟩
      | false =>
        rw [hr, if_neg Bool.false_ne_true] at hrun
        have hw₁ := ha.evolves.orderly hw
        obtain ⟨hev, hstep⟩ := hstep w₁ acc' w₂ ha hres hr
        obtain ⟨fold, w₃, hfold, hrest⟩ := ih rounds (calls + 1) hstep
          (Nat.lt_of_succ_lt_succ hlen) (hev.orderly hw₁)
          (hev.spells hw₁ (Behind.of_ne_panic err) h)
        refine ⟨_, w₃, .goes ha hres hr hfold, hrun.trans (hrest.trans ?_)⟩
        cases fold with
        | error f => rfl
        | ok fold => exact congrArg (EStateM.Result.ok · w₃) (Fold.behind_behind calls 1 fold).symm

/-! ### Folds over values -/

/-- The fold over a value is that from where asking it for its sequence ended. -/
theorem Fold.of_asked (hn : 0 < n) (hr : v.seq? n w = Act.ended r.answer w₁) :
    Fold.of v init step n w = Fold.run step n 0 init (.onto r) n w₁ := by
  obtain ⟨n, rfl⟩ := Nat.exists_eq_succ_of_ne_zero (Nat.ne_of_gt hn)
  rw [Fold.of]
  cases r with
  | error e =>
    have hwalk : Walk.of v (n + 1) w = .error (.error e) w₁ := Act.bind_of_error hr
    exact Act.bind_of_ok (Act.attempt_of_error hwalk)
  | ok o =>
    have hwalk : Walk.of v (n + 1) w = .ok { current := o } w₁ := Act.bind_of_ok hr
    exact Act.bind_of_ok (Act.attempt_of_ok hwalk)

/-- A value in which nothing is read has no first element. -/
theorem Fold.ofFirst_past (hr : v.seq? n w = Act.ended r.answer w₁)
    (h : Spells m w₁ (.outcome r) [] (.of err)) :
    Fold.ofFirst v step n w = .ok (Fold.past err none) w₁ := by
  rw [Fold.ofFirst]
  cases err with
  | none =>
    cases h
    have hwalk : Walk.of v n w = .ok { current := none } w₁ := Act.bind_of_ok hr
    exact Act.bind_of_ok (Act.attempt_of_ok hwalk)
  | some e =>
    cases h
    have hwalk : Walk.of v n w = .error (.error e) w₁ := Act.bind_of_error hr
    exact Act.bind_of_ok (Act.attempt_of_error hwalk)

/-- A first element that is handed out is what the fold over the others starts from. -/
theorem Fold.ofFirst_starts {rest : Walk} {fold : Except Fault (Fold Value)} {w₂ : World}
    (hr : v.seq? n w = Act.ended r.answer w₁)
    (hp : (Walk.onto r).pull n w₁ = .ok (some (.ok x), rest) w₂)
    (hf : Fold.run step n 0 x rest n w₂ = Act.ended fold w') :
    Fold.ofFirst v step n w = Act.ended (fold.map Fold.started) w' := by
  rw [Fold.ofFirst]
  cases r with
  | error e => cases hp
  | ok o =>
    have hwalk : Walk.of v n w = .ok (.onto (.ok o)) w₁ := Act.bind_of_ok hr
    refine (Act.bind_of_ok (Act.attempt_of_ok hwalk)).trans ((Act.bind_of_ok hp).trans ?_)
    refine (Act.bind_of_ok (Act.budget_apply n w₂)).trans ?_
    cases fold with
    | error f => exact Act.bind_of_error hf
    | ok fold => exact Act.bind_of_ok hf

/-- A reduction ends as its fold does. -/
theorem Fold.reduced {α : Type} {x : Act (Fold α)} {fold : Except Fault (Fold α)}
    (h : x n w = Act.ended fold w') :
    (do Act.ofExcept (← x).outcome : Act α) n w = Act.ended (Fold.ended fold) w' := by
  cases fold with
  | error f => exact Act.bind_of_error h
  | ok fold =>
    refine (Act.bind_of_ok h).trans ?_
    obtain ⟨_ | _, calls⟩ := fold <;> rfl

/-! ### Rules with a memory -/

/-- What a step function answers, and what it then remembers. -/
abbrev Rule (σ : Type) := σ → Value → Value → Except Error Value × σ

namespace Rule

/-- The fold of a rule over a list behind which there may be an error, and what is remembered then. -/
def fold (rule : Rule σ) (err : Option Error) : σ → Value → List Value → Fold Value × σ
  | s, acc, [] => (Fold.past err acc, s)
  | s, acc, x :: xs =>
    match rule s acc x with
    | (.error e, s) => (⟨.error e, 1⟩, s)
    | (.ok acc, s) =>
      if acc.isReduced then (⟨.ok acc.unreduced, 1⟩, s)
      else
        let (rest, s) := rule.fold err s acc xs
        (⟨rest.outcome, rest.calls + 1⟩, s)

/-- The same, where the first element is what the fold starts from. -/
def foldFirst (rule : Rule σ) (err : Option Error) (s : σ) : List Value → Fold (Option Value) × σ
  | [] => (Fold.past err none, s)
  | x :: xs =>
    let (fold, s) := rule.fold err s x xs
    (⟨fold.outcome.map some, fold.calls⟩, s)

end Rule

/-- Called on the elements one after the other, where values may have been asked for their sequences
before each call, the step function answers by the rule and remembers what the rule says, up to the call
that ends the fold. Behind the last element, asking leaves alone what it remembers. -/
def Step.Follows (step : Step) (rule : Rule σ) (mem : World → σ) (n : Nat) :
    World → Value → List Value → Prop
  | w, _, [] => ∀ w₁, Asked n w w₁ → mem w₁ = mem w
  | w, acc, x :: xs => ∀ w₁, Asked n w w₁ →
      ∃ w₂, step acc x n w₁ = Act.ofExcept (rule (mem w) acc x).1 n w₂ ∧
        mem w₂ = (rule (mem w) acc x).2 ∧ ∀ acc', (rule (mem w) acc x).1 = .ok acc' →
          acc'.isReduced = false → Evolves w₁ w₂ ∧ step.Follows rule mem n w₂ acc' xs

section rule

variable {rule : Rule σ} {mem : World → σ} {fold : Except Fault (Fold Value)}

/-- A step function that follows a rule proceeds. -/
theorem Step.Follows.proceeds (h : step.Follows rule mem n w acc xs) : step.Proceeds n w acc xs := by
  induction xs generalizing w acc with
  | nil => trivial
  | cons x xs ih =>
    intro w₁ acc' w₂ ha hs hr
    obtain ⟨w₃, hres, -, hrest⟩ := h w₁ ha
    rcases hrule : (rule (mem w) acc x).1 with e | acc'' <;> rw [hrule] at hres <;>
      cases hs.symm.trans hres
    obtain ⟨hev, hrest⟩ := hrest acc' hrule hr
    exact ⟨hev, ih hrest⟩

/-- Calls by a rule are those of the fold of the rule. -/
theorem Folded.of_rule (hs : step.Follows rule mem n w acc xs) (h : Folded step n err w acc xs fold w') :
    ∃ f, fold = .ok f ∧ rule.fold err (mem w) acc xs = (f, mem w') := by
  induction h with
  | @past w w₁ acc ha => exact ⟨_, rfl, by rw [Rule.fold, hs w₁ ha]⟩
  | @fails w w₁ w₂ acc x xs e ha hstep =>
    obtain ⟨w₃, hr, hm, -⟩ := hs w₁ ha
    rw [hstep] at hr
    rcases hrule : rule (mem w) acc x with ⟨_ | _, s⟩ <;> rw [hrule] at hr hm <;> cases hr
    exact ⟨_, rfl, by rw [Rule.fold, hrule, hm]⟩
  | @breaks w w₁ w₂ acc x xs f ha hstep hf =>
    obtain ⟨w₃, hr, -⟩ := hs w₁ ha
    rw [hstep] at hr
    rcases hrule : rule (mem w) acc x with ⟨_ | _, s⟩ <;> rw [hrule] at hr <;> cases hr
    exact absurd rfl (hf _)
  | @stops w w₁ w₂ acc x acc' xs ha hstep hred =>
    obtain ⟨w₃, hr, hm, -⟩ := hs w₁ ha
    rw [hstep] at hr
    rcases hrule : rule (mem w) acc x with ⟨_ | _, s⟩ <;> rw [hrule] at hr hm <;> cases hr
    refine ⟨_, rfl, ?_⟩
    rw [Rule.fold, hrule, hm]
    simp only [hred, if_true]
  | @goes w w₁ w₂ w₃ acc x acc' xs fold ha hstep hred h ih =>
    obtain ⟨w₄, hr, hm, hrest⟩ := hs w₁ ha
    rw [hstep] at hr
    rcases hrule : rule (mem w) acc x with ⟨_ | _, s⟩ <;> rw [hrule] at hr hm hrest <;> cases hr
    obtain ⟨f, rfl, hfold⟩ := ih (hrest acc' rfl hred).2
    have hm : mem w₂ = s := hm
    rw [hm] at hfold
    refine ⟨_, rfl, ?_⟩
    rw [Rule.fold, hrule]
    simp only [hred, Bool.false_eq_true, if_false, hfold, Fold.behind, Nat.add_comm]

end rule

/-! ### Calls that settle -/

/-- The calls on the elements settle on what the rule says, up to the one that ends the fold. -/
def Step.Settles (step : Step) (rule : Value → Value → Value) (w : World) : Value → List Value → Prop
  | _, [] => True
  | acc, x :: xs => (step acc x).Settles w (rule acc x) ∧
      ((rule acc x).isReduced = false → step.Settles rule w (rule acc x) xs)

/-- A step function whose calls settle follows the rule, with enough budget for the calls that are
made. So do those that compare or hash finite values. -/
theorem Step.Settles.follows {rule : Value → Value → Value} (h : step.Settles rule w acc xs) :
    ∃ N, ∀ n ≥ N, ∀ w', Evolves w w' →
      step.Follows (fun _ acc x => (.ok (rule acc x), ())) (fun _ => ()) n w' acc xs := by
  induction xs generalizing acc with
  | nil => exact ⟨0, fun _ _ _ _ _ _ => rfl⟩
  | cons x xs ih =>
    obtain ⟨⟨N, hcall⟩, hrest⟩ := h
    have hnext : ∃ N', ∀ n ≥ N', ∀ w', Evolves w w' → (rule acc x).isReduced = false →
        step.Follows (fun _ acc x => (.ok (rule acc x), ())) (fun _ => ()) n w' (rule acc x) xs := by
      cases hr : (rule acc x).isReduced with
      | true => exact ⟨0, fun _ _ _ _ h => nomatch h⟩
      | false =>
        obtain ⟨N', hN'⟩ := ih (hrest hr)
        exact ⟨N', fun n hn w' hev _ => hN' n hn w' hev⟩
    obtain ⟨N', hnext⟩ := hnext
    refine ⟨max N N', fun n hn w' hev w₁ ha => ?_⟩
    have hev₁ := hev.trans ha.evolves
    obtain ⟨b, w₂, hres, hev₂, rfl⟩ := hcall n (Nat.le_trans (Nat.le_max_left ..) hn) w₁ hev₁
    refine ⟨w₂, hres, rfl, fun acc' hacc' hr => ⟨hev₂, ?_⟩⟩
    cases hacc'
    exact hnext n (Nat.le_trans (Nat.le_max_right ..) hn) w₂ (hev₁.trans hev₂) hr

/-! ### What reducing gives -/

/-- The value is reduced as these elements, behind which there may be an error: by the calls of the
step function on them, and by a rule as the list of them. -/
structure Value.FoldedAs (coll : Value) (n : Nat) (w : World) (xs : List Value) (err : Option Error) :
    Prop where
  reduce (init : Value) (step : Step) (h : step.Proceeds n w init xs) :
    ∃ fold w', Folded step n err w init xs fold w' ∧ Fold.of coll init step n w = Act.ended fold w' ∧
      coll.reduce init step n w = Act.ended (Fold.ended fold) w'
  reduceFirst (step : Step) (h : ∀ x rest, xs = x :: rest → step.Proceeds n w x rest) :
    ∃ fold w', FoldedFirst step n err w xs fold w' ∧ Fold.ofFirst coll step n w = Act.ended fold w' ∧
      coll.reduceFirst step n w = Act.ended (Fold.ended fold) w'
  byRule {σ : Type} (rule : Rule σ) (mem : World → σ) (init : Value) (step : Step)
    (h : step.Follows rule mem n w init xs) : ∃ fold w', Fold.of coll init step n w = .ok fold w' ∧
      rule.fold err (mem w) init xs = (fold, mem w')
  byRuleFirst {σ : Type} (rule : Rule σ) (mem : World → σ) (step : Step)
    (h : ∀ x rest, xs = x :: rest → step.Follows rule mem n w x rest)
    (hm : xs = [] → ∀ w₁, Asked n w w₁ → mem w₁ = mem w) :
    ∃ fold w', Fold.ofFirst coll step n w = .ok fold w' ∧
      rule.foldFirst err (mem w) xs = (fold, mem w')

/-- A value is reduced as the elements that are read. -/
theorem Value.Spells.foldedAs (h : v.Spells m w xs (.of err)) (hw : Orderly w) (hm : m ≤ n)
    (hlen : xs.length + 1 < n) : v.FoldedAs n w xs err := by
  have hn : 2 ≤ n := by omega
  obtain ⟨r, w₁, hr, ha, hs⟩ := h.seq? hw hn hm (Behind.of_ne_panic err)
  have hw₁ := ha.evolves.orderly hw
  have hreduce (init : Value) (step : Step) (hstep : step.Proceeds n w init xs) : ∃ fold w',
      Folded step n err w init xs fold w' ∧ Fold.of v init step n w = Act.ended fold w' := by
    obtain ⟨fold, w', hf, hrun⟩ := Folded.run n 0 (hstep.after ha) hn hm (by omega) hw₁ hs
    refine ⟨fold, w', hf.after ha, (Fold.of_asked (by omega) hr).trans (hrun.trans ?_)⟩
    cases fold with
    | error f => rfl
    | ok fold => exact congrArg (EStateM.Result.ok · w') fold.behind_zero
  have hfirst (step : Step) (hstep : ∀ x rest, xs = x :: rest → step.Proceeds n w x rest) : ∃ fold w',
      FoldedFirst step n err w xs fold w' ∧ Fold.ofFirst v step n w = Act.ended fold w' := by
    cases xs with
    | nil => exact ⟨_, w₁, .past ha, Fold.ofFirst_past hr hs⟩
    | cons x xs =>
      obtain ⟨r', w₂, hpull, ha', hs'⟩ := hs.pull hw₁ hn hm (Behind.of_ne_panic err)
      have ha := ha.trans ha'
      rw [List.length_cons] at hlen
      obtain ⟨fold, w', hf, hrun⟩ := Folded.run n 0 ((hstep x xs rfl).after ha) hn hm (by omega)
        (ha'.evolves.orderly hw₁) hs'
      refine ⟨_, w', .starts (hf.after ha), Fold.ofFirst_starts hr hpull (hrun.trans ?_)⟩
      cases fold with
      | error f => rfl
      | ok fold => exact congrArg (EStateM.Result.ok · w') fold.behind_zero
  refine ⟨fun init step hstep => ?_, fun step hstep => ?_, fun rule mem init step hf => ?_,
    fun rule mem step hf hmem => ?_⟩
  · obtain ⟨fold, w', hfold, hof⟩ := hreduce init step hstep
    exact ⟨fold, w', hfold, hof, Fold.reduced hof⟩
  · obtain ⟨fold, w', hfold, hof⟩ := hfirst step hstep
    exact ⟨fold, w', hfold, hof, Fold.reduced hof⟩
  · obtain ⟨fold, w', hfold, hof⟩ := hreduce init step hf.proceeds
    obtain ⟨f, rfl, hrule⟩ := hfold.of_rule hf
    exact ⟨f, w', hof, hrule⟩
  · obtain ⟨fold, w', hfold, hof⟩ := hfirst step fun x rest hxs => (hf x rest hxs).proceeds
    cases hfold with
    | past ha => exact ⟨_, w', hof, by rw [Rule.foldFirst, hmem rfl w' ha]⟩
    | starts hfold =>
      obtain ⟨f, rfl, hrule⟩ := hfold.of_rule (hf _ _ rfl)
      exact ⟨_, w', hof, by rw [Rule.foldFirst, hrule]; rfl⟩

/-- A value that a walk goes over is reduced as the elements that the walk meets and the error that it
ends with, when the budget is large enough for the walk. -/
theorem reduced_as_walked {coll : Value} {ss : List Seq} (hw : Reached w) (hg : w.Grounded)
    (hc : coll.Formed w.lazies.size) (h : coll.Walks n w ss err w') :
    ∃ N, ∀ m ≥ N, coll.FoldedAs m w (ss.map Seq.first) err := by
  obtain ⟨k, hk⟩ := h.spells hw.orderly hg hc
  refine ⟨max k (ss.length + 2), fun m hm => hk.foldedAs hw.orderly ?_ ?_⟩
  · exact Nat.le_trans (Nat.le_max_left ..) hm
  · rw [List.length_map]
    exact Nat.le_trans (Nat.le_max_right ..) hm

/-- Keeps what it has when the element is equal to it, and else takes the element. -/
def Step.distinct : Step := fun acc x => do return if ← acc.same x then acc else x

/-- Both elements in front of the error are compared with what there is before the fold fails with it. -/
theorem reduced_as_walked_brokenOff : ∃ m w', Fold.of (.seq brokenCons) .nil .distinct m brokenOff =
    .ok ⟨.error .format, 2⟩ w' := by
  have hwalk : ∃ w', (Value.seq brokenCons).Walks 4 brokenOff
      [brokenCons, .cons (.int 2) (.lazy ⟨1⟩)] (some .format) w' :=
    ⟨_, .seq rfl (.next rfl (.failed rfl))⟩
  obtain ⟨w', hwalk⟩ := hwalk
  have hgrounded : brokenOff.Grounded :=
    (World.Grounded.of_empty (w := {}) rfl).push (p := .cell (.int 2) (.fail .format)) trivial
  have hc : (Value.seq brokenCons).Formed brokenOff.lazies.size := Nat.zero_lt_one
  obtain ⟨N, h⟩ := reduced_as_walked reached_brokenOff hgrounded hc hwalk
  -- atoms that differ are found unequal
  have hcall {acc x : Value} {a b : Atom} (ha : acc.atom? = some a) (hx : x.atom? = some b)
      (hne : (a == b) = false) : (Step.distinct acc x).Settles brokenOff x := by
    have hacc : ComesTo (fun _ => .atom .nil) brokenOff acc (.atom a) := ⟨0, .atom ha⟩
    have hsame := same_settles reached_brokenOff.orderly hacc ⟨0, .atom hx⟩
    rw [Datum.same, hne] at hsame
    exact hsame.bind (.pure x brokenOff)
  have hsettles : Step.distinct.Settles (fun _ x => x) brokenOff .nil [.int 1, .int 2] :=
    ⟨hcall rfl rfl (by decide), fun _ => ⟨hcall rfl rfl (by decide), fun _ => trivial⟩⟩
  obtain ⟨N', hfollows⟩ := hsettles.follows
  have hf := hfollows (max N N') (Nat.le_max_right ..) brokenOff (.refl _)
  obtain ⟨fold, w', hfold, hrule⟩ :=
    (h (max N N') (Nat.le_max_left ..)).byRule _ (fun _ => ()) .nil .distinct hf
  obtain ⟨rfl, -⟩ := Prod.mk.inj hrule
  exact ⟨_, w', hfold⟩

/-! ### Looking at what has been realized -/

/-- Tells of a lazy sequence whether it has been realized. -/
def Step.realized : Step := fun _ x =>
  match x with
  | .lazy l => do return .bool (← l.isRealized)
  | _ => pure .nil

/-- A world with a lazy sequence that has no elements. -/
def emptyAhead : World := { lazies := #[⟨.ready (.give .nil), none⟩] }

/-- In a vector, and in front of itself, the sequence is the only element that a walk meets. Behind the
vector's element nothing is asked for; behind the other one the sequence itself is, before the call. So
the step function tells different things. -/
theorem reduced_unlike_when_asked_ahead :
    (∃ ss w, (Value.vector #[.lazy ⟨0⟩]).Walks 4 emptyAhead ss none w ∧ ss.map Seq.first = [.lazy ⟨0⟩]) ∧
    (∃ ss w, (Value.seq (.cons (.lazy ⟨0⟩) (.lazy ⟨0⟩))).Walks 4 emptyAhead ss none w ∧
      ss.map Seq.first = [.lazy ⟨0⟩]) ∧
    (∃ w, (Value.vector #[.lazy ⟨0⟩]).reduce .nil .realized 4 emptyAhead = .ok (.bool false) w) ∧
    ∃ w, (Value.seq (.cons (.lazy ⟨0⟩) (.lazy ⟨0⟩))).reduce .nil .realized 4 emptyAhead =
      .ok (.bool true) w :=
  ⟨⟨_, _, .seq rfl (.next rfl (.done _)), rfl⟩, ⟨_, _, .seq rfl (.next rfl (.done _)), rfl⟩, ⟨_, rfl⟩, _, rfl⟩

end LispCore
