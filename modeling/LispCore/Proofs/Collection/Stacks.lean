import LispCore.Proofs.Vector.Views
/-!
Lists, vectors and views as stacks. `Stacks` names the elements of a stack from the top down; in a list
the top is in front, in a vector or a view at the back. A push or a pop does to these elements what it
does to a plain list (`Stacks.act`), so by induction a run of them does (`Stacks.run`). Hence the laws
of stacks (`StackLaws`) hold of every stack, and of what any run makes of it (`stacks_obey_laws`).
-/

namespace LispCore

inductive Growth where
  | front
  | back

/-- The kind that is named when there is no element. -/
def Growth.kind : Growth → String
  | front => "list"
  | back => "vector"

/-- Elements that are given from the top down, in their order in the collection. -/
def Growth.inOrder : Growth → List Value → List Value
  | front, ts => ts
  | back, ts => ts.reverse

inductive StackOp where
  | push (x : Value)
  | pop

namespace StackOp

def apply (c : Value) : StackOp → Act Value
  | push x => c.conj x
  | pop => c.pop

def run : List StackOp → Value → Act Value
  | [], c => pure c
  | op :: ops, c => do run ops (← op.apply c)

/-- What a step does to the elements from the top down; nothing can be popped when there are none. -/
def on (ts : List Value) : StackOp → Option (List Value)
  | push x => some (x :: ts)
  | pop => if ts.isEmpty then none else some ts.tail

/-- What steps do to the elements, unless a pop fails on the way. -/
def runOn : List StackOp → List Value → Option (List Value)
  | [], ts => some ts
  | op :: ops, ts => (op.on ts).bind (runOn ops)

end StackOp

variable {c x : Value} {g : Growth} {ts : List Value}

/-! ### Lists -/

/-- A list holds its elements. -/
theorem traverses_ofLinked : ∀ l : Linked Value, Traverses (Seq.ofLinked l) l.toList
  | .nil => .done
  | .cons s x l => .next (s := .list (.cons s x l)) rfl (traverses_ofLinked l)

namespace Value

theorem holds_list (l : Linked Value) : (list l).Holds l.toList :=
  ⟨_, rfl, traverses_ofLinked l⟩

/-! ### Stacks by their elements -/

/-- A list, a vector or a proper view of these elements, from the top down. -/
inductive Stacks : Value → Growth → List Value → Prop
  | list (l : Linked Value) : Stacks (.list l) .front l.toList
  | shows {v : Value} {xs : List Value} (h : v.Shows xs) : Stacks v .back xs.reverse

theorem Stacks.holds (h : c.Stacks g ts) : c.Holds (g.inOrder ts) := by
  cases h with
  | list l => exact holds_list l
  | shows h =>
    rw [Growth.inOrder, List.reverse_reverse]
    exact h.holds

theorem Stacks.count_eq (h : c.Stacks g ts) : c.count = pure ts.length := by
  cases h with
  | list l => exact congrArg pure l.count_eq
  | shows h => rw [h.count_eq, List.length_reverse]

theorem Stacks.peek_eq (h : c.Stacks g ts) : c.peek =
    match ts.head? with
    | some x => pure x
    | none => Act.fail (.emptyCollection "peek" g.kind) := by
  cases h with
  | list l => cases l <;> rfl
  | shows h => rw [h.peek_eq, List.head?_reverse]; rfl

/-- A push puts an element on top. -/
theorem Stacks.push (h : c.Stacks g ts) (x : Value) (n : Nat) (w : World) :
    ∃ d w', c.conj x n w = .ok d w' ∧ d.Stacks g (x :: ts) := by
  cases h with
  | list l => exact ⟨_, _, rfl, .list (.cons w.nextStamp x l)⟩
  | shows h =>
    cases ends_conj h x with
    | ok he hb =>
      refine ⟨_, w, by rw [he]; rfl, ?_⟩
      rw [← List.reverse_concat']
      exact .shows hb

/-- Without an element there is nothing to pop. -/
theorem Stacks.pop_nil (h : c.Stacks g []) :
    c.pop = Act.fail (.emptyCollection "pop" g.kind) := by
  generalize hts : ([] : List Value) = ts at h
  cases h with
  | list l =>
    cases l with
    | nil => rfl
    | cons => cases hts
  | shows h =>
    obtain rfl := List.reverse_eq_nil_iff.mp hts.symm
    cases ends_pop h with
    | error he => exact he

/-- A pop takes the top away. -/
theorem Stacks.pop_cons (h : c.Stacks g (x :: ts)) : ∃ d, c.pop = pure d ∧ d.Stacks g ts := by
  generalize hts : x :: ts = us at h
  cases h with
  | list l =>
    cases l with
    | nil => cases hts
    | cons s y l =>
      cases hts
      exact ⟨_, rfl, .list l⟩
  | @shows v xs h =>
    -- The top is the last element, so what is left is all before it.
    obtain rfl : xs = ts.reverse ++ [x] := by rw [← List.reverse_cons, hts, List.reverse_reverse]
    have he := ends_pop h
    rw [Vec.pop, if_neg (by simp)] at he
    cases he with
    | ok he hb =>
      refine ⟨_, he, ?_⟩
      simpa using Stacks.shows hb

/-! ### Runs -/

/-- A step does to a stack what it does to its elements. -/
theorem Stacks.act (h : c.Stacks g ts) (op : StackOp) (n : Nat) (w : World) :
    match op.on ts with
    | some us => ∃ d w', op.apply c n w = .ok d w' ∧ d.Stacks g us
    | none => op.apply c n w = .error (.error (.emptyCollection "pop" g.kind)) w := by
  cases op with
  | push x => exact h.push x n w
  | pop =>
    cases ts with
    | nil => exact congrFun (congrFun h.pop_nil n) w
    | cons x ts =>
      obtain ⟨d, hd, h⟩ := h.pop_cons
      exact ⟨d, w, congrFun (congrFun hd n) w, h⟩

/-- A run of pushes and pops does to a stack what it does to its elements; it fails only where it pops
and there is nothing. -/
theorem Stacks.run (n : Nat) : ∀ (ops : List StackOp) (w : World) {c : Value} {ts : List Value},
    c.Stacks g ts →
      match StackOp.runOn ops ts with
      | some us => ∃ d w', StackOp.run ops c n w = .ok d w' ∧ d.Stacks g us
      | none => ∃ w', StackOp.run ops c n w = .error (.error (.emptyCollection "pop" g.kind)) w'
  | [], w, c, _, h => ⟨c, w, rfl, h⟩
  | op :: ops, w, c, ts, h => by
    have hact := h.act op n w
    rw [StackOp.run, StackOp.runOn]
    cases hon : op.on ts with
    | none =>
      rw [hon] at hact
      exact ⟨w, Act.bind_of_error hact⟩
    | some us =>
      rw [hon] at hact
      obtain ⟨d, w₁, hd, h⟩ := hact
      rw [Act.bind_of_ok hd]
      exact h.run n ops w₁

/-- Pops take the elements from the top, as long as there are any. -/
theorem Stacks.pops : ∀ {i : Nat} {c : Value} {ts : List Value}, c.Stacks g ts → i ≤ ts.length →
    ∃ d, StackOp.run (List.replicate i .pop) c = pure d ∧ d.Stacks g (ts.drop i)
  | 0, c, _, h, _ => ⟨c, rfl, h⟩
  | i + 1, _, x :: ts, h, hi => by
    obtain ⟨d, hd, h⟩ := h.pop_cons
    obtain ⟨e, he, h⟩ := h.pops (Nat.le_of_succ_le_succ hi)
    refine ⟨e, ?_, h⟩
    rw [List.replicate_succ, StackOp.run, StackOp.apply, hd, pure_bind, he]

/-! ### The laws -/

/-- The laws of a stack with these elements, from the top down. -/
structure StackLaws (c : Value) (g : Growth) (ts : List Value) : Prop where
  elements : c.Holds (g.inOrder ts)
  count : c.count = pure ts.length
  /-- What is pushed is peeked at, and popping it gives the elements back. -/
  push (x : Value) (n : Nat) (w : World) : ∃ d w', c.conj x n w = .ok d w' ∧
    d.peek = pure x ∧ ∃ e, d.pop = pure e ∧ e.Holds (g.inOrder ts)
  /-- What is peeked at is popped, and pushing it gives the elements back. -/
  pop (hne : ts ≠ []) : ∃ x d, c.peek = pure x ∧ c.pop = pure d ∧ d.count = pure (ts.length - 1) ∧
    ∀ n w, ∃ e w', d.conj x n w = .ok e w' ∧ e.Holds (g.inOrder ts)
  /-- As long as fewer than all elements are popped, one can be peeked at and popped. -/
  pops (i : Nat) (hi : i < ts.length) : ∃ d x e, StackOp.run (List.replicate i .pop) c = pure d ∧
    d.peek = pure x ∧ d.pop = pure e
  /-- When all are popped, there is nothing to peek at or to pop. -/
  exhausted : ∃ d, StackOp.run (List.replicate ts.length .pop) c = pure d ∧
    d.peek = Act.fail (.emptyCollection "peek" g.kind) ∧
    d.pop = Act.fail (.emptyCollection "pop" g.kind)

theorem Stacks.peek_cons (h : c.Stacks g (x :: ts)) : c.peek = pure x := h.peek_eq

theorem Stacks.laws (h : c.Stacks g ts) : c.StackLaws g ts where
  elements := h.holds
  count := h.count_eq
  push x n w := by
    obtain ⟨d, w', hd, hpush⟩ := h.push x n w
    obtain ⟨e, he, hpop⟩ := hpush.pop_cons
    exact ⟨d, w', hd, hpush.peek_cons, e, he, hpop.holds⟩
  pop hne := by
    obtain ⟨x, us, rfl⟩ := List.exists_cons_of_ne_nil hne
    obtain ⟨d, hd, hpop⟩ := h.pop_cons
    refine ⟨x, d, h.peek_cons, hd, hpop.count_eq, fun n w => ?_⟩
    obtain ⟨e, w', he, hpush⟩ := hpop.push x n w
    exact ⟨e, w', he, hpush.holds⟩
  pops i hi := by
    obtain ⟨d, hd, hleft⟩ := h.pops (Nat.le_of_lt hi)
    rw [List.drop_eq_getElem_cons hi] at hleft
    obtain ⟨e, he, -⟩ := hleft.pop_cons
    exact ⟨d, _, e, hd, hleft.peek_cons, he⟩
  exhausted := by
    obtain ⟨d, hd, hleft⟩ := h.pops (Nat.le_refl _)
    rw [List.drop_length] at hleft
    exact ⟨d, hd, hleft.peek_eq, hleft.pop_nil⟩

/-! ### Stacks that can be made -/

/-- A list, or a vector or view that can be made from vectors. -/
inductive IsStack : Value → Growth → Prop
  | list (l : Linked Value) : IsStack (.list l) .front
  | sliced {v : Value} (h : v.Sliced) : IsStack v .back

theorem IsStack.stacks (h : c.IsStack g) : ∃ ts, c.Stacks g ts := by
  cases h with
  | list l => exact ⟨_, .list l⟩
  | sliced h =>
    obtain ⟨xs, h⟩ := h.shows
    exact ⟨_, .shows h⟩

end Value

/-- Lists, vectors and views, however these were made, obey the laws of stacks, and so does all that any
run of pushes and pops makes of them. Such a run fails just where it pops and has nothing left. -/
theorem stacks_obey_laws (h : c.IsStack g) : ∃ ts, c.StackLaws g ts ∧ ∀ ops n w,
    match StackOp.runOn ops ts with
    | some us => ∃ d w', StackOp.run ops c n w = .ok d w' ∧ d.StackLaws g us
    | none => ∃ w', StackOp.run ops c n w =
        .error (.error (.emptyCollection "pop" g.kind)) w' := by
  obtain ⟨ts, h⟩ := h.stacks
  refine ⟨ts, h.laws, fun ops n w => ?_⟩
  have hrun := h.run n ops w
  cases hon : StackOp.runOn ops ts with
  | none =>
    rw [hon] at hrun
    exact hrun
  | some us =>
    rw [hon] at hrun
    obtain ⟨d, w', hd, h⟩ := hrun
    exact ⟨d, w', hd, h.laws⟩

/-- A view of two elements that was cut out of a view obeys the laws: the third pop fails, and after a
push it does not. -/
theorem stacks_obey_laws_inner : (Value.view innerTwo).IsStack .back ∧
    ∃ ts, (Value.view innerTwo).StackLaws .back ts ∧ ts.length = 2 ∧
      (∃ w', StackOp.run [.pop, .pop, .pop] (.view innerTwo) 0 {} =
        .error (.error (.emptyCollection "pop" "vector")) w') ∧
      ∃ d w', StackOp.run [.pop, .pop, .push .nil, .pop] (.view innerTwo) 0 {} = .ok d w' ∧
        d.StackLaws .back [] := by
  have hrange : View.ofRange innerTwo.backing 0 3 = .ok (.view ⟨innerTwo.backing, 0, 3⟩) := rfl
  have hnarrow : View.subvec ⟨innerTwo.backing, 0, 3⟩ 1 3 = .ok (.view innerTwo) := rfl
  have hs : (Value.view innerTwo).IsStack .back := .sliced (.narrow (.range hrange) hnarrow)
  obtain ⟨ts, h, hrun⟩ := stacks_obey_laws hs
  have hcount : (pure 2 : Act Nat) 0 {} = (pure ts.length : Act Nat) 0 {} :=
    congrFun (congrFun h.count 0) {}
  have hlen : ts.length = 2 := (EStateM.Result.ok.inj hcount).1.symm
  obtain ⟨x, y, rfl⟩ := List.length_eq_two.mp hlen
  exact ⟨hs, [x, y], h, rfl, hrun [.pop, .pop, .pop] 0 {}, hrun [.pop, .pop, .push .nil, .pop] 0 {}⟩

end LispCore
