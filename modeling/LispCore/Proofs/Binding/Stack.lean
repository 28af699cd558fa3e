import LispCore.Binding.Convey
import LispCore.Proofs.Act
import Mathlib.Tactic.SplitIfs
/-!
What each operation on bindings does to the world, as an equation: the world it leaves, and whether
it fails. Pushes add a frame with the next number on top of the chain, a pop takes the innermost
frame or fails, and a dropped guard cuts the chain below its frame.
-/

namespace LispCore.Binding

variable {n : Nat} {w : World}

/-- The vars of some pairs with cells numbered from a first one on. -/
def numbered : (first : Nat) → List (Var × Value) → List (Var × Nat)
  | _, [] => []
  | first, p :: ps => (p.1, first) :: numbered (first + 1) ps

@[simp] theorem map_fst_numbered : ∀ (first : Nat) (pairs : List (Var × Value)),
    (numbered first pairs).map (·.1) = pairs.map (·.1)
  | _, [] => rfl
  | first, p :: ps => by rw [numbered, List.map_cons, List.map_cons, map_fst_numbered (first + 1) ps]

/-- The world with one more frame on the chain. -/
def framed (w : World) (pairs : List (Var × Value)) (guarded : Bool) : World :=
  { w with
    cells := w.cells ++ (pairs.map (·.2)).toArray
    nextFrame := w.nextFrame + 1
    chain := w.chain.push w.nextFrame (numbered w.cells.size pairs) guarded }

/-! ### Single operations -/

theorem makeCells_eq : ∀ (pairs : List (Var × Value)) (w : World),
    makeCells pairs n w = .ok (numbered w.cells.size pairs)
      { w with cells := w.cells ++ (pairs.map (·.2)).toArray }
  | [], w => by simp [makeCells, numbered]
  | p :: ps, w => by
    have h : makeCell p.2 n w = .ok w.cells.size { w with cells := w.cells.push p.2 } := rfl
    rw [makeCells, Act.bind_of_ok h, Act.bind_of_ok (makeCells_eq ps _)]
    simp [numbered]

theorem pushFrame_eq (pairs : List (Var × Value)) (guarded : Bool) :
    pushFrame pairs guarded n w = .ok w.nextFrame (framed w pairs guarded) := by
  rw [pushFrame, Act.bind_of_ok (makeCells_eq pairs w)]
  rfl

theorem checkDynamic_eq (v : Var) : checkDynamic v n w =
    if (w.varCell v).dynamic then .ok () w
    else .error (.error (.notDynamic (w.varCell v).label.text)) w := by
  have hd : v.isDynamic n w = .ok (w.varCell v).dynamic w := rfl
  have hq : v.qualifiedName n w = .ok (w.varCell v).label.text w := rfl
  rw [checkDynamic, Act.bind_of_ok hd]
  cases (w.varCell v).dynamic with
  | true => rfl
  | false => exact Act.bind_of_ok hq

/-- The first var that may not be bound is the one reported. -/
theorem checkAllDynamic_eq : ∀ vs : List Var, checkAllDynamic vs n w =
    match vs.find? fun v => !(w.varCell v).dynamic with
    | none => .ok () w
    | some v => .error (.error (.notDynamic (w.varCell v).label.text)) w
  | [] => rfl
  | v :: vs => by
    have hc := checkDynamic_eq (n := n) (w := w) v
    rw [checkAllDynamic, List.find?_cons]
    cases hd : (w.varCell v).dynamic with
    | true =>
      rw [hd, if_pos rfl] at hc
      rw [Act.bind_of_ok hc]
      exact checkAllDynamic_eq vs
    | false =>
      rw [hd] at hc
      exact Act.bind_of_error hc

theorem push_eq (v : Var) (x : Value) : push v x n w =
    if (w.varCell v).dynamic then .ok () (framed w [(v, x)] false)
    else .error (.error (.notDynamic (w.varCell v).label.text)) w := by
  have hc := checkDynamic_eq (n := n) (w := w) v
  rw [push]
  split_ifs with hd
  · rw [if_pos hd] at hc
    rw [Act.bind_of_ok hc, Act.bind_of_ok (pushFrame_eq ..)]
    rfl
  · rw [if_neg hd] at hc
    exact Act.bind_of_error hc

theorem pushGuarded_eq (pairs : List (Var × Value)) : pushGuarded pairs n w =
    match (pairs.map (·.1)).find? fun v => !(w.varCell v).dynamic with
    | none => .ok ⟨w.nextFrame⟩ (framed w pairs true)
    | some v => .error (.error (.notDynamic (w.varCell v).label.text)) w := by
  have hc := checkAllDynamic_eq (n := n) (w := w) (pairs.map (·.1))
  rw [pushGuarded]
  cases h : (pairs.map (·.1)).find? fun v => !(w.varCell v).dynamic with
  | none =>
    rw [h] at hc
    rw [Act.bind_of_ok hc, Act.bind_of_ok (pushFrame_eq ..)]
    rfl
  | some v =>
    rw [h] at hc
    exact Act.bind_of_error hc

theorem qualifiedNames_eq : ∀ vs : List Var,
    Var.qualifiedNames vs n w = .ok (vs.map fun v => (w.varCell v).label.text) w
  | [] => rfl
  | v :: vs => by
    have hq : v.qualifiedName n w = .ok (w.varCell v).label.text w := rfl
    rw [Var.qualifiedNames, Act.bind_of_ok hq, Act.bind_of_ok (qualifiedNames_eq vs)]
    rfl

/-- What a pop does, and how it fails. -/
theorem pop_eq (v : Var) : pop v n w =
    match w.chain with
    | [] => .error (.error (.unbalancedBinding
        ("pop of " ++ (w.varCell v).label.text ++ " with no binding pushed"))) w
    | f :: below =>
      if f.guarded then .error (.error (.unbalancedBinding
        ("pop of " ++ (w.varCell v).label.text ++
          " would release a frame owned by a binding guard"))) w
      else if f.pushed.map (·.1) = [v] then .ok () { w with chain := below }
      else .error (.error (.unbalancedBinding
        ("pop of " ++ (w.varCell v).label.text ++ " out of order, innermost frame binds " ++
          ", ".intercalate ((f.pushed.map (·.1)).map fun u => (w.varCell u).label.text)))) w := by
  have hc : chain n w = .ok w.chain w := rfl
  have hq : v.qualifiedName n w = .ok (w.varCell v).label.text w := rfl
  rw [pop, Act.bind_of_ok hc]
  cases w.chain with
  | nil => exact Act.bind_of_ok hq
  | cons f below =>
    simp only
    split_ifs with hg hv
    · exact Act.bind_of_ok hq
    · rfl
    · have hf : frameNames f n w =
          .ok ((f.pushed.map (·.1)).map fun u => (w.varCell u).label.text) w := qualifiedNames_eq _
      exact (Act.bind_of_ok hq).trans (Act.bind_of_ok hf)

/-- A pop takes a manual frame of just the var off the chain and otherwise changes nothing. -/
theorem pop_cases (v : Var) :
    (∃ f below, w.chain = f :: below ∧ f.guarded = false ∧ f.pushed.map (·.1) = [v] ∧
      pop v n w = .ok () { w with chain := below }) ∨
    ∃ detail, pop v n w = .error (.error (.unbalancedBinding detail)) w := by
  rw [pop_eq]
  cases w.chain with
  | nil => exact .inr ⟨_, rfl⟩
  | cons f below =>
    simp only
    split_ifs with hg hv
    · exact .inr ⟨_, rfl⟩
    · exact .inl ⟨f, below, rfl, by simpa using hg, hv, rfl⟩
    · exact .inr ⟨_, rfl⟩

theorem reportUnwound_eq : ∀ (fs : List Frame) (w : World),
    ∃ notices, reportUnwound fs n w = .ok () { w with notices }
  | [], w => ⟨w.notices, rfl⟩
  | f :: fs, w => by
    have hf : frameNames f n w = .ok ((f.pushed.map (·.1)).map fun v => (w.varCell v).label.text) w :=
      qualifiedNames_eq _
    obtain ⟨notices, h⟩ := reportUnwound_eq fs
      { w with notices := w.notices.push (.frameUnwound f.id
          ((f.pushed.map (·.1)).map fun v => (w.varCell v).label.text)) }
    refine ⟨notices, ?_⟩
    rw [reportUnwound, Act.bind_of_ok hf]
    exact h

/-- A dropped guard cuts the chain below its frame if that is there; it never fails. -/
theorem dropGuard_eq (g : BindingGuard) (w : World) : ∃ notices, dropGuard g n w = .ok ()
    { w with
      notices
      chain := if w.chain.holds g.frame then w.chain.below g.frame else w.chain } := by
  have hc : chain n w = .ok w.chain w := rfl
  rw [dropGuard, Act.bind_of_ok hc]
  split_ifs with h
  · obtain ⟨notices, hr⟩ := reportUnwound_eq (n := n) (w.chain.above g.frame) w
    exact ⟨notices, Act.bind_of_ok hr⟩
  · exact ⟨_, rfl⟩

/-- The chain is cut below the frame where no frame above has its number. -/
theorem Chain.below_of_ne {f : Frame} {base : Chain} : ∀ {above : List Frame},
    (∀ h ∈ above, h.id ≠ f.id) → Chain.below (above ++ f :: base) f.id = base
  | [], _ => by
    rw [Chain.below, List.nil_append, List.dropWhile_cons_of_neg (by simp), List.tail_cons]
  | h :: hs, hne => by
    obtain ⟨hh, hhs⟩ := List.forall_mem_cons.mp hne
    rw [Chain.below, List.cons_append, List.dropWhile_cons_of_pos (by simpa using hh)]
    exact below_of_ne hhs

/-- A guard whose frame is on the chain leaves just the chain below it. -/
theorem dropGuard_of_append {above : List Frame} {f : Frame} {below : Chain}
    (hc : w.chain = above ++ f :: below) (hne : ∀ h ∈ above, h.id ≠ f.id) :
    ∃ notices, dropGuard ⟨f.id⟩ n w = .ok () { w with notices, chain := below } := by
  obtain ⟨notices, hd⟩ := dropGuard_eq (n := n) ⟨f.id⟩ w
  have hh : w.chain.holds f.id = true :=
    List.any_eq_true.mpr ⟨f, by simp [hc], beq_self_eq_true f.id⟩
  have hbelow : w.chain.below f.id = below := by rw [hc, Chain.below_of_ne hne]
  rw [if_pos hh, hbelow] at hd
  exact ⟨notices, hd⟩

/-! ### Reading and setting -/

theorem bindingCell?_eq (v : Var) : v.bindingCell? n w =
    .ok (if (w.varCell v).dynamic then w.chain.cell? v else none) w := by
  have hd : v.isDynamic n w = .ok (w.varCell v).dynamic w := rfl
  rw [Var.bindingCell?, Act.bind_of_ok hd]
  split_ifs <;> rfl

theorem binding?_eq (v : Var) : v.binding? n w =
    .ok ((if (w.varCell v).dynamic then w.chain.cell? v else none).map (w.cells.getD · .nil)) w := by
  rw [Var.binding?, Act.bind_of_ok (bindingCell?_eq v)]
  cases if (w.varCell v).dynamic then w.chain.cell? v else none <;> rfl

theorem hasBinding_eq (v : Var) : v.hasBinding n w =
    .ok (if (w.varCell v).dynamic then w.chain.cell? v else none).isSome w :=
  Act.bind_of_ok (bindingCell?_eq v)

/-- The value on this thread is that of the binding, else the root. -/
theorem current_eq {o : Option Value} (v : Var) (h : v.binding? n w = .ok o w) : v.current n w =
    match o.or (w.varCell v).root with
    | some x => .ok x w
    | none => .error (.error (.unboundVar (w.varCell v).label.text)) w := by
  have hr : v.root? n w = .ok (w.varCell v).root w := rfl
  rw [Var.current, Act.bind_of_ok h]
  cases o with
  | some x => rfl
  | none =>
    rw [Option.none_or]
    show v.derefRoot n w = _
    rw [Var.derefRoot, Act.bind_of_ok hr]
    cases (w.varCell v).root <;> rfl

theorem isBound_eq {b : Bool} (v : Var) (h : v.hasBinding n w = .ok b w) : v.isBound n w =
    .ok (b || (w.varCell v).root.isSome) w := by
  rw [Var.isBound, Act.bind_of_ok h]
  cases b <;> rfl

theorem set_eq (v : Var) (x : Value) : v.set x n w =
    match if (w.varCell v).dynamic then w.chain.cell? v else none with
    | some cell => .ok () { w with cells := w.cells.setIfInBounds cell x }
    | none => .error (.error (.noThreadBinding (w.varCell v).label.text)) w := by
  rw [Var.set, Act.bind_of_ok (bindingCell?_eq v)]
  cases if (w.varCell v).dynamic then w.chain.cell? v else none <;> rfl

/-- Setting through a binding writes one cell and fails without one. -/
theorem set_cases (v : Var) (x : Value) :
    (∃ cell, (w.varCell v).dynamic = true ∧ w.chain.cell? v = some cell ∧
      v.set x n w = .ok () { w with cells := w.cells.setIfInBounds cell x }) ∨
    ∃ name, v.set x n w = .error (.error (.noThreadBinding name)) w := by
  rw [set_eq]
  cases (w.varCell v).dynamic with
  | false => exact .inr ⟨_, rfl⟩
  | true =>
    cases w.chain.cell? v with
    | none => exact .inr ⟨_, rfl⟩
    | some cell => exact .inl ⟨cell, rfl, rfl, rfl⟩

theorem hasBinding_iff {v : Var} :
    v.hasBinding n w = .ok true w ↔ (w.varCell v).dynamic = true ∧ (w.chain.cell? v).isSome := by
  rw [hasBinding_eq]
  split_ifs with hd <;> simp [hd]

/-- A var is set just where it has a binding. -/
theorem set_of_hasBinding (v : Var) (x : Value)
    (h : v.hasBinding n w = .ok true w) : ∃ w', v.set x n w = .ok () w' := by
  obtain ⟨hd, hsome⟩ := hasBinding_iff.mp h
  obtain ⟨a, ha⟩ := Option.isSome_iff_exists.mp hsome
  have hset := set_eq (n := n) (w := w) v x
  rw [if_pos hd, ha] at hset
  exact ⟨_, hset⟩

theorem set_of_not_hasBinding (v : Var) (x : Value)
    (h : ¬v.hasBinding n w = .ok true w) :
    v.set x n w = .error (.error (.noThreadBinding (w.varCell v).label.text)) w := by
  have hset := set_eq (n := n) (w := w) v x
  rw [hasBinding_eq] at h
  cases hcell : if (w.varCell v).dynamic then w.chain.cell? v else none with
  | some a => exact absurd (by rw [hcell]; rfl) h
  | none =>
    rw [hcell] at hset
    exact hset

end LispCore.Binding
