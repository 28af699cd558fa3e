import LispCore.Act
/-!
How actions run. An action applied to a budget and a world is a result; these equations run the
combinators on results, so that an action is followed one step after the other. `worldAfter` is what
an action leaves behind, however it ends; a relation between the worlds before and after that is reflexive
and transitive carries over to actions put together (`Leads`).
-/

namespace LispCore.Act

variable {α β : Type} {x : Act α} {f : α → Act β} {n : Nat} {w w' : World}

/-- The world that an action leaves behind, however it ends. -/
def worldAfter (x : Act α) (n : Nat) (w : World) : World :=
  match x n w with
  | .ok _ w => w
  | .error _ w => w

theorem bind_apply (x : Act α) (f : α → Act β) (n : Nat) (w : World) :
    (x >>= f) n w = match x n w with
      | .ok a w => f a n w
      | .error e w => .error e w := by
  show EStateM.bind (x n) (fun a => f a n) w = _
  unfold EStateM.bind
  cases x n w <;> rfl

theorem bind_of_ok {a : α} (h : x n w = .ok a w') : (x >>= f) n w = f a n w' := by
  rw [bind_apply, h]

theorem bind_of_error {e : Fault} (h : x n w = .error e w') : (x >>= f) n w = .error e w' := by
  rw [bind_apply, h]

/-- An action that ends with a result went on after the first one ended with a result. -/
theorem ok_of_bind {b : β} (h : (x >>= f) n w = .ok b w') :
    ∃ a w₁, x n w = .ok a w₁ ∧ f a n w₁ = .ok b w' := by
  rw [bind_apply] at h
  cases hx : x n w with
  | ok a w₁ =>
    rw [hx] at h
    exact ⟨a, w₁, rfl, h⟩
  | error e w₁ =>
    rw [hx] at h
    cases h

/-- What comes after an action need only agree on what the action comes back with. -/
theorem bind_congr_at {g : α → Act β} (h : ∀ a w', x n w = .ok a w' → f a n w' = g a n w') :
    (x >>= f) n w = (x >>= g) n w := by
  rw [bind_apply, bind_apply]
  cases hx : x n w with
  | ok a w' => exact h a w' hx
  | error e w' => rfl

@[simp] theorem pure_apply (a : α) (n : Nat) (w : World) : (pure a : Act α) n w = .ok a w := rfl

@[simp] theorem modify_apply (g : World → World) (n : Nat) (w : World) :
    (modify g : Act PUnit) n w = .ok ⟨⟩ (g w) := rfl

@[simp] theorem budget_apply (n : Nat) (w : World) : budget n w = .ok n w := rfl

@[simp] theorem fail_apply (e : Error) (n : Nat) (w : World) :
    (fail e : Act α) n w = .error (.error e) w := rfl

theorem worldAfter_of_ok {a : α} (h : x n w = .ok a w') : x.worldAfter n w = w' := by
  rw [worldAfter, h]

theorem worldAfter_of_error {e : Fault} (h : x n w = .error e w') : x.worldAfter n w = w' := by
  rw [worldAfter, h]

theorem attempt_of_ok {a : α} (h : x n w = .ok a w') : attempt x n w = .ok (.ok a) w' := by
  rw [attempt, h]

theorem attempt_of_error {e : Error} (h : x n w = .error (.error e) w') :
    attempt x n w = .ok (.error e) w' := by
  rw [attempt, h]

/-- What is not an error is not caught. -/
theorem attempt_of_fault {f : Fault} (h : x n w = .error f w') (hf : ∀ e, f ≠ .error e) :
    attempt x n w = .error f w' := by
  rw [attempt, h]
  cases f with
  | error e => exact absurd rfl (hf e)
  | panic | exhausted => rfl

/-- What an attempt came back with is how the action ended. -/
theorem ok_of_attempt {r : Except Error α} (h : attempt x n w = .ok r w') :
    (∃ a, r = .ok a ∧ x n w = .ok a w') ∨ ∃ e, r = .error e ∧ x n w = .error (.error e) w' := by
  rw [attempt] at h
  cases hx : x n w with
  | ok a w₁ =>
    rw [hx] at h
    cases h
    exact .inl ⟨a, rfl, rfl⟩
  | error f w₁ =>
    rw [hx] at h
    cases f with
    | error e =>
      cases h
      exact .inr ⟨e, rfl, rfl⟩
    | panic | exhausted => cases h

theorem attempt_bind_of_ok {a : α} (h : x n w = .ok a w') :
    attempt (x >>= f) n w = attempt (f a) n w' := by
  rw [attempt, attempt, bind_of_ok h]

/-- However an action ends, the action run after it runs in the world it leaves behind. -/
theorem worldAfter_ensure (x : Act α) (after : Act Unit) (n : Nat) (w : World) :
    (ensure x after).worldAfter n w = after.worldAfter n (x.worldAfter n w) := by
  unfold worldAfter ensure
  cases x n w with
  | ok a w' =>
    simp only
    cases after n w' <;> rfl
  | error e w' =>
    simp only
    cases after n w' <;> rfl

/-! ### What holds between the worlds before and after -/

/-- However the action ends, this holds between the world before and the one it leaves behind. -/
def Leads (R : World → World → Prop) (x : Act α) : Prop := ∀ n w, R w (x.worldAfter n w)

namespace Leads

variable {R : World → World → Prop}

theorem read (hrefl : ∀ w, R w w) (h : ∀ n w, x.worldAfter n w = w) : x.Leads R :=
  fun n w => (h n w).symm ▸ hrefl w

theorem bind (htrans : ∀ {a b c}, R a b → R b c → R a c) (hx : x.Leads R) (hf : ∀ a, (f a).Leads R) :
    (x >>= f).Leads R := by
  intro n w
  have hxw := hx n w
  rw [worldAfter] at hxw ⊢
  rw [bind_apply]
  cases hres : x n w with
  | ok a w₁ =>
    rw [hres] at hxw
    exact htrans hxw (hf a n w₁)
  | error e w₁ =>
    rw [hres] at hxw
    exact hxw

theorem attempt (hx : x.Leads R) : (Act.attempt x).Leads R := by
  intro n w
  have hxw := hx n w
  rw [worldAfter] at hxw ⊢
  rw [Act.attempt]
  cases hres : x n w with
  | ok a w₁ =>
    rw [hres] at hxw
    exact hxw
  | error f w₁ =>
    rw [hres] at hxw
    cases f <;> exact hxw

end Leads

end LispCore.Act
