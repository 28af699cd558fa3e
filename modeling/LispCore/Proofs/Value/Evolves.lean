import LispCore.Proofs.Value.Call
/-!
Worlds that follow. A world follows another when it came about by making lazy sequences, by calls on
them that came back, and by anything that leaves them alone (`Evolves`). What a value comes to stays
in every world that follows (`Evolves.means`). `Gives` says that an action ends with a result in a
world that follows; asking a finite value for its sequence does (`seq?_gives`).
-/

namespace LispCore

/-- The second world comes about from the first: lazy sequences are left alone, made, or asked for
their sequence by calls that come back, with whatever answer. -/
inductive Evolves : World → World → Prop
  | refl (w : World) : Evolves w w
  | other {w w₁ w₂ : World} (h : Evolves w w₁) (he : w₂.lazies = w₁.lazies) : Evolves w w₂
  | make {w w₁ w₂ : World} {p : Producer} {l : Lazy} {n : Nat} (h : Evolves w w₁)
      (hm : Lazy.make p n w₁ = .ok l w₂) : Evolves w w₂
  | call {w w₁ w₂ : World} {l : Lazy} {n : Nat} {a : Except Fault (Option Seq)} (h : Evolves w w₁)
      (hc : l.seq? n w₁ = Act.ended a w₂) (ha : a ≠ .error .exhausted) : Evolves w w₂

/-- The world came about from one without lazy sequences. -/
def Reached (w : World) : Prop := ∃ w₀ : World, w₀.lazies = #[] ∧ Evolves w₀ w

variable {inside : Nat → Datum} {w w₀ w₁ w₂ w' : World} {l : Lazy} {p : Producer} {n k : Nat}

theorem Evolves.trans (h : Evolves w w₁) (h' : Evolves w₁ w₂) : Evolves w w₂ := by
  induction h' with
  | refl => exact h
  | other _ he ih => exact .other ih he
  | make _ hm ih => exact .make ih hm
  | call _ hc ha ih => exact .call ih hc ha

/-! ### Each step advances the world -/

theorem lazyCell_of_lazies (he : w'.lazies = w.lazies) (l : Lazy) : w'.lazyCell l = w.lazyCell l := by
  rw [World.lazyCell, World.lazyCell, he]

/-- Leaving the sequences alone. -/
theorem advances_other (hw : Orderly w) (he : w'.lazies = w.lazies) :
    Advances w w' ∧ Orderly w' := by
  have hn : Noted w w' := ⟨by rw [he], fun l => .inl (lazyCell_of_lazies he l)⟩
  exact ⟨hn.advances, hn.orderly hw⟩

/-- Making a sequence is what the run of a producer that defers does. -/
theorem advances_make (hw : Orderly w) (hm : Lazy.make p n w = .ok l w') :
    Advances w w' ∧ Orderly w' := by
  have he : w'.lazies = (w.produce (.defer p)).lazies := by
    cases hm
    simp [World.produce, Producer.makes?]
  have hcell : ∀ m, m.id < w.lazies.size → w'.lazyCell m = w.lazyCell m := fun m hm =>
    (lazyCell_of_lazies he m).trans (World.lazyCell_produce _ hm)
  have hsize : w.lazies.size ≤ w'.lazies.size := by
    rw [he, World.size_produce]
    exact Nat.le_add_right ..
  refine ⟨⟨hsize, fun m r hlt hr => ?_, fun m q hc => .inl ?_⟩, ?_⟩
  · exact (World.told?_congr (hcell m hlt) fun o ho => hcell o (hw m o ho).1).trans hr
  · exact (hcell m (World.lt_of_ready hc)).trans hc
  · exact (advances_other (hw.produce (.defer p)) he).2

theorem seq?_called (hw : Orderly w) : Called w l n n (l.seq? n w) := seqAt_called hw n

/-- A call that comes back. -/
theorem advances_call {a : Except Fault (Option Seq)} (hw : Orderly w)
    (hc : l.seq? n w = Act.ended a w') (ha : a ≠ .error .exhausted) :
    Advances w w' ∧ Orderly w' := by
  have hcalled : Called w l n n (l.seq? n w) := seq?_called hw
  generalize hres : l.seq? n w = res at hc hcalled
  cases hcalled with
  | answers h =>
    obtain ⟨-, rfl⟩ := Act.ended_inj hc
    exact ⟨h.advances, h.orderly⟩
  | @panics text w₁ h =>
    have hc : Act.ended (.error (.panic text)) w₁ = Act.ended a w' := hc
    obtain ⟨-, rfl⟩ := Act.ended_inj hc
    exact ⟨h.advances, h.orderly⟩
  | @exhausted w₁ =>
    have hc : Act.ended (.error .exhausted) w₁ = Act.ended a w' := hc
    exact absurd (Act.ended_inj hc).1.symm ha

/-- What every advance keeps is kept in every world that follows an orderly one, and those are
orderly. -/
theorem Evolves.carries {P : World → Prop} (h : Evolves w w') (hw : Orderly w) (hp : P w)
    (hstep : ∀ {w w'}, Orderly w → Advances w w' → P w → P w') : P w' ∧ Orderly w' := by
  induction h with
  | refl => exact ⟨hp, hw⟩
  | other _ he ih =>
    obtain ⟨hp, ho⟩ := ih
    obtain ⟨ha, ho'⟩ := advances_other ho he
    exact ⟨hstep ho ha hp, ho'⟩
  | make _ hm ih =>
    obtain ⟨hp, ho⟩ := ih
    obtain ⟨ha, ho'⟩ := advances_make ho hm
    exact ⟨hstep ho ha hp, ho'⟩
  | call _ hc hne ih =>
    obtain ⟨hp, ho⟩ := ih
    obtain ⟨ha, ho'⟩ := advances_call ho hc hne
    exact ⟨hstep ho ha hp, ho'⟩

theorem Evolves.orderly (h : Evolves w w') (hw : Orderly w) : Orderly w' :=
  (h.carries (P := fun _ => True) hw trivial fun _ _ h => h).2

theorem Evolves.means {s : Subject} {d : Datum} (h : Evolves w w')
    (hw : Orderly w) (hm : Means inside w k s d) : Means inside w' k s d :=
  (h.carries hw hm fun _ ha hm => ha.keeps inside k s d hm).1

/-- Sequences stay, and what they tell stays told. -/
theorem Evolves.told {r : Realized} (h : Evolves w w') (hw : Orderly w)
    (hl : l.id < w.lazies.size) (hr : w.told? l = some r) :
    l.id < w'.lazies.size ∧ w'.told? l = some r :=
  (h.carries (P := fun w => l.id < w.lazies.size ∧ w.told? l = some r) hw ⟨hl, hr⟩ fun _ ha h =>
    ⟨Nat.lt_of_lt_of_le h.1 ha.size, ha.told l r h.1 h.2⟩).1

theorem Reached.orderly (h : Reached w) : Orderly w := by
  obtain ⟨w₀, hw₀, h⟩ := h
  refine h.orderly fun l o hl => ?_
  have hnone : w₀.lazyCell l = ⟨.running, none⟩ := by
    rw [World.lazyCell, hw₀]
    rfl
  rw [hnone] at hl
  cases hl

theorem Evolves.entries {xs : List (Value × Value)} {es : List (Datum × Datum)} (h : Evolves w w')
    (hw : Orderly w) (hxs : Means.Entries inside w k xs es) : Means.Entries inside w' k xs es :=
  hxs.imp fun _ _ hx => ⟨h.means hw hx.1, h.means hw hx.2⟩

/-! ### Actions that end with a result -/

/-- The action ends with such a result in a world that follows. -/
def Gives {α : Type} (x : Act α) (n : Nat) (w : World) (P : α → World → Prop) : Prop :=
  ∃ a w', x n w = .ok a w' ∧ Evolves w w' ∧ P a w'

section Gives

variable {α β : Type} {x : Act α} {f : α → Act β} {P P' : α → World → Prop}
  {Q : β → World → Prop}

theorem Gives.pure {a : α} (h : P a w) : Gives (Pure.pure a) n w P := ⟨a, w, rfl, .refl w, h⟩

theorem Gives.bind (hx : Gives x n w P)
    (hf : ∀ a w', Evolves w w' → P a w' → Gives (f a) n w' Q) : Gives (x >>= f) n w Q := by
  obtain ⟨a, w₁, hx, he, hp⟩ := hx
  obtain ⟨b, w₂, hf, he', hq⟩ := hf a w₁ he hp
  exact ⟨b, w₂, (Act.bind_of_ok hx).trans hf, he.trans he', hq⟩

theorem Gives.mono (hx : Gives x n w P) (h : ∀ a w', Evolves w w' → P a w' → P' a w') :
    Gives x n w P' := by
  obtain ⟨a, w', hx, he, hp⟩ := hx
  exact ⟨a, w', hx, he, h a w' he hp⟩

end Gives

/-- A value that is not lazy is not realized. -/
theorem Value.seq?_direct {v : Value} (hv : ∀ l, v ≠ .lazy l) (n : Nat) (w : World) :
    v.seq? n w = Act.ended (Realized.answer v.directSeq) w := by
  rw [← Act.ofExcept_apply]
  cases v with
  | lazy l => exact absurd rfl (hv l)
  | _ => rfl

/-- A finite lazy sequence that is asked for its sequence answers what it comes to. -/
theorem seq?_answers {v : Value} {ds : List Datum} {f : Bool} (hw : Orderly w) (hn : 2 ≤ n)
    (hk : k < n) (h : Means inside w k (.rest v) (.items ds f)) :
    ∃ r w', v.seq? n w = Act.ended (Realized.answer r) w' ∧ Evolves w w' ∧
      ∃ i < k, Means inside w' i (.outcome r) (.items ds f) := by
  by_cases hv : ∃ l, v = .lazy l
  · obtain ⟨l, rfl⟩ := hv
    -- a finite reading is one of a sequence that comes to something in fewer rounds than the budget
    obtain ⟨u, hu, hne, -⟩ := (Means.give (Nat.lt_succ_self k) h).becomes
    have hcalled : Called w l n n (l.seq? n w) := seq?_called hw
    generalize hres : l.seq? n w = res at hcalled
    cases hcalled with
    | @answers r w' hs =>
      have hev : Evolves w w' := .call (.refl w) hres (by cases r <;> nofun)
      refine ⟨r, w', hres, hev, ?_⟩
      cases hs.advances.keeps inside k _ _ h with
      | direct _ hv => exact absurd rfl (hv l)
      | told hi _ hr hm =>
        rw [hs.told] at hr
        cases hr
        exact ⟨_, hi, hm⟩
      | ready _ hl =>
        have htold := hs.told
        exact (World.ready_untold hl htold).elim
    | panics _ hl => exact absurd (hl _ u hu) (hne _)
    | exhausted hx => exact absurd (hu.mono (by omega)) (hx hn u)
  · have hv : ∀ l, v ≠ .lazy l := fun l hl => hv ⟨l, hl⟩
    refine ⟨v.directSeq, w, Value.seq?_direct hv n w, .refl w, ?_⟩
    cases h with
    | direct hi _ hm => exact ⟨_, hi, hm⟩
    | told | ready => exact absurd rfl (hv _)

end LispCore
