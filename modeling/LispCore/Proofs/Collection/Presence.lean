import LispCore.Proofs.Vector.Views
/-!
Keyed look-up and presence. Behind `get` stands one look-up (`get_eq`), and `contains` tells whether
it finds an entry (`contains_eq`), so the two agree on what they answer, on the world they leave and
on the faults they end with (`presence_as_looked_up`). Strings are the exception: `get` finds their
characters, `contains` finds nothing (`character_not_contained`).
-/

namespace LispCore.Value

variable {coll key : Value} {n : Nat} {w w' : World}

/-- The value that is found at a key. -/
def lookup? (coll key : Value) : Act (Option Value) :=
  match coll with
  | map m => m.find? key
  | vector items => pure (Vec.valAt? items key)
  | view v => pure (v.valAt? key)
  | str s => pure ((key.index?.bind (s.toList[·]?)).map char)
  | _ => pure none

/-- The kinds that have a keyed look-up. -/
def hasLookup : Value → Bool
  | map _ | vector _ | view _ | str _ => true
  | _ => false

theorem get_eq (coll key default : Value) :
    coll.get key default = do return (← coll.lookup? key).getD default := by
  cases coll <;> rfl

theorem contains_eq (h : ∀ s, coll ≠ str s) (key : Value) :
    coll.contains key = do return (← coll.lookup? key).isSome := by
  cases coll with
  | str s => exact absurd rfl (h s)
  | _ => rfl

/-! ### What a look-up comes to -/

/-- Without a look-up nothing is found. -/
theorem lookup?_eq_none (h : coll.hasLookup = false) (key : Value) :
    coll.lookup? key = pure none := by
  cases coll with
  | map | vector | view | str => cases h
  | _ => rfl

/-- The same value whatever the default: an entry was found. -/
theorem found_iff_getD (o : Option Value) : o.isSome = true ↔ ∃ v, ∀ d, o.getD d = v := by
  cases o with
  | some v => exact ⟨fun _ => ⟨v, fun _ => rfl⟩, fun _ => rfl⟩
  | none =>
    refine ⟨nofun, fun ⟨v, hv⟩ => ?_⟩
    have hd : nil = bool true := (hv nil).trans (hv (bool true)).symm
    cases hd

/-- The default whatever it is: no entry was found. -/
theorem missing_iff_getD (o : Option Value) : o.isSome = false ↔ ∀ d, o.getD d = d := by
  cases o with
  | some v =>
    refine ⟨nofun, fun hv => ?_⟩
    have hd : nil = bool true := (hv nil).symm.trans (hv (bool true))
    cases hd
  | none => exact ⟨fun _ _ => rfl, fun _ => rfl⟩

/-- How a look-up ends: with a fault, or with what `get` and `contains` both read off. -/
theorem lookup?_ends (hs : ∀ s, coll ≠ str s) (key : Value) (n : Nat) (w : World) :
    (∃ (o : Option Value) (w' : World), coll.contains key n w = .ok o.isSome w' ∧
        ∀ d, coll.get key d n w = .ok (o.getD d) w') ∨
      ∃ e w', coll.contains key n w = .error e w' ∧ ∀ d, coll.get key d n w = .error e w' := by
  simp only [contains_eq hs, get_eq]
  cases h : coll.lookup? key n w with
  | ok o w' => exact .inl ⟨o, w', Act.bind_of_ok h, fun _ => Act.bind_of_ok h⟩
  | error e w' => exact .inr ⟨e, w', Act.bind_of_error h, fun _ => Act.bind_of_error h⟩

/-! ### Agreement -/

theorem contains_true_iff (hs : ∀ s, coll ≠ str s) :
    coll.contains key n w = .ok true w' ↔ ∃ v, ∀ d, coll.get key d n w = .ok v w' := by
  rcases lookup?_ends hs key n w with ⟨o, w₁, hc, hg⟩ | ⟨e, w₁, hc, hg⟩
  · simp only [hc, hg, EStateM.Result.ok.injEq, found_iff_getD, forall_and, forall_const,
      exists_and_right]
  · simp only [hc, hg]
    exact ⟨nofun, fun ⟨_, h⟩ => nomatch h nil⟩

theorem contains_false_iff (hs : ∀ s, coll ≠ str s) :
    coll.contains key n w = .ok false w' ↔ ∀ d, coll.get key d n w = .ok d w' := by
  rcases lookup?_ends hs key n w with ⟨o, w₁, hc, hg⟩ | ⟨e, w₁, hc, hg⟩
  · simp only [hc, hg, EStateM.Result.ok.injEq, missing_iff_getD, forall_and, forall_const]
  · simp only [hc, hg]
    exact ⟨nofun, fun h => nomatch h nil⟩

theorem contains_error_iff (hs : ∀ s, coll ≠ str s) {e : Fault} :
    coll.contains key n w = .error e w' ↔ ∀ d, coll.get key d n w = .error e w' := by
  rcases lookup?_ends hs key n w with ⟨o, w₁, hc, hg⟩ | ⟨e', w₁, hc, hg⟩
  · simp only [hc, hg]
    exact ⟨nofun, fun h => nomatch h nil⟩
  · simp only [hc, hg, EStateM.Result.error.injEq, forall_const]

end LispCore.Value

namespace LispCore

/-- Presence agrees with look-up at every key of every value but a string: `contains` is true exactly
when `get` gives one value for every default, it is false exactly when `get` gives every default
back, and both end with the same fault if they do. In a vector or a view the indices of elements are
found; where there is no keyed look-up, nothing is. A string has its characters at their indices, and
`contains` denies all of them. -/
theorem presence_as_looked_up (coll key : Value) :
    ((∀ s, coll ≠ .str s) → ∀ n w w',
      (coll.contains key n w = .ok true w' ↔ ∃ v, ∀ d, coll.get key d n w = .ok v w') ∧
      (coll.contains key n w = .ok false w' ↔ ∀ d, coll.get key d n w = .ok d w') ∧
      ∀ e, coll.contains key n w = .error e w' ↔ ∀ d, coll.get key d n w = .error e w') ∧
    (∀ xs, coll.Shows xs → coll.contains key = pure (key.index?.bind (xs[·]?)).isSome) ∧
    (coll.hasLookup = false → coll.contains key = pure false ∧ ∀ d, coll.get key d = pure d) ∧
    ∀ s, coll = .str s → coll.contains key = pure false ∧
      ∀ d, coll.get key d = pure (((key.index?.bind (s.toList[·]?)).map .char).getD d) := by
  refine ⟨fun hs n w w' => ⟨Value.contains_true_iff hs, Value.contains_false_iff hs,
    fun e => Value.contains_error_iff hs⟩, fun xs h => h.contains_eq key, fun h => ⟨?_, fun d => ?_⟩,
    ?_⟩
  · have hs : ∀ s, coll ≠ .str s := by
      rintro s rfl
      cases h
    rw [Value.contains_eq hs, Value.lookup?_eq_none h, pure_bind]
    rfl
  · rw [Value.get_eq, Value.lookup?_eq_none h, pure_bind]
    rfl
  · rintro s rfl
    exact ⟨rfl, fun _ => rfl⟩

/-- A view of the last two of three elements: its second place is found, the third one is not. -/
theorem presence_as_looked_up_view :
    (∃ v, ∀ d, (Value.view ⟨#[.int 1, .int 2, .int 3], 1, 3⟩).get (.int 1) d 0 {} = .ok v {}) ∧
    ∀ d, (Value.view ⟨#[.int 1, .int 2, .int 3], 1, 3⟩).get (.int 2) d 0 {} = .ok d {} :=
  have agree (i : Int64) :=
    (presence_as_looked_up (.view ⟨#[.int 1, .int 2, .int 3], 1, 3⟩) (.int i)).1 nofun 0 {} {}
  ⟨(agree 1).1.1 rfl, (agree 2).2.1.1 rfl⟩

/-- The first character of a string is looked up and not contained. -/
theorem character_not_contained :
    ¬∀ coll key : Value, ∀ n w w', coll.contains key n w = .ok true w' ↔
      ∃ v, ∀ d, coll.get key d n w = .ok v w' := by
  intro h
  have hc : (Value.str "abc").contains (.int 0) 0 {} = .ok false {} := rfl
  have ht := (h (.str "abc") (.int 0) 0 {} {}).2 ⟨.char 'a', fun _ => rfl⟩
  cases hc.symm.trans ht

end LispCore
