import LispCore.Proofs.Collection.Stacks
/-!
Indices and bounds that lie outside. `Act.Within` says of a call that it depends on its arguments alone
whether it ends with a value, and that it otherwise tells an offending argument and a count. Looking up an
element, putting one at an index and taking a range are such calls, on lists, vectors and all views, and
the count that they tell is that of the collection (`out_of_bounds_told`); only a negative index to put an
element at is told with the count 0 (`negative_index_miscounted`).
-/

namespace LispCore

/-- Ends without any effect: with a value where the arguments are inside, and elsewhere with the error that
tells an offending argument and the count. -/
structure Act.Within (x : Act Value) (inside : Prop) (offends : Int64 → Prop) (count : Nat) : Prop where
  ok : inside → ∃ v, x = pure v
  error : ¬inside → ∃ k, offends k ∧ x = Act.fail (.indexOutOfBounds k count)

namespace Value

variable {c : Value} {g : Growth} {ts xs : List Value} {i start stop : Int64}

/-! ### Elements -/

/-- Skipping elements of a sequence that holds them itself leads to the element at that place. -/
theorem skip_traverses {o : Option Seq} (h : Traverses o xs) :
    ∀ i, ∃ s, Seq.skip? i o = pure s ∧ s.map Seq.first = xs[i]? := by
  induction h with
  | done => exact fun i => ⟨none, by cases i <;> rfl, rfl⟩
  | @next s o xs hn _ ih =>
    intro i
    cases i with
    | zero => exact ⟨some s, rfl, rfl⟩
    | succ i =>
      obtain ⟨t, ht, hfirst⟩ := ih i
      exact ⟨t, by rw [Seq.skip?, hn, pure_bind, ht], hfirst⟩

/-- The element at an index is the one at that place from the front. -/
theorem Stacks.nth_eq (h : c.Stacks g ts) (index : Int64) : c.nth index =
    match (indexOf? index).bind ((g.inOrder ts)[·]?) with
    | some x => pure x
    | none => Act.fail (.indexOutOfBounds index ts.length) := by
  cases h with
  | list l =>
    have hcount : (Value.list l).knownCount?.getD 0 = l.toList.length := l.count_eq
    obtain ⟨o, ho, ht⟩ := holds_list l
    rw [nth, hcount]
    cases indexOf? index with
    | none => rfl
    | some i =>
      obtain ⟨s, hs, hfirst⟩ := skip_traverses ht i
      have helement : (Value.list l).elementAt i = pure l.toList[i]? := by
        rw [elementAt, ho, pure_bind, hs, pure_bind, hfirst]
      cases hx : l.toList[i]? with
      | none => simp only [helement, hx, pure_bind, Option.bind_some, Growth.inOrder]
      | some x => simp only [helement, hx, pure_bind, Option.bind_some, Growth.inOrder]
  | @shows v xs h =>
    rw [Growth.inOrder, List.reverse_reverse, List.length_reverse]
    exact h.nth_eq index

theorem Stacks.length_inOrder (g : Growth) (ts : List Value) : (g.inOrder ts).length = ts.length := by
  cases g with
  | front => rfl
  | back => exact List.length_reverse

theorem Stacks.within_nth (h : c.Stacks g ts) (i : Int64) :
    (c.nth i).Within (0 ≤ i.toInt ∧ i.toInt < ts.length) (· = i) ts.length := by
  rw [h.nth_eq]
  cases hi : indexOf? i with
  | none =>
    refine ⟨fun hin => ?_, fun _ => ⟨i, rfl, rfl⟩⟩
    have hsome := indexOf?_eq_some.mpr (Int.toNat_of_nonneg hin.1).symm
    rw [hi] at hsome
    cases hsome
  | some j =>
    rw [indexOf?_eq_some] at hi
    rw [Option.bind_some]
    by_cases hj : j < ts.length
    · rw [List.getElem?_eq_getElem (by rwa [length_inOrder])]
      exact ⟨fun _ => ⟨_, rfl⟩, fun hout => absurd ⟨by omega, by omega⟩ hout⟩
    · rw [List.getElem?_eq_none (by rw [length_inOrder]; omega)]
      exact ⟨fun hin => by omega, fun _ => ⟨i, rfl, rfl⟩⟩

/-! ### Updates and ranges -/

theorem Ends.within {x : Act Value} {r : Except Error (List Value)} {inside : Prop}
    {offends : Int64 → Prop} {count : Nat} (h : Ends x r) (hok : inside → ∃ ys, r = .ok ys)
    (herror : ¬inside → ∃ k, offends k ∧ r = .error (.indexOutOfBounds k count)) :
    x.Within inside offends count where
  ok hin := by
    obtain ⟨ys, rfl⟩ := hok hin
    cases h with
    | ok hx _ => exact ⟨_, hx⟩
  error hout := by
    obtain ⟨k, hk, rfl⟩ := herror hout
    cases h with
    | error hx => exact ⟨k, hk, hx⟩

/-- An element can be put at the index of another one and behind the last. A negative index is refused
before the count is known. -/
theorem Shows.within_assoc (h : c.Shows xs) (i : Int64) (x : Value) :
    (c.assoc (.int i) x).Within (0 ≤ i.toInt ∧ i.toInt ≤ xs.length) (· = i)
      (if i.toInt < 0 then 0 else xs.length) := by
  have hends := ends_assoc h (.int i) x
  rw [Vec.assoc, toIndex] at hends
  cases hi : indexOf? i with
  | none =>
    have hneg : i.toInt < 0 := by
      by_contra hpos
      have hsome := indexOf?_eq_some.mpr (Int.toNat_of_nonneg (Int.not_lt.mp hpos)).symm
      rw [hi] at hsome
      cases hsome
    rw [hi] at hends
    rw [if_pos hneg]
    exact hends.within (fun hin => by omega) fun _ => ⟨i, rfl, rfl⟩
  | some j =>
    rw [hi] at hends
    rw [indexOf?_eq_some] at hi
    rw [if_neg (by omega)]
    have hends : Ends (c.assoc (.int i) x) ((Vec.assocN xs.toArray j x).map Array.toList) := hends
    have hsize : xs.toArray.size = xs.length := List.size_toArray
    by_cases hj : j ≤ xs.length
    · obtain ⟨items, hok, -⟩ := Vec.assocN_spec (hsize ▸ hj) x
      rw [hok] at hends
      exact hends.within (fun _ => ⟨_, rfl⟩) fun hout => absurd ⟨by omega, by omega⟩ hout
    · have hindex : Int64.ofNat j = i := by
        rw [← Int64.ofInt_toInt i, hi]
        exact (Int64.ofInt_eq_ofNat ..).symm
      rw [Vec.assocN, if_neg (by omega), dif_neg (by omega), Error.outOfRange, hindex, hsize] at hends
      exact hends.within (fun hin => by omega) fun _ => ⟨i, rfl, rfl⟩

/-- The bounds of a range are in order and within the count, or the check tells one that is not: the start
when it is negative, the end when it lies before the start or behind the count. -/
theorem checkRange_cases (start stop : Int64) (count : Nat) :
    (0 ≤ start.toInt ∧ start.toInt ≤ stop.toInt ∧ stop.toInt ≤ count →
      ∃ r, checkRange start stop count = .ok r) ∧
    (¬(0 ≤ start.toInt ∧ start.toInt ≤ stop.toInt ∧ stop.toInt ≤ count) →
      ∃ k, (k = start ∧ start.toInt < 0 ∨ k = stop ∧ (stop.toInt < start.toInt ∨ count < stop.toInt)) ∧
        checkRange start stop count = .error (.indexOutOfBounds k count)) := by
  refine ⟨fun ⟨hstart, hle, hcount⟩ => ?_, fun hout => ?_⟩
  · have hfirst := indexOf?_eq_some.mpr (Int.toNat_of_nonneg hstart).symm
    have hlast := indexOf?_eq_some.mpr (Int.toNat_of_nonneg (Int.le_trans hstart hle)).symm
    exact ⟨_, checkRange_eq_ok hfirst hlast (by omega) (by omega)⟩
  · rw [checkRange]
    by_cases hlt : stop.toInt < start.toInt
    · exact ⟨stop, .inr ⟨rfl, .inl hlt⟩, if_pos (Int64.lt_iff_toInt_lt.mpr hlt)⟩
    · rw [if_neg fun h => hlt (Int64.lt_iff_toInt_lt.mp h)]
      by_cases hneg : start.toInt < 0
      · have hnone : indexOf? start = none := if_pos (Int64.lt_iff_toInt_lt.mpr hneg)
        rw [hnone]
        exact ⟨start, .inl ⟨rfl, hneg⟩, rfl⟩
      · -- both are indices, so the end is what lies outside
        have hfirst := indexOf?_eq_some.mpr (Int.toNat_of_nonneg (Int.not_lt.mp hneg)).symm
        have hlast := indexOf?_eq_some.mpr
          (Int.toNat_of_nonneg (Int.le_trans (Int.not_lt.mp hneg) (Int.not_lt.mp hlt))).symm
        have hcount : ¬stop.toInt.toNat ≤ count := by omega
        rw [hfirst, hlast]
        exact ⟨stop, .inr ⟨rfl, .inr (by omega)⟩, if_neg hcount⟩

theorem Shows.within_subvec (h : c.Shows xs) (start stop : Int64) :
    (c.subvec start stop).Within
      (0 ≤ start.toInt ∧ start.toInt ≤ stop.toInt ∧ stop.toInt ≤ xs.length)
      (fun k => k = start ∧ start.toInt < 0 ∨
        k = stop ∧ (stop.toInt < start.toInt ∨ xs.length < stop.toInt)) xs.length := by
  obtain ⟨hin, hout⟩ := checkRange_cases start stop xs.length
  refine (ends_subvec h start stop).within (fun h => ?_) fun h => ?_
  · obtain ⟨r, hr⟩ := hin h
    exact ⟨_, by rw [hr]; rfl⟩
  · obtain ⟨k, hk, hr⟩ := hout h
    exact ⟨k, hk, by rw [hr]; rfl⟩

end Value

/-- Indices and bounds are refused exactly where they lie outside, and the error tells one that does and the
count of the collection. There is an element at `i` in a list, a vector or a view just for
`0 ≤ i < count`. In a vector or a view, however it was made, an element can be put at `i` just for
`0 ≤ i ≤ count`, and a range taken just for `0 ≤ start ≤ stop ≤ count`: otherwise the start is told when it is
negative, and the end when it lies before the start or behind the count. The count that is told is that of the
collection each time but one: a negative index to put an element at is told with the count 0. -/
theorem out_of_bounds_told {c : Value} {g : Growth} (h : c.IsStack g) :
    ∃ count : Nat, c.count = pure count ∧
      (∀ i, (c.nth i).Within (0 ≤ i.toInt ∧ i.toInt < count) (· = i) count) ∧
      (g = .back →
        (∀ i x, (c.assoc (.int i) x).Within (0 ≤ i.toInt ∧ i.toInt ≤ count) (· = i)
          (if i.toInt < 0 then 0 else count)) ∧
        ∀ start stop, (c.subvec start stop).Within
          (0 ≤ start.toInt ∧ start.toInt ≤ stop.toInt ∧ stop.toInt ≤ count)
          (fun k => k = start ∧ start.toInt < 0 ∨
            k = stop ∧ (stop.toInt < start.toInt ∨ count < stop.toInt)) count) := by
  obtain ⟨ts, hts⟩ := h.stacks
  refine ⟨ts.length, hts.count_eq, hts.within_nth, ?_⟩
  rintro rfl
  cases hts with
  | @shows v xs hxs =>
    rw [List.length_reverse]
    exact ⟨hxs.within_assoc, hxs.within_subvec⟩

/-- A view of two elements behind which its backing goes on: the third place is outside, and so is a range
that ends there. -/
theorem out_of_bounds_told_inner : (Value.view innerTwo).IsStack .back ∧
    (Value.view innerTwo).nth 2 = Act.fail (.indexOutOfBounds 2 2) ∧
    (Value.view innerTwo).subvec 1 3 = Act.fail (.indexOutOfBounds 3 2) ∧
    (∀ x, ∃ r, (Value.view innerTwo).assoc (.int 2) x = pure r) ∧
    ∀ x, (Value.view innerTwo).assoc (.int 3) x = Act.fail (.indexOutOfBounds 3 2) := by
  have hrange : View.ofRange innerTwo.backing 0 3 = .ok (.view ⟨innerTwo.backing, 0, 3⟩) := rfl
  have hnarrow : View.subvec ⟨innerTwo.backing, 0, 3⟩ 1 3 = .ok (.view innerTwo) := rfl
  have hs : (Value.view innerTwo).IsStack .back := .sliced (.narrow (.range hrange) hnarrow)
  obtain ⟨count, hcount, hnth, hback⟩ := out_of_bounds_told hs
  obtain ⟨hassoc, hsubvec⟩ := hback rfl
  obtain rfl : count = 2 := (EStateM.Result.ok.inj (congrFun (congrFun hcount 0) {})).1.symm
  refine ⟨hs, ?_, ?_, fun x => (hassoc 2 x).ok (by decide), fun x => ?_⟩
  · obtain ⟨_, rfl, he⟩ := (hnth 2).error (by decide)
    exact he
  · obtain ⟨_, ⟨-, hneg⟩ | ⟨rfl, -⟩, he⟩ := (hsubvec 1 3).error (by decide)
    · exact absurd hneg (by decide)
    · exact he
  · obtain ⟨_, rfl, he⟩ := (hassoc 3 x).error (by decide)
    exact he

/-- The error for an element that is put at the index -1 of a vector of two elements tells the count 0. -/
theorem negative_index_miscounted :
    ¬∀ (c : Value) (i : Int64) (x : Value) (count k : Nat) (index : Int64), c.Sliced →
      c.count = pure count → c.assoc (.int i) x = Act.fail (.indexOutOfBounds index k) → k = count := by
  intro h
  have hk := h (.vector #[.int 1, .int 2]) (-1) .nil 2 0 (-1) (.vector _) rfl rfl
  exact absurd hk (by decide)

end LispCore
