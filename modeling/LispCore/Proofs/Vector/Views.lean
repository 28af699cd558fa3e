import LispCore.Print.Debug
import LispCore.Proofs.Vector.Ranges
/-!
Views stand for the vectors of their elements. All that a vector or a view is asked for depends on
its elements alone, so those of the same elements act alike (`Shows.actsAs`). Whatever is made from
vectors by ranges, appends, replacements and pops is a vector or a proper view (`Sliced.shows`).
-/

namespace LispCore

variable {a : Value} {xs : List Value}

namespace Value

/-! ### Reading -/

theorem Shows.count_eq (h : a.Shows xs) : a.count = pure xs.length := by
  cases h with
  | vector items => rfl
  | view h => rw [View.length_toList h]; rfl

theorem Shows.get_eq (h : a.Shows xs) (key default : Value) :
    a.get key default = pure ((key.index?.bind (xs[·]?)).getD default) := by
  cases h with
  | vector items => simp only [get, Vec.valAt?, Array.getElem?_toList]; rfl
  | @view v h => simp only [get, View.valAt?, ← v.get?_eq]; rfl

theorem Shows.contains_eq (h : a.Shows xs) (key : Value) :
    a.contains key = pure (key.index?.bind (xs[·]?)).isSome := by
  cases h with
  | vector items => simp only [contains, Vec.valAt?, Array.getElem?_toList]; rfl
  | @view v h => simp only [contains, View.valAt?, ← v.get?_eq]; rfl

theorem Shows.elementAt_eq (h : a.Shows xs) (i : Nat) : a.elementAt i = pure xs[i]? := by
  cases h with
  | vector items => rw [elementAt, Array.getElem?_toList]
  | @view v h => rw [elementAt, v.get?_eq]

theorem Shows.nth_eq (h : a.Shows xs) (index : Int64) : a.nth index =
    match (indexOf? index).bind (xs[·]?) with
    | some x => pure x
    | none => Act.fail (.indexOutOfBounds index xs.length) := by
  have hnil : a ≠ .nil := by
    cases h <;> nofun
  simp only [nth, h.knownCount?, Option.getD_some]
  cases indexOf? index with
  | none => rfl
  | some i =>
    cases hx : xs[i]? <;> simp only [h.elementAt_eq, pure_bind, Option.bind_some, hx]

theorem Shows.peek_eq (h : a.Shows xs) : a.peek =
    match xs.getLast? with
    | some x => pure x
    | none => Act.fail (.emptyCollection "peek" "vector") := by
  cases h with
  | vector items =>
    rw [peek, Vec.peek, Array.getLast?_toList]
    cases items.back? <;> rfl
  | @view v h =>
    rw [peek, View.peek, View.last?_eq h]
    cases v.toList.getLast? <;> rfl

theorem Shows.debug_eq (h : a.Shows xs) : a.debug = Print.debugList xs := by
  cases h <;> rfl

/-! ### Comparing, hashing and rendering -/

/-- Comparing walks both values, also where two vectors are compared without a walk. -/
theorem Shows.same_eq (h : a.Shows xs) (y : Value) {n : Nat} (hn : xs.length < n) (w : World) :
    a.same y n w =
      (if y.isSequential then sameItems (sameAt (n - 1)) a y else pure false) n w := by
  obtain ⟨depth, rfl⟩ := Nat.exists_eq_add_of_lt (Nat.zero_lt_of_lt hn)
  rw [Nat.zero_add, Nat.add_sub_cancel]
  show sameAt (depth + 1) a y (depth + 1) w = _
  rw [Nat.zero_add] at hn
  cases h with
  | view h => cases y <;> rfl
  | vector items =>
    cases y with
    | vector items' =>
      have hitems : sameItems (sameAt depth) (.vector items) (.vector items') (depth + 1) w = _ :=
        Holds.sameItems_eq rfl rfl (Shows.vector items).holds (Shows.vector items').holds hn
      exact hitems.symm
    | _ => rfl

theorem Shows.writeAt_congr {b : Value} (o : RenderOptions) (h : a.Shows xs) (h' : b.Shows xs) :
    ∀ depth, Print.writeAt o depth a = Print.writeAt o depth b
  | 0 => rfl
  | depth + 1 => by
    have hwrite {c : Value} (hc : c.Shows xs) : Print.writeAt o (depth + 1) c =
        Print.writeSequence (Print.writeAt o depth) o.limit "[" "]" c := by
      cases hc <;> rfl
    rw [hwrite h, hwrite h', h.holds.writeSequence_congr _ _ _ _ h'.holds]

/-! ### Acting alike -/

/-- Both actions only end, with vectors or proper views of the same elements or with one error. -/
def EndAlike (x y : Act Value) : Prop := ∃ r, Ends x r ∧ Ends y r

/-- Whatever is asked of the one is answered by the other: the operations that take a vector or view
first end alike. -/
structure ActsAs (a b : Value) : Prop where
  /-- Iterating gives the same elements. -/
  elements : ∃ xs, a.Shows xs ∧ b.Shows xs
  count : a.count = b.count
  get (key default : Value) : a.get key default = b.get key default
  contains (key : Value) : a.contains key = b.contains key
  nth (index : Int64) : a.nth index = b.nth index
  assoc (key x : Value) : EndAlike (a.assoc key x) (b.assoc key x)
  conj (x : Value) : EndAlike (a.conj x) (b.conj x)
  peek : a.peek = b.peek
  pop : EndAlike a.pop b.pop
  subvec (start stop : Int64) : EndAlike (a.subvec start stop) (b.subvec start stop)
  /-- The sequences go through the same elements. -/
  seq : ∃ xs, a.Holds xs ∧ b.Holds xs
  pulls (n : Nat) : (Walk.of a >>= Walk.pulls n) = (Walk.of b >>= Walk.pulls n)
  toArray : a.toArray = b.toArray
  reduce (init : Value) (step : Step) : a.reduce init step = b.reduce init step
  /-- Comparing walks a view where it need not walk a vector, so it takes more budget. -/
  same : ∃ N, ∀ y, ∀ n ≥ N, ∀ w, a.same y n w = b.same y n w
  feed (digest : Array Token → UInt64) : a.feed digest = b.feed digest
  hash : a.hash = b.hash
  render (o : RenderOptions) (sink : Sink) : a.render o sink = b.render o sink
  debug : a.debug = b.debug

/-- Vectors and views of the same elements act alike. -/
theorem Shows.actsAs {b : Value} (h : a.Shows xs) (h' : b.Shows xs) : ActsAs a b := by
  have hfeed (digest : Array Token → UInt64) : a.feed digest = b.feed digest := by
    simp only [Value.feed, h.holds.feedAt_congr digest h.isSequential h'.isSequential h'.holds]
  have hcount : a.knownCount? = b.knownCount? := h.knownCount?.trans h'.knownCount?.symm
  exact {
    elements := ⟨xs, h, h'⟩
    count := h.count_eq.trans h'.count_eq.symm
    get key default := (h.get_eq key default).trans (h'.get_eq key default).symm
    contains key := (h.contains_eq key).trans (h'.contains_eq key).symm
    nth index := (h.nth_eq index).trans (h'.nth_eq index).symm
    assoc key x := ⟨_, ends_assoc h key x, ends_assoc h' key x⟩
    conj x := ⟨_, ends_conj h x, ends_conj h' x⟩
    peek := h.peek_eq.trans h'.peek_eq.symm
    pop := ⟨_, ends_pop h, ends_pop h'⟩
    subvec start stop := ⟨_, ends_subvec h start stop, ends_subvec h' start stop⟩
    seq := ⟨xs, h.holds, h'.holds⟩
    pulls := h.holds.pulls_congr h'.holds
    toArray := h.holds.toArray_congr h'.holds
    reduce := h.holds.reduce_congr h'.holds
    same := ⟨xs.length + 1, fun y n hn w => by
      rw [h.same_eq y hn, h'.same_eq y hn, h.holds.sameItems_congr hcount h'.holds]⟩
    feed := hfeed
    hash := by rw [Value.hash, Value.hash, hfeed]
    render o sink := by simp only [Value.render, Print.write, h.writeAt_congr o h']
    debug := h.debug_eq.trans h'.debug_eq.symm }

end Value

/-! ### Views that can be made -/

/-- Made from vectors by taking ranges, nested or not, appending, replacing and popping. -/
inductive Value.Sliced : Value → Prop
  | vector (items : Array Value) : Sliced (.vector items)
  | subvec {v r : Value} {start stop : Int64} {n : Nat} {w w' : World} (h : Sliced v)
      (hr : v.subvec start stop n w = .ok r w') : Sliced r
  | range {items : Array Value} {start stop : Nat} {r : Value}
      (hr : View.ofRange items start stop = .ok r) : Sliced r
  | narrow {v : View Value} {start stop : Nat} {r : Value} (h : Sliced (.view v))
      (hr : v.subvec start stop = .ok r) : Sliced r
  | conj {v x r : Value} {n : Nat} {w w' : World} (h : Sliced v) (hr : v.conj x n w = .ok r w') :
      Sliced r
  | assoc {v key x r : Value} {n : Nat} {w w' : World} (h : Sliced v)
      (hr : v.assoc key x n w = .ok r w') : Sliced r
  | assocN {v t : View Value} {i : Nat} {x : Value} (h : Sliced (.view v))
      (hr : v.assocN i x = .ok t) : Sliced (.view t)
  | pop {v r : Value} {n : Nat} {w w' : World} (h : Sliced v) (hr : v.pop n w = .ok r w') : Sliced r

namespace Value

theorem Ends.shows {x : Act Value} {r : Except Error (List Value)} {b : Value} {n : Nat}
    {w w' : World} (h : Ends x r) (hx : x n w = .ok b w') : ∃ xs, r = .ok xs ∧ b.Shows xs := by
  cases h with
  | ok he hb =>
    rw [he] at hx
    cases hx
    exact ⟨_, rfl, hb⟩
  | error he =>
    rw [he] at hx
    cases hx

theorem le_of_ofRange {items : Array Value} {start stop : Nat} {r : Value}
    (h : View.ofRange items start stop = .ok r) : start ≤ stop ∧ stop ≤ items.size := by
  rw [View.ofRange] at h
  split at h
  · cases h
  · split at h
    · cases h
    · omega

/-- Whatever can be made is a vector or a proper view. -/
theorem Sliced.shows {v : Value} (h : Sliced v) : ∃ xs, v.Shows xs := by
  induction h with
  | vector items => exact ⟨_, .vector items⟩
  | subvec _ hr ih =>
    obtain ⟨xs, hv⟩ := ih
    obtain ⟨ys, -, hr⟩ := (ends_subvec hv _ _).shows hr
    exact ⟨ys, hr⟩
  | range hr =>
    obtain ⟨hle, hstop⟩ := le_of_ofRange hr
    obtain ⟨b, hok, hb, -⟩ := shows_ofRange hle hstop
    rw [hok] at hr
    cases hr
    exact ⟨_, hb⟩
  | @narrow v start stop r _ hr ih =>
    obtain ⟨xs, hv⟩ := ih
    cases hv with
    | view hv =>
      by_cases hin : stop < start ∨ v.count < stop
      · rw [View.subvec, if_pos hin] at hr
        cases hr
      · obtain ⟨b, hok, hb, -⟩ := shows_subvec hv (by omega : start ≤ stop) (by omega)
        rw [hok] at hr
        cases hr
        exact ⟨_, hb⟩
  | conj _ hr ih =>
    obtain ⟨xs, hv⟩ := ih
    obtain ⟨ys, -, hr⟩ := (ends_conj hv _).shows hr
    exact ⟨ys, hr⟩
  | assoc _ hr ih =>
    obtain ⟨xs, hv⟩ := ih
    obtain ⟨ys, -, hr⟩ := (ends_assoc hv _ _).shows hr
    exact ⟨ys, hr⟩
  | @assocN v t i x _ hr ih =>
    obtain ⟨xs, hv⟩ := ih
    cases hv with
    | view hv =>
      rcases Nat.lt_trichotomy i v.count with hi | rfl | hi
      · obtain ⟨t', hok, ht, -⟩ := View.assocN_spec hv hi x
        rw [hok] at hr
        cases hr
        exact ⟨_, .view ht⟩
      · obtain ⟨t', hok, ht, -⟩ := View.conj_spec hv x
        rw [View.assocN, if_pos rfl, hok] at hr
        cases hr
        exact ⟨_, .view ht⟩
      · rw [View.assocN, if_neg (Nat.ne_of_gt hi), if_neg (Nat.lt_asymm hi)] at hr
        cases hr
  | pop _ hr ih =>
    obtain ⟨xs, hv⟩ := ih
    obtain ⟨ys, -, hr⟩ := (ends_pop hv).shows hr
    exact ⟨ys, hr⟩

/-- A range of a range is one range, counted from the start of the first. -/
theorem subvec_subvec (h : a.Shows xs) {i j k l : Int64} {n : Nat} {w w₁ w₂ : World} {u t : Value}
    (hu : a.subvec i j n w = .ok u w₁) (ht : u.subvec k l n w₁ = .ok t w₂) :
    ∃ t' ys, a.subvec (i + k) (i + l) = pure t' ∧ t.Shows ys ∧ t'.Shows ys := by
  obtain ⟨us, hus, hshows⟩ := (ends_subvec h i j).shows hu
  obtain ⟨ts, hts, htshows⟩ := (ends_subvec hshows k l).shows ht
  cases hr : checkRange i j xs.length with
  | error e =>
    rw [hr] at hus
    cases hus
  | ok r =>
    rw [hr] at hus
    cases hus
    cases hr' : checkRange k l ((xs.take r.2).drop r.1).length with
    | error e =>
      rw [hr'] at hts
      cases hts
    | ok q =>
      rw [hr'] at hts
      cases hts
      obtain ⟨hi, hj, hle, hlen⟩ := checkRange_ok hr
      obtain ⟨hk, hl, hle', hlen'⟩ := checkRange_ok hr'
      rw [List.length_drop, List.length_take, Nat.min_eq_left hlen] at hlen'
      have hbound : r.2 < 2 ^ 63 := by
        have := Int64.toInt_lt j
        rw [indexOf?_eq_some] at hj
        omega
      have hsum := checkRange_eq_ok (indexOf?_add hi hk (by omega)) (indexOf?_add hi hl (by omega))
        (Nat.add_le_add_left hle' r.1) (by omega : r.1 + q.2 ≤ xs.length)
      have hsub := ends_subvec h (i + k) (i + l)
      have hlist : (xs.take (r.1 + q.2)).drop (r.1 + q.1) =
          (((xs.take r.2).drop r.1).take q.2).drop q.1 := by
        rw [List.take_drop, List.take_take, List.drop_drop, Nat.min_eq_left (by omega)]
      rw [hsum] at hsub
      cases hsub with
      | ok hx hb =>
        have ht : t.Shows ((((xs.take r.2).drop r.1).take q.2).drop q.1) := htshows
        rw [← hlist] at ht
        exact ⟨_, _, hx, ht, hb⟩

/-- A range without elements is the empty vector. -/
theorem subvec_empty (h : a.Shows xs) (i : Int64) : a.subvec i i =
    Act.ofExcept ((checkRange i i xs.length).map fun _ => .vector #[]) := by
  cases hr : checkRange i i xs.length with
  | error e =>
    have hsub := ends_subvec h i i
    rw [hr] at hsub
    cases hsub with
    | error hx => exact hx
  | ok r =>
    obtain ⟨hi, hi', hle, hlen⟩ := checkRange_ok hr
    rw [hi] at hi'
    have heq : r.1 = r.2 := Option.some.inj hi'
    cases h with
    | vector items =>
      obtain ⟨b, hok, -, hnil⟩ := shows_ofRange hle hlen
      show Act.ofExcept (checkRange i i items.size >>= _) = _
      rw [← Array.length_toList, hr]
      show Act.ofExcept (View.ofRange items r.1 r.2) = _
      rw [hok, hnil heq]
      rfl
    | @view v h =>
      rw [View.length_toList h] at hr hlen
      obtain ⟨b, hok, -, hnil⟩ := shows_subvec h hle hlen
      show Act.ofExcept (checkRange i i v.count >>= _) = _
      rw [hr]
      show Act.ofExcept (v.subvec r.1 r.2) = _
      rw [hok, hnil heq]
      rfl

end Value

/-- A view that can be made from vectors is proper and acts as the vector of its elements; what is
written through it is seen next to its own elements only. A range of a range is one range, and an
empty range is the empty vector. -/
theorem views_act_as_vectors {v : Value} (h : v.Sliced) :
    (∀ s, v = .view s → s.WellFormed ∧ v.ActsAs (.vector s.toArray) ∧
      (∀ x, ∃ t, s.conj x = .ok t ∧ t.toList = s.toList ++ [x]) ∧
      (∀ i < s.count, ∀ x, ∃ t, s.assocN i x = .ok t ∧ t.toList = s.toList.set i x) ∧
      ∀ i ≤ s.count, s.subvec i i = .ok (.vector #[])) ∧
    (∀ i j k l n w w₁ w₂ u t, v.subvec i j n w = .ok u w₁ → u.subvec k l n w₁ = .ok t w₂ →
      ∃ t' ys, v.subvec (i + k) (i + l) = pure t' ∧ t.Shows ys ∧ t'.Shows ys) ∧
    ∃ count, v.count = pure count ∧ ∀ i, v.subvec i i =
      Act.ofExcept ((Value.checkRange i i count).map fun _ => .vector #[]) := by
  obtain ⟨xs, hv⟩ := h.shows
  refine ⟨?_, fun i j k l n w w₁ w₂ u t hu ht => Value.subvec_subvec hv hu ht,
    xs.length, hv.count_eq, Value.subvec_empty hv⟩
  rintro s rfl
  cases hv with
  | view hs =>
    refine ⟨hs, (Value.Shows.view hs).actsAs ?_, fun x => ?_, fun i hi x => ?_, fun i hi => ?_⟩
    · exact s.toList_toArray ▸ .vector s.toArray
    · obtain ⟨t, hok, -, hl⟩ := View.conj_spec hs x
      exact ⟨t, hok, hl⟩
    · obtain ⟨t, hok, -, hl⟩ := View.assocN_spec hs hi x
      exact ⟨t, hok, hl⟩
    · obtain ⟨b, hok, -, hnil⟩ := Value.shows_subvec hs (Nat.le_refl i) hi
      rw [hok, hnil rfl]

/-- The second and third of four elements, as a range of a range. -/
def innerTwo : View Value := ⟨#[.int 0, .int 1, .int 2, .int 3], 1, 3⟩

/-- The inner view ends before its backing does, and an append to it does not bring the last element
of the backing back. -/
theorem views_act_as_vectors_inner : innerTwo.WellFormed ∧
    (Value.view innerTwo).ActsAs (.vector #[.int 1, .int 2]) ∧
    ∃ t, innerTwo.conj (.int 9) = .ok t ∧ t.toList = [.int 1, .int 2, .int 9] := by
  have hrange : View.ofRange innerTwo.backing 0 3 = .ok (.view ⟨innerTwo.backing, 0, 3⟩) := rfl
  have hnarrow : View.subvec ⟨innerTwo.backing, 0, 3⟩ 1 3 = .ok (.view innerTwo) := rfl
  have hinner : Value.Sliced (.view innerTwo) := .narrow (.range hrange) hnarrow
  obtain ⟨hview, -, -⟩ := views_act_as_vectors hinner
  obtain ⟨hs, hacts, hconj, -, -⟩ := hview innerTwo rfl
  exact ⟨hs, hacts, hconj (.int 9)⟩

end LispCore
