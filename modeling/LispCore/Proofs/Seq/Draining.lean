import LispCore.Proofs.Seq.Folds
/-!
Draining a value. A walk asks for what comes next before it hands out an element, so it knows of a
failure one pull early, and hands it out after the element, once (`Walked.pulls_ends`). Collecting the
elements gives them or the error, and so does putting them into an array, which leaves a longer array
marked with nil behind the last element (`drained_as_walked`). It makes no difference what else is
realized between two pulls (`Spells.hands`).
-/

namespace LispCore

variable {n m k : Nat} {w w₁ w' : World} {o : Option Seq} {s : Seq} {ss : List Seq} {r : Realized}
  {err : Option Error} {x : Value} {xs : List Value} {dest : Array Value}

/-- What is pulled from a walk one after the other: the elements, and the error of a walk that fails. -/
def deliveries (xs : List Value) (err : Option Error) : List (Except Error Value) :=
  xs.map .ok ++ (err.map .error).toList

/-- The outcomes of as many pulls, of which those behind the last item find nothing. -/
def pulledFrom (items : List (Except Error Value)) (k : Nat) : List (Option (Except Error Value)) :=
  (List.range k).map fun i => items[i]?

/-- Whenever it is pulled, with budget enough, the walk hands out these items one after the other, and
from then on nothing. -/
def Walk.Hands (least : Nat) : List (Except Error Value) → Walk → World → Prop
  | [], walk, _ => walk.pull = pure (none, walk)
  | item :: items, walk, w => ∀ m v, least ≤ m → Evolves w v → ∃ rest v',
      walk.pull m v = .ok (some item, rest) v' ∧ Evolves v v' ∧ Hands least items rest v'

/-- The array is the elements alone when they do not fit into the one that was passed. Otherwise they
fill the first slots of that one, the slot behind them is nil, and the later slots are as they were. -/
structure Filled (dest : Array Value) (xs : List Value) (out : Array Value) : Prop where
  alone (h : dest.size < xs.length) : out = xs.toArray
  size (h : xs.length ≤ dest.size) : out.size = dest.size
  elements (i : Nat) (h : i < xs.length) : out[i]? = xs[i]?
  marked (h : xs.length < dest.size) : out[xs.length]? = some .nil
  kept (i : Nat) (h : xs.length < i) (hi : i < dest.size) : out[i]? = dest[i]?

/-- The value is drained as these elements, behind which there may be an error. -/
structure Value.DrainedAs (x : Value) (n : Nat) (w : World) (xs : List Value) (err : Option Error) :
    Prop where
  pulled :
    (∃ e w₁, x.seq? n w = .error (.error e) w₁ ∧ Walk.of x n w = .error (.error e) w₁ ∧
      xs = [] ∧ err = some e) ∨
    ∃ o w₁ walk, x.seq? n w = .ok o w₁ ∧ Walk.of x n w = .ok walk w₁ ∧
      ∀ k, (walk.pulls k).Ends n w₁ (.ok (pulledFrom (deliveries xs err) k))
  toArray : x.toArray.Ends n w (atEnd err xs.toArray)
  intoArray (dest : Array Value) :
    ∃ out, Filled dest xs out ∧ (x.intoArray dest).Ends n w (atEnd err out)

/-! ### Pulls -/

theorem pulledFrom_nil (k : Nat) : pulledFrom [] k = List.replicate k none := by
  simp [pulledFrom]

theorem pulledFrom_cons (item : Except Error Value) (items : List (Except Error Value)) (k : Nat) :
    pulledFrom (item :: items) (k + 1) = some item :: pulledFrom items k := by
  rw [pulledFrom, List.range_succ_eq_map, List.map_cons, List.map_map]
  rfl

/-- The first pull and then the others. -/
theorem Walk.pulls_ends_succ {walk rest : Walk} {item : Option (Except Error Value)}
    {items : List (Option (Except Error Value))} (h : walk.pull n w = .ok (item, rest) w₁)
    (hrest : (rest.pulls k).Ends n w₁ (.ok items)) :
    (walk.pulls (k + 1)).Ends n w (.ok (item :: items)) := by
  obtain ⟨w', hrest⟩ := hrest
  exact ⟨w', (Act.bind_of_ok h).trans (Act.bind_of_ok hrest)⟩

/-- A walk that is over hands out nothing. -/
theorem Walk.pulls_over (k : Nat) : (Walk.pulls k {}).Ends n w (.ok (pulledFrom [] k)) := by
  rw [pulledFrom_nil]
  induction k with
  | zero => exact ⟨w, rfl⟩
  | succ k ih => exact Walk.pulls_ends_succ rfl ih

/-- A walk that has failed hands out the error once. -/
theorem Walk.pulls_failed (e : Error) (k : Nat) :
    (Walk.pulls k (.onto (.error e))).Ends n w (.ok (pulledFrom [.error e] k)) := by
  cases k with
  | zero => exact ⟨w, rfl⟩
  | succ k =>
    rw [pulledFrom_cons]
    exact Walk.pulls_ends_succ rfl (Walk.pulls_over k)

/-- Pulls hand out the elements that are met, then the error once, and then nothing. -/
theorem Walked.pulls_ends (h : Walked n w o ss err w') (k : Nat) :
    (Walk.pulls k { current := o }).Ends n w
      (.ok (pulledFrom (deliveries (ss.map Seq.first) err) k)) := by
  induction h generalizing k with
  | done => exact Walk.pulls_over k
  | @failed w w' s e hn =>
    cases k with
    | zero => exact ⟨w, rfl⟩
    | succ k =>
      show (Walk.pulls (k + 1) _).Ends n w (.ok (pulledFrom [.ok s.first, .error e] (k + 1)))
      rw [pulledFrom_cons]
      exact Walk.pulls_ends_succ (Walk.pull_onto (r := .error e) hn) (Walk.pulls_failed e k)
  | @next w w₁ w' s o ss err hn h ih =>
    cases k with
    | zero => exact ⟨w, rfl⟩
    | succ k =>
      show (Walk.pulls (k + 1) _).Ends n w
        (.ok (pulledFrom (.ok s.first :: deliveries (ss.map Seq.first) err) (k + 1)))
      rw [pulledFrom_cons]
      exact Walk.pulls_ends_succ (Walk.pull_onto (r := .ok o) hn) (ih k)

/-- Elements that are read are handed out whenever they are pulled, whatever is realized meanwhile. -/
theorem Spells.hands {least : Nat} (h : Spells k w (.outcome r) xs (.of err)) (hw : Orderly w)
    (hl : 2 ≤ least) (hk : k ≤ least) : (Walk.onto r).Hands least (deliveries xs err) w := by
  induction xs generalizing w r with
  | nil =>
    cases err with
    | none =>
      cases h
      rfl
    | some e =>
      cases h
      exact fun m v _ _ => ⟨{}, v, rfl, .refl v, rfl⟩
  | cons x xs ih =>
    intro m v hm hv
    have hquiet := Behind.of_ne_panic err
    obtain ⟨r', v', hpull, ha, hrest⟩ := (hv.spells hw hquiet h).pull (hv.orderly hw)
      (Nat.le_trans hl hm) (Nat.le_trans hk hm) hquiet
    exact ⟨.onto r', v', hpull, ha.evolves, ih hrest (ha.evolves.orderly (hv.orderly hw))⟩

/-! ### Into an array -/

/-- The array that elements and the array that was passed make. -/
def filling (dest : Array Value) (xs : List Value) : Array Value :=
  if dest.size < xs.length then xs.toArray
  else xs.toArray ++ (dest.extract xs.length dest.size).setIfInBounds 0 .nil

/-- The slots behind the elements are those of the array that was passed, but for the first of them. -/
theorem getElem?_filling_right (h : xs.length ≤ dest.size) (j : Nat) :
    (filling dest xs)[xs.length + j]? =
      if j = 0 ∧ xs.length < dest.size then some .nil else dest[xs.length + j]? := by
  have hsize : xs.toArray.size = xs.length := List.size_toArray
  have hright : xs.toArray.size ≤ xs.length + j := Nat.le_add_right xs.length j
  rw [filling, if_neg (Nat.not_lt.mpr h), Array.getElem?_append_right hright, hsize,
    Nat.add_sub_cancel_left, Array.getElem?_setIfInBounds, Array.size_extract, Array.getElem?_extract,
    Nat.min_self]
  cases j with
  | zero =>
    by_cases hd : xs.length < dest.size
    · rw [if_pos rfl, if_pos (Nat.sub_pos_of_lt hd), if_pos ⟨rfl, hd⟩]
    · rw [if_pos rfl, if_neg (by omega), if_neg (by omega), Array.getElem?_eq_none (by omega)]
  | succ j =>
    have hlater : ¬(j + 1 = 0 ∧ xs.length < dest.size) := fun h => Nat.succ_ne_zero j h.1
    rw [if_neg (Nat.succ_ne_zero j).symm, if_neg hlater]
    by_cases hd : j + 1 < dest.size - xs.length
    · rw [if_pos hd]
    · rw [if_neg hd, Array.getElem?_eq_none (by omega)]

theorem filled_filling (dest : Array Value) (xs : List Value) : Filled dest xs (filling dest xs) := by
  by_cases h : dest.size < xs.length
  · rw [filling, if_pos h]
    exact ⟨fun _ => rfl, by omega, fun i _ => List.getElem?_toArray, by omega, by omega⟩
  · have hright := getElem?_filling_right (Nat.le_of_not_lt h)
    refine ⟨fun h' => absurd h' h, fun hd => ?_, fun i hi => ?_, fun hd => ?_, fun i hi hd => ?_⟩
    · rw [filling, if_neg h, Array.size_append, Array.size_setIfInBounds, Array.size_extract,
        List.size_toArray]
      omega
    · have hleft : i < xs.toArray.size := hi
      rw [filling, if_neg h, Array.getElem?_append_left hleft, List.getElem?_toArray]
    · exact (hright 0).trans (if_pos ⟨rfl, hd⟩)
    · obtain ⟨j, rfl⟩ := Nat.exists_eq_add_of_lt hi
      exact (hright (j + 1)).trans (if_neg fun h => Nat.succ_ne_zero j h.1)

/-- Elements that are had are put into the array. -/
theorem Value.intoArray_of_toArray (dest : Array Value) (h : x.toArray n w = .ok xs.toArray w₁) :
    x.intoArray dest n w = .ok (filling dest xs) w₁ := by
  rw [intoArray, Act.bind_of_ok h, filling]
  by_cases hd : dest.size < xs.length
  · rw [if_pos hd]
    exact congrFun (congrFun (if_pos hd) n) w₁
  · rw [if_neg hd]
    exact congrFun (congrFun (if_neg hd) n) w₁

/-! ### The value -/

namespace Value.Walks

/-- A value is drained as a walk over it goes. -/
theorem drainedAs (h : x.Walks n w ss err w') (hn : ss.length + 1 < n) :
    x.DrainedAs n w (ss.map Seq.first) err := by
  have harray := h.toArray_ends hn
  refine ⟨?_, harray, fun dest => ?_⟩
  · cases h with
    | failed hs => exact .inl ⟨_, _, hs, Act.bind_of_error hs, rfl, rfl⟩
    | seq hs h => exact .inr ⟨_, _, _, hs, Act.bind_of_ok hs, h.pulls_ends⟩
  · refine ⟨_, filled_filling dest (ss.map Seq.first), ?_⟩
    obtain ⟨w₁, harray⟩ := harray
    cases err with
    | some e => exact .bind_error harray
    | none => exact ⟨w₁, intoArray_of_toArray dest harray⟩

end Value.Walks

/-- A value that a walk goes over is drained as the walk goes, in the world in which it starts and in
every world that follows it. Where no lazy sequence leads back to itself, the pulls may also be far
apart, with any realizations between them. -/
theorem drained_as_walked (hw : Reached w) (hf : w.Formed) (hx : x.Formed w.lazies.size)
    (h : x.Walks n w ss err w') (hn : ss.length + 1 < n) :
    x.DrainedAs n w (ss.map Seq.first) err ∧
    (∀ m v, ss.length + 1 < m → Evolves w' v → x.DrainedAs m v (ss.map Seq.first) err) ∧
    (w.Grounded → ∃ least, ∀ walk w₁, Walk.of x n w = .ok walk w₁ →
      walk.Hands least (deliveries (ss.map Seq.first) err) w₁) := by
  have hw := hw.orderly
  obtain ⟨-, -, hagain⟩ := h.again hw hf hx
  refine ⟨h.drainedAs hn, fun m v hm hv => ?_, fun hg => ?_⟩
  · obtain ⟨v', hv'⟩ := hagain m v (by omega) hv
    exact hv'.drainedAs hm
  · obtain ⟨k, u, hu, hspell⟩ := h.spells hw hg hx
    refine ⟨max k 2, fun walk w₁ hwalk => ?_⟩
    obtain ⟨o, w₁, hs, ⟨⟩⟩ := Act.ok_of_bind hwalk
    obtain ⟨hspell, hev⟩ := hspell.answered (r := .ok o) hw hu hs
    exact hspell.hands (hev.orderly hw) (Nat.le_max_right k 2) (Nat.le_max_left k 2)

/-- The walk over a value hands out two elements, the error and then nothing, and the error is what comes
of filling an array. -/
theorem drained_as_walked_brokenOff :
    (∃ walk w, Walk.of (.seq brokenCons) 4 brokenOff = .ok walk w ∧
      (walk.pulls 5).Ends 4 w
        (.ok [some (.ok (.int 1)), some (.ok (.int 2)), some (.error .format), none, none])) ∧
    ((Value.seq brokenCons).intoArray #[.nil]).Ends 4 brokenOff (.error (.error .format)) := by
  have hwalk : ∃ w', (Value.seq brokenCons).Walks 4 brokenOff
      [brokenCons, .cons (.int 2) (.lazy ⟨1⟩)] (some .format) w' :=
    ⟨_, .seq rfl (.next rfl (.failed rfl))⟩
  obtain ⟨w', hwalk⟩ := hwalk
  have hx : (Value.seq brokenCons).Formed brokenOff.lazies.size := Nat.zero_lt_one
  obtain ⟨hdrained, -, -⟩ :=
    drained_as_walked reached_brokenOff formed_brokenOff hx hwalk (by decide)
  obtain ⟨out, -, hinto⟩ := hdrained.intoArray #[.nil]
  refine ⟨?_, hinto⟩
  rcases hdrained.pulled with ⟨e, w₁, -, -, hnone, -⟩ | ⟨o, w₁, walk, -, hof, hpulls⟩
  · cases hnone
  · exact ⟨walk, w₁, hof, hpulls 5⟩

end LispCore
