import LispCore.Collection.Basic
import LispCore.Proofs.Seq.Traversal
import Mathlib.Data.List.Basic
/-!
Vectors and views by their elements. `Shows` names the elements of a vector or of a proper view, and
`Ends` says that an operation ends with such a value or with an error. What appending, replacing,
popping and taking a range end with is said by the elements alone, once for both kinds.
-/

namespace LispCore

/-! ### Ranges of arrays -/

section Ranges

variable {items : Array Value} {i stop : Nat}

/-- Within bounds, the sequence of a range gives the elements of the range. -/
theorem traverses_ofSlice (hstop : stop ≤ items.size) : ∀ {left index : Nat}, stop - index = left →
    Traverses (Seq.ofSlice items index stop) ((items.toList.take stop).drop index)
  | 0, index, hl => by
    have hle : (items.toList.take stop).length ≤ index := by
      rw [List.length_take]
      omega
    rw [Seq.ofSlice, if_neg (by omega), List.drop_of_length_le hle]
    exact .done
  | left + 1, index, hl => by
    have hlt : index < items.size := by omega
    have hlt' : index < (items.toList.take stop).length := by
      rw [List.length_take, Array.length_toList]
      omega
    rw [Seq.ofSlice, if_pos (by omega), List.drop_eq_getElem_cons hlt', List.getElem_take,
      Array.getElem_toList]
    have hfirst : (Seq.slice items index stop).first = items[index] := by
      rw [Seq.first, Array.getElem?_eq_getElem hlt, Option.getD_some]
    have hleft : stop - (index + 1) = left := by omega
    rw [← hfirst]
    exact .next rfl (traverses_ofSlice hstop hleft)

/-- A write within the array or at its end changes one place. -/
theorem Vec.assocN_spec (hi : i ≤ items.size) (x : Value) : ∃ items',
    Vec.assocN items i x = .ok items' ∧ items'.size = max items.size (i + 1) ∧
      ∀ j, items'[j]? = if j = i then some x else items[j]? := by
  rcases Nat.lt_or_eq_of_le hi with hlt | rfl
  · refine ⟨items.set i x, ?_, ?_, fun j => ?_⟩
    · rw [Vec.assocN, if_neg (Nat.ne_of_lt hlt), dif_pos hlt]
    · rw [Array.size_set]
      omega
    · rw [Array.getElem?_set]
      exact if_congr eq_comm rfl rfl
  · refine ⟨items.push x, ?_, ?_, fun j => ?_⟩
    · rw [Vec.assocN, if_pos rfl]
    · rw [Array.size_push]
      omega
    · rw [Array.getElem?_push]

end Ranges

namespace View

variable {v : View Value} {i : Nat}

theorem getElem?_toList (v : View Value) (i : Nat) :
    v.toList[i]? = if i < v.count then v.backing[v.start + i]? else none := by
  rw [toList, List.getElem?_drop, List.getElem?_take, Array.getElem?_toList]
  refine if_congr ?_ rfl rfl
  rw [count]
  omega

theorem get?_eq (v : View Value) (i : Nat) : v.get? i = v.toList[i]? := (v.getElem?_toList i).symm

theorem last?_eq (h : v.WellFormed) : v.last? = v.toList.getLast? := by
  have hlt := h.1
  have hi : v.start + (v.count - 1) = v.stop - 1 := by
    rw [count]
    omega
  rw [List.getLast?_eq_getElem?, length_toList h, getElem?_toList, if_pos (by rw [count]; omega), hi,
    last?]

/-- An append writes behind the last element, over what the backing has there or at its end. -/
theorem conj_spec (h : v.WellFormed) (x : Value) :
    ∃ t, v.conj x = .ok t ∧ t.WellFormed ∧ t.toList = v.toList ++ [x] := by
  obtain ⟨items, hok, hsize, hitems⟩ := Vec.assocN_spec h.2 x
  have hlt := h.1
  have hstop : v.start + v.count = v.stop := Nat.add_sub_of_le (Nat.le_of_lt hlt)
  have hcount : (⟨items, v.start, v.stop + 1⟩ : View Value).count = v.count + 1 :=
    Nat.succ_sub (Nat.le_of_lt hlt)
  refine ⟨⟨items, v.start, v.stop + 1⟩, ?_, ⟨?_, ?_⟩, List.ext_getElem? fun j => ?_⟩
  · rw [conj, hok]
    rfl
  · exact Nat.lt_succ_of_lt hlt
  · exact hsize ▸ Nat.le_max_right ..
  · rw [List.getElem?_append, length_toList h, getElem?_toList, getElem?_toList, hcount]
    simp only [hitems]
    rcases Nat.lt_trichotomy j v.count with hj | rfl | hj
    · rw [if_pos hj, if_pos hj, if_pos (Nat.lt_succ_of_lt hj), if_neg (by omega)]
    · rw [if_pos (Nat.lt_succ_self _), if_pos hstop, if_neg (Nat.lt_irrefl _), Nat.sub_self]
      rfl
    · rw [if_neg (by omega), if_neg (by omega), List.getElem?_eq_none]
      exact Nat.le_sub_of_add_le' hj

/-- A write at an index below the count replaces that element. -/
theorem assocN_spec (h : v.WellFormed) (hi : i < v.count) (x : Value) :
    ∃ t, v.assocN i x = .ok t ∧ t.WellFormed ∧ t.toList = v.toList.set i x := by
  have hstop : v.start + v.count = v.stop := Nat.add_sub_of_le (Nat.le_of_lt h.1)
  have hle : v.start + i ≤ v.backing.size := by
    have := h.2
    omega
  obtain ⟨items, hok, hsize, hitems⟩ := Vec.assocN_spec hle x
  refine ⟨⟨items, v.start, v.stop⟩, ?_, ⟨h.1, ?_⟩, List.ext_getElem? fun j => ?_⟩
  · rw [assocN, if_neg (Nat.ne_of_lt hi), if_pos hi, hok]
    rfl
  · exact hsize ▸ Nat.le_trans h.2 (Nat.le_max_left ..)
  · have hcount : (⟨items, v.start, v.stop⟩ : View Value).count = v.count := rfl
    rw [List.getElem?_set, length_toList h, getElem?_toList, getElem?_toList, hcount]
    simp only [hitems, Nat.add_left_cancel_iff, eq_comm (a := j)]
    by_cases hj : i = j
    · subst hj
      rw [if_pos rfl, if_pos rfl]
    · rw [if_neg hj, if_neg hj]

/-- Ending one place earlier leaves the last element out. -/
theorem toList_shorter (h : v.WellFormed) :
    toList { v with stop := v.stop - 1 } = v.toList.dropLast := by
  have hcount : count { v with stop := v.stop - 1 } = v.count - 1 := Nat.sub_right_comm ..
  refine List.ext_getElem? fun j => ?_
  rw [List.getElem?_dropLast, length_toList h, getElem?_toList, getElem?_toList, hcount]
  by_cases hj : j < v.count - 1
  · rw [if_pos hj, if_pos hj, if_pos (Nat.lt_of_lt_of_le hj (Nat.sub_le ..))]
  · rw [if_neg hj, if_neg hj]

/-- A range of a view is the range of its backing, moved by the start of the view. -/
theorem toList_range (h : v.WellFormed) {start stop : Nat} (hstop : stop ≤ v.count) :
    (v.backing.toList.take (v.start + stop)).drop (v.start + start) =
      (v.toList.take stop).drop start := by
  rw [toList, List.take_drop, List.take_take, List.drop_drop]
  have hle : v.start + stop ≤ v.stop := by
    have := h.1
    rw [count] at hstop
    omega
  rw [Nat.min_eq_left hle]

end View

/-! ### Vectors and views by their elements -/

/-- A vector, or a proper view, of these elements. -/
inductive Value.Shows : Value → List Value → Prop
  | vector (items : Array Value) : Shows (.vector items) items.toList
  | view {v : View Value} (h : v.WellFormed) : Shows (.view v) v.toList

/-- An action that only ends: with a vector or a proper view of these elements, or with the error. -/
inductive Value.Ends (x : Act Value) : Except Error (List Value) → Prop
  | ok {b : Value} {xs : List Value} (hx : x = pure b) (h : b.Shows xs) : Ends x (.ok xs)
  | error {e : Error} (hx : x = Act.fail e) : Ends x (.error e)

namespace Value

variable {a : Value} {xs : List Value}

theorem Shows.knownCount? (h : a.Shows xs) : a.knownCount? = some xs.length := by
  cases h with
  | vector items => rfl
  | view h => rw [Value.knownCount?, View.length_toList h]

theorem Shows.isSequential (h : a.Shows xs) : a.isSequential = true := by
  cases h <;> rfl

theorem Shows.holds (h : a.Shows xs) : a.Holds xs := by
  cases h with
  | vector items =>
    have ht := traverses_ofSlice (Nat.le_refl items.size) (Nat.sub_zero _)
    rw [← Array.length_toList, List.take_length, List.drop_zero] at ht
    exact ⟨_, rfl, ht⟩
  | view h => exact ⟨_, rfl, traverses_ofSlice h.2 rfl⟩

/-! ### Updates -/

/-- A range within bounds: the empty vector, or the view of it. -/
theorem shows_ofRange {items : Array Value} {start stop : Nat} (hle : start ≤ stop)
    (hstop : stop ≤ items.size) : ∃ b, View.ofRange items start stop = .ok b ∧
      b.Shows ((items.toList.take stop).drop start) ∧ (start = stop → b = .vector #[]) := by
  rw [View.ofRange, if_neg (Nat.not_lt_of_le hle), if_neg (Nat.not_lt_of_le hstop)]
  rcases Nat.lt_or_eq_of_le hle with hlt | rfl
  · rw [if_neg (Nat.ne_of_lt hlt)]
    exact ⟨_, rfl, .view ⟨hlt, hstop⟩, fun h => absurd h (Nat.ne_of_lt hlt)⟩
  · have hnil : (items.toList.take start).drop start = [] :=
      List.drop_of_length_le (List.length_take_le ..)
    rw [if_pos rfl, hnil]
    exact ⟨_, rfl, .vector #[], fun _ => rfl⟩

theorem ends_conj (h : a.Shows xs) (x : Value) : Ends (a.conj x) (.ok (xs ++ [x])) := by
  cases h with
  | vector items =>
    rw [← Array.toList_push]
    exact .ok rfl (.vector _)
  | view h =>
    obtain ⟨t, hok, ht, hl⟩ := View.conj_spec h x
    rw [← hl]
    refine .ok ?_ (.view ht)
    rw [conj, hok]
    rfl

theorem ends_assoc (h : a.Shows xs) (key x : Value) :
    Ends (a.assoc key x) ((Vec.assoc xs.toArray key x).map Array.toList) := by
  cases h with
  | vector items =>
    rw [Array.toArray_toList, assoc]
    cases Vec.assoc items key x with
    | ok items' => exact .ok rfl (.vector items')
    | error e => exact .error rfl
  | @view v h =>
    rw [assoc, View.assoc, Vec.assoc]
    cases key.toIndex "assoc" with
    | error e => exact .error rfl
    | ok i =>
      have hc : v.toList.toArray.size = v.count := View.length_toList h
      show Ends (do return .view (← Act.ofExcept (v.assocN i x))) ((Vec.assocN _ i x).map _)
      rcases Nat.lt_trichotomy i v.count with hi | rfl | hi
      · obtain ⟨t, hok, ht, hl⟩ := View.assocN_spec h hi x
        rw [hok, Vec.assocN, if_neg (hc ▸ Nat.ne_of_lt hi), dif_pos (hc ▸ hi)]
        have hset : (v.toList.toArray.set i x (hc ▸ hi)).toList = t.toList := by
          rw [hl, Array.toList_set]
        exact .ok rfl (hset ▸ .view ht)
      · obtain ⟨t, hok, ht, hl⟩ := View.conj_spec h x
        rw [View.assocN, if_pos rfl, hok, Vec.assocN, if_pos hc.symm]
        have hpush : (v.toList.toArray.push x).toList = t.toList := by
          rw [hl, Array.toList_push]
        exact .ok rfl (hpush ▸ .view ht)
      · rw [View.assocN, if_neg (Nat.ne_of_gt hi), if_neg (Nat.lt_asymm hi), Vec.assocN,
          if_neg (hc ▸ Nat.ne_of_gt hi), dif_neg (hc ▸ Nat.lt_asymm hi), hc]
        exact .error rfl

theorem ends_pop (h : a.Shows xs) : Ends a.pop ((Vec.pop xs.toArray).map Array.toList) := by
  cases h with
  | vector items =>
    rw [Array.toArray_toList, pop]
    cases Vec.pop items with
    | ok items' => exact .ok rfl (.vector items')
    | error e => exact .error rfl
  | @view v h =>
    have hlen := View.length_toList h
    have hlt := h.1
    have hne : v.toList.toArray.isEmpty = false := by
      rw [List.isEmpty_toArray, List.isEmpty_eq_false_iff, ← List.length_pos_iff, hlen]
      exact Nat.sub_pos_of_lt hlt
    rw [Vec.pop, hne, pop, View.pop]
    show Ends _ (.ok v.toList.toArray.pop.toList)
    rw [Array.toList_pop]
    by_cases h1 : v.stop - 1 = v.start
    · have hnil : v.toList.dropLast = #[].toList := by
        rw [← List.length_eq_zero_iff, List.length_dropLast, hlen, View.count]
        omega
      rw [if_pos h1, hnil]
      exact .ok rfl (.vector #[])
    · have hlast : v.start < v.stop - 1 := by omega
      have ht : View.WellFormed { v with stop := v.stop - 1 } :=
        ⟨hlast, Nat.le_trans (Nat.sub_le ..) h.2⟩
      rw [if_neg h1, ← View.toList_shorter h]
      exact .ok rfl (.view ht)

/-! ### Ranges of vectors and views -/

theorem indexOf?_eq_some {n : Int64} {i : Nat} : indexOf? n = some i ↔ n.toInt = i := by
  have hzero : n < 0 ↔ n.toInt < 0 := by
    rw [Int64.lt_iff_toInt_lt]
    rfl
  have hnat : n.toNatClampNeg = n.toInt.toNat := rfl
  simp only [indexOf?, hzero, hnat]
  split
  · refine ⟨nofun, fun h => ?_⟩
    omega
  · rw [Option.some_inj]
    omega

theorem indexOf?_add {m n : Int64} {i j : Nat} (hm : indexOf? m = some i) (hn : indexOf? n = some j)
    (h : i + j < 0x8000000000000000) : indexOf? (m + n) = some (i + j) := by
  rw [indexOf?_eq_some] at hm hn ⊢
  rw [Int64.toInt_add, hm, hn]
  rw [Int.bmod_eq_of_le] <;> omega

theorem checkRange_ok {start stop : Int64} {n first last : Nat}
    (h : checkRange start stop n = .ok (first, last)) :
    indexOf? start = some first ∧ indexOf? stop = some last ∧ first ≤ last ∧ last ≤ n := by
  rw [checkRange] at h
  split at h
  · cases h
  · rename_i hle
    cases hfirst : indexOf? start with
    | none =>
      rw [hfirst] at h
      cases h
    | some i =>
      cases hlast : indexOf? stop with
      | none =>
        rw [hfirst, hlast] at h
        cases h
      | some j =>
        simp only [hfirst, hlast] at h
        split at h
        · cases h
          refine ⟨rfl, rfl, ?_, ‹_›⟩
          rw [indexOf?_eq_some] at hfirst hlast
          rw [Int64.lt_iff_toInt_lt, hfirst, hlast] at hle
          omega
        · cases h

theorem checkRange_eq_ok {start stop : Int64} {n first last : Nat}
    (hfirst : indexOf? start = some first) (hlast : indexOf? stop = some last) (hle : first ≤ last)
    (hn : last ≤ n) : checkRange start stop n = .ok (first, last) := by
  have hlt : ¬stop < start := by
    rw [indexOf?_eq_some] at hfirst hlast
    rw [Int64.lt_iff_toInt_lt, hfirst, hlast]
    omega
  rw [checkRange, if_neg hlt, hfirst, hlast]
  exact if_pos hn

/-- A range that passes its check and can then be taken. -/
theorem ends_range {range : Nat → Nat → Except Error Value} (start stop : Int64)
    (hr : ∀ i j, i ≤ j → j ≤ xs.length →
      ∃ b, range i j = .ok b ∧ b.Shows ((xs.take j).drop i)) :
    Ends (Act.ofExcept do
        let (first, last) ← checkRange start stop xs.length
        range first last)
      ((checkRange start stop xs.length).map fun r => (xs.take r.2).drop r.1) := by
  cases hc : checkRange start stop xs.length with
  | error e => exact .error rfl
  | ok r =>
    obtain ⟨-, -, hle, hstop⟩ := checkRange_ok hc
    obtain ⟨b, hok, hb⟩ := hr r.1 r.2 hle hstop
    refine .ok ?_ hb
    show Act.ofExcept (range r.1 r.2) = _
    rw [hok]
    rfl

/-- A range of a view within its count. -/
theorem shows_subvec {v : View Value} (h : v.WellFormed) {start stop : Nat} (hle : start ≤ stop)
    (hstop : stop ≤ v.count) : ∃ b, v.subvec start stop = .ok b ∧
      b.Shows ((v.toList.take stop).drop start) ∧ (start = stop → b = .vector #[]) := by
  have hend : v.start + stop ≤ v.backing.size := by
    have := h.1
    have := h.2
    rw [View.count] at hstop
    omega
  obtain ⟨b, hok, hb, hnil⟩ := shows_ofRange (Nat.add_le_add_left hle v.start) hend
  rw [View.toList_range h hstop] at hb
  rw [View.subvec, if_neg (by omega)]
  exact ⟨b, hok, hb, fun h => hnil (congrArg _ h)⟩

theorem ends_subvec (h : a.Shows xs) (start stop : Int64) : Ends (a.subvec start stop)
    ((checkRange start stop xs.length).map fun r => (xs.take r.2).drop r.1) := by
  cases h with
  | vector items =>
    refine ends_range start stop fun i j hij hj => ?_
    obtain ⟨b, hok, hb, -⟩ := shows_ofRange hij hj
    exact ⟨b, hok, hb⟩
  | view h =>
    rw [subvec, ← View.length_toList h]
    refine ends_range start stop fun i j hij hj => ?_
    obtain ⟨b, hok, hb, -⟩ := shows_subvec h hij (View.length_toList h ▸ hj)
    exact ⟨b, hok, hb⟩

end Value

end LispCore
