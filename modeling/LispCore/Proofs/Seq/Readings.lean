import LispCore.Proofs.Seq.Formed
import LispCore.Proofs.Vector.Views
/-!
Readings of a sequence. A walk by `first` and `next?` meets some sequences and then ends or fails
(`Walked`, `Value.Walks`). Counting, draining and asking for one place go the same way as far as they
go, and where a length is known beforehand it is that of the walk, so they all tell what the walk tells
(`Value.Walks.readAs`).
-/

namespace LispCore

/-- Going on by `next?` meets these sequences, of which it starts on the first, and then it ends or
fails, and leaves the second world behind. -/
inductive Walked (n : Nat) : World → Option Seq → List Seq → Option Error → World → Prop
  | done (w : World) : Walked n w none [] none w
  | failed {w w' : World} {s : Seq} {e : Error} (hn : s.next? n w = .error (.error e) w') :
      Walked n w (some s) [s] (some e) w'
  | next {w w₁ w' : World} {s : Seq} {o : Option Seq} {ss : List Seq} {err : Option Error}
      (hn : s.next? n w = .ok o w₁) (h : Walked n w₁ o ss err w') :
      Walked n w (some s) (s :: ss) err w'

/-- Walking over the value meets these sequences; asking for the first may have failed already. -/
inductive Value.Walks (v : Value) (n : Nat) (w : World) : List Seq → Option Error → World → Prop
  | failed {w' : World} {e : Error} (hs : v.seq? n w = .error (.error e) w') :
      v.Walks n w [] (some e) w'
  | seq {w₁ w' : World} {o : Option Seq} {ss : List Seq} {err : Option Error}
      (hs : v.seq? n w = .ok o w₁) (h : Walked n w₁ o ss err w') : v.Walks n w ss err w'

/-- How an action ends that wants all of a walk. -/
def atEnd {α : Type} (err : Option Error) (a : α) : Except Fault α :=
  match err with
  | none => .ok a
  | some e => .error (.error e)

/-- How an action ends that wants one place of a walk: with what is found there, with the error of a
walk that fails before, or as one that finds nothing. -/
def atPlace {α : Type} (err : Option Error) (found : Option α) (absent : Except Fault α) :
    Except Fault α :=
  match found, err with
  | some a, _ => .ok a
  | none, some e => .error (.error e)
  | none, none => absent

/-- The action ends so, in whatever world. -/
def Act.Ends {α : Type} (x : Act α) (n : Nat) (w : World) (r : Except Fault α) : Prop :=
  ∃ w', x n w = Act.ended r w'

/-- There is a sequence view of the value. -/
def Value.isSeqable : Value → Bool
  | nil | list _ | vector _ | view _ | map _ | seq _ | lazy _ | str _ => true
  | _ => false

/-- The value has elements at indices. -/
def Value.isIndexed : Value → Bool
  | list _ | vector _ | view _ | seq _ | lazy _ | str _ => true
  | _ => false

/-- The value is read as these elements, after which a walk ends or fails. -/
structure Value.ReadAs (x : Value) (n : Nat) (w : World) (xs : List Value) (err : Option Error) :
    Prop where
  count : x.count.Ends n w (atEnd err xs.length)
  length : x.length.Ends n w (atEnd err xs.length)
  toArray : x.toArray.Ends n w (atEnd err xs.toArray)
  second : x.second.Ends n w (atPlace err xs[1]? (.ok .nil))
  third : x.third.Ends n w (atPlace err xs[2]? (.ok .nil))
  fourth : x.fourth.Ends n w (atPlace err xs[3]? (.ok .nil))
  nth (hx : x.isIndexed = true) (index : Int64) (i : Nat) (hi : indexOf? index = some i) :
    (x.nth index).Ends n w
      (atPlace err xs[i]? (.error (.error (.indexOutOfBounds index (x.knownCount?.getD 0)))))

/-- The sequence is read as these elements, also when it is counted as a sequence. -/
def Seq.ReadAs (s : Seq) (n : Nat) (w : World) (xs : List Value) (err : Option Error) : Prop :=
  (Value.seq s).ReadAs n w xs err ∧ s.count.Ends n w (atEnd err xs.length)

variable {n : Nat} {w w₁ w' : World} {o : Option Seq} {s : Seq} {ss : List Seq} {err : Option Error}

theorem Act.Ends.bind_error {α β : Type} {x : Act α} {f : α → Act β} {e : Error}
    (h : x n w = .error (.error e) w') : (x >>= f).Ends n w (.error (.error e)) :=
  ⟨w', Act.bind_of_error h⟩

theorem Act.Ends.bind {α β : Type} {x : Act α} {f : α → Act β} {a : α} {r : Except Fault β}
    (h : x n w = .ok a w₁) (hf : (f a).Ends n w₁ r) : (x >>= f).Ends n w r := by
  obtain ⟨w', hf⟩ := hf
  exact ⟨w', (Act.bind_of_ok h).trans hf⟩

/-- What is done with the place of a walk is done with what is found there. -/
theorem Act.Ends.at_place {α β : Type} {x : Act (Option α)} {f : Option α → Act β} {g : α → β}
    {found : Option α} {absent : Except Fault β}
    (h : x.Ends n w (atPlace err (found.map some) (.ok none)))
    (hsome : ∀ a w', (f (some a)).Ends n w' (.ok (g a))) (hnone : ∀ w', (f none).Ends n w' absent) :
    (x >>= f).Ends n w (atPlace err (found.map g) absent) := by
  obtain ⟨w₁, h⟩ := h
  cases found with
  | some a => exact .bind h (hsome a w₁)
  | none =>
    cases err with
    | none => exact .bind h (hnone w₁)
    | some e => exact .bind_error h

/-- A sequence that knows its length goes on without an effect. -/
theorem Seq.next?_of_known {k : Nat} (hk : s.knownCount? = some k) : s.next? = pure s.step? := by
  cases s with
  | cons => cases hk
  | _ => rfl

namespace Walked

/-- A walk over a sequence that knows its length is as long, never fails and has no effect. -/
theorem counts (h : Walked n w o ss err w') {made k : Nat} (hk : Seq.Counts made o k) :
    ss.length = k ∧ err = none ∧ w' = w := by
  induction h generalizing k with
  | done => exact ⟨hk.symm, rfl, rfl⟩
  | failed hn =>
    rw [Seq.next?_of_known hk.2] at hn
    cases hn
  | next hn h ih =>
    obtain ⟨hpos, hstep⟩ := hk.1.counts_step? hk.2
    rw [Seq.next?_of_known hk.2] at hn
    cases hn
    obtain ⟨hlen, rfl, rfl⟩ := ih hstep
    rw [List.length_cons, hlen]
    exact ⟨Nat.sub_add_cancel hpos, rfl, rfl⟩

/-- A walk over a sequence without effects goes through its elements. -/
theorem traverses {xs : List Value} (h : Walked n w o ss err w') (ht : Traverses o xs) :
    ss.map Seq.first = xs ∧ err = none := by
  induction h generalizing xs with
  | done =>
    cases ht
    exact ⟨rfl, rfl⟩
  | failed hn =>
    cases ht with
    | next ht =>
      rw [ht] at hn
      cases hn
  | next hn h ih =>
    cases ht with
    | next ht htail =>
      rw [ht] at hn
      cases hn
      obtain ⟨hmap, herr⟩ := ih htail
      exact ⟨by rw [List.map_cons, hmap], herr⟩

/-! ### Readings along a walk -/

/-- Counting adds the number of sequences that are met. -/
theorem countFrom_ends {made rounds : Nat} (h : Walked n w (some s) ss err w') (hf : ∀ t ∈ ss, t.Formed made)
    (hr : ss.length ≤ rounds) (k : Nat) :
    (Seq.countFrom rounds k s).Ends n w (atEnd err (k + ss.length)) := by
  induction rounds generalizing w s ss k with
  | zero =>
    cases h <;> cases hr
  | succ rounds ih =>
    have hs : s.Formed made := by
      cases h <;> exact hf _ List.mem_cons_self
    cases hk : s.knownCount? with
    | some c =>
      obtain ⟨hlen, rfl, -⟩ := h.counts (o := some s) ⟨hs, hk⟩
      refine ⟨w, ?_⟩
      rw [Seq.countFrom, hk, hlen]
      rfl
    | none =>
      rw [Seq.countFrom, hk]
      cases h with
      | failed hn => exact .bind_error hn
      | @next _ _ _ _ o ss _ hn h =>
        refine .bind hn ?_
        cases o with
        | none =>
          cases h
          exact ⟨_, rfl⟩
        | some t =>
          have hcount := ih h (fun t ht => hf t (List.mem_cons_of_mem _ ht)) (Nat.le_of_succ_le_succ hr)
            (k + 1)
          rwa [List.length_cons, Nat.add_comm ss.length, ← Nat.add_assoc]

/-- Draining collects the first elements of the sequences that are met. -/
theorem collect_ends {rounds : Nat} (h : Walked n w o ss err w') (hr : ss.length + 1 < rounds)
    (out : Array Value) : (Walk.collect rounds out { current := o }).Ends n w
      (atEnd err (out ++ (ss.map Seq.first).toArray)) := by
  induction h generalizing rounds out with
  | done w =>
    obtain ⟨rounds, rfl⟩ := Nat.exists_eq_succ_of_ne_zero (Nat.ne_zero_of_lt hr)
    rw [List.map_nil, Array.append_empty]
    exact ⟨w, rfl⟩
  | @failed w w' s e hn =>
    -- the error is handed out after the element that it comes behind
    obtain ⟨rounds, rfl⟩ := Nat.exists_eq_add_of_le' (Nat.le_of_lt hr)
    have hpull : Walk.pull { current := some s } n w =
        .ok (some (.ok s.first), { failed := some e }) w' :=
      Act.bind_of_ok (Act.attempt_of_error hn)
    exact .bind hpull ⟨w', rfl⟩
  | @next w w₁ w' s o ss err hn h ih =>
    obtain ⟨rounds, rfl⟩ := Nat.exists_eq_succ_of_ne_zero (Nat.ne_zero_of_lt hr)
    have hpull : Walk.pull { current := some s } n w =
        .ok (some (.ok s.first), { current := o }) w₁ :=
      Act.bind_of_ok (Act.attempt_of_ok hn)
    have hrest := ih (Nat.lt_of_succ_lt_succ hr) (out.push s.first)
    have hout : out.push s.first ++ (ss.map Seq.first).toArray =
        out ++ ((s :: ss).map Seq.first).toArray := by simp
    rw [← hout]
    exact .bind hpull hrest

/-- Skipping gives the sequence that is met at the place. -/
theorem skip_ends (h : Walked n w o ss err w') (i : Nat) :
    (Seq.skip? i o).Ends n w (atPlace err (ss[i]?.map some) (.ok none)) := by
  induction h generalizing i with
  | done w => cases i <;> exact ⟨w, rfl⟩
  | failed hn =>
    cases i with
    | zero => exact ⟨_, rfl⟩
    | succ i => exact .bind_error hn
  | next hn h ih =>
    cases i with
    | zero => exact ⟨_, rfl⟩
    | succ i => exact .bind hn (ih i)

end Walked

/-! ### Readings of values -/

theorem traverses_ofChars : ∀ cs : List Char, Traverses (Seq.ofChars cs) (cs.map .char)
  | [] => .done
  | c :: cs => .next (s := .chars (c :: cs)) rfl (traverses_ofChars cs)

namespace Value.Walks

variable {x : Value} {made : Nat}

/-- The walk over a value whose sequence is had without an effect. -/
theorem of_seq?_pure (h : x.Walks n w ss err w') (ho : x.seq? = pure o) :
    Walked n w o ss err w' := by
  cases h with
  | failed hs =>
    rw [ho] at hs
    cases hs
  | seq hs h =>
    rw [ho] at hs
    cases hs
    exact h

theorem length_ends (h : x.Walks n w ss err w') (hf : ∀ s ∈ ss, s.Formed made) (hn : ss.length ≤ n) :
    x.length.Ends n w (atEnd err ss.length) := by
  cases h with
  | failed hs => exact .bind_error hs
  | @seq _ _ o _ _ hs h =>
    refine .bind hs ?_
    cases o with
    | none =>
      cases h
      exact ⟨_, rfl⟩
    | some s =>
      rw [← Nat.zero_add ss.length]
      exact h.countFrom_ends hf hn 0

/-- What is known of the length beforehand is the length of the walk. -/
theorem counts (h : x.Walks n w ss err w') (hx : x.Formed made) {k : Nat} (hk : x.knownCount? = some k) :
    ss.length = k ∧ err = none := by
  obtain ⟨o, ho, hc⟩ := hx.counts_directSeq hk
  have hseq : x.seq? = pure o := by
    cases x with
    | lazy => cases hk
    | _ => exact congrArg Act.ofExcept ho
  obtain ⟨hlen, herr, -⟩ := (h.of_seq?_pure hseq).counts hc
  exact ⟨hlen, herr⟩

theorem count_of_known {k : Nat} (hk : x.knownCount? = some k) : x.count = pure k := by
  cases x <;> cases hk <;> rfl

theorem count_ends (h : x.Walks n w ss err w') (hs : x.isSeqable = true) (hx : x.Formed made)
    (hf : ∀ s ∈ ss, s.Formed made) (hn : ss.length ≤ n) : x.count.Ends n w (atEnd err ss.length) := by
  cases hk : x.knownCount? with
  | some k =>
    obtain ⟨hlen, rfl⟩ := h.counts hx hk
    refine ⟨w, ?_⟩
    rw [count_of_known hk, hlen]
    rfl
  | none =>
    have hlen := h.length_ends hf hn
    cases x with
    | seq | lazy => exact hlen
    | str s =>
      obtain ⟨hmap, rfl⟩ := (h.of_seq?_pure rfl).traverses (traverses_ofChars s.toList)
      have hlen := congrArg List.length hmap
      rw [List.length_map, List.length_map, String.length_toList] at hlen
      rw [hlen]
      exact ⟨w, rfl⟩
    | nil | list | vector | view | map => cases hk
    | _ => cases hs

theorem toArray_ends (h : x.Walks n w ss err w') (hn : ss.length + 1 < n) :
    x.toArray.Ends n w (atEnd err (ss.map Seq.first).toArray) := by
  refine .bind (Act.budget_apply n w) ?_
  cases h with
  | failed hs => exact .bind_error (Act.bind_of_error hs)
  | seq hs h =>
    have hcollect := h.collect_ends hn #[]
    rw [Array.empty_append] at hcollect
    exact .bind (Act.bind_of_ok hs) hcollect

/-- The sequence behind as many elements, from the value itself. -/
theorem skip_ends (h : x.Walks n w ss err w') (i : Nat) :
    (x.seq? >>= Seq.skip? i).Ends n w (atPlace err (ss[i]?.map some) (.ok none)) := by
  cases h with
  | failed hs => exact .bind_error hs
  | seq hs h => exact .bind hs (h.skip_ends i)

theorem firstAfter_ends (h : x.Walks n w ss err w') (i : Nat) :
    (x.firstAfter i).Ends n w (atPlace err (ss.map Seq.first)[i]? (.ok .nil)) := by
  have hdef : x.firstAfter i = (x.seq? >>= Seq.skip? i) >>= fun o =>
      pure ((o.map Seq.first).getD .nil) := by
    rw [bind_assoc]
    exact bind_congr fun o => bind_congr fun s => by cases s <;> rfl
  rw [hdef, List.getElem?_map]
  exact (h.skip_ends i).at_place (fun s w' => ⟨w', rfl⟩) fun w' => ⟨w', rfl⟩

theorem elementAt_ends (h : x.Walks n w ss err w') (hs : x.isIndexed = true) (hx : x.Formed made)
    (i : Nat) : (x.elementAt i).Ends n w
      (atPlace err ((ss.map Seq.first)[i]?.map some) (.ok none)) := by
  have hshown {xs : List Value} (hshow : x.Shows xs) : (x.elementAt i).Ends n w
      (atPlace err ((ss.map Seq.first)[i]?.map some) (.ok none)) := by
    obtain ⟨o, ho, ht⟩ := hshow.holds
    obtain ⟨hmap, rfl⟩ := (h.of_seq?_pure ho).traverses ht
    rw [hshow.elementAt_eq, hmap]
    exact ⟨w, by cases xs[i]? <;> rfl⟩
  have hskip (hdef : x.elementAt i = (x.seq? >>= Seq.skip? i) >>= fun o => pure (o.map Seq.first)) :
      (x.elementAt i).Ends n w (atPlace err ((ss.map Seq.first)[i]?.map some) (.ok none)) := by
    rw [hdef, List.getElem?_map, Option.map_map]
    exact (h.skip_ends i).at_place (fun s w' => ⟨w', rfl⟩) fun w' => ⟨w', rfl⟩
  cases x with
  | vector items => exact hshown (.vector items)
  | view v => exact hshown (.view hx)
  | str s =>
    obtain ⟨hmap, rfl⟩ := (h.of_seq?_pure rfl).traverses (traverses_ofChars s.toList)
    rw [hmap, List.getElem?_map]
    exact ⟨w, by rw [elementAt]; cases s.toList[i]? <;> rfl⟩
  | list | seq | lazy => exact hskip (by rw [bind_assoc]; rfl)
  | _ => cases hs

theorem nth_ends (h : x.Walks n w ss err w') (hs : x.isIndexed = true) (hx : x.Formed made)
    {index : Int64} {i : Nat} (hi : indexOf? index = some i) : (x.nth index).Ends n w
      (atPlace err (ss.map Seq.first)[i]?
        (.error (.error (.indexOutOfBounds index (x.knownCount?.getD 0))))) := by
  have hdef : x.nth index = x.elementAt i >>= fun o =>
      o.elim (Act.fail (.indexOutOfBounds index (x.knownCount?.getD 0))) pure := by
    rw [nth, hi]
    cases x with
    | nil => cases hs
    | _ => exact bind_congr fun o => by cases o <;> rfl
  have habsent (w : World) : (Act.fail (.indexOutOfBounds index (x.knownCount?.getD 0)) :
      Act Value).Ends n w (.error (.error (.indexOutOfBounds index (x.knownCount?.getD 0)))) :=
    ⟨w, rfl⟩
  have helement := (h.elementAt_ends hs hx i).at_place (g := id)
    (f := fun o => o.elim (Act.fail (.indexOutOfBounds index (x.knownCount?.getD 0))) pure)
    (fun y w' => ⟨w', rfl⟩) habsent
  rw [Option.map_id_apply] at helement
  rw [hdef]
  exact helement

/-- Every reading of the value tells what a walk over it tells. -/
theorem readAs (h : x.Walks n w ss err w') (hs : x.isSeqable = true) (hx : x.Formed made)
    (hf : ∀ s ∈ ss, s.Formed made) (hn : ss.length + 1 < n) :
    x.ReadAs n w (ss.map Seq.first) err where
  count := by
    rw [List.length_map]
    exact h.count_ends hs hx hf (by omega)
  length := by
    rw [List.length_map]
    exact h.length_ends hf (by omega)
  toArray := h.toArray_ends hn
  second := h.firstAfter_ends 1
  third := h.firstAfter_ends 2
  fourth := h.firstAfter_ends 3
  nth hi _ _ := h.nth_ends hi hx

end Value.Walks

/-- Every reading of the sequence tells what a walk from it tells. -/
theorem Walked.readAs {made : Nat} (h : Walked n w (some s) ss err w') (hs : s.Formed made)
    (hss : ∀ t ∈ ss, t.Formed made) (hn : ss.length + 1 < n) :
    s.ReadAs n w (ss.map Seq.first) err := by
  refine ⟨Value.Walks.readAs (.seq rfl h) rfl hs hss hn, ?_⟩
  rw [List.length_map, ← Nat.zero_add ss.length]
  exact h.countFrom_ends hss (by omega) 0

end LispCore
