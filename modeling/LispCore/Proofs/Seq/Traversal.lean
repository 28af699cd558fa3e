import LispCore.Print.Render
import LispCore.Proofs.Act
import LispCore.Reduce
import LispCore.Value.Equality
import LispCore.Value.Hash
/-!
Sequences that hold their elements themselves. `Traverses` says that going on by `next?` gives just
these elements, and no step has an effect. A loop over a walk asks the walk for its elements and for
nothing else, so it does the same over any two sequences that give the same elements.
-/

namespace LispCore

/-- Going on by `next?` gives these elements and then ends, without any effect. -/
inductive Traverses : Option Seq → List Value → Prop
  | done : Traverses none []
  | next {s : Seq} {o : Option Seq} {xs : List Value} (hn : s.next? = pure o) (h : Traverses o xs) :
      Traverses (some s) (s.first :: xs)

namespace Traverses

variable {o o' : Option Seq} {x : Value} {xs ys : List Value} {rounds : Nat}

theorem eq_none (h : Traverses o []) : o = none := by
  cases h
  rfl

/-- The next pull hands out the first element. -/
theorem pull (h : Traverses o (x :: xs)) : ∃ t, Traverses t xs ∧
    Walk.pull { current := o } = pure (some (.ok x), { current := t }) := by
  cases h with
  | @next s t _ hn h =>
    refine ⟨t, h, ?_⟩
    show ((Act.attempt s.next?) >>= _) = _
    rw [hn]
    rfl

/-- Two traversals of the same elements end together or hand out one element. -/
theorem pull_alike (h : Traverses o xs) (h' : Traverses o' xs) :
    o = none ∧ o' = none ∨ ∃ x xs' t t', Traverses t xs' ∧ Traverses t' xs' ∧
      Walk.pull { current := o } = pure (some (.ok x), { current := t }) ∧
      Walk.pull { current := o' } = pure (some (.ok x), { current := t' }) := by
  cases xs with
  | nil => exact .inl ⟨h.eq_none, h'.eq_none⟩
  | cons x xs =>
    obtain ⟨t, ht, hp⟩ := h.pull
    obtain ⟨t', ht', hp'⟩ := h'.pull
    exact .inr ⟨x, xs, t, t', ht, ht', hp, hp'⟩

/-! ### Loops over walks -/

theorem collect_congr (h : Traverses o xs) (h' : Traverses o' xs) (out : Array Value) :
    Walk.collect rounds out { current := o } = Walk.collect rounds out { current := o' } := by
  induction rounds generalizing o o' xs out with
  | zero => rfl
  | succ rounds ih =>
    rcases pull_alike h h' with ⟨rfl, rfl⟩ | ⟨x, xs, t, t', ht, ht', hp, hp'⟩
    · rfl
    · rw [Walk.collect, Walk.collect, hp, hp', pure_bind, pure_bind]
      exact ih ht ht' (out.push x)

theorem pulls_congr (h : Traverses o xs) (h' : Traverses o' xs) :
    Walk.pulls rounds { current := o } = Walk.pulls rounds { current := o' } := by
  induction rounds generalizing o o' xs with
  | zero => rfl
  | succ rounds ih =>
    rcases pull_alike h h' with ⟨rfl, rfl⟩ | ⟨x, xs, t, t', ht, ht', hp, hp'⟩
    · rfl
    · rw [Walk.pulls, Walk.pulls, hp, hp', pure_bind, pure_bind]
      simp only [ih ht ht']

theorem feedItems_congr (feed : Value → Act (Array Token)) (h : Traverses o xs)
    (h' : Traverses o' xs) (out : Array Token) :
    Value.feedItems feed rounds out { current := o } =
      Value.feedItems feed rounds out { current := o' } := by
  induction rounds generalizing o o' xs out with
  | zero => rfl
  | succ rounds ih =>
    rcases pull_alike h h' with ⟨rfl, rfl⟩ | ⟨x, xs, t, t', ht, ht', hp, hp'⟩
    · rfl
    · rw [Value.feedItems, Value.feedItems, hp, hp', pure_bind, pure_bind]
      simp only [ih ht ht']

theorem run_congr (step : Step) (h : Traverses o xs) (h' : Traverses o' xs) (calls : Nat)
    (acc : Value) :
    Fold.run step rounds calls acc { current := o } =
      Fold.run step rounds calls acc { current := o' } := by
  induction rounds generalizing o o' xs calls acc with
  | zero => rfl
  | succ rounds ih =>
    rcases pull_alike h h' with ⟨rfl, rfl⟩ | ⟨x, xs, t, t', ht, ht', hp, hp'⟩
    · rfl
    · rw [Fold.run, Fold.run, hp, hp', pure_bind, pure_bind]
      simp only [ih ht ht']

theorem writeItems_congr (write : Value → Writing Unit) (limit : Option Nat) (h : Traverses o xs)
    (h' : Traverses o' xs) (i : Nat) :
    Print.writeItems write limit rounds i { current := o } =
      Print.writeItems write limit rounds i { current := o' } := by
  induction rounds generalizing o o' xs i with
  | zero => rfl
  | succ rounds ih =>
    rcases pull_alike h h' with ⟨rfl, rfl⟩ | ⟨x, xs, t, t', ht, ht', hp, hp'⟩
    · rfl
    · rw [Print.writeItems, Print.writeItems, hp, hp']
      have hact {α : Type} (a : α) : Writing.act (pure a) = pure a := rfl
      simp only [hact, pure_bind, ih ht ht']

/-! ### Comparing -/

variable (same : Value → Value → Act Bool)

theorem sameWalks_congr (h : Traverses o xs) (h' : Traverses o' xs) (walk : Walk) :
    Value.sameWalks same rounds { current := o } walk =
      Value.sameWalks same rounds { current := o' } walk := by
  induction rounds generalizing o o' xs walk with
  | zero => rfl
  | succ rounds ih =>
    rcases pull_alike h h' with ⟨rfl, rfl⟩ | ⟨x, xs, t, t', ht, ht', hp, hp'⟩
    · rfl
    · rw [Value.sameWalks, Value.sameWalks, hp, hp', pure_bind, pure_bind]
      refine bind_congr fun y => ?_
      rcases y with ⟨_ | _ | y, walk⟩
      · rfl
      · rfl
      · simp only [ih ht ht']

/-- Comparing two walks of as many elements is comparing the elements. -/
theorem sameWalks_eq (h : Traverses o xs) (h' : Traverses o' ys) (hl : xs.length = ys.length)
    (hr : xs.length < rounds) :
    Value.sameWalks same rounds { current := o } { current := o' } =
      Value.sameLists same xs ys := by
  induction rounds generalizing o o' xs ys with
  | zero => exact absurd hr (Nat.not_lt_zero _)
  | succ rounds ih =>
    match xs, ys with
    | [], [] =>
      rw [h.eq_none, h'.eq_none]
      rfl
    | x :: xs, y :: ys =>
      obtain ⟨t, ht, hp⟩ := h.pull
      obtain ⟨t', ht', hp'⟩ := h'.pull
      rw [Value.sameWalks, hp, hp', pure_bind, pure_bind, Value.sameLists]
      simp only [ih ht ht' (Nat.succ.inj hl) (Nat.lt_of_succ_lt_succ hr)]

end Traverses

/-! ### Values that are traversed alike -/

/-- The sequence of the value gives these elements, without any effect. -/
def Value.Holds (v : Value) (xs : List Value) : Prop :=
  ∃ o, v.seq? = pure o ∧ Traverses o xs

namespace Value.Holds

variable {a b : Value} {xs ys : List Value} {n : Nat} {w : World}

theorem walk (h : a.Holds xs) : ∃ o, Walk.of a = pure { current := o } ∧ Traverses o xs := by
  obtain ⟨o, ho, h⟩ := h
  exact ⟨o, by rw [Walk.of, ho, pure_bind], h⟩

theorem toArray_congr (h : a.Holds xs) (h' : b.Holds xs) : a.toArray = b.toArray := by
  obtain ⟨o, ho, h⟩ := h.walk
  obtain ⟨o', ho', h'⟩ := h'.walk
  simp only [toArray, ho, ho', pure_bind, h.collect_congr h']

theorem pulls_congr (h : a.Holds xs) (h' : b.Holds xs) (rounds : Nat) :
    (Walk.of a >>= Walk.pulls rounds) = (Walk.of b >>= Walk.pulls rounds) := by
  obtain ⟨o, ho, h⟩ := h.walk
  obtain ⟨o', ho', h'⟩ := h'.walk
  rw [ho, ho', pure_bind, pure_bind, h.pulls_congr h']

theorem reduce_congr (h : a.Holds xs) (h' : b.Holds xs) (init : Value) (step : Step) :
    a.reduce init step = b.reduce init step := by
  obtain ⟨o, ho, h⟩ := h.walk
  obtain ⟨o', ho', h'⟩ := h'.walk
  have hattempt {α : Type} (a : α) : Act.attempt (pure a) = pure (.ok a) := rfl
  simp only [reduce, Fold.of, ho, ho', hattempt, pure_bind, h.run_congr step h']

/-- Sequential values of the same elements feed the same tokens. -/
theorem feedAt_congr (digest : Array Token → UInt64) (ha : a.isSequential = true)
    (hb : b.isSequential = true) (h : a.Holds xs) (h' : b.Holds xs) :
    ∀ depth, feedAt digest depth a = feedAt digest depth b
  | 0 => rfl
  | depth + 1 => by
    obtain ⟨o, ho, h⟩ := h.walk
    obtain ⟨o', ho', h'⟩ := h'.walk
    have hattempt {α : Type} (a : α) : Act.attempt (pure a) = pure (.ok a) := rfl
    rw [feedAt_sequential digest depth ha, feedAt_sequential digest depth hb, ho, ho', hattempt,
      hattempt, pure_bind, pure_bind]
    simp only [h.feedItems_congr _ h']

/-- Sequential values of the same elements are written alike between the same brackets. -/
theorem writeSequence_congr (write : Value → Writing Unit) (limit : Option Nat)
    (opening closing : String) (h : a.Holds xs) (h' : b.Holds xs) :
    Print.writeSequence write limit opening closing a =
      Print.writeSequence write limit opening closing b := by
  obtain ⟨o, ho, h⟩ := h.walk
  obtain ⟨o', ho', h'⟩ := h'.walk
  have hact {α : Type} (a : α) : Writing.act (pure a) = pure a := rfl
  simp only [Print.writeSequence, ho, ho', hact, pure_bind, h.writeItems_congr write limit h']

/-! ### Comparing -/

variable {same : Value → Value → Act Bool}

/-- Sequential values of the same elements compare alike with another one. -/
theorem sameItems_congr (hc : a.knownCount? = b.knownCount?) (h : a.Holds xs) (h' : b.Holds xs)
    (y : Value) : sameItems same a y = sameItems same b y := by
  obtain ⟨o, ho, h⟩ := h.walk
  obtain ⟨o', ho', h'⟩ := h'.walk
  have hattempt {α : Type} (a : α) : Act.attempt (pure a) = pure (.ok a) := rfl
  simp only [sameItems, hc, ho, ho', hattempt, pure_bind, h.sameWalks_congr same h']

/-- Values that know how many elements they hold compare as the lists of their elements, when there
is budget for a walk. -/
theorem sameItems_eq (hca : a.knownCount? = some xs.length) (hcb : b.knownCount? = some ys.length)
    (h : a.Holds xs) (h' : b.Holds ys) (hn : xs.length < n) :
    sameItems same a b n w =
      (if xs.length = ys.length then sameLists same xs ys else pure false) n w := by
  obtain ⟨o, ho, h⟩ := h.walk
  obtain ⟨o', ho', h'⟩ := h'.walk
  rw [sameItems, hca, hcb]
  by_cases hl : xs.length = ys.length
  · rw [if_pos hl]
    have hattempt {α : Type} (a : α) : Act.attempt (pure a) = pure (.ok a) := rfl
    simp only [hl, bne_self_eq_false, ho, ho', hattempt, pure_bind]
    rw [← h.sameWalks_eq same h' hl hn]
    rfl
  · rw [if_neg hl]
    simp only [bne_iff_ne, ne_eq, hl, not_false_eq_true, if_true]

end Value.Holds

end LispCore
