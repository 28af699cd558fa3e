import LispCore.Proofs.Binding.Visible
/-!
Setting a var changes one binding. Two chains in sight have the same cell for a var exactly when the
innermost frames that bind it there are one frame, made by one push (`Scene.Sound.cell_eq_iff`). So a
value that is set through the innermost binding of a thread is seen on just the chains that inherit that
binding, wherever they are, and nothing else changes (`set_changes_one_binding`).
-/

namespace LispCore

/-- The innermost frame of a chain that binds a var itself. -/
def Chain.binder? (c : Chain) (v : Var) : Option Frame := c.find? fun f => f.pushed.any (·.1 = v)

namespace Binding

/-- The var has this value under this chain: that of its binding, else its root. -/
def Sees (w : World) (c : Chain) (v : Var) (x : Value) : Prop :=
  ∀ n, v.current n { w with chain := c } = .ok x { w with chain := c }

theorem sees_iff {w : World} {c : Chain} {v : Var} {x : Value} : Sees w c v x ↔
    ((if (w.varCell v).dynamic then c.cell? v else none).map (w.cells.getD · .nil)).or
      (w.varCell v).root = some x := by
  have h (n : Nat) := current_eq v (binding?_eq (n := n) (w := { w with chain := c }) v)
  have hcell : ({ w with chain := c } : World).varCell v = w.varCell v := rfl
  simp only [hcell] at h
  constructor
  · intro hs
    have h₀ := (hs 0).symm.trans (h 0)
    split at h₀
    next y hy =>
      cases h₀
      exact hy
    next => cases h₀
  · intro hx n
    rw [h n]
    simp only [hx]

/-! ### The frame of a binding -/

section

variable {c : Chain} {v : Var} {f : Frame} {cell : Nat}

theorem listed_iff {pairs : List (Var × Nat)} :
    pairs.any (·.1 = v) = true ↔ v ∈ pairs.map (·.1) := by
  simp [List.mem_map]

theorem binder?_eq_some_iff : c.binder? v = some f ↔ v ∈ f.pushed.map (·.1) ∧
    ∃ above below, c = above ++ f :: below ∧ ∀ g ∈ above, v ∉ g.pushed.map (·.1) := by
  rw [Chain.binder?, List.find?_eq_some_iff_append]
  simp only [Bool.not_eq_true', ← Bool.not_eq_true, listed_iff]

theorem binder?_eq_none_iff : c.binder? v = none ↔ ∀ f ∈ c, v ∉ f.pushed.map (·.1) := by
  rw [Chain.binder?, List.find?_eq_none]
  simp only [listed_iff]

/-- The cell that a search finds is that of the last pair of the var in the innermost frame that binds
it. -/
theorem searched?_eq_binder? (c : Chain) (v : Var) : c.searched? v =
    (c.binder? v).bind fun f => (f.pushed.reverse.find? (·.1 = v)).map (·.2) := by
  induction c with
  | nil => rfl
  | cons f c ih =>
    rw [Chain.searched?, List.findSome?_cons, Chain.binder?, List.find?_cons]
    cases hf : f.pushed.any (·.1 = v) with
    | true =>
      have hlast : (f.pushed.reverse.find? (·.1 = v)).map (·.2) ≠ none := by
        rw [ne_eq, last_eq_none_iff, not_not]
        exact listed_iff.mp hf
      obtain ⟨cell, hcell⟩ := Option.ne_none_iff_exists'.mp hlast
      simp only [hcell, Option.bind_some]
    | false =>
      have hnone : (f.pushed.reverse.find? (·.1 = v)).map (·.2) = none := by
        rw [last_eq_none_iff, ← listed_iff, hf]
        exact Bool.false_ne_true
      simp only [hnone]
      exact ih

end

namespace Scene

variable {s : Scene} {c c' : Chain} {f : Frame} {u v : Var} {a b : Nat}

/-- A chain that is in sight, or what pops leave of one. -/
def Sights (s : Scene) (c : Chain) : Prop := ∃ c₀, s.InSight c₀ ∧ c <:+ c₀

theorem Sights.holds {above : List Frame} {below : Chain} (h : s.Sights (above ++ f :: below)) :
    s.Holds f below := by
  obtain ⟨c₀, hin, hc⟩ := h
  exact ⟨c₀, hin, (List.suffix_append above (f :: below)).trans hc⟩

theorem Sights.suffix (h : s.Sights c) (hc : c' <:+ c) : s.Sights c' := by
  obtain ⟨c₀, hin, hsub⟩ := h
  exact ⟨c₀, hin, hc.trans hsub⟩

theorem sights_thread (s : Scene) (i : Nat) : s.Sights (s.threads i).chain :=
  ⟨_, .thread i, List.suffix_rfl⟩

namespace Sound

/-- The cell of a var is that of the last pair of the var in the innermost frame that binds it. -/
theorem cell?_eq (hs : s.Sound) (hc : s.Sights c) (v : Var) : c.cell? v =
    (c.binder? v).bind fun f => (f.pushed.reverse.find? (·.1 = v)).map (·.2) := by
  have htops : ∀ f below, c = f :: below → Tops f below := by
    rintro f below rfl
    exact hs.tops hc
  rw [cell?_eq_searched? htops, searched?_eq_binder?]

/-- A var that has a cell has it from a frame that binds it. -/
theorem exists_binder (hs : s.Sound) (hc : s.Sights c) (h : c.cell? v = some a) :
    ∃ f below, c.binder? v = some f ∧ s.Holds f below ∧ (v, a) ∈ f.pushed ∧
      (f.pushed.reverse.find? (·.1 = v)).map (·.2) = some a := by
  rw [hs.cell?_eq hc] at h
  obtain ⟨f, hf, hlast⟩ := Option.bind_eq_some_iff.mp h
  obtain ⟨-, above, below, rfl, -⟩ := binder?_eq_some_iff.mp hf
  obtain ⟨front, back, hpushed, -⟩ := last_eq_some_iff.mp hlast
  exact ⟨f, below, hf, hc.holds, by simp [hpushed], hlast⟩

theorem cell?_isSome_iff_binder? (hs : s.Sound) (hc : s.Sights c) :
    (c.cell? v).isSome ↔ (c.binder? v).isSome := by
  constructor
  · intro h
    obtain ⟨a, ha⟩ := Option.isSome_iff_exists.mp h
    obtain ⟨f, -, hf, -⟩ := hs.exists_binder hc ha
    rw [hf]
    rfl
  · intro h
    obtain ⟨f, hf⟩ := Option.isSome_iff_exists.mp h
    have hlast : (f.pushed.reverse.find? (·.1 = v)).map (·.2) ≠ none := by
      rw [ne_eq, last_eq_none_iff, not_not]
      exact (binder?_eq_some_iff.mp hf).1
    rw [hs.cell?_eq hc, hf]
    exact Option.isSome_iff_ne_none.mpr hlast

/-- A chain has a cell for just the vars that its frames bind. -/
theorem cell?_isSome_iff (hs : s.Sound) (hc : s.Sights c) :
    (c.cell? v).isSome ↔ ∃ f ∈ c, v ∈ f.pushed.map (·.1) := by
  rw [hs.cell?_isSome_iff_binder? hc, Option.isSome_iff_ne_none, ne_eq, binder?_eq_none_iff]
  push Not
  rfl

/-- No frame further out is the frame itself. -/
theorem binder?_below_ne {above : List Frame} {below : Chain} (hs : s.Sound)
    (hc : s.Sights (above ++ f :: below)) (v : Var) :
    (below.binder? v).map (·.id) ≠ some f.id := by
  intro hid
  obtain ⟨g, hg, hgid⟩ := Option.map_eq_some_iff.mp hid
  obtain ⟨-, above', below', rfl, -⟩ := binder?_eq_some_iff.mp hg
  have hsub : above' ++ g :: below' <:+ above ++ f :: (above' ++ g :: below') :=
    (List.suffix_cons f _).trans (List.suffix_append above _)
  have hlen := congrArg List.length (hs.linked (hc.suffix hsub).holds hc.holds hgid).2
  simp at hlen
  omega

/-- Chains share a cell for two vars exactly when these are one var, bound innermost by one push. -/
theorem cell_eq_iff (hs : s.Sound) (hc : s.Sights c) (hc' : s.Sights c') (hu : c.cell? u = some a)
    (hv : c'.cell? v = some b) :
    a = b ↔ u = v ∧ (c.binder? v).map (·.id) = (c'.binder? v).map (·.id) := by
  obtain ⟨f, below, hf, hfh, hfm, hlast⟩ := hs.exists_binder hc hu
  obtain ⟨g, below', hg, hgh, hgm, hlast'⟩ := hs.exists_binder hc' hv
  constructor
  · rintro rfl
    obtain ⟨rfl, hp⟩ := hs.apart hfh hgh hfm hgm rfl
    obtain ⟨rfl, -⟩ := Prod.mk.inj hp
    exact ⟨rfl, by rw [hf, hg]⟩
  · rintro ⟨rfl, hid⟩
    rw [hf, hg] at hid
    obtain ⟨rfl, -⟩ := hs.linked hfh hgh (Option.some.inj hid)
    exact Option.some.inj (hlast.symm.trans hlast')

end Sound

end Scene

/-! ### Setting -/

section

variable {cells : Array Value} {a b : Nat} {x : Value}

theorem getD_setIfInBounds_self (h : a < cells.size) :
    (cells.setIfInBounds a x).getD a .nil = x := by
  simp [Array.getD_eq_getD_getElem?, Array.getElem?_setIfInBounds_self_of_lt h]

theorem getD_setIfInBounds_ne (h : a ≠ b) :
    (cells.setIfInBounds a x).getD b .nil = cells.getD b .nil := by
  simp only [Array.getD_eq_getD_getElem?, Array.getElem?_setIfInBounds_ne h]

end

variable {s : Scene} {i n : Nat} {v : Var} {x : Value} {a : Nat}

/-- The value that is set is seen under the chains that inherit the binding, and every other var has the
value that it had. -/
theorem sees_set_iff (hs : s.Sound) (hd : (s.world.varCell v).dynamic = true)
    (ha : (s.threads i).chain.cell? v = some a) {c : Chain} (hc : s.Sights c) (u : Var) (y : Value) :
    Sees { s.world with cells := s.world.cells.setIfInBounds a x } c u y ↔
      if u = v ∧ (c.binder? v).map (·.id) = ((s.threads i).chain.binder? v).map (·.id) then y = x
      else Sees s.world c u y := by
  have hthread := s.sights_thread i
  obtain ⟨f, below, hf, hfh, hfm, -⟩ := hs.exists_binder hthread ha
  have hlt : a < s.world.cells.size := (hs.within hfh).pushed _ hfm
  have hcell : ({ s.world with cells := s.world.cells.setIfInBounds a x } : World).varCell u =
      s.world.varCell u := rfl
  rw [sees_iff, sees_iff, hcell]
  by_cases hdu : (s.world.varCell u).dynamic = true
  · rw [if_pos hdu]
    cases hu : c.cell? u with
    | none =>
      -- the chain does not bind the var, so what is set is another binding
      have hne : ¬(u = v ∧ (c.binder? v).map (·.id) = ((s.threads i).chain.binder? v).map (·.id)) := by
        rintro ⟨rfl, hid⟩
        have hnone : ¬(c.binder? u).isSome := by
          rw [← hs.cell?_isSome_iff_binder? hc, hu]
          exact Bool.false_ne_true
        rw [hf, Option.not_isSome_iff_eq_none.mp hnone] at hid
        cases hid
      rw [if_neg hne]
      rfl
    | some b =>
      by_cases hab : b = a
      · rw [if_pos ((hs.cell_eq_iff hc hthread hu ha).mp hab), hab]
        simp only [Option.map_some, Option.some_or, getD_setIfInBounds_self hlt]
        rw [Option.some_inj]
        exact eq_comm
      · rw [if_neg fun h => hab ((hs.cell_eq_iff hc hthread hu ha).mpr h)]
        simp only [Option.map_some, getD_setIfInBounds_ne (Ne.symm hab)]
  · have hne : u ≠ v := by
      rintro rfl
      exact hdu hd
    rw [if_neg hdu, if_neg fun h => hne h.1]
    rfl

/-- The numbers tell the frames of a thread's chain apart. -/
theorem Scene.Sound.above_ne (hs : s.Sound) {above : List Frame} {f : Frame} {below : Chain}
    (hc : (s.threads i).chain = above ++ f :: below) : ∀ g ∈ above, g.id ≠ f.id := by
  intro g hg hid
  obtain ⟨front, back, rfl⟩ := List.append_of_mem hg
  rw [List.append_assoc, List.cons_append] at hc
  have hsub : g :: (back ++ f :: below) <:+ (s.threads i).chain :=
    hc ▸ List.suffix_append front (g :: (back ++ f :: below))
  have hg : s.Holds g (back ++ f :: below) := ⟨_, .thread i, hsub⟩
  have hf : s.Holds f below :=
    ⟨_, .thread i, (List.suffix_append (g :: back) (f :: below)).trans hsub⟩
  -- one frame would stand on two chains of different lengths
  have hlen := congrArg List.length (hs.linked hg hf hid).2
  simp at hlen
  omega

/-- Setting a var changes one binding and nothing else. Whatever threads have done, a thread can set a
var exactly when the var may be bound and a frame on the chain of the thread binds it; otherwise it fails
and nothing changes. What changes is the cell of the innermost binding: under every chain in sight, of a
thread, set aside by an open region or in a snapshot, and under what pops leave of it, the var has the new
value if its innermost binding there was made by the same push, and in all other cases each var has the
value that it had. No other pair of any frame has another value. When the frame that made the binding
goes, the var has the value again that it had under the chain below. -/
theorem set_changes_one_binding {s : Scene} (hs : s.ReachedBy KeepsCells) (i n : Nat) (v : Var)
    (x : Value) :
    (¬((s.world.varCell v).dynamic = true ∧ ∃ f ∈ (s.threads i).chain, v ∈ f.pushed.map (·.1)) →
      v.set x n (s.seen i) =
        .error (.error (.noThreadBinding (s.world.varCell v).label.text)) (s.seen i)) ∧
    ((s.world.varCell v).dynamic = true → (∃ f ∈ (s.threads i).chain, v ∈ f.pushed.map (·.1)) →
      ∃ f cell w', (s.threads i).chain.binder? v = some f ∧ (v, cell) ∈ f.pushed ∧
        v.set x n (s.seen i) = .ok () w' ∧
        w' = { s.seen i with cells := s.world.cells.setIfInBounds cell x } ∧
        s.act i n (.set v x) = { s with world := w' } ∧
        (∀ c, s.Sights c → ∀ u y, Sees w' c u y ↔
          if u = v ∧ (c.binder? v).map (·.id) = some f.id then y = x else Sees s.world c u y) ∧
        (∀ g below, s.Holds g below → ∀ p ∈ g.pushed,
          ((v, cell) ∈ g.pushed → g = f) ∧
          w'.cells.getD p.2 .nil = if p = (v, cell) then x else s.world.cells.getD p.2 .nil) ∧
        ∃ above below, (s.threads i).chain = above ++ f :: below ∧
          (∀ m, ∃ notices, dropGuard ⟨f.id⟩ m w' = .ok () { w' with notices, chain := below }) ∧
          (∀ m, above = [] → f.guarded = false → f.pushed.map (·.1) = [v] →
            pop v m w' = .ok () { w' with chain := below }) ∧
          ∀ u y, Sees w' below u y ↔ Sees s.world below u y) := by
  have hsound := Scene.reachedBy_sound id hs
  have hthread := s.sights_thread i
  have hset := set_eq (n := n) (w := s.seen i) v x
  have hcell : (s.seen i).varCell v = s.world.varCell v := rfl
  have hchain : (s.seen i).chain = (s.threads i).chain := rfl
  rw [hcell, hchain] at hset
  rw [← hsound.cell?_isSome_iff hthread]
  refine ⟨fun hno => ?_, fun hd hsome => ?_⟩
  · have hnone : (if (s.world.varCell v).dynamic then (s.threads i).chain.cell? v else none) = none := by
      split_ifs with hd
      · exact Option.not_isSome_iff_eq_none.mp fun h => hno ⟨hd, h⟩
      · rfl
    rw [hset, hnone]
  · obtain ⟨a, ha⟩ := Option.isSome_iff_exists.mp hsome
    obtain ⟨f, below₀, hf, hfh, hfm, -⟩ := hsound.exists_binder hthread ha
    rw [if_pos hd, ha] at hset
    have hact : s.act i n (.set v x) =
        { s with world := { s.seen i with cells := s.world.cells.setIfInBounds a x } } := by
      rw [Scene.act, Op.run, Act.worldAfter_of_ok hset, Scene.keep]
      exact congrArg (Scene.mk _ · s.snapshots) (Function.update_eq_self i s.threads)
    have hsees : ∀ c, s.Sights c → ∀ u y,
        Sees { s.seen i with cells := s.world.cells.setIfInBounds a x } c u y ↔
          if u = v ∧ (c.binder? v).map (·.id) = some f.id then y = x else Sees s.world c u y := by
      intro c hc u y
      have h := sees_set_iff (x := x) hsound hd ha hc u y
      rw [hf] at h
      exact h
    refine ⟨f, a, _, hf, hfm, hset, rfl, hact, hsees, fun g below hg p hp => ⟨fun hm => ?_, ?_⟩, ?_⟩
    · exact (hsound.apart hg hfh hm hfm rfl).1
    · split_ifs with hpv
      · rw [hpv]
        exact getD_setIfInBounds_self ((hsound.within hfh).pushed _ hfm)
      · refine getD_setIfInBounds_ne fun hap => hpv ?_
        exact (hsound.apart hg hfh hp hfm hap.symm).2
    · obtain ⟨-, above, below, hc, -⟩ := binder?_eq_some_iff.mp hf
      have hsub : below <:+ above ++ f :: below :=
        (List.suffix_cons f below).trans (List.suffix_append above (f :: below))
      have hbelow : s.Sights below := hthread.suffix (hc ▸ hsub)
      refine ⟨above, below, hc, fun m => ?_, fun m habove hg hv => ?_, fun u y => ?_⟩
      · exact dropGuard_of_append hc (hsound.above_ne hc)
      · subst habove
        rw [pop_eq]
        simp [Scene.seen, hc, hg, hv]
      · refine (hsees below hbelow u y).trans (iff_of_eq (if_neg ?_))
        exact fun h => hsound.binder?_below_ne (hc ▸ hthread) v h.2

/-- A var set through a binding that another thread conveyed and bound again since. -/
theorem set_changes_one_binding_conveyed :
    let v : Var := ⟨0⟩
    let s : Scene := .start { vars := #[{ label := .anonymous 0, dynamic := true }] }
    let pushed := s.act 0 0 (.push v (.int 1))
    let taken : Scene :=
      { pushed.keep 0 (pushed.seen 0) [] with
        snapshots := [⟨(pushed.threads 0).chain⟩, .empty] }
    let entered := taken.keep 1 { taken.seen 1 with chain := (pushed.threads 0).chain } [⟨[]⟩]
    let t := entered.act 0 0 (.push v (.int 2))
    t.ReachedBy KeepsCells ∧ ∃ w', v.set (.int 9) 0 (t.seen 1) = .ok () w' ∧
      Sees w' (t.threads 1).chain v (.int 9) ∧ Sees w' (t.threads 0).chain v (.int 2) ∧
      Sees w' (pushed.threads 0).chain v (.int 9) := by
  intro v s pushed taken entered t
  have hpushed : pushed.ReachedBy KeepsCells :=
    .step (.start _) (.op (.push v (.int 1)) 0 fun _ h => by cases h) (Nat.zero_le _)
  have htaken : taken.ReachedBy KeepsCells :=
    .step hpushed (.capture (n := 0) (i := 0) rfl) (Nat.le_refl _)
  have hentered : entered.ReachedBy KeepsCells :=
    .step htaken (.enter (n := 0) (f := ⟨(pushed.threads 0).chain⟩) (i := 1) List.mem_cons_self rfl)
      (Nat.le_refl _)
  have ht : t.ReachedBy KeepsCells :=
    .step hentered (.op (.push v (.int 2)) 0 fun _ h => by cases h) (show 1 ≤ 2 by decide)
  obtain ⟨f, cell, w', hf, -, hset, -, -, hsees, -⟩ :=
    (set_changes_one_binding ht 1 0 v (.int 9)).2 rfl (by decide)
  have hown : (t.threads 1).chain = (pushed.threads 0).chain := rfl
  have hid : f.id = 0 := by
    have h : ((t.threads 1).chain.binder? v).map (·.id) = some 0 := rfl
    rw [hf] at h
    exact Option.some.inj h
  refine ⟨ht, w', hset, ?_, ?_, ?_⟩
  · rw [hsees _ (t.sights_thread 1), hf]
    simp
  · rw [hsees _ (t.sights_thread 0), hid, if_neg (by decide), sees_iff]
    rfl
  · rw [← hown, hsees _ (t.sights_thread 1), hf]
    simp

end Binding

end LispCore
