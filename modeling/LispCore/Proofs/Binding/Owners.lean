import LispCore.Proofs.Binding.Guards
/-!
Guards dropped in any order. A thread that enters no snapshot has on its chain the guarded frames of
guards that it still holds, and manual frames of one var each, with numbers that grow towards the top
(`Owned`). Each operation keeps this (`Owned.run`), so a guard that is dropped cuts the chain right below
its frame or finds nothing to cut, and once all guards are dropped the rest can be popped
(`guards_leave_no_orphan`).
-/

namespace LispCore.Binding

/-! ### Guards held -/

/-- The guards that a thread holds after an operation: the one that it made comes in addition, the one
that it dropped is gone. -/
def Op.heldAfter (n : Nat) (w : World) (held : List BindingGuard) : Op → List BindingGuard
  | .pushGuarded pairs =>
    match Binding.pushGuarded pairs n w with
    | .ok g _ => g :: held
    | .error _ _ => held
  | .dropGuard g => held.erase g
  | _ => held

/-- What a thread without bindings comes to, and which guards it then holds, when it enters no snapshot
and drops its guards in whatever order; other threads do anything. -/
inductive Scene.Held (i : Nat) : Scene → List BindingGuard → Prop
  | start {s : Scene} (hs : Reached s) (hc : (s.threads i).chain = []) : Held i s []
  | own {s : Scene} {held : List BindingGuard} (h : Held i s held) (o : Op) (n : Nat)
      (hd : ∀ g, o = .dropGuard g → g ∈ held) :
      Held i (s.act i n o) (o.heldAfter n (s.seen i) held)
  | other {s t : Scene} {j : Nat} {held : List BindingGuard} (h : Held i s held) (hj : j ≠ i)
      (hs : Step j (fun _ => True) s t) : Held i t held

/-- Pops of several vars, one after the other. -/
def popEach : List Var → Act Unit
  | [] => pure ()
  | v :: vs => do
    pop v
    popEach vs

theorem Scene.Held.reached {i : Nat} {s : Scene} {held : List BindingGuard} (h : s.Held i held) :
    s.Reached := by
  induction h with
  | start hs => exact hs
  | own _ o n _ ih => exact .step ih (.op o n fun _ _ => trivial)
  | other _ _ hs ih => exact .step ih hs

/-! ### Owned chains -/

/-- A chain whose frames have numbers that grow towards the top; the guarded ones belong to guards that
are held, the manual ones bind one var. -/
structure Owned (held : List BindingGuard) (c : Chain) : Prop where
  sorted : c.Pairwise fun f g => g.id < f.id
  guarded : ∀ f ∈ c, f.guarded = true → ⟨f.id⟩ ∈ held
  manual : ∀ f ∈ c, f.guarded = false → ∃ v, f.pushed.map (·.1) = [v]

namespace Owned

variable {held : List BindingGuard} {c : Chain} {f : Frame} {w : World} {n : Nat}

theorem nil (held : List BindingGuard) : Owned held [] := ⟨.nil, nofun, nofun⟩

theorem cons (h : Owned held c) (hlt : ∀ g ∈ c, g.id < f.id)
    (hg : f.guarded = true → ⟨f.id⟩ ∈ held)
    (hm : f.guarded = false → ∃ v, f.pushed.map (·.1) = [v]) : Owned held (f :: c) :=
  ⟨h.sorted.cons hlt, List.forall_mem_cons.mpr ⟨hg, h.guarded⟩,
    List.forall_mem_cons.mpr ⟨hm, h.manual⟩⟩

theorem mono {held' : List BindingGuard} (h : Owned held c) (hsub : held ⊆ held') : Owned held' c :=
  ⟨h.sorted, fun f hf hg => hsub (h.guarded f hf hg), h.manual⟩

theorem suffix {c' : Chain} (h : Owned held c) (hs : c' <:+ c) : Owned held c' :=
  ⟨h.sorted.sublist hs.sublist, fun f hf => h.guarded f (hs.subset hf),
    fun f hf => h.manual f (hs.subset hf)⟩

/-- The numbers tell the frames of the chain apart. -/
theorem above_ne {above : List Frame} {below : Chain} (h : Owned held (above ++ f :: below)) :
    ∀ g ∈ above, g.id ≠ f.id := fun g hg =>
  Nat.ne_of_gt ((List.pairwise_append.mp h.sorted).2.2 g hg f List.mem_cons_self)

/-- A dropped guard leaves no frame of its own behind. -/
theorem drop (h : Owned held c) (g : BindingGuard) :
    Owned (held.erase g) (if c.holds g.frame then c.below g.frame else c) := by
  have kept {c' : Chain} (h' : Owned held c') (hne : ∀ f ∈ c', f.id ≠ g.frame) :
      Owned (held.erase g) c' := by
    refine ⟨h'.sorted, fun f hf hg => ?_, h'.manual⟩
    have hfg : (⟨f.id⟩ : BindingGuard) ≠ g := fun he => hne f hf (congrArg BindingGuard.frame he)
    exact (List.mem_erase_of_ne hfg).mpr (h'.guarded f hf hg)
  by_cases hh : c.holds g.frame = true
  · obtain ⟨f, hf, hid⟩ := List.any_eq_true.mp hh
    have hid : f.id = g.frame := beq_iff_eq.mp hid
    obtain ⟨above, below, rfl⟩ := List.append_of_mem hf
    rw [if_pos hh, ← hid, Chain.below_of_ne h.above_ne]
    have hrest : Owned held (f :: below) := h.suffix (List.suffix_append above (f :: below))
    refine kept (hrest.suffix (List.suffix_cons f below)) fun k hk => ?_
    rw [← hid]
    exact Nat.ne_of_lt ((List.pairwise_cons.mp hrest.sorted).1 k hk)
  · rw [if_neg hh]
    refine kept h fun f hf hid => hh ?_
    exact List.any_eq_true.mpr ⟨f, hf, beq_iff_eq.mpr hid⟩

/-- A frame that is put on the chain has the largest number. -/
theorem framed (h : Owned held w.chain) (hn : Numbered w.nextFrame w.chain)
    (pairs : List (Var × Value)) (guarded : Bool)
    (hg : guarded = true → ⟨w.nextFrame⟩ ∈ held)
    (hm : guarded = false → ∃ v, pairs.map (·.1) = [v]) :
    Owned held (Binding.framed w pairs guarded).chain := by
  obtain ⟨f, hc, hid, rfl, hvars⟩ := chain_framed w pairs guarded
  rw [hc]
  refine h.cons (fun k hk => hid ▸ hn k hk) (fun h => hid ▸ hg h) fun h => ?_
  rw [hvars]
  exact hm h

/-- Every operation keeps a chain owned by the guards that are held then. -/
theorem run (h : Owned held w.chain) (hn : Numbered w.nextFrame w.chain) (o : Op) :
    Owned (o.heldAfter n w held) (o.run.worldAfter n w).chain := by
  cases o with
  | push v x =>
    rw [Op.run, Act.worldAfter, push_eq]
    by_cases hd : (w.varCell v).dynamic = true
    · rw [if_pos hd]
      exact h.framed hn [(v, x)] false (fun hg => absurd hg Bool.false_ne_true) fun _ => ⟨v, rfl⟩
    · rw [if_neg hd]
      exact h
  | pop v =>
    rw [Op.run]
    rcases pop_cases (n := n) (w := w) v with ⟨f, below, hc, -, -, hp⟩ | ⟨detail, hp⟩
    · rw [Act.worldAfter_of_ok hp]
      exact h.suffix (hc ▸ List.suffix_cons f below)
    · rw [Act.worldAfter_of_error hp]
      exact h
  | pushGuarded pairs =>
    have hp := pushGuarded_eq (n := n) (w := w) pairs
    rw [Op.run, Op.heldAfter]
    cases hv : (pairs.map (·.1)).find? fun v => !(w.varCell v).dynamic with
    | none =>
      rw [hv] at hp
      rw [Act.worldAfter, Act.bind_of_ok hp, hp]
      have h' := h.mono (List.subset_cons_self ⟨w.nextFrame⟩ held)
      exact h'.framed hn pairs true (fun _ => List.mem_cons_self)
        fun hm => absurd hm.symm Bool.false_ne_true
    | some v =>
      rw [hv] at hp
      rw [Act.worldAfter, Act.bind_of_error hp, hp]
      exact h
  | dropGuard g =>
    obtain ⟨notices, hd⟩ := dropGuard_eq (n := n) g w
    rw [Op.run, Act.worldAfter_of_ok hd]
    exact h.drop g
  | set v x =>
    rw [Op.run]
    rcases set_cases (n := n) (w := w) v x with ⟨cell, -, -, hs⟩ | ⟨name, hs⟩
    · rw [Act.worldAfter_of_ok hs]
      exact h
    · rw [Act.worldAfter_of_error hs]
      exact h

/-- A chain that no guard owns is one of manual frames. -/
theorem exists_vars : ∀ {c : Chain}, Owned [] c → ∃ vs : List Var,
    c.map (fun f => (f.guarded, f.pushed.map (·.1))) = vs.map fun v => (false, [v])
  | [], _ => ⟨[], rfl⟩
  | f :: c, h => by
    have hf : f.guarded = false := by
      by_contra hg
      exact List.not_mem_nil (h.guarded f List.mem_cons_self (by simpa using hg))
    obtain ⟨v, hv⟩ := h.manual f List.mem_cons_self hf
    obtain ⟨vs, hvs⟩ := exists_vars (h.suffix (List.suffix_cons f c))
    exact ⟨v :: vs, by rw [List.map_cons, List.map_cons, hvs, hf, hv]⟩

end Owned

/-- Every chain that a thread comes to so is owned by the guards that it holds. -/
theorem Scene.Held.owned {i : Nat} {s : Scene} {held : List BindingGuard} (h : s.Held i held) :
    Owned held (s.threads i).chain := by
  induction h with
  | start _ hc =>
    rw [hc]
    exact .nil []
  | @own s held h o n _ ih =>
    rw [act, keep_self]
    have hn : Binding.Numbered s.world.nextFrame (s.seen i).chain :=
      (reached_numbered h.reached).chain i
    exact Owned.run (w := s.seen i) ih hn o
  | other _ hj hs ih =>
    rw [hs.threads_of_ne hj.symm]
    exact ih

/-- The pops of manual frames succeed one after the other, innermost first. -/
theorem popEach_eq : ∀ {vs : List Var} {w : World} {n : Nat},
    w.chain.map (fun f => (f.guarded, f.pushed.map (·.1))) = vs.map (fun v => (false, [v])) →
      ∀ k, popEach (vs.take k) n w = .ok () { w with chain := w.chain.drop k }
  | _, _, _, _, 0 => by rw [List.take_zero, List.drop_zero]; rfl
  | [], w, _, h, k + 1 => by
    have hc : w.chain = [] := by simpa using h
    rw [List.take_nil, hc, List.drop_nil, ← hc]
    rfl
  | v :: vs, w, n, h, k + 1 => by
    cases hc : w.chain with
    | nil => simp [hc] at h
    | cons f below =>
      rw [hc, List.map_cons, List.map_cons] at h
      obtain ⟨hf, hbelow⟩ := List.cons.inj h
      obtain ⟨hg, hv⟩ := Prod.mk.inj hf
      have hp : pop v n w = .ok () { w with chain := below } := by
        rw [pop_eq, hc]
        simp [hg, hv]
      rw [List.take_succ_cons, popEach, Act.bind_of_ok hp, List.drop_succ_cons]
      exact popEach_eq (w := { w with chain := below }) hbelow k

/-- Guards dropped in any order leave no orphan frame. Let a thread without bindings push, pop and set,
and make guards and drop each of them once, in whatever order. At every point each guarded frame on its
chain belongs to a guard that it still holds. A guard whose frame is not on the chain changes nothing
when it is dropped, but for a notice; one whose frame is there leaves just the chain below it. Once all
guards are dropped only frames of manual pushes are left, and pops of their vars take them off one by
one, innermost first. -/
theorem guards_leave_no_orphan {i : Nat} {s : Scene} {held : List BindingGuard}
    (h : s.Held i held) :
    (∀ f ∈ (s.threads i).chain, f.guarded = true → ⟨f.id⟩ ∈ held) ∧
    (∀ g n, (∀ f ∈ (s.threads i).chain, f.id ≠ g.frame) →
      ∃ notices, dropGuard g n (s.seen i) = .ok () { s.seen i with notices }) ∧
    (∀ g n above f below, (s.threads i).chain = above ++ f :: below → f.id = g.frame →
      ∃ notices, dropGuard g n (s.seen i) = .ok () { s.seen i with notices, chain := below }) ∧
    (held = [] → ∃ vs : List Var,
      (s.threads i).chain.map (fun f => (f.guarded, f.pushed.map (·.1))) =
        vs.map (fun v => (false, [v])) ∧
      ∀ n k, popEach (vs.take k) n (s.seen i) =
        .ok () { s.seen i with chain := (s.threads i).chain.drop k }) := by
  have ho := h.owned
  refine ⟨ho.guarded, fun g n hne => ?_, fun g n above f below hc hid => ?_, ?_⟩
  · obtain ⟨notices, hd⟩ := dropGuard_eq (n := n) g (s.seen i)
    have hh : ¬(s.seen i).chain.holds g.frame = true := by
      rw [Chain.holds, List.any_eq_true]
      rintro ⟨f, hf, hid⟩
      exact hne f hf (beq_iff_eq.mp hid)
    rw [if_neg hh] at hd
    exact ⟨notices, hd⟩
  · obtain rfl : g = ⟨f.id⟩ := congrArg BindingGuard.mk hid.symm
    exact dropGuard_of_append hc (hc ▸ ho).above_ne
  · rintro rfl
    obtain ⟨vs, hvs⟩ := ho.exists_vars
    exact ⟨vs, hvs, fun n k => popEach_eq (w := s.seen i) hvs k⟩

/-- The older of two guards is dropped first and takes a manual frame and the frame of the newer one
along; the newer one is dropped when another manual frame has been pushed since. -/
theorem guards_leave_no_orphan_crossed :
    let v : Var := ⟨0⟩
    let s : Scene := .start { vars := #[{ label := .anonymous 0, dynamic := true }] }
    let opened := ((s.act 0 0 (.pushGuarded [(v, .int 1)])).act 0 0 (.push v (.int 2))).act 0 0
      (.pushGuarded [(v, .int 3)])
    let pushed := (opened.act 0 0 (.dropGuard ⟨0⟩)).act 0 0 (.push v (.int 4))
    let t := pushed.act 0 0 (.dropGuard ⟨2⟩)
    pushed.Held 0 [⟨2⟩] ∧ t.Held 0 [] ∧
      (∃ notices, dropGuard ⟨2⟩ 0 (pushed.seen 0) = .ok () { pushed.seen 0 with notices }) ∧
      popEach [v] 0 (t.seen 0) = .ok () { t.seen 0 with chain := (t.threads 0).chain.drop 1 } ∧
      (t.threads 0).chain.length = 1 := by
  intro v s opened pushed t
  have hopened : opened.Held 0 [⟨2⟩, ⟨0⟩] :=
    (((Scene.Held.start (.start _) rfl).own (.pushGuarded [(v, .int 1)]) 0 nofun).own
      (.push v (.int 2)) 0 nofun).own (.pushGuarded [(v, .int 3)]) 0 nofun
  have hpushed : pushed.Held 0 [⟨2⟩] := by
    refine (hopened.own (.dropGuard ⟨0⟩) 0 ?_).own (.push v (.int 4)) 0 nofun
    rintro _ ⟨⟩
    exact List.mem_cons_of_mem _ List.mem_cons_self
  have ht : t.Held 0 [] := by
    refine hpushed.own (.dropGuard ⟨2⟩) 0 ?_
    rintro _ ⟨⟩
    exact List.mem_cons_self
  obtain ⟨-, hmissed, -⟩ := guards_leave_no_orphan hpushed
  obtain ⟨-, -, -, hpops⟩ := guards_leave_no_orphan ht
  obtain ⟨vs, hvs, hpop⟩ := hpops rfl
  have hmanual : (t.threads 0).chain.map (fun f => (f.guarded, f.pushed.map (·.1))) =
      [v].map fun v => (false, [v]) := by decide
  have hv : vs = [v] := by
    rw [hvs] at hmanual
    exact (List.map_inj_right fun _ _ h => by simpa using h).mp hmanual
  have hpop := hpop 0 1
  rw [hv] at hpop
  exact ⟨hpushed, ht, hmissed ⟨2⟩ 0 (by decide), hpop, by decide⟩

end LispCore.Binding
