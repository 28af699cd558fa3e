import LispCore.Proofs.Binding.Scene
/-!
Binding guards restore their creation point. Outside the regions opened since, the chain of the
thread that made a guard is the chain of that moment, the frame of the guard, and frames made later
(`Covers`). Each step keeps this (`Scene.Step.kept`), so whatever the thread does in between,
dropping the guard puts back the chain of the moment at which it was made (`dropGuard_restores`).
-/

namespace LispCore.Binding

/-- A chain that a guarded frame was put on, with frames above it that were made later. -/
structure Covers (c : Chain) (f : Frame) (base : Chain) : Prop where
  split : ∃ above, c = above ++ f :: base ∧ ∀ h ∈ above, f.id < h.id
  guarded : f.guarded = true
  older : ∀ h ∈ base, h.id < f.id

/-- The chain in force outside all of these regions. -/
def outside : List FrameGuard → Chain → Chain
  | [], c => c
  | g :: gs, _ => outside gs g.saved

/-! ### Chains -/

/-- Cutting below a frame that is on top somewhere leaves the part from there on. -/
theorem Chain.below_append {id : Nat} {c : Chain} : ∀ {above : List Frame},
    (∃ h ∈ above, h.id = id) →
    ∃ rest, (∀ h ∈ rest, h ∈ above) ∧ Chain.below (above ++ c) id = rest ++ c
  | [], ⟨h, hh, _⟩ => absurd hh List.not_mem_nil
  | a :: as, ⟨h, hh, hid⟩ => by
    by_cases ha : a.id = id
    · refine ⟨as, fun h => List.mem_cons_of_mem a, ?_⟩
      rw [Chain.below, List.cons_append, List.dropWhile_cons_of_neg (by simpa using ha)]
      rfl
    · rcases List.mem_cons.mp hh with rfl | hh
      · exact absurd hid ha
      · obtain ⟨rest, hsub, hrest⟩ := below_append (c := c) ⟨h, hh, hid⟩
        refine ⟨rest, fun h hm => List.mem_cons_of_mem a (hsub h hm), ?_⟩
        rw [Chain.below, List.cons_append, List.dropWhile_cons_of_pos (by simpa using ha)]
        exact hrest

namespace Covers

variable {c base : Chain} {f : Frame}

theorem holds (h : Covers c f base) : c.holds f.id = true := by
  obtain ⟨above, rfl, -⟩ := h.split
  exact List.any_eq_true.mpr ⟨f, by simp, beq_self_eq_true _⟩

theorem below (h : Covers c f base) : c.below f.id = base := by
  obtain ⟨above, rfl, hlt⟩ := h.split
  exact Chain.below_of_ne fun h hh => Nat.ne_of_gt (hlt h hh)

/-- An operation that drops no guard as old as the frame works above the frame. -/
theorem reshaped {o : Op} {w w' : World} (hs : Reshaped o w w')
    (ho : ∀ g, o = .dropGuard g → f.id < g.frame) (hn : f.id < w.nextFrame)
    (h : Covers w.chain f base) : Covers w'.chain f base := by
  refine ⟨?_, h.guarded, h.older⟩
  obtain ⟨above, hw, hlt⟩ := h.split
  cases hs with
  | same hc => exact ⟨above, hc.trans hw, hlt⟩
  | pushed top hid hc =>
    refine ⟨top :: above, by rw [hc, hw, List.cons_append], ?_⟩
    exact List.forall_mem_cons.mpr ⟨hid ▸ hn, hlt⟩
  | popped top htop hc =>
    rw [hc] at hw
    cases above with
    | nil =>
      -- the frame itself is guarded, so it is not what a pop takes off
      obtain ⟨rfl, -⟩ := List.cons.inj hw
      rw [h.guarded] at htop
      cases htop
    | cons a as => exact ⟨as, (List.cons.inj hw).2, (List.forall_mem_cons.mp hlt).2⟩
  | cut g hg hh hc =>
    have hnew : f.id < g.frame := ho g hg
    obtain ⟨x, hx, hid⟩ := List.any_eq_true.mp hh
    have hid : x.id = g.frame := beq_iff_eq.mp hid
    -- neither the frame nor one below it has the number of a newer guard
    have hmem : ∃ h ∈ above, h.id = g.frame := by
      rw [hw, List.mem_append, List.mem_cons] at hx
      rcases hx with hx | rfl | hx
      · exact ⟨x, hx, hid⟩
      · omega
      · have := h.older x hx
        omega
    obtain ⟨rest, hsub, hrest⟩ := Chain.below_append (c := f :: base) hmem
    exact ⟨rest, by rw [hc, hw, hrest], fun h hh => hlt h (hsub h hh)⟩

end Covers

/-! ### Runs -/

/-- Since the regions of a moment, more may have been opened; outside of those the chain covers the
frame. -/
def Kept (regions : List FrameGuard) (f : Frame) (base : Chain) (t : Thread) : Prop :=
  ∃ opened, t.regions = opened ++ regions ∧ Covers (outside opened t.chain) f base

namespace Scene

variable {i : Nat} {f : Frame} {base : Chain} {regions : List FrameGuard}

/-- One step of the thread works above the frame, or in a region that hides it. -/
theorem Step.kept {s t : Scene} {g : BindingGuard} (hf : f.id = g.frame)
    (hs : Step i (fun h => g.frame < h.frame) s t) (hr : regions <:+ (t.threads i).regions)
    (hn : f.id < s.world.nextFrame) (h : Kept regions f base (s.threads i)) :
    Kept regions f base (t.threads i) := by
  obtain ⟨opened, ho, hc⟩ := h
  cases hs with
  | op o n hmay =>
    rw [keep_self]
    refine ⟨opened, ho, ?_⟩
    cases opened with
    | nil =>
      exact hc.reshaped (o.reshaped n (s.seen i)) (fun g' h' => hf ▸ hmay g' h') hn
    | cons => exact hc
  | capture h =>
    cases h
    simp only [keep_self]
    exact ⟨opened, ho, hc⟩
  | enter hm h =>
    cases h
    rw [keep_self]
    exact ⟨⟨(s.threads i).chain⟩ :: opened, congrArg (_ :: ·) ho, hc⟩
  | leave n hl =>
    rw [keep_self] at hr ⊢
    rw [ho] at hl
    cases opened with
    | nil =>
      -- the thread would close a region that was open at the start
      have hlen := hr.length_le
      rw [List.nil_append] at hl
      rw [hl, List.length_cons] at hlen
      exact absurd hlen (Nat.not_succ_le_self _)
    | cons o os =>
      obtain ⟨rfl, rfl⟩ := List.cons.inj hl
      exact ⟨os, rfl, hc⟩
  | aside => exact ⟨opened, ho, hc⟩

/-- Whatever follows the making of a guard works above its frame, or in a region that hides it. -/
theorem Follows.kept {s t : Scene} {g : BindingGuard} (hf : f.id = g.frame)
    (ht : Follows i g s t) (hs : s.Numbered) (hn : f.id < s.world.nextFrame)
    (h : Kept (s.threads i).regions f base (s.threads i)) :
    t.Numbered ∧ f.id < t.world.nextFrame ∧
      Kept (s.threads i).regions f base (t.threads i) := by
  induction ht with
  | refl => exact ⟨hs, hn, h⟩
  | own _ hs hr ih =>
    obtain ⟨hnum, hlt, hk⟩ := ih
    exact ⟨hs.numbered hnum, Nat.lt_of_lt_of_le hlt hs.nextFrame_le, hs.kept hf hr hlt hk⟩
  | other _ hj hs ih =>
    obtain ⟨hnum, hlt, hk⟩ := ih
    refine ⟨hs.numbered hnum, Nat.lt_of_lt_of_le hlt hs.nextFrame_le, ?_⟩
    rw [hs.threads_of_ne hj.symm]
    exact hk

end Scene

/-! ### The guard -/

/-- A pushed guard owns a new frame of its vars, put on the chain. -/
theorem pushGuarded_ok {pairs : List (Var × Value)} {n : Nat} {w w' : World} {g : BindingGuard}
    (h : pushGuarded pairs n w = .ok g w') : w' = framed w pairs true ∧ g.frame = w.nextFrame := by
  rw [pushGuarded_eq] at h
  cases hv : (pairs.map (·.1)).find? fun v => !(w.varCell v).dynamic with
  | none =>
    rw [hv] at h
    cases h
    exact ⟨rfl, rfl⟩
  | some v =>
    rw [hv] at h
    cases h

/-- The frame that is put on a chain. -/
theorem chain_framed (w : World) (pairs : List (Var × Value)) (guarded : Bool) :
    ∃ f, (framed w pairs guarded).chain = f :: w.chain ∧ f.id = w.nextFrame ∧
      f.guarded = guarded ∧ f.pushed.map (·.1) = pairs.map (·.1) :=
  ⟨_, rfl, rfl, rfl, map_fst_numbered ..⟩

/-- At the moment the guard is made, its frame is right on the chain of that moment. -/
theorem Scene.Numbered.made {s : Scene} (hs : s.Numbered) {i n : Nat} {pairs : List (Var × Value)}
    {g : BindingGuard} {w : World} (hg : pushGuarded pairs n (s.seen i) = .ok g w) :
    (s.keep i w (s.threads i).regions).Numbered ∧ ∃ f : Frame, f.id = g.frame ∧
      f.id < w.nextFrame ∧ f.pushed.map (·.1) = pairs.map (·.1) ∧
      Kept (s.threads i).regions f (s.threads i).chain ⟨w.chain, (s.threads i).regions⟩ := by
  obtain ⟨rfl, hid⟩ := pushGuarded_ok hg
  have hpush : Reshaped (.pushGuarded pairs) (s.seen i) (framed (s.seen i) pairs true) :=
    reshaped_framed ..
  refine ⟨hs.keep i hpush.nextFrame_le (hpush.numbered (hs.chain i))
    fun g hg => (hs.saved i g hg).mono hpush.nextFrame_le, ?_⟩
  obtain ⟨f, hc, hf, hguarded, hvars⟩ := chain_framed (s.seen i) pairs true
  refine ⟨f, hf.trans hid.symm, ?_, hvars, [], rfl, ?_⟩
  · rw [hf]
    exact Nat.lt_succ_self _
  · refine ⟨⟨[], hc, fun _ h => absurd h List.not_mem_nil⟩, hguarded, ?_⟩
    rw [hf]
    exact hs.chain i

theorem Covers.dropGuard {f : Frame} {base : Chain} {g : BindingGuard} {w : World}
    (h : Covers w.chain f base) (hf : f.id = g.frame) (n : Nat) :
    ∃ w', dropGuard g n w = .ok () w' ∧ w'.chain = base := by
  obtain ⟨notices, hd⟩ := dropGuard_eq (n := n) g w
  refine ⟨_, hd, ?_⟩
  rw [← hf]
  exact (if_pos h.holds).trans h.below

/-- A binding guard restores its creation point. Let a thread make a guard for some pairs, and let
it and the other threads then do anything, however it ends, but drop that guard or an older one or
close a region that was open then. Once the regions opened since are closed, the frame of the guard
is on the chain right above the chain of the moment at which it was made, and dropping the guard
puts back that chain, with its depth. So an action that runs with a var bound leaves the chain as it
was before. -/
theorem dropGuard_restores {s t : Scene} {i n : Nat} {pairs : List (Var × Value)}
    {g : BindingGuard} {w : World} (hs : Scene.Reached s)
    (hg : pushGuarded pairs n (s.seen i) = .ok g w)
    (ht : Scene.Follows i g (s.keep i w (s.threads i).regions) t)
    (hr : (t.threads i).regions = (s.threads i).regions) :
    (∃ above f, (t.threads i).chain = above ++ f :: (s.threads i).chain ∧ f.id = g.frame ∧
      f.guarded = true ∧ f.pushed.map (·.1) = pairs.map (·.1)) ∧
    (∀ m, ∃ w', dropGuard g m (t.seen i) = .ok () w' ∧ w'.chain = (s.threads i).chain ∧
      depth m w' = .ok (s.threads i).chain.depth w') ∧
    ∀ {α : Type} (v : Var) (x : Value) (body : Act α), pairs = [(v, x)] →
      body.worldAfter n w = t.seen i →
      ((during v x body).worldAfter n (s.seen i)).chain = (s.threads i).chain := by
  obtain ⟨hnum, f, hf, hlt, hvars, hk⟩ := (Scene.reached_numbered hs).made hg
  obtain ⟨-, -, opened, ho, hc⟩ := ht.kept hf hnum hlt (by rw [Scene.keep_self]; exact hk)
  -- no region is open, so the chain itself covers the frame
  have hnone : opened = [] := by
    rw [hr, Scene.keep_self] at ho
    exact List.self_eq_append_left.mp ho
  rw [hnone] at hc
  have hdrop := hc.dropGuard (w := t.seen i) hf
  refine ⟨?_, fun m => ?_, ?_⟩
  · obtain ⟨above, hsplit, -⟩ := hc.split
    exact ⟨above, f, hsplit, hf, hc.guarded, hvars⟩
  · obtain ⟨w', hw, hchain'⟩ := hdrop m
    refine ⟨w', hw, hchain', ?_⟩
    rw [← hchain']
    rfl
  · rintro α v x body rfl hbody
    obtain ⟨w', hw, hchain'⟩ := hdrop n
    have hens := Act.worldAfter_ensure body (Binding.dropGuard g) n w
    rw [hbody, Act.worldAfter_of_ok hw] at hens
    rw [during, Act.worldAfter, Act.bind_of_ok hg, ← Act.worldAfter, hens]
    exact hchain'

/-- A manual frame left on top of the guarded one, and a snapshot entered and left. -/
theorem dropGuard_restores_unmatched :
    let v : Var := ⟨0⟩
    let s : Scene := .start { vars := #[{ label := .anonymous 0, dynamic := true }] }
    let made := s.keep 0 (framed (s.seen 0) [(v, .nil)] true) []
    let pushed := made.keep 0 ((Op.push v .nil).run.worldAfter 0 (made.seen 0)) []
    let entered := pushed.keep 0 { pushed.seen 0 with chain := [] } [⟨(pushed.threads 0).chain⟩]
    let t := entered.keep 0
      (FrameGuard.drop ⟨(pushed.threads 0).chain⟩ |>.worldAfter 0 (entered.seen 0)) []
    (t.threads 0).chain.length = 2 ∧
      ∀ m, ∃ w', dropGuard ⟨0⟩ m (t.seen 0) = .ok () w' ∧ w'.chain = [] := by
  intro v s made pushed entered t
  have hs : Scene.Reached s := .start _
  have hg : pushGuarded [(v, .nil)] 0 (s.seen 0) =
      .ok ⟨0⟩ (framed (s.seen 0) [(v, .nil)] true) := rfl
  have hpush : Scene.Step 0 (fun h => 0 < h.frame) made pushed :=
    .op (.push v .nil) 0 (fun _ h => by cases h)
  have henter : Scene.Step 0 (fun h => 0 < h.frame) pushed entered :=
    .enter (n := 0) (f := .empty) (List.mem_singleton.mpr rfl) rfl
  have hleave : Scene.Step 0 (fun h => 0 < h.frame) entered t := .leave 0 rfl
  have ht : Scene.Follows 0 ⟨0⟩ made t :=
    ((Scene.Follows.refl.own hpush (List.nil_suffix)).own henter (List.nil_suffix)).own hleave
      (List.nil_suffix)
  obtain ⟨-, hdrop, -⟩ := dropGuard_restores hs hg ht rfl
  refine ⟨rfl, fun m => ?_⟩
  obtain ⟨w', hw, hc, -⟩ := hdrop m
  exact ⟨w', hw, hc⟩

end LispCore.Binding
