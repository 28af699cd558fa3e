import LispCore.Proofs.Binding.Setting
import Mathlib.Logic.Relation
/-!
Conveyed bindings. Wherever a snapshot is installed, it shows the cells that the thread saw which took
it, whatever has happened since; a cell holds what it held then or what was set through a binding that
shares it (`Scene.Later.value_cases`). The thread that installs a snapshot has its own bindings back
afterwards, however it goes on in between (`bindings_convey`).
-/

namespace LispCore.Binding

/-- An operation leaves the value of a cell alone unless it sets a var whose binding has the cell. -/
theorem Op.Leaves.value_cases {o : Op} {w w' : World} {cell : Nat} (h : o.Leaves w w')
    (hcell : cell < w.cells.size) : w'.cells.getD cell .nil = w.cells.getD cell .nil ∨
      ∃ v x, o = .set v x ∧ (∀ n, v.bindingCell? n w = .ok (some cell) w) ∧
        w'.cells.getD cell .nil = x := by
  cases h with
  | failed | popped | cut | missed => exact .inl rfl
  | pushed => exact .inl (by simp [framed, Array.getElem?_append_left hcell])
  | wrote v x a ho hd hc =>
    by_cases ha : a = cell
    · subst ha
      refine .inr ⟨v, x, ho, fun n => ?_, getD_setIfInBounds_self hcell⟩
      rw [bindingCell?_eq, if_pos hd, hc]
    · exact .inl (getD_setIfInBounds_ne ha)

namespace Scene

/-- What comes after a scene. Cells of bindings are made and written by operations alone. -/
inductive Later (s : Scene) : Scene → Prop
  | refl : Later s s
  | op {t : Scene} (h : Later s t) (i n : Nat) (o : Op) : Later s (t.act i n o)
  | step {t u : Scene} {i : Nat} (h : Later s t) (hs : Step i (fun _ => True) t u)
      (hc : u.world.cells = t.world.cells) : Later s u

/-- The scene after a thread took a snapshot of its bindings. -/
def captured (s : Scene) (i : Nat) : Scene :=
  { s.keep i (s.seen i) (s.threads i).regions with
    snapshots := ⟨(s.threads i).chain⟩ :: s.snapshots }

/-- The scene after a thread installed a snapshot. -/
def entered (s : Scene) (j : Nat) (f : BindingFrame) : Scene :=
  s.keep j { s.seen j with chain := f.chain } (⟨(s.threads j).chain⟩ :: (s.threads j).regions)

/-- On the way between two scenes a thread set a var through a binding with this cell. -/
def SetSince (s t : Scene) (v : Var) (cell : Nat) (x : Value) : Prop :=
  ∃ u i n, s.Later u ∧ v.bindingCell? n (u.seen i) = .ok (some cell) (u.seen i) ∧
    (u.act i n (.set v x)).Later t

variable {s t u : Scene} {i j : Nat}

namespace Later

theorem trans (h : s.Later t) (h' : t.Later u) : s.Later u := by
  induction h' with
  | refl => exact h
  | op _ i n o ih => exact ih.op i n o
  | step _ hs hc ih => exact ih.step hs hc

theorem captured (s : Scene) (i : Nat) : s.Later (s.captured i) :=
  .step .refl (.capture (n := 0) (i := i) rfl) rfl

theorem entered {f : BindingFrame} (h : s.Later t) (j : Nat) (hf : f ∈ t.snapshots) :
    s.Later (t.entered j f) :=
  .step h (.enter (n := 0) (i := j) hf rfl) rfl

end Later

theorem keepsCells_act (s : Scene) (i n : Nat) (o : Op) :
    KeepsCells s.world (s.act i n o).world := by
  have h := o.leaves n (s.seen i)
  rw [KeepsCells, act, keep]
  generalize o.run.worldAfter n (s.seen i) = w at h
  cases h with
  | failed | popped | cut | missed => exact Nat.le_refl _
  | pushed => simp [framed, seen]
  | wrote => simp [seen]

namespace Later

theorem reachedBy (h : s.Later t) (hs : s.ReachedBy KeepsCells) : t.ReachedBy KeepsCells := by
  induction h with
  | refl => exact hs
  | op _ i n o ih => exact .step ih (.op o n fun _ _ => trivial) (keepsCells_act _ i n o)
  | step _ hs hc ih => exact .step ih hs (Nat.le_of_eq (congrArg Array.size hc.symm))

theorem cells_le (h : s.Later t) : s.world.cells.size ≤ t.world.cells.size := by
  induction h with
  | refl => exact Nat.le_refl _
  | op _ i n o ih => exact Nat.le_trans ih (keepsCells_act _ i n o)
  | step _ _ hc ih => rwa [hc]

/-- Snapshots stay. -/
theorem snapshot_mem {f : BindingFrame} (h : s.Later t) (hf : f ∈ s.snapshots) :
    f ∈ t.snapshots := by
  induction h with
  | refl => exact hf
  | op _ i n o ih => exact ih
  | step _ hs _ ih =>
    cases hs with
    | op | enter | leave | aside => exact ih
    | capture => exact List.mem_cons_of_mem _ ih

/-- A cell holds what it held before, or what was set since through a binding that has it. -/
theorem value_cases {cell : Nat} (h : s.Later t) (hcell : cell < s.world.cells.size) :
    t.world.cells.getD cell .nil = s.world.cells.getD cell .nil ∨
      ∃ v, SetSince s t v cell (t.world.cells.getD cell .nil) := by
  induction h with
  | refl => exact .inl rfl
  | @op t h i n o ih =>
    have hlt : cell < t.world.cells.size := Nat.lt_of_lt_of_le hcell h.cells_le
    have hworld : (t.act i n o).world = o.run.worldAfter n (t.seen i) := rfl
    rcases (o.leaves n (t.seen i)).value_cases hlt with heq | ⟨v, x, rfl, hcell, heq⟩
    · rw [hworld, heq]
      exact ih.imp_right fun ⟨v, u, k, m, hu, hb, ht⟩ => ⟨v, u, k, m, hu, hb, ht.op i n o⟩
    · rw [hworld, heq]
      exact .inr ⟨v, t, i, n, h, hcell n, .refl⟩
  | step _ hs hc ih =>
    rw [hc]
    exact ih.imp_right fun ⟨v, u, k, m, hu, hb, ht⟩ => ⟨v, u, k, m, hu, hb, ht.step hs hc⟩

end Later

/-- A thread has the bindings that another one had in an earlier scene: it sees the same cells to the
same depth, a bound var has the value that the cell held then or one set since through a binding of that
var with that cell, and any other var has its root. -/
structure Conveyed (s : Scene) (i : Nat) (u : Scene) (j : Nat) : Prop where
  depth : ∀ n : Nat, Binding.depth n (u.seen j) = .ok (s.threads i).chain.length (u.seen j)
  cell : ∀ (n : Nat) (v : Var), v.bindingCell? n (u.seen j) =
    .ok (if (u.world.varCell v).dynamic then (s.threads i).chain.cell? v else none) (u.seen j)
  bound : ∀ (n : Nat) (v : Var) (cell : Nat), v.bindingCell? n (u.seen j) = .ok (some cell) (u.seen j) →
    ∃ x, v.current n (u.seen j) = .ok x (u.seen j) ∧
      (x = s.world.cells.getD cell .nil ∨ SetSince (s.captured i) u v cell x)
  unbound : ∀ (n : Nat) (v : Var), v.bindingCell? n (u.seen j) = .ok none (u.seen j) →
    v.current n (u.seen j) = v.derefRoot n (u.seen j)

theorem Sound.depth_eq (hs : s.Sound) (j n : Nat) :
    Binding.depth n (s.seen j) = .ok (s.threads j).chain.length (s.seen j) := by
  rw [← depth_eq_length fun f below h => hs.tops (holds_thread h)]
  rfl

/-- A value set since through a cell of the snapshot was set for the var that the snapshot binds. -/
theorem SetSince.var_eq {f : BindingFrame} {u v : Var} {cell : Nat} {x : Value}
    (hs : s.ReachedBy KeepsCells) (hf : f ∈ s.snapshots) (hv : f.chain.cell? v = some cell)
    (h : SetSince s t u cell x) : u = v := by
  obtain ⟨r, k, n, hr, hu, -⟩ := h
  have hsound := reachedBy_sound id (hr.reachedBy hs)
  have hsight : r.Sights f.chain := ⟨_, .snapshot (hr.snapshot_mem hf), List.suffix_rfl⟩
  rw [bindingCell?_eq] at hu
  injection hu with hu
  split_ifs at hu
  exact ((hsound.cell_eq_iff (r.sights_thread k) hsight hu hv).mp rfl).1

/-- Any thread that later has the chain of the snapshot has its bindings. -/
theorem Later.conveyed (h : (s.captured i).Later u) (hs : s.ReachedBy KeepsCells)
    (hc : (u.threads j).chain = (s.threads i).chain) : Conveyed s i u j where
  depth n := by
    rw [← hc]
    exact (reachedBy_sound id (h.reachedBy ((Later.captured s i).reachedBy hs))).depth_eq j n
  cell n v := by
    rw [bindingCell?_eq, ← hc]
    rfl
  bound n v cell hcell := by
    have hcap : (s.captured i).ReachedBy KeepsCells := (Later.captured s i).reachedBy hs
    have hmem : ⟨(s.threads i).chain⟩ ∈ (s.captured i).snapshots := List.mem_cons_self
    rw [bindingCell?_eq] at hcell
    injection hcell with hcell
    have hbinding := binding?_eq (n := n) (w := u.seen j) v
    rw [hcell] at hbinding
    have hv : (s.threads i).chain.cell? v = some cell := by
      split_ifs at hcell
      rw [← hc]
      exact hcell
    obtain ⟨f, below, -, hf, hp, -⟩ := (reachedBy_sound id hs).exists_binder (s.sights_thread i) hv
    have hlt : cell < (s.captured i).world.cells.size :=
      ((reachedBy_sound id hs).within hf).pushed _ hp
    refine ⟨_, current_eq v hbinding, ?_⟩
    exact (h.value_cases hlt).imp_right fun ⟨v', hset⟩ => hset.var_eq hcap hmem hv ▸ hset
  unbound n v hcell := by
    rw [Var.current, Var.binding?, bind_assoc, Act.bind_of_ok hcell]
    rfl

/-- Steps of other threads leave a thread alone. -/
theorem threads_eq_of_others {k : Nat}
    (h : Relation.ReflTransGen (fun t u => ∃ l, k ≠ l ∧ Step l (fun _ => True) t u) s t) :
    t.threads k = s.threads k := by
  induction h with
  | refl => rfl
  | tail _ hs ih =>
    obtain ⟨l, hl, hs⟩ := hs
    exact (hs.threads_of_ne hl).trans ih

end Scene

/-- A wrapped action runs under the chain of the moment at which it was wrapped; however it ends, the
chain is then that of its caller. -/
theorem bound_eq {α : Type} (body : Act α) (n : Nat) (w : World) :
    ∃ call, bound body n w = .ok call w ∧ ∀ m v, call m v =
      match body m { v with chain := w.chain } with
      | .ok a v' => .ok a { v' with chain := v.chain }
      | .error e v' => .error e { v' with chain := v.chain } := by
  have hcap : BindingFrame.capture n w = .ok ⟨w.chain⟩ w := rfl
  refine ⟨_, by rw [bound, Act.bind_of_ok hcap, Act.pure_apply], fun m v => ?_⟩
  have henter : BindingFrame.enter ⟨w.chain⟩ m v = .ok ⟨v.chain⟩ { v with chain := w.chain } := rfl
  rw [Act.bind_of_ok henter, Act.ensure]
  cases body m { v with chain := w.chain } <;> rfl

/-- Conveyed bindings are a snapshot and leave the host unchanged. Let a thread take a snapshot, or wrap
an action, and let any history follow, of that thread and all others. Whichever thread then installs the
snapshot, or calls the action, has while it adds nothing to it just the bindings of the snapshot: the
same cells to the same depth, whose values are those of the moment of the snapshot or were set since
through a binding that shares the cell, and roots otherwise. Whatever happens until the guard of the
snapshot is dropped, and however the action ends, the thread then has the chain again that it had before;
no other thread has its chain changed except by its own steps. -/
theorem bindings_convey {s : Scene} (hs : s.ReachedBy KeepsCells) (i n : Nat) {α : Type}
    (body : Act α) :
    let f : BindingFrame := ⟨(s.threads i).chain⟩
    BindingFrame.capture n (s.seen i) = .ok f (s.seen i) ∧
    depth n (s.seen i) = .ok f.chain.length (s.seen i) ∧
    (∀ v : Var, v.bindingCell? n (s.seen i) =
      .ok (if (s.world.varCell v).dynamic then f.chain.cell? v else none) (s.seen i)) ∧
    ∃ call, bound body n (s.seen i) = .ok call (s.seen i) ∧
    ∀ t, (s.captured i).Later t → ∀ j, let host := (t.threads j).chain
      (∀ m, f.enter m (t.seen j) = .ok ⟨host⟩ (t.entered j f).world) ∧
      ((t.entered j f).threads j).chain = f.chain ∧
      (∀ u, (t.entered j f).Later u → (u.threads j).chain = f.chain → Scene.Conveyed s i u j) ∧
      (∀ u, (t.entered j f).Later u → ∀ m, FrameGuard.drop ⟨host⟩ m (u.seen j) =
        .ok () { u.seen j with chain := host }) ∧
      (∀ m, call m (t.seen j) = match body m (t.entered j f).world with
        | .ok a w => .ok a { w with chain := host }
        | .error e w => .error e { w with chain := host }) ∧
      ∀ u k, j ≠ k → Relation.ReflTransGen (fun t u => ∃ l, k ≠ l ∧ Scene.Step l (fun _ => True) t u)
        (t.entered j f) u → u.threads k = t.threads k := by
  intro f
  obtain ⟨call, hbound, hcall⟩ := bound_eq body n (s.seen i)
  refine ⟨rfl, (Scene.reachedBy_sound id hs).depth_eq i n, fun v => bindingCell?_eq v, call, hbound,
    fun t ht j => ⟨fun m => rfl, ?_, fun u hu hc => ?_, fun u _ m => rfl,
      fun m => hcall m (t.seen j), fun u k hk hu => ?_⟩⟩
  · rw [Scene.entered, Scene.keep_self]
  · have hf : f ∈ t.snapshots := ht.snapshot_mem List.mem_cons_self
    exact ((ht.entered j hf).trans hu).conveyed hs hc
  · rw [Scene.threads_eq_of_others hu]
    exact Scene.keep_of_ne t hk.symm ..

/-- A binding that is set and popped after it was conveyed to a thread with another one, where an action
pushes a third and panics. -/
theorem bindings_convey_panic :
    let v : Var := ⟨0⟩
    let start : Scene := .start { vars := #[{ label := .anonymous 0, dynamic := true }] }
    let s := start.act 0 0 (.push v (.int 1))
    let f : BindingFrame := ⟨(s.threads 0).chain⟩
    let t := (((s.captured 0).act 0 0 (.set v (.int 7))).act 0 0 (.pop v)).act 1 0 (.push v (.int 5))
    let body : Act Unit := do
      Binding.push v (.int 8)
      Act.panic "stop"
    s.ReachedBy KeepsCells ∧ (s.captured 0).Later t ∧
      ∃ (call : Act Unit) (w : World), bound body 0 (s.seen 0) = .ok call (s.seen 0) ∧
        call 0 (t.seen 1) = .error (.panic "stop") { w with chain := (t.threads 1).chain } ∧
        v.current 0 ((t.entered 1 f).seen 1) = .ok (.int 7) ((t.entered 1 f).seen 1) := by
  intro v start s f t body
  have hs : s.ReachedBy KeepsCells :=
    .step (.start _) (.op (.push v (.int 1)) 0 fun _ h => by cases h) (Nat.zero_le _)
  have ht : (s.captured 0).Later t := ((Scene.Later.refl.op 0 0 _).op 0 0 _).op 1 0 _
  have hbody : ∀ w : World, (w.varCell v).dynamic = true → ∃ w', body 0 w = .error (.panic "stop") w' := by
    intro w hd
    have hpush := push_eq (n := 0) (w := w) v (.int 8)
    rw [if_pos hd] at hpush
    exact ⟨_, Act.bind_of_ok hpush⟩
  obtain ⟨-, -, -, call, hbound, hlater⟩ := bindings_convey hs 0 0 body
  obtain ⟨-, -, -, -, hcall, -⟩ := hlater t ht 1
  have hdynamic : (((t.entered 1 f).seen 1).varCell v).dynamic = true := by decide +kernel
  have hcell : ((t.entered 1 f).seen 1).chain.cell? v = some 0 := by decide +kernel
  have hcells : ((t.entered 1 f).seen 1).cells = #[.int 7, .int 5] := rfl
  have hread := current_eq v (binding?_eq (n := 0) (w := (t.entered 1 f).seen 1) v)
  rw [if_pos hdynamic, hcell, hcells] at hread
  obtain ⟨w, hw⟩ := hbody (t.entered 1 f).world (by decide +kernel)
  have hend := hcall 0
  clear_value body t
  rw [hw] at hend
  exact ⟨hs, ht, call, w, hbound, hend, hread⟩

end LispCore.Binding
