import LispCore.Proofs.Binding.Stack
import Mathlib.Logic.Function.Basic
/-!
Threads that bind vars in one world. Each thread has its own chain and its own open regions, in which
a snapshot stands in for the chain; snapshots go around between threads. A step is one operation of
one thread, however it ends, or anything else that happens to the world. Every frame in sight has a
number that has been given out (`Scene.Numbered`, `reached_numbered`).
-/

namespace LispCore.Binding

/-! ### Steps -/

/-- An operation on the bindings of a thread that opens or closes no region. A guard that is pushed
may be dropped by a later operation or never. -/
inductive Op where
  | push (v : Var) (x : Value)
  | pop (v : Var)
  | pushGuarded (pairs : List (Var × Value))
  | dropGuard (g : BindingGuard)
  | set (v : Var) (x : Value)

def Op.run : Op → Act Unit
  | .push v x => Binding.push v x
  | .pop v => Binding.pop v
  | .pushGuarded pairs => do let _ ← Binding.pushGuarded pairs
  | .dropGuard g => Binding.dropGuard g
  | .set v x => v.set x

/-- A thread: its chain, and the guards of its open regions, the innermost first. -/
structure Thread where
  chain : Chain := []
  regions : List FrameGuard := []

/-- A world with its threads and the snapshots that they have taken. -/
structure Scene where
  world : World
  threads : Nat → Thread
  snapshots : List BindingFrame

namespace Scene

/-- Threads without bindings. -/
def start (w : World) : Scene := ⟨w, fun _ => {}, [.empty]⟩

/-- The world as a thread sees it. -/
def seen (s : Scene) (i : Nat) : World := { s.world with chain := (s.threads i).chain }

/-- The scene after a thread left this world behind, and these regions open. -/
def keep (s : Scene) (i : Nat) (w : World) (regions : List FrameGuard) : Scene :=
  { s with world := w, threads := Function.update s.threads i ⟨w.chain, regions⟩ }

/-- The scene after an operation of a thread. -/
def act (s : Scene) (i n : Nat) (o : Op) : Scene :=
  s.keep i (o.run.worldAfter n (s.seen i)) (s.threads i).regions

/-- A step of a thread, in which it drops no guards but those that it may. -/
inductive Step (i : Nat) (may : BindingGuard → Prop) : Scene → Scene → Prop
  | op {s : Scene} (o : Op) (n : Nat) (h : ∀ g, o = .dropGuard g → may g) :
      Step i may s (s.keep i (o.run.worldAfter n (s.seen i)) (s.threads i).regions)
  | capture {s : Scene} {n : Nat} {f : BindingFrame} {w : World}
      (h : BindingFrame.capture n (s.seen i) = .ok f w) :
      Step i may s { s.keep i w (s.threads i).regions with snapshots := f :: s.snapshots }
  | enter {s : Scene} {n : Nat} {f : BindingFrame} {g : FrameGuard} {w : World}
      (hf : f ∈ s.snapshots) (h : f.enter n (s.seen i) = .ok g w) :
      Step i may s (s.keep i w (g :: (s.threads i).regions))
  | leave {s : Scene} {g : FrameGuard} {gs : List FrameGuard} (n : Nat)
      (h : (s.threads i).regions = g :: gs) :
      Step i may s (s.keep i (g.drop.worldAfter n (s.seen i)) gs)
  | aside {s : Scene} (w : World) (h : w.nextFrame = s.world.nextFrame) :
      Step i may s { s with world := w }

/-- What threads without bindings come to by taking steps. -/
inductive Reached : Scene → Prop
  | start (w : World) : Reached (start w)
  | step {s t : Scene} {i : Nat} (h : Reached s) (hs : Step i (fun _ => True) s t) : Reached t

/-- What comes after a thread made a guard: its own steps drop neither the guard nor one that is
older, and close no region that was open then. -/
inductive Follows (i : Nat) (g : BindingGuard) (s : Scene) : Scene → Prop
  | refl : Follows i g s s
  | own {t u : Scene} (h : Follows i g s t) (hs : Step i (fun h => g.frame < h.frame) t u)
      (hr : (s.threads i).regions <:+ (u.threads i).regions) : Follows i g s u
  | other {t u : Scene} {j : Nat} (h : Follows i g s t) (hj : j ≠ i)
      (hs : Step j (fun _ => True) t u) : Follows i g s u

@[simp] theorem keep_self (s : Scene) (i : Nat) (w : World) (gs : List FrameGuard) :
    (s.keep i w gs).threads i = ⟨w.chain, gs⟩ := Function.update_self ..

theorem keep_of_ne (s : Scene) {i j : Nat} (h : j ≠ i) (w : World) (gs : List FrameGuard) :
    (s.keep i w gs).threads j = s.threads j := Function.update_of_ne h ..

/-- A step of a thread leaves the other threads alone. -/
theorem Step.threads_of_ne {i j : Nat} {may : BindingGuard → Prop} {s t : Scene}
    (hs : Step i may s t) (h : j ≠ i) : t.threads j = s.threads j := by
  cases hs with
  | op | capture | enter | leave => exact keep_of_ne s h ..
  | aside => rfl

end Scene

/-! ### What an operation does -/

/-- The worlds that an operation may leave behind. -/
inductive Op.Leaves (o : Op) (w : World) : World → Prop
  | failed : Leaves o w w
  | pushed (pairs : List (Var × Value)) (guarded : Bool)
      (hd : ∀ p ∈ pairs, (w.varCell p.1).dynamic = true) : Leaves o w (framed w pairs guarded)
  | popped (f : Frame) (below : Chain) (hc : w.chain = f :: below) (hf : f.guarded = false) :
      Leaves o w { w with chain := below }
  | cut (g : BindingGuard) (notices : Array Notice) (ho : o = .dropGuard g)
      (hh : w.chain.holds g.frame) : Leaves o w { w with notices, chain := w.chain.below g.frame }
  | missed (notices : Array Notice) : Leaves o w { w with notices }
  | wrote (v : Var) (x : Value) (cell : Nat) (ho : o = .set v x)
      (hd : (w.varCell v).dynamic = true) (hc : w.chain.cell? v = some cell) :
      Leaves o w { w with cells := w.cells.setIfInBounds cell x }

/-- An operation fails, puts a frame of dynamic vars on the chain, takes a manual frame off, cuts the chain
below the frame of the guard that it drops, or writes the cell of the binding that it sets. -/
theorem Op.leaves (o : Op) (n : Nat) (w : World) : o.Leaves w (o.run.worldAfter n w) := by
  cases o with
  | push v x =>
    rw [Op.run, Act.worldAfter, push_eq]
    split_ifs with hd
    · exact .pushed _ _ (by simpa using hd)
    · exact .failed
  | pop v =>
    rw [Op.run]
    rcases pop_cases (n := n) (w := w) v with ⟨f, below, hc, hf, -, h⟩ | ⟨detail, h⟩
    · rw [Act.worldAfter_of_ok h]
      exact .popped f below hc hf
    · rw [Act.worldAfter_of_error h]
      exact .failed
  | pushGuarded pairs =>
    have h := pushGuarded_eq (n := n) (w := w) pairs
    rw [Op.run]
    cases hv : (pairs.map (·.1)).find? fun v => !(w.varCell v).dynamic with
    | none =>
      rw [hv] at h
      rw [Act.worldAfter, Act.bind_of_ok h]
      exact .pushed pairs true (by simpa using hv)
    | some v =>
      rw [hv] at h
      rw [Act.worldAfter, Act.bind_of_error h]
      exact .failed
  | dropGuard g =>
    obtain ⟨notices, h⟩ := dropGuard_eq (n := n) g w
    rw [Op.run, Act.worldAfter_of_ok h]
    by_cases hh : w.chain.holds g.frame
    · rw [if_pos hh]
      exact .cut g notices rfl hh
    · rw [if_neg hh]
      exact .missed notices
  | set v x =>
    rw [Op.run]
    rcases set_cases (n := n) (w := w) v x with ⟨cell, hd, hc, h⟩ | ⟨name, h⟩
    · rw [Act.worldAfter_of_ok h]
      exact .wrote v x cell rfl hd hc
    · rw [Act.worldAfter_of_error h]
      exact .failed

/-- The chain and the frame number in two worlds, the second reached by one operation. -/
inductive Reshaped (o : Op) (w : World) : World → Prop
  | same {w' : World} (hc : w'.chain = w.chain) (hn : w'.nextFrame = w.nextFrame) : Reshaped o w w'
  | pushed {w' : World} (f : Frame) (hf : f.id = w.nextFrame) (hc : w'.chain = f :: w.chain)
      (hn : w'.nextFrame = w.nextFrame + 1) : Reshaped o w w'
  | popped {w' : World} (f : Frame) (hf : f.guarded = false) (hc : w.chain = f :: w'.chain)
      (hn : w'.nextFrame = w.nextFrame) : Reshaped o w w'
  | cut {w' : World} (g : BindingGuard) (ho : o = .dropGuard g) (hh : w.chain.holds g.frame)
      (hc : w'.chain = w.chain.below g.frame) (hn : w'.nextFrame = w.nextFrame) : Reshaped o w w'

theorem reshaped_framed {o : Op} (w : World) (pairs : List (Var × Value)) (guarded : Bool) :
    Reshaped o w (framed w pairs guarded) :=
  .pushed _ rfl rfl rfl

theorem Op.Leaves.reshaped {o : Op} {w w' : World} (h : o.Leaves w w') : Reshaped o w w' := by
  cases h with
  | failed | missed | wrote => exact .same rfl rfl
  | pushed => exact reshaped_framed ..
  | popped f below hc hf => exact .popped f hf hc rfl
  | cut g notices ho hh => exact .cut g ho hh rfl rfl

/-- An operation leaves the chain alone, adds a frame with a new number, takes a manual frame off,
or cuts the chain below the frame of the guard it drops. -/
theorem Op.reshaped (o : Op) (n : Nat) (w : World) : Reshaped o w (o.run.worldAfter n w) :=
  (o.leaves n w).reshaped

/-! ### Frame numbers -/

/-- Every frame of a chain has a number below this one. -/
def Numbered (next : Nat) (c : Chain) : Prop := ∀ f ∈ c, f.id < next

theorem Numbered.mono {m n : Nat} {c : Chain} (h : Numbered m c) (hmn : m ≤ n) : Numbered n c :=
  fun f hf => Nat.lt_of_lt_of_le (h f hf) hmn

theorem Chain.mem_of_mem_below {c : Chain} {id : Nat} {f : Frame} (h : f ∈ c.below id) : f ∈ c :=
  (List.dropWhile_sublist _).mem (List.mem_of_mem_tail h)

theorem Reshaped.nextFrame_le {o : Op} {w w' : World} (h : Reshaped o w w') :
    w.nextFrame ≤ w'.nextFrame := by
  cases h with
  | same _ hn | popped _ _ _ hn | cut _ _ _ _ hn => exact Nat.le_of_eq hn.symm
  | pushed _ _ _ hn => rw [hn]; exact Nat.le_succ _

theorem Reshaped.numbered {o : Op} {w w' : World} (h : Reshaped o w w')
    (hw : Numbered w.nextFrame w.chain) : Numbered w'.nextFrame w'.chain := by
  intro f hf
  cases h with
  | same hc hn =>
    rw [hn]
    exact hw f (hc ▸ hf)
  | pushed _ hid hc hn =>
    rw [hn]
    rw [hc] at hf
    rcases List.mem_cons.mp hf with rfl | hf
    · omega
    · exact Nat.lt_succ_of_lt (hw f hf)
  | popped _ _ hc hn =>
    rw [hn]
    exact hw f (hc ▸ List.mem_cons_of_mem _ hf)
  | cut _ _ _ hc hn =>
    rw [hn]
    exact hw f (Chain.mem_of_mem_below (hc ▸ hf))

/-- Every frame on a chain, in an open region or in a snapshot has a number that was given out. -/
structure Scene.Numbered (s : Scene) : Prop where
  chain : ∀ i, Binding.Numbered s.world.nextFrame (s.threads i).chain
  saved : ∀ i, ∀ g ∈ (s.threads i).regions, Binding.Numbered s.world.nextFrame g.saved
  snapshot : ∀ f ∈ s.snapshots, Binding.Numbered s.world.nextFrame f.chain

namespace Scene

theorem Numbered.start (w : World) : (start w).Numbered where
  chain _ _ hf := absurd hf List.not_mem_nil
  saved _ _ hg := absurd hg List.not_mem_nil
  snapshot f hf := by
    rw [List.mem_singleton.mp hf]
    exact fun _ h => absurd h List.not_mem_nil

theorem Numbered.keep {s : Scene} (hs : s.Numbered) (i : Nat) {w : World} {gs : List FrameGuard}
    (hn : s.world.nextFrame ≤ w.nextFrame) (hc : Binding.Numbered w.nextFrame w.chain)
    (hg : ∀ g ∈ gs, Binding.Numbered w.nextFrame g.saved) : (s.keep i w gs).Numbered where
  chain j := by
    rcases eq_or_ne j i with rfl | hj
    · rw [keep_self]
      exact hc
    · rw [keep_of_ne s hj]
      exact (hs.chain j).mono hn
  saved j := by
    rcases eq_or_ne j i with rfl | hj
    · rw [keep_self]
      exact hg
    · rw [keep_of_ne s hj]
      exact fun g h => (hs.saved j g h).mono hn
  snapshot f hf := (hs.snapshot f hf).mono hn

theorem Step.nextFrame_le {i : Nat} {may : BindingGuard → Prop} {s t : Scene}
    (h : Step i may s t) : s.world.nextFrame ≤ t.world.nextFrame := by
  cases h with
  | op o n => exact (o.reshaped n (s.seen i)).nextFrame_le
  | capture h | enter _ h =>
    cases h
    exact Nat.le_refl _
  | leave => exact Nat.le_refl _
  | aside w h => exact Nat.le_of_eq h.symm

theorem Step.numbered {i : Nat} {may : BindingGuard → Prop} {s t : Scene} (h : Step i may s t)
    (hs : s.Numbered) : t.Numbered := by
  cases h with
  | op o n =>
    have h := o.reshaped n (s.seen i)
    exact hs.keep i h.nextFrame_le (h.numbered (hs.chain i))
      fun g hg => (hs.saved i g hg).mono h.nextFrame_le
  | capture h =>
    cases h
    have hk := hs.keep i (w := s.seen i) (Nat.le_refl _) (hs.chain i) (hs.saved i)
    exact ⟨hk.chain, hk.saved, List.forall_mem_cons.mpr ⟨hs.chain i, hs.snapshot⟩⟩
  | enter hf h =>
    cases h
    exact hs.keep i (Nat.le_refl _) (hs.snapshot _ hf) (List.forall_mem_cons.mpr ⟨hs.chain i, hs.saved i⟩)
  | leave n hr =>
    have hg := hs.saved i
    rw [hr] at hg
    obtain ⟨hg, hgs⟩ := List.forall_mem_cons.mp hg
    exact hs.keep i (Nat.le_refl _) hg hgs
  | aside w hn =>
    exact ⟨fun i => hn ▸ hs.chain i, fun i => hn ▸ hs.saved i, hn ▸ hs.snapshot⟩

theorem reached_numbered {s : Scene} (h : Reached s) : s.Numbered := by
  induction h with
  | start w => exact .start w
  | step _ hs ih => exact hs.numbered ih

end Scene

end LispCore.Binding
