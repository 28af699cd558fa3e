import LispCore.Proofs.Binding.Scene
import Mathlib.Data.List.Nodup
/-!
What is visible at a frame is what a walk down the chain finds. Every frame carries the cells of all
bindings at its depth and never looks at the frames below it again; whatever the threads do, those
cells are the ones that a search frame by frame finds (`Scene.Sound`, `reachedBy_sound`). So a read
through the innermost frame agrees with the search (`reads_agree_with_search`).
-/

namespace LispCore.Binding

/-! ### Searching -/

/-- The innermost frame of a chain that lists the var lists it with this cell, in the last of its
pairs of the var. -/
def Binds (c : Chain) (v : Var) (cell : Nat) : Prop :=
  ∃ above f below, c = above ++ f :: below ∧ (∀ g ∈ above, v ∉ g.pushed.map (·.1)) ∧
    ∃ front back, f.pushed = front ++ (v, cell) :: back ∧ v ∉ back.map (·.1)

theorem not_listed_iff {pairs : List (Var × Nat)} {v : Var} :
    v ∉ pairs.map (·.1) ↔ ∀ p ∈ pairs, p.1 ≠ v := by
  rw [List.mem_map, not_exists]
  exact forall_congr' fun p => not_and

theorem last_eq_none_iff {pairs : List (Var × Nat)} {v : Var} :
    (pairs.reverse.find? (·.1 = v)).map (·.2) = none ↔ v ∉ pairs.map (·.1) := by
  rw [not_listed_iff, Option.map_eq_none_iff, List.find?_eq_none]
  simp only [List.mem_reverse, decide_eq_true_eq, ne_eq]

theorem last_eq_some_iff {pairs : List (Var × Nat)} {v : Var} {cell : Nat} :
    (pairs.reverse.find? (·.1 = v)).map (·.2) = some cell ↔
      ∃ front back, pairs = front ++ (v, cell) :: back ∧ v ∉ back.map (·.1) := by
  simp only [not_listed_iff]
  rw [Option.map_eq_some_iff]
  constructor
  · rintro ⟨⟨u, k⟩, hfind, rfl⟩
    obtain ⟨hu, after, before, hsplit, hafter⟩ := List.find?_eq_some_iff_append.mp hfind
    obtain rfl : u = v := of_decide_eq_true hu
    refine ⟨before.reverse, after.reverse, ?_, fun p hp => ?_⟩
    · rw [← List.reverse_reverse pairs, hsplit]
      simp
    · simpa using hafter p (List.mem_reverse.mp hp)
  · rintro ⟨front, back, rfl, hback⟩
    refine ⟨(v, cell), List.find?_eq_some_iff_append.mpr ⟨decide_eq_true rfl, ?_⟩, rfl⟩
    refine ⟨back.reverse, front.reverse, by simp, fun p hp => ?_⟩
    simpa using hback p (List.mem_reverse.mp hp)

/-- The search finds the last pair of the innermost frame that lists the var. -/
theorem searched?_eq_some_iff {c : Chain} {v : Var} {cell : Nat} :
    c.searched? v = some cell ↔ Binds c v cell := by
  rw [Chain.searched?, List.findSome?_eq_some_iff]
  simp only [last_eq_some_iff, last_eq_none_iff]
  constructor
  · rintro ⟨above, f, below, hc, hf, hab⟩
    exact ⟨above, f, below, hc, hab, hf⟩
  · rintro ⟨above, f, below, hc, hab, hf⟩
    exact ⟨above, f, below, hc, hf, hab⟩

theorem searched?_isSome_iff {c : Chain} {v : Var} :
    (c.searched? v).isSome ↔ ∃ f ∈ c, v ∈ f.pushed.map (·.1) := by
  rw [← not_iff_not, Option.not_isSome_iff_eq_none, Chain.searched?, List.findSome?_eq_none_iff]
  simp only [last_eq_none_iff, not_exists, not_and]

/-! ### Frames as a push makes them -/

/-- What a frame carries when it stands on a chain: the cells that a search down the chain finds, and
the number of frames. -/
structure Tops (f : Frame) (below : Chain) : Prop where
  visible : ∀ v, f.visible.find? v = Chain.searched? (f :: below) v
  depth : f.depth = below.length + 1

/-- A frame whose number and whose cells have been given out. -/
structure Within (frames cells : Nat) (f : Frame) : Prop where
  id : f.id < frames
  pushed : ∀ p ∈ f.pushed, p.2 < cells
  visible : ∀ e ∈ f.visible.entries, e.2 < cells

theorem Within.mono {m m' k k' : Nat} {f : Frame} (h : Within m k f) (hm : m ≤ m') (hk : k ≤ k') :
    Within m' k' f :=
  ⟨Nat.lt_of_lt_of_le h.id hm, fun p hp => Nat.lt_of_lt_of_le (h.pushed p hp) hk,
    fun e he => Nat.lt_of_lt_of_le (h.visible e he) hk⟩

/-- After several insertions a key has its last value. -/
theorem find?_foldl_insert (v : Var) : ∀ (pairs : List (Var × Nat)) (t : Table Var Nat),
    (pairs.foldl (fun t p => t.insert p.1 p.2) t).find? v =
      ((pairs.reverse.find? (·.1 = v)).map (·.2)).or (t.find? v)
  | [], t => rfl
  | p :: ps, t => by
    rw [List.foldl_cons, find?_foldl_insert v ps, Table.find?_insert, List.reverse_cons,
      List.find?_append]
    by_cases hp : p.1 = v
    · cases ps.reverse.find? (·.1 = v) <;> simp [hp]
    · have hv : ¬v = p.1 := fun h => hp h.symm
      cases ps.reverse.find? (·.1 = v) <;> simp [hp, hv]

/-- The cells of a new frame are the next ones. -/
theorem map_snd_numbered : ∀ (first : Nat) (pairs : List (Var × Value)),
    (numbered first pairs).map (·.2) = List.range' first pairs.length
  | _, [] => rfl
  | first, _ :: ps => by
    rw [numbered, List.map_cons, map_snd_numbered (first + 1) ps, List.length_cons, List.range'_succ]

theorem mem_numbered {first : Nat} {pairs : List (Var × Value)} {p : Var × Nat}
    (h : p ∈ numbered first pairs) : first ≤ p.2 ∧ p.2 < first + pairs.length := by
  have hm : p.2 ∈ (numbered first pairs).map (·.2) := List.mem_map_of_mem h
  rw [map_snd_numbered, List.mem_range'_1] at hm
  exact hm

/-- The cells of a new frame hold the values of its pairs. -/
theorem getD_numbered : ∀ (pairs : List (Var × Value)) (cells : Array Value),
    (numbered cells.size pairs).map
      (fun p => (cells ++ (pairs.map (·.2)).toArray).getD p.2 .nil) = pairs.map (·.2)
  | [], _ => rfl
  | p :: ps, cells => by
    have hrest := getD_numbered ps (cells.push p.2)
    rw [Array.size_push] at hrest
    rw [numbered, List.map_cons, List.map_cons, List.toArray_cons, ← Array.append_assoc,
      ← Array.push_eq_append, hrest]
    simp

/-- A new frame has a cell of its own for each of its pairs. -/
theorem eq_of_mem_numbered {first : Nat} {pairs : List (Var × Value)} {p q : Var × Nat}
    (hp : p ∈ numbered first pairs) (hq : q ∈ numbered first pairs) (h : p.2 = q.2) : p = q := by
  have hn : ((numbered first pairs).map (·.2)).Nodup := by
    rw [map_snd_numbered]
    exact List.nodup_range'
  exact List.inj_on_of_nodup_map hn hp hq h

/-- What a well-formed chain shows at its top. -/
theorem cell?_eq_searched? {c : Chain} (h : ∀ f below, c = f :: below → Tops f below) (v : Var) :
    c.cell? v = c.searched? v := by
  cases c with
  | nil => rfl
  | cons f below => exact (h f below rfl).visible v

theorem depth_eq_length {c : Chain} (h : ∀ f below, c = f :: below → Tops f below) :
    c.depth = c.length := by
  cases c with
  | nil => rfl
  | cons f below => exact (h f below rfl).depth

theorem tops_push {c : Chain} (h : ∀ f below, c = f :: below → Tops f below) {f : Frame} {id : Nat}
    {pairs : List (Var × Nat)} {guarded : Bool} (hf : f :: c = c.push id pairs guarded) :
    Tops f c := by
  cases hf
  refine ⟨fun v => ?_, congrArg (· + 1) (depth_eq_length h)⟩
  rw [Chain.searched?, List.findSome?_cons]
  refine (find?_foldl_insert v pairs c.visible).trans ?_
  rw [show c.visible.find? v = c.searched? v from cell?_eq_searched? h v]
  cases (pairs.reverse.find? (·.1 = v)).map (·.2) <;> rfl

theorem within_push {c : Chain} {next first : Nat} (h : ∀ f below, c = f :: below → Within next first f)
    {f : Frame} {pairs : List (Var × Value)} {guarded : Bool}
    (hf : f :: c = c.push next (numbered first pairs) guarded) :
    Within (next + 1) (first + pairs.length) f := by
  cases hf
  refine ⟨Nat.lt_succ_self _, fun p hp => (mem_numbered hp).2, fun e he => ?_⟩
  rcases Table.mem_foldl_insert _ he with he | he
  · exact (mem_numbered he).2
  · cases c with
    | nil => exact absurd he List.not_mem_nil
    | cons g rest => exact Nat.lt_add_right _ ((h g rest rfl).visible e he)

/-! ### Frames in sight -/

/-- A chain in sight: that of a thread, one set aside by an open region, or one in a snapshot. -/
inductive Scene.InSight (s : Scene) : Chain → Prop
  | thread (i : Nat) : InSight s (s.threads i).chain
  | region {i : Nat} {g : FrameGuard} (h : g ∈ (s.threads i).regions) : InSight s g.saved
  | snapshot {f : BindingFrame} (h : f ∈ s.snapshots) : InSight s f.chain

/-- A frame in sight, with the chain below it. -/
def Scene.Holds (s : Scene) (f : Frame) (below : Chain) : Prop :=
  ∃ c, s.InSight c ∧ f :: below <:+ c

/-- What threads without bindings come to by steps that change the world only so. -/
inductive Scene.ReachedBy (may : World → World → Prop) : Scene → Prop
  | start (w : World) : ReachedBy may (start w)
  | step {s t : Scene} {i : Nat} (h : ReachedBy may s) (hs : Step i (fun _ => True) s t)
      (hw : may s.world t.world) : ReachedBy may t

def KeepsCells (w w' : World) : Prop := w.cells.size ≤ w'.cells.size

/-- No binding cell is taken away, and no var that may be bound is made one that may not. -/
def KeepsFlags (w w' : World) : Prop :=
  KeepsCells w w' ∧ ∀ v, (w.varCell v).dynamic = true → (w'.varCell v).dynamic = true

/-- What an operation that pushes nothing does: it takes frames off the chain or none. -/
structure Trims (w w' : World) : Prop where
  chain : w'.chain <:+ w.chain
  vars : w'.vars = w.vars

/-- An operation takes frames off the chain or none, or puts one frame of dynamic vars on it. -/
theorem Op.Leaves.trims_or_frames {o : Op} {w w' : World} (h : o.Leaves w w') : Trims w w' ∨
    ∃ pairs guarded, w' = framed w pairs guarded ∧
      ∀ p ∈ pairs, (w.varCell p.1).dynamic = true := by
  cases h with
  | failed | missed | wrote => exact .inl ⟨List.suffix_rfl, rfl⟩
  | pushed pairs guarded hd => exact .inr ⟨pairs, guarded, rfl, hd⟩
  | popped f below hc => exact .inl ⟨hc ▸ List.suffix_cons f below, rfl⟩
  | cut => exact .inl ⟨(List.tail_suffix _).trans (List.dropWhile_suffix _), rfl⟩

namespace Scene

variable {s t : Scene} {i : Nat} {may : BindingGuard → Prop} {f g : Frame} {below : Chain}

theorem InSight.of_keep {w : World} {gs : List FrameGuard} {c : Chain}
    (h : (s.keep i w gs).InSight c) : c = w.chain ∨ (∃ g ∈ gs, c = g.saved) ∨ s.InSight c := by
  cases h with
  | thread j =>
    rcases eq_or_ne j i with rfl | hj
    · rw [keep_self]
      exact .inl rfl
    · rw [keep_of_ne s hj]
      exact .inr (.inr (.thread j))
  | @region j g hg =>
    rcases eq_or_ne j i with rfl | hj
    · rw [keep_self] at hg
      exact .inr (.inl ⟨g, hg, rfl⟩)
    · rw [keep_of_ne s hj] at hg
      exact .inr (.inr (.region hg))
  | snapshot hf => exact .inr (.inr (.snapshot hf))

/-- Every chain in sight after a step was, or was part of one, in sight before it; or it is that of
the thread, with one more frame of dynamic vars. -/
theorem Step.inSight {c : Chain} (h : Step i may s t) (hc : t.InSight c) :
    (∃ c₀, s.InSight c₀ ∧ c <:+ c₀) ∨ ∃ pairs guarded, t.world = framed (s.seen i) pairs guarded ∧
      c = t.world.chain ∧ ∀ p ∈ pairs, (s.world.varCell p.1).dynamic = true := by
  have before {c : Chain} (h : s.InSight c) : ∃ c₀, s.InSight c₀ ∧ c <:+ c₀ :=
    ⟨c, h, List.suffix_rfl⟩
  cases h with
  | op o n =>
    rcases hc.of_keep with rfl | ⟨g, hg, rfl⟩ | hc
    · rcases (o.leaves n (s.seen i)).trims_or_frames with ht | ⟨pairs, guarded, hw, hd⟩
      · exact .inl ⟨_, .thread i, ht.chain⟩
      · exact .inr ⟨pairs, guarded, hw, rfl, hd⟩
    · exact .inl (before (.region hg))
    · exact .inl (before hc)
  | capture hcap =>
    cases hcap
    have hkeep : (s.keep i (s.seen i) (s.threads i).regions).threads = s.threads :=
      Function.update_eq_self ..
    cases hc with
    | thread j => exact .inl (before (congrFun hkeep j ▸ .thread j))
    | region hg => exact .inl (before (.region (congrFun hkeep _ ▸ hg)))
    | snapshot hf =>
      rcases List.mem_cons.mp hf with rfl | hf
      · exact .inl (before (.thread i))
      · exact .inl (before (.snapshot hf))
  | enter hf henter =>
    cases henter
    rcases hc.of_keep with rfl | ⟨g, hg, rfl⟩ | hc
    · exact .inl (before (.snapshot hf))
    · rcases List.mem_cons.mp hg with rfl | hg
      · exact .inl (before (.thread i))
      · exact .inl (before (.region hg))
    · exact .inl (before hc)
  | @leave g gs n hr =>
    have hmem : ∀ h ∈ g :: gs, h ∈ (s.threads i).regions := fun h hh => hr ▸ hh
    rcases hc.of_keep with rfl | ⟨h, hh, rfl⟩ | hc
    · exact .inl (before (.region (hmem g List.mem_cons_self)))
    · exact .inl (before (.region (hmem h (List.mem_cons_of_mem g hh))))
    · exact .inl (before hc)
  | aside w hn =>
    refine .inl (before ?_)
    cases hc with
    | thread j => exact .thread j
    | region h => exact .region h
    | snapshot h => exact .snapshot h

/-- Every frame in sight after a step was so before, or is the one that the thread has just put on its
chain. -/
theorem Step.holds (h : Step i may s t) (hf : t.Holds f below) : s.Holds f below ∨
    ∃ pairs guarded, t.world = framed (s.seen i) pairs guarded ∧ below = (s.threads i).chain ∧
      f :: below = t.world.chain ∧ ∀ p ∈ pairs, (s.world.varCell p.1).dynamic = true := by
  obtain ⟨c, hc, hsub⟩ := hf
  rcases h.inSight hc with ⟨c₀, hc₀, hsub₀⟩ | ⟨pairs, guarded, hw, rfl, hd⟩
  · exact .inl ⟨c₀, hc₀, hsub.trans hsub₀⟩
  · rw [hw] at hsub
    rcases List.suffix_cons_iff.mp hsub with heq | hsub
    · exact .inr ⟨pairs, guarded, hw, (List.cons.inj heq).2, by rw [hw]; exact heq, hd⟩
    · exact .inl ⟨_, .thread i, hsub⟩

/-- Frames in sight carry what is below them, have numbers and cells that were given out, and are told
apart by their numbers and by their cells. -/
structure Sound (s : Scene) : Prop where
  tops : ∀ {f below}, s.Holds f below → Tops f below
  within : ∀ {f below}, s.Holds f below → Within s.world.nextFrame s.world.cells.size f
  linked : ∀ {f g below below'}, s.Holds f below → s.Holds g below' → f.id = g.id →
    f = g ∧ below = below'
  apart : ∀ {f g below below' p q}, s.Holds f below → s.Holds g below' → p ∈ f.pushed →
    q ∈ g.pushed → p.2 = q.2 → f = g ∧ p = q

theorem not_holds_start {w : World} : ¬(start w).Holds f below := by
  rintro ⟨c, hc, hsub⟩
  have hnil : c = [] := by
    cases hc with
    | thread | region h => first | rfl | exact absurd h List.not_mem_nil
    | snapshot h => rw [List.mem_singleton.mp h]; rfl
  rw [hnil] at hsub
  exact absurd (List.suffix_nil.mp hsub) (List.cons_ne_nil _ _)

theorem holds_thread (h : (s.threads i).chain = f :: below) : s.Holds f below :=
  ⟨_, .thread i, h ▸ List.suffix_rfl⟩

/-- The frame that a thread has just put on its chain. -/
theorem Sound.pushed {pairs : List (Var × Value)} {guarded : Bool} (hs : s.Sound)
    (hw : t.world = framed (s.seen i) pairs guarded)
    (hf : f :: (s.threads i).chain = t.world.chain) :
    Tops f (s.threads i).chain ∧ Within t.world.nextFrame t.world.cells.size f ∧
      f.id = s.world.nextFrame ∧ f.pushed = numbered s.world.cells.size pairs := by
  have htop : ∀ g rest, (s.threads i).chain = g :: rest → s.Holds g rest := fun _ _ => holds_thread
  have hpush : f :: (s.threads i).chain = (s.threads i).chain.push s.world.nextFrame
      (numbered s.world.cells.size pairs) guarded := by rw [hf, hw]; rfl
  have htops : Tops f (s.threads i).chain :=
    tops_push (fun g rest h => hs.tops (htop g rest h)) hpush
  have hsize : t.world.cells.size = s.world.cells.size + pairs.length := by
    rw [hw]
    simp [framed, seen]
  have hnext : t.world.nextFrame = s.world.nextFrame + 1 := by rw [hw]; rfl
  have hwithin := within_push (fun g rest h => hs.within (htop g rest h)) hpush
  rw [← hsize, ← hnext] at hwithin
  cases hpush
  exact ⟨htops, hwithin, rfl, rfl⟩

theorem Sound.step (hs : s.Sound) (h : Step i may s t) (hw : KeepsCells s.world t.world) :
    t.Sound := by
  have hnext := h.nextFrame_le
  have hold {f below} (hf : s.Holds f below) : Within t.world.nextFrame t.world.cells.size f :=
    (hs.within hf).mono hnext hw
  -- a frame that was in sight has a smaller number and smaller cells than the one just pushed
  have hnew {f g below below' pairs guarded} (hf : s.Holds f below)
      (ht : t.world = framed (s.seen i) pairs guarded) (hb : below' = (s.threads i).chain)
      (hg : g :: below' = t.world.chain) : f.id < g.id ∧
        ∀ p ∈ f.pushed, ∀ q ∈ g.pushed, p.2 < q.2 := by
    subst hb
    obtain ⟨-, -, hid, hpushed⟩ := hs.pushed ht hg
    refine ⟨hid ▸ (hs.within hf).id, fun p hp q hq => ?_⟩
    rw [hpushed] at hq
    exact Nat.lt_of_lt_of_le ((hs.within hf).pushed p hp) (mem_numbered hq).1
  constructor
  · intro f below hf
    rcases h.holds hf with hf | ⟨pairs, guarded, ht, rfl, hc, -⟩
    · exact hs.tops hf
    · exact (hs.pushed ht hc).1
  · intro f below hf
    rcases h.holds hf with hf | ⟨pairs, guarded, ht, rfl, hc, -⟩
    · exact hold hf
    · exact (hs.pushed ht hc).2.1
  · intro f g below below' hf hg hid
    rcases h.holds hf with hf | ⟨pairs, guarded, ht, hb, hc, -⟩ <;>
      rcases h.holds hg with hg | ⟨pairs', guarded', ht', hb', hc', -⟩
    · exact hs.linked hf hg hid
    · exact absurd hid (Nat.ne_of_lt (hnew hf ht' hb' hc').1)
    · exact absurd hid (Nat.ne_of_gt (hnew hg ht hb hc).1)
    · exact List.cons.inj (hc.trans hc'.symm)
  · intro f g below below' p q hf hg hp hq hpq
    rcases h.holds hf with hf | ⟨pairs, guarded, ht, hb, hc, -⟩ <;>
      rcases h.holds hg with hg | ⟨pairs', guarded', ht', hb', hc', -⟩
    · exact hs.apart hf hg hp hq hpq
    · exact absurd hpq (Nat.ne_of_lt ((hnew hf ht' hb' hc').2 p hp q hq))
    · exact absurd hpq (Nat.ne_of_gt ((hnew hg ht hb hc).2 q hq p hp))
    · obtain ⟨rfl, -⟩ := List.cons.inj (hc.trans hc'.symm)
      subst hb
      obtain ⟨-, -, -, hpushed⟩ := hs.pushed ht hc
      rw [hpushed] at hp hq
      exact ⟨rfl, eq_of_mem_numbered hp hq hpq⟩

theorem reachedBy_sound {allowed : World → World → Prop} (hk : ∀ {w w'}, allowed w w' → KeepsCells w w')
    (h : ReachedBy allowed s) : s.Sound := by
  induction h with
  | start w =>
    exact ⟨fun h => absurd h not_holds_start, fun h => absurd h not_holds_start,
      fun h => absurd h not_holds_start, fun h => absurd h not_holds_start⟩
  | step _ hs hw ih => exact ih.step hs (hk hw)

/-- While no flag is switched off, every var that a frame lists may be bound. -/
theorem dynamic_of_holds (h : ReachedBy KeepsFlags s) (hf : s.Holds f below) :
    ∀ p ∈ f.pushed, (s.world.varCell p.1).dynamic = true := by
  induction h generalizing f below with
  | start w => exact absurd hf not_holds_start
  | @step s t i h hs hw ih =>
    intro p hp
    rcases hs.holds hf with hf | ⟨pairs, guarded, ht, rfl, hc, hd⟩
    · exact hw.2 p.1 (ih hf p hp)
    · obtain ⟨-, -, -, hpushed⟩ := (reachedBy_sound And.left h).pushed ht hc
      rw [hpushed] at hp
      have hmem : p.1 ∈ pairs.map (·.1) := by
        rw [← map_fst_numbered s.world.cells.size pairs]
        exact List.mem_map_of_mem hp
      obtain ⟨q, hq, hqp⟩ := List.mem_map.mp hmem
      exact hw.2 p.1 (hqp ▸ hd q hq)

end Scene

/-! ### Reads -/

/-- The value found by searching the chain frame by frame, of a var that may be bound at all. -/
def searchedValue? (w : World) (v : Var) : Option Value :=
  if (w.varCell v).dynamic then (w.chain.searched? v).map (w.cells.getD · .nil) else none

theorem binding?_eq_searchedValue? {n : Nat} {w : World}
    (h : ∀ f below, w.chain = f :: below → Tops f below) (v : Var) :
    v.binding? n w = .ok (searchedValue? w v) w := by
  rw [binding?_eq, cell?_eq_searched? h, searchedValue?]
  split_ifs <;> rfl

theorem hasBinding_eq_searchedValue? {n : Nat} {w : World}
    (h : ∀ f below, w.chain = f :: below → Tops f below) (v : Var) :
    v.hasBinding n w = .ok (searchedValue? w v).isSome w := by
  rw [hasBinding_eq, cell?_eq_searched? h, searchedValue?]
  split_ifs
  · rw [Option.isSome_map]
  · rfl

/-- A var is bound exactly when it has a value. -/
theorem isBound_iff_current {n : Nat} {w : World}
    (h : ∀ f below, w.chain = f :: below → Tops f below) (v : Var) :
    v.isBound n w = .ok true w ↔ ∃ x, v.current n w = .ok x w := by
  rw [isBound_eq v (hasBinding_eq_searchedValue? h v),
    current_eq v (binding?_eq_searchedValue? h v)]
  cases searchedValue? w v with
  | some x => exact ⟨fun _ => ⟨x, rfl⟩, fun _ => rfl⟩
  | none =>
    cases (w.varCell v).root with
    | some x => exact ⟨fun _ => ⟨x, rfl⟩, fun _ => rfl⟩
    | none => exact ⟨nofun, nofun⟩

/-- What is visible at a frame is what a walk down its chain finds. Whatever the threads do, each
frame in sight has a cell for just the vars that it or a frame below it lists. It is the cell that
the innermost of those frames lists last for the var, made for that pair by the push of that frame,
and no other pair of any frame has it; the depth of the frame is the length of its chain. So
all reads through the innermost frame agree with searching the chain frame by frame, and a var is
bound exactly when it has a value. The search is for vars that may be bound at the time of the
read, which is every var on the chain as long as no flag was switched off. -/
theorem reads_agree_with_search {s : Scene} (hs : s.ReachedBy KeepsCells) :
    (∀ f below, s.Holds f below →
      (∀ v, (f.visible.find? v).isSome ↔ ∃ g ∈ f :: below, v ∈ g.pushed.map (·.1)) ∧
      (∀ v cell, f.visible.find? v = some cell ↔ Binds (f :: below) v cell) ∧
      (∀ g below', s.Holds g below' → ∀ p ∈ f.pushed, ∀ q ∈ g.pushed, p.2 = q.2 → f = g ∧ p = q) ∧
      f.depth = (f :: below).length) ∧
    (∀ i n pairs guarded, ∃ f w, pushFrame pairs guarded n (s.seen i) = .ok f.id w ∧
      w.chain = f :: (s.threads i).chain ∧ f.pushed.map (·.1) = pairs.map (·.1) ∧
      f.pushed.map (fun p => w.cells.getD p.2 .nil) = pairs.map (·.2) ∧
      ∀ g below, s.Holds g below → ∀ p ∈ f.pushed, ∀ q ∈ g.pushed, p.2 ≠ q.2) ∧
    (∀ i n v, let w := s.seen i
      v.binding? n w = .ok (searchedValue? w v) w ∧
      v.hasBinding n w = .ok (searchedValue? w v).isSome w ∧
      v.isBound n w = .ok ((searchedValue? w v).isSome || (w.varCell v).root.isSome) w ∧
      (v.current n w = match (searchedValue? w v).or (w.varCell v).root with
        | some x => .ok x w
        | none => .error (.error (.unboundVar (w.varCell v).label.text)) w) ∧
      (v.isBound n w = .ok true w ↔ ∃ x, v.current n w = .ok x w) ∧
      depth n w = .ok w.chain.length w) ∧
    (s.ReachedBy KeepsFlags → ∀ i v, searchedValue? (s.seen i) v =
      ((s.threads i).chain.searched? v).map (s.world.cells.getD · .nil)) := by
  have hsound := Scene.reachedBy_sound id hs
  have htops (i : Nat) : ∀ f below, (s.seen i).chain = f :: below → Tops f below :=
    fun f below h => hsound.tops (Scene.holds_thread h)
  refine ⟨fun f below hf => ⟨fun v => ?_, fun v cell => ?_, ?_, (hsound.tops hf).depth⟩,
    fun i n pairs guarded => ?_, fun i n v => ?_, fun hflags i v => ?_⟩
  · rw [(hsound.tops hf).visible, searched?_isSome_iff]
  · rw [(hsound.tops hf).visible, searched?_eq_some_iff]
  · exact fun g below' hg p hp q hq hpq => hsound.apart hf hg hp hq hpq
  · refine ⟨⟨s.world.nextFrame, numbered s.world.cells.size pairs, _, _, guarded⟩,
      framed (s.seen i) pairs guarded, pushFrame_eq pairs guarded, rfl, map_fst_numbered ..,
      getD_numbered pairs s.world.cells, ?_⟩
    intro g below hg p hp q hq hpq
    have hnew := (mem_numbered hp).1
    have hold := (hsound.within hg).pushed q hq
    exact absurd hpq (Nat.ne_of_gt (Nat.lt_of_lt_of_le hold hnew))
  · have hb := binding?_eq_searchedValue? (n := n) (htops i) v
    have hhas := hasBinding_eq_searchedValue? (n := n) (htops i) v
    refine ⟨hb, hhas, isBound_eq v hhas, current_eq v hb, isBound_iff_current (htops i) v, ?_⟩
    rw [← depth_eq_length (htops i)]
    rfl
  · rw [searchedValue?]
    split_ifs with hd
    · rfl
    · -- a var that may not be bound is not listed
      have hnone : (s.threads i).chain.searched? v = none := by
        rw [← Option.not_isSome_iff_eq_none, searched?_isSome_iff]
        rintro ⟨f, hf, hv⟩
        obtain ⟨above, below, hsplit⟩ := List.append_of_mem hf
        obtain ⟨p, hp, rfl⟩ := List.mem_map.mp hv
        have hh : s.Holds f below := ⟨_, .thread i, hsplit ▸ List.suffix_append above (f :: below)⟩
        exact hd (Scene.dynamic_of_holds hflags hh p hp)
      rw [hnone]
      rfl

/-- A var listed twice in a frame, which another thread has installed. -/
theorem reads_agree_with_search_repeated :
    let v : Var := ⟨0⟩
    let s : Scene := .start { vars := #[{ label := .anonymous 0, dynamic := true }] }
    let pushed := s.keep 0
      ((Op.pushGuarded [(v, .int 1), (v, .int 2)]).run.worldAfter 0 (s.seen 0)) []
    let taken : Scene :=
      { pushed.keep 0 (pushed.seen 0) [] with
        snapshots := [⟨(pushed.threads 0).chain⟩, .empty] }
    let t := taken.keep 1 { taken.seen 1 with chain := (pushed.threads 0).chain } [⟨[]⟩]
    t.ReachedBy KeepsCells ∧ v.binding? 0 (t.seen 1) = .ok (some (.int 2)) (t.seen 1) := by
  intro v s pushed taken t
  have hpushed : pushed.ReachedBy KeepsCells :=
    .step (.start _) (.op (.pushGuarded [(v, .int 1), (v, .int 2)]) 0 fun _ _ => trivial)
      (Nat.zero_le _)
  have htaken : taken.ReachedBy KeepsCells :=
    .step hpushed (.capture (n := 0) (i := 0) rfl) (Nat.le_refl _)
  have ht : t.ReachedBy KeepsCells :=
    .step htaken (.enter (n := 0) (f := ⟨(pushed.threads 0).chain⟩) (i := 1) List.mem_cons_self rfl)
      (Nat.le_refl _)
  obtain ⟨-, -, hreads, -⟩ := reads_agree_with_search ht
  exact ⟨ht, (hreads 1 0 v).1⟩

end LispCore.Binding
