import LispCore.Proofs.Binding.Renaming
/-!
Tasks that take turns on one thread. A task starts from a snapshot; when polled it installs its saved
bindings, makes some moves, and saves the bindings that it then has. The tasks share the frames and the
cells of the snapshot, but what one of them pushes no other one sees: whatever the turns, a task sees
what it sees alone (`tasks_see_alike`). A run of all tasks mirrors the run of one of them
(`Mirrors`): a poll of the task itself makes the same moves in both, a poll of another one touches
nothing but cells of that other one (`Spares`).
-/

namespace LispCore.Binding

/-! ### Moves and polls -/

/-- What a task may do with bindings. A guard is named by its place among those the task has. -/
inductive Move where
  | push (v : Var) (x : Value)
  | pop (v : Var)
  | pushGuarded (pairs : List (Var × Value))
  | dropGuard (k : Nat)
  | set (v : Var) (x : Value)
  | current (v : Var)
  | hasBinding (v : Var)
  | depth

inductive Seen where
  | done
  | failed (e : Error)
  | value (x : Value)
  | flag (b : Bool)
  | number (k : Nat)

/-- Runs an action and tells what is seen of it and which guards there are then; an error is seen, and
leaves the guards as they are. -/
def seeing {α : Type} (gs : List BindingGuard) (x : Act α) (f : α → Seen × List BindingGuard) :
    Act (Seen × List BindingGuard) := do
  match ← Act.attempt x with
  | .ok a => return f a
  | .error e => return (.failed e, gs)

/-- Makes a move with the guards that the task has. -/
def Move.run (gs : List BindingGuard) : Move → Act (Seen × List BindingGuard)
  | .push v x => seeing gs (Binding.push v x) fun _ => (.done, gs)
  | .pop v => seeing gs (Binding.pop v) fun _ => (.done, gs)
  | .pushGuarded pairs => seeing gs (Binding.pushGuarded pairs) fun g => (.done, gs ++ [g])
  | .dropGuard k =>
    match gs[k]? with
    | none => return (.done, gs)
    | some g => seeing gs (Binding.dropGuard g) fun _ => (.done, gs.eraseIdx k)
  | .set v x => seeing gs (v.set x) fun _ => (.done, gs)
  | .current v => seeing gs v.current fun x => (.value x, gs)
  | .hasBinding v => seeing gs v.hasBinding fun b => (.flag b, gs)
  | .depth => seeing gs Binding.depth fun k => (.number k, gs)

def follow : List Move → List BindingGuard → Act (List Seen × List BindingGuard)
  | [], gs => return ([], gs)
  | m :: ms, gs => do
    let (seen, gs) ← m.run gs
    let (rest, gs) ← follow ms gs
    return (seen :: rest, gs)

/-- A task between polls: its bindings and the guards that it has not dropped. -/
structure Task where
  saved : BindingFrame
  guards : List BindingGuard := []

/-- Polls a task: it makes these moves under its own bindings. -/
def Task.poll (t : Task) (ms : List Move) : Act (List Seen × Task) := do
  let g ← t.saved.enter
  let (seen, guards) ← follow ms t.guards
  let saved ← BindingFrame.capture
  g.drop
  return (seen, ⟨saved, guards⟩)

/-- The world with the bindings of the task installed. -/
def Task.entered (t : Task) (w : World) : World := { w with chain := t.saved.chain }

variable {ι : Type} [DecidableEq ι]

/-- Polls tasks in turn and tells what each of them sees. -/
def polls : List (ι × List Move) → (ι → Task) → Act (List (ι × List Seen) × (ι → Task))
  | [], ts => return ([], ts)
  | p :: ps, ts => do
    let (seen, t) ← (ts p.1).poll p.2
    let (rest, ts) ← polls ps (Function.update ts p.1 t)
    return ((p.1, seen) :: rest, ts)

variable {n : Nat}

/-! ### Setting one's own bindings -/

/-- The cells of a task after moves that led from one world to another: those made on the way are its
own. -/
def Grown (own : Nat → Prop) (w w' : World) (a : Nat) : Prop :=
  own a ∨ (w.cells.size ≤ a ∧ a < w'.cells.size)

/-- Each binding that a move sets is one that the task pushed itself. -/
def FollowsOwn (n : Nat) : (own : Nat → Prop) → List Move → List BindingGuard → World → Prop
  | _, [], _, _ => True
  | own, m :: ms, gs, w =>
    (∀ v x cell, m = .set v x → v.bindingCell? n w = .ok (some cell) w → own cell) ∧
      ∀ seen gs' w', m.run gs n w = .ok (seen, gs') w' → FollowsOwn n (Grown own w w') ms gs' w'

/-- Each binding that a task sets is one that the task pushed itself, in this poll or earlier. -/
def PollsOwn (n : Nat) : (own : ι → Nat → Prop) → List (ι × List Move) → (ι → Task) → World → Prop
  | _, [], _, _ => True
  | own, p :: ps, ts, w =>
    FollowsOwn n (own p.1) p.2 (ts p.1).guards ((ts p.1).entered w) ∧
      ∀ seen t w', (ts p.1).poll p.2 n w = .ok (seen, t) w' →
        PollsOwn n (Function.update own p.1 (Grown (own p.1) w w')) ps (Function.update ts p.1 t) w'

theorem PollsOwn.front {back : List (ι × List Move)} : ∀ {front : List (ι × List Move)}
    {own : ι → Nat → Prop} {ts : ι → Task} {w : World},
    PollsOwn n own (front ++ back) ts w → PollsOwn n own front ts w
  | [], _, _, _, _ => trivial
  | _ :: _, _, _, _, h => ⟨h.1, fun seen t w' hp => PollsOwn.front (h.2 seen t w' hp)⟩

/-! ### What a task leaves alone -/

/-- Nothing changes for a chain whose cells are none of these, and nothing is numbered anew. -/
structure Spares (own : Nat → Prop) (w w' : World) : Prop where
  vars : w'.vars = w.vars
  frames : w.nextFrame ≤ w'.nextFrame
  cells : w.cells.size ≤ w'.cells.size
  value : ∀ a < w.cells.size, ¬own a → w'.cells.getD a .nil = w.cells.getD a .nil

namespace Spares

variable {own own' : Nat → Prop} {w w₁ w₂ : World}

theorem refl (own : Nat → Prop) (w : World) : Spares own w w :=
  ⟨rfl, Nat.le_refl _, Nat.le_refl _, fun _ _ _ => rfl⟩

theorem trans (h : Spares own w w₁) (h' : Spares (Grown own w w₁) w₁ w₂) : Spares own w w₂ where
  vars := h'.vars.trans h.vars
  frames := Nat.le_trans h.frames h'.frames
  cells := Nat.le_trans h.cells h'.cells
  value a ha hown := by
    have hnew : ¬Grown own w w₁ a := by
      rintro (h | ⟨h, -⟩)
      · exact hown h
      · omega
    exact (h'.value a (Nat.lt_of_lt_of_le ha h.cells) hnew).trans (h.value a ha hown)

theorem mono (h : Spares own w w₁) (hsub : ∀ a, own a → own' a) : Spares own' w w₁ :=
  { h with value := fun a ha hown => h.value a ha fun h' => hown (hsub a h') }

theorem framed (w : World) (pairs : List (Var × Value)) (guarded : Bool) :
    Spares own w (framed w pairs guarded) where
  vars := rfl
  frames := Nat.le_succ _
  cells := by simp [Binding.framed]
  value a ha _ := by
    simp only [Binding.framed, Array.getD_eq_getD_getElem?]
    rw [Array.getElem?_append_left ha]

theorem set {cell : Nat} (hown : own cell) (x : Value) :
    Spares own w { w with cells := w.cells.setIfInBounds cell x } where
  vars := rfl
  frames := Nat.le_refl _
  cells := by simp
  value a _ ha := by
    have hne : cell ≠ a := fun h => ha (h ▸ hown)
    simp only [Array.getD_eq_getD_getElem?]
    rw [Array.getElem?_setIfInBounds_ne hne]

end Spares

section

variable {α β : Type} {gs gs' : List BindingGuard} {w w' v v' : World}

theorem seeing_of_ok {x : Act α} {f : α → Seen × List BindingGuard} {a : α} (h : x n w = .ok a v) :
    seeing gs x f n w = .ok (f a) v :=
  Act.bind_of_ok (Act.attempt_of_ok h)

theorem seeing_of_error {x : Act α} {f : α → Seen × List BindingGuard} {e : Error}
    (h : x n w = .error (.error e) v) : seeing gs x f n w = .ok (.failed e, gs) v :=
  Act.bind_of_ok (Act.attempt_of_error h)

/-- What a task makes of its bindings leaves all others alone. -/
theorem Move.spares {own : Nat → Prop} (m : Move) (gs : List BindingGuard)
    (hown : ∀ v x cell, m = .set v x → v.bindingCell? n w = .ok (some cell) w → own cell) :
    ∃ o w', m.run gs n w = .ok o w' ∧ Spares own w w' := by
  cases m with
  | push v x =>
    have h := push_eq (n := n) (w := w) v x
    split_ifs at h
    · exact ⟨_, _, seeing_of_ok h, .framed ..⟩
    · exact ⟨_, _, seeing_of_error h, .refl ..⟩
  | pop v =>
    rcases pop_cases (n := n) (w := w) v with ⟨f, below, -, -, -, h⟩ | ⟨detail, h⟩
    · exact ⟨_, _, seeing_of_ok h, rfl, Nat.le_refl _, Nat.le_refl _, fun _ _ _ => rfl⟩
    · exact ⟨_, _, seeing_of_error h, .refl ..⟩
  | pushGuarded pairs =>
    have h := pushGuarded_eq (n := n) (w := w) pairs
    cases hv : (pairs.map (·.1)).find? fun v => !(w.varCell v).dynamic with
    | none =>
      rw [hv] at h
      exact ⟨_, _, seeing_of_ok h, .framed ..⟩
    | some v =>
      rw [hv] at h
      exact ⟨_, _, seeing_of_error h, .refl ..⟩
  | dropGuard k =>
    rw [Move.run]
    cases gs[k]? with
    | none => exact ⟨_, _, rfl, .refl ..⟩
    | some g =>
      obtain ⟨notices, h⟩ := dropGuard_eq (n := n) g w
      exact ⟨_, _, seeing_of_ok h, rfl, Nat.le_refl _, Nat.le_refl _, fun _ _ _ => rfl⟩
  | set v x =>
    have hcell := bindingCell?_eq (n := n) (w := w) v
    rcases set_cases (n := n) (w := w) v x with ⟨cell, hd, hc, h⟩ | ⟨name, h⟩
    · rw [if_pos hd, hc] at hcell
      exact ⟨_, _, seeing_of_ok h, .set (hown v x cell rfl hcell) x⟩
    · exact ⟨_, _, seeing_of_error h, .refl ..⟩
  | current v =>
    have h := current_eq v (binding?_eq (n := n) (w := w) v)
    split at h
    · exact ⟨_, _, seeing_of_ok h, .refl ..⟩
    · exact ⟨_, _, seeing_of_error h, .refl ..⟩
  | hasBinding v => exact ⟨_, _, seeing_of_ok (hasBinding_eq v), .refl ..⟩
  | depth => exact ⟨_, _, seeing_of_ok rfl, .refl ..⟩

theorem follow_cons {m : Move} {ms : List Move} {seen : Seen} {gs₁ : List BindingGuard}
    {o : List Seen × List BindingGuard} (hm : m.run gs n w = .ok (seen, gs₁) v)
    (hms : follow ms gs₁ n v = .ok o v') : follow (m :: ms) gs n w = .ok (seen :: o.1, o.2) v' :=
  (Act.bind_of_ok hm).trans (Act.bind_of_ok hms)

theorem follow_spares : ∀ {ms : List Move} {own : Nat → Prop} {gs : List BindingGuard} {w : World},
    FollowsOwn n own ms gs w → ∃ o w', follow ms gs n w = .ok o w' ∧ Spares own w w'
  | [], _, _, _, _ => ⟨_, _, rfl, .refl ..⟩
  | m :: ms, own, gs, w, ⟨hown, hrest⟩ => by
    obtain ⟨⟨seen, gs₁⟩, w₁, hm, hs⟩ := m.spares gs hown
    obtain ⟨o, w₂, hms, hs'⟩ := follow_spares (hrest seen gs₁ w₁ hm)
    exact ⟨_, _, follow_cons hm hms, hs.trans hs'⟩

/-- A poll is what its moves are under the bindings of the task, and puts back the chain. -/
theorem Task.poll_eq {t : Task} {ms : List Move} {seen : List Seen}
    (h : follow ms t.guards n (t.entered w) = .ok (seen, gs) v) :
    t.poll ms n w = .ok (seen, ⟨⟨v.chain⟩, gs⟩) { v with chain := w.chain } := by
  have henter : t.saved.enter n w = .ok ⟨w.chain⟩ (t.entered w) := rfl
  rw [Task.poll, Act.bind_of_ok henter, Act.bind_of_ok h]
  rfl

theorem Task.poll_spares {own : Nat → Prop} {t : Task} {ms : List Move}
    (h : FollowsOwn n own ms t.guards (t.entered w)) :
    ∃ seen t' w', t.poll ms n w = .ok (seen, t') w' ∧ w'.chain = w.chain ∧ Spares own w w' := by
  obtain ⟨⟨seen, gs⟩, v, hf, hs⟩ := follow_spares h
  exact ⟨_, _, _, Task.poll_eq hf, rfl, hs.vars, hs.frames, hs.cells, hs.value⟩

/-! ### What a task does in either run -/

/-- Runs that end alike: both give the same, with mirrored chains and guards. -/
def EndAlike (foreign : Nat → Prop) (o o' : EStateM.Result Fault World (α × List BindingGuard)) :
    Prop :=
  ∃ r a gs w gs' w', o = .ok (a, gs) w ∧ o' = .ok (a, gs') w' ∧
    Mirrors r foreign w.chain gs w w'.chain gs' w'

variable {r : Renaming} {foreign : Nat → Prop}

theorem endAlike_of_ok {x : Act α} {x' : Act β} {f : α → Seen × List BindingGuard}
    {f' : β → Seen × List BindingGuard} {a : α} {a' : β} (hx : x n w = .ok a v)
    (hx' : x' n w' = .ok a' v') (hseen : (f a).1 = (f' a').1)
    (h : Mirrors r foreign v.chain (f a).2 v v'.chain (f' a').2 v') :
    EndAlike foreign (seeing gs x f n w) (seeing gs' x' f' n w') :=
  ⟨r, (f a).1, (f a).2, v, (f' a').2, v', seeing_of_ok hx, hseen ▸ seeing_of_ok hx', h⟩

theorem endAlike_of_error {x : Act α} {x' : Act β} {f : α → Seen × List BindingGuard}
    {f' : β → Seen × List BindingGuard} {e : Error} (hx : x n w = .error (.error e) v)
    (hx' : x' n w' = .error (.error e) v') (h : Mirrors r foreign v.chain gs v v'.chain gs' v') :
    EndAlike foreign (seeing gs x f n w) (seeing gs' x' f' n w') :=
  ⟨r, .failed e, gs, v, gs', v', seeing_of_error hx, seeing_of_error hx', h⟩

/-- A pop fails in both runs with the same text, or takes corresponding frames off. -/
theorem pop_mirrored (v : Var) (h : Mirrors r foreign w.chain gs w w'.chain gs' w') :
    EndAlike foreign (seeing gs (pop v) (fun _ => (.done, gs)) n w)
      (seeing gs' (pop v) (fun _ => (.done, gs')) n w') := by
  have hp := pop_eq (n := n) (w := w) v
  have hp' := pop_eq (n := n) (w := w') v
  have hnames : (fun u => (w.varCell u).label.text) = fun u => (w'.varCell u).label.text :=
    funext fun u => by rw [h.varCell u]
  have hchain := h.chain
  cases hc : w'.chain with
  | nil =>
    rw [hc] at hchain hp'
    rw [hchain, h.varCell v] at hp
    exact endAlike_of_error hp hp' h
  | cons f below =>
    rw [hc] at hchain hp'
    have hpushed : (r.onFrame f).pushed.map (·.1) = f.pushed.map (·.1) := by
      rw [Renaming.onFrame, List.map_map]
      rfl
    have hguarded : (r.onFrame f).guarded = f.guarded := rfl
    rw [hchain, Renaming.onChain, List.map_cons] at hp
    simp only [hpushed, hnames, hguarded, h.varCell v] at hp
    simp only at hp'
    split_ifs at hp hp'
    · exact endAlike_of_error hp hp' h
    · have hbelow : Mirrors r foreign (r.onChain below) gs w below gs' w' :=
        h.suffix rfl fun g hg => hc ▸ List.mem_cons_of_mem f hg
      exact endAlike_of_ok (r := r) hp hp' rfl (hbelow.beside (r.onChain below) below w.notices w'.notices)
    · exact endAlike_of_error hp hp' h

/-- A move is the same in both runs. -/
theorem Move.mirrored (m : Move) (h : Mirrors r foreign w.chain gs w w'.chain gs' w') :
    EndAlike foreign (m.run gs n w) (m.run gs' n w') := by
  cases m with
  | push v x =>
    have hp := push_eq (n := n) (w := w) v x
    have hp' := push_eq (n := n) (w := w') v x
    rw [h.varCell v] at hp
    split_ifs at hp hp'
    · exact endAlike_of_ok hp hp' rfl (h.framed [(v, x)] false)
    · exact endAlike_of_error hp hp' h
  | pop v => exact pop_mirrored v h
  | pushGuarded pairs =>
    have hp := pushGuarded_eq (n := n) (w := w) pairs
    have hp' := pushGuarded_eq (n := n) (w := w') pairs
    simp only [h.varCell] at hp
    cases hv : (pairs.map (·.1)).find? fun v => !(w'.varCell v).dynamic with
    | none =>
      rw [hv] at hp hp'
      refine endAlike_of_ok hp hp' rfl ((h.framed pairs true).own ?_ (Nat.lt_succ_self _))
      exact congrArg BindingGuard.mk Renaming.extended_nextFrame.symm
    | some v =>
      rw [hv] at hp hp'
      exact endAlike_of_error hp hp' h
  | dropGuard k =>
    rw [Move.run, Move.run, h.guards, List.getElem?_map]
    cases hg : gs'[k]? with
    | none => exact ⟨r, .done, gs, w, gs', w', by rw [h.guards]; rfl, rfl, h⟩
    | some g =>
      have hlt := h.guard_lt g (List.mem_of_getElem? hg)
      obtain ⟨notices, hd⟩ := dropGuard_eq (n := n) (r.onGuard g) w
      obtain ⟨notices', hd'⟩ := dropGuard_eq (n := n) g w'
      refine endAlike_of_ok (r := r) hd hd' rfl ?_
      rw [← h.guards]
      exact ((h.below hlt).drop k).beside _ _ notices notices'
  | set v x =>
    have hs := set_eq (n := n) (w := w) v x
    have hs' := set_eq (n := n) (w := w') v x
    rw [h.found v, h.varCell v] at hs
    cases hc : if (w'.varCell v).dynamic then w'.chain.cell? v else none with
    | none =>
      rw [hc] at hs hs'
      exact endAlike_of_error hs hs' h
    | some a =>
      rw [hc] at hs hs'
      exact endAlike_of_ok hs hs' rfl (h.set (h.found_lt hc) x)
  | current v =>
    have hc := current_eq v (binding?_eq (n := n) (w := w) v)
    have hc' := current_eq v (binding?_eq (n := n) (w := w') v)
    rw [h.seen v, h.varCell v] at hc
    split at hc' <;> rename_i hv <;> rw [hv] at hc
    · exact endAlike_of_ok hc hc' rfl h
    · exact endAlike_of_error hc hc' h
  | hasBinding v =>
    refine endAlike_of_ok (hasBinding_eq v) (hasBinding_eq v) ?_ h
    rw [h.found v, Option.isSome_map]
  | depth =>
    have hd (w : World) : Binding.depth n w = .ok w.chain.depth w := rfl
    refine endAlike_of_ok (hd w) (hd w') ?_ h
    rw [h.chain, Renaming.depth_onChain]

/-- Any moves are the same in both runs. -/
theorem follow_mirrored : ∀ (ms : List Move) {r : Renaming} {gs gs' : List BindingGuard} {w w' : World},
    Mirrors r foreign w.chain gs w w'.chain gs' w' →
      EndAlike foreign (follow ms gs n w) (follow ms gs' n w')
  | [], r, gs, gs', w, w', h => ⟨r, [], gs, w, gs', w', rfl, rfl, h⟩
  | m :: ms, _, _, _, _, _, h => by
    obtain ⟨r₁, seen, gs₁, w₁, gs₁', w₁', hm, hm', h₁⟩ := m.mirrored (n := n) h
    obtain ⟨r₂, rest, gs₂, w₂, gs₂', w₂', hms, hms', h₂⟩ := follow_mirrored ms h₁
    exact ⟨r₂, seen :: rest, gs₂, w₂, gs₂', w₂', follow_cons hm hms, follow_cons hm' hms', h₂⟩

/-- A task whose bindings and guards are in one world what those of another task are in another world. -/
def Task.Mirrors (r : Renaming) (foreign : Nat → Prop) (t : Task) (w : World) (t' : Task) (w' : World) :
    Prop :=
  Binding.Mirrors r foreign t.saved.chain t.guards w t'.saved.chain t'.guards w'

/-- A poll of a task is the same in both runs. -/
theorem Task.Mirrors.poll {t t' : Task} (ms : List Move) (h : t.Mirrors r foreign w t' w') :
    ∃ r seen u v u' v', t.poll ms n w = .ok (seen, u) v ∧ t'.poll ms n w' = .ok (seen, u') v' ∧
      u.Mirrors r foreign v u' v' := by
  have hin : Binding.Mirrors r foreign (t.entered w).chain t.guards (t.entered w)
      (t'.entered w').chain t'.guards (t'.entered w') := h.beside _ _ w.notices w'.notices
  obtain ⟨r₁, seen, gs₁, v, gs₁', v', hf, hf', h₁⟩ := follow_mirrored (n := n) ms hin
  exact ⟨r₁, seen, _, _, _, _, Task.poll_eq hf, Task.poll_eq hf', h₁.beside _ _ v.notices v'.notices⟩

/-- A poll of another task, which has these cells besides those that it makes. -/
theorem Task.Mirrors.other {foreign' : Nat → Prop} {t t' : Task} (h : t.Mirrors r foreign w t' w')
    (hs : Spares foreign w v) (hgrown : ∀ a, foreign' a → Grown foreign w v a) :
    t.Mirrors r foreign' v t' w' where
  vars := hs.vars.trans h.vars
  chain := h.chain
  guards := h.guards
  within := h.within
  guard_lt := h.guard_lt
  fits := ⟨fun ha => Nat.lt_of_lt_of_le (h.fits.frame_lt ha) hs.frames, h.fits.frame_inj,
    fun ha => Nat.lt_of_lt_of_le (h.fits.cell_lt ha) hs.cells, h.fits.cell_inj⟩
  value a ha := (hs.value _ (h.fits.cell_lt ha) (h.spared a ha)).trans (h.value a ha)
  spared a ha hf := by
    have hlt := h.fits.cell_lt ha
    rcases hgrown _ hf with hf | ⟨hge, -⟩
    · exact h.spared a ha hf
    · omega
  foreign_lt a ha := by
    rcases hgrown a ha with ha | ⟨-, hlt⟩
    · exact Nat.lt_of_lt_of_le (h.foreign_lt a ha) hs.cells
    · exact hlt

end

/-! ### Runs -/

section

variable {own : ι → Nat → Prop} {ts : ι → Task} {w w' : World}

/-- The cells of the tasks other than this one. -/
def others (own : ι → Nat → Prop) (j : ι) (a : Nat) : Prop := ∃ i, i ≠ j ∧ own i a

theorem polls_cons {p : ι × List Move} {ps : List (ι × List Move)} {seen : List Seen} {t : Task}
    {v v' : World} {o : List (ι × List Seen) × (ι → Task)}
    (hp : (ts p.1).poll p.2 n w = .ok (seen, t) v)
    (hps : polls ps (Function.update ts p.1 t) n v = .ok o v') :
    polls (p :: ps) ts n w = .ok ((p.1, seen) :: o.1, o.2) v' :=
  (Act.bind_of_ok hp).trans (Act.bind_of_ok hps)

/-- Polls put back the chain of the thread. -/
theorem polls_chain : ∀ {ps : List (ι × List Move)} {own : ι → Nat → Prop} {ts : ι → Task} {w : World},
    PollsOwn n own ps ts w → ∃ o w', polls ps ts n w = .ok o w' ∧ w'.chain = w.chain
  | [], _, _, _, _ => ⟨_, _, rfl, rfl⟩
  | _ :: _, _, _, _, h => by
    obtain ⟨seen, t, w₁, hp, hc, -⟩ := Task.poll_spares h.1
    obtain ⟨o, w₂, hps, hc'⟩ := polls_chain (h.2 seen t w₁ hp)
    exact ⟨_, w₂, polls_cons hp hps, hc'.trans hc⟩

/-- A run of all tasks mirrors the run of one of them. -/
theorem polls_mirrored {j : ι} : ∀ {ps : List (ι × List Move)} {own : ι → Nat → Prop}
    {ts : ι → Task} (ts' : ι → Task) {w w' : World} {r : Renaming}, PollsOwn n own ps ts w →
      (ts j).Mirrors r (others own j) w (ts' j) w' →
      ∃ seen us v us' v', polls ps ts n w = .ok (seen, us) v ∧
        polls (ps.filter (·.1 = j)) ts' n w' = .ok (seen.filter (·.1 = j), us') v'
  | [], _, ts, ts', w, w', _, _, _ => ⟨[], ts, w, ts', w', rfl, rfl⟩
  | p :: ps, own, ts, ts', w, w', _, hown, h => by
    obtain ⟨hfirst, hrest⟩ := hown
    by_cases hj : p.1 = j
    · subst hj
      obtain ⟨r₁, seen, t, v, t', v', hp, hp', h₁⟩ := h.poll (n := n) p.2
      have hothers : others (Function.update own p.1 (Grown (own p.1) w v)) p.1 = others own p.1 := by
        funext a
        exact propext (exists_congr fun i => and_congr_right fun hi => by
          rw [Function.update_of_ne hi])
      obtain ⟨sees, us, v₂, us', v₂', hps, hps'⟩ := polls_mirrored (j := p.1)
        (Function.update ts' p.1 t') (r := r₁) (hrest seen t v hp)
        (by rw [hothers, Function.update_self, Function.update_self]; exact h₁)
      refine ⟨_, _, _, us', v₂', polls_cons hp hps, ?_⟩
      rw [List.filter_cons_of_pos (by simp), List.filter_cons_of_pos (by simp)]
      exact polls_cons hp' hps'
    -- another task has only changed cells of its own
    · obtain ⟨seen, t, v, hp, -, hs⟩ := Task.poll_spares hfirst
      have hs : Spares (others own j) w v := hs.mono fun a ha => ⟨p.1, hj, ha⟩
      have hgrown : ∀ a, others (Function.update own p.1 (Grown (own p.1) w v)) j a →
          Grown (others own j) w v a := by
        rintro a ⟨i, hi, ha⟩
        by_cases hip : i = p.1
        · subst hip
          rw [Function.update_self] at ha
          exact ha.imp_left fun ha => ⟨p.1, hj, ha⟩
        · rw [Function.update_of_ne hip] at ha
          exact .inl ⟨i, hi, ha⟩
      have h₁ := h.other hs hgrown
      rw [← Function.update_of_ne (Ne.symm hj) t ts] at h₁
      obtain ⟨sees, us, v₂, us', v₂', hps, hps'⟩ := polls_mirrored ts' (hrest seen t v hp) h₁
      refine ⟨_, _, _, us', v₂', polls_cons hp hps, ?_⟩
      rw [List.filter_cons_of_neg (by simpa using hj), List.filter_cons_of_neg (by simpa using hj)]
      exact hps'

end

/-- At the start a task mirrors itself. -/
theorem Scene.Sound.mirrors {s : Scene} (hs : s.Sound) {f : BindingFrame} (hf : f ∈ s.snapshots)
    (i : Nat) : Task.Mirrors .id (fun _ => False) ⟨f, []⟩ (s.seen i) ⟨f, []⟩ (s.seen i) where
  vars := rfl
  chain := (Renaming.onChain_id _).symm
  guards := rfl
  within g hg := by
    obtain ⟨above, below, hsplit⟩ := List.append_of_mem hg
    exact hs.within ⟨f.chain, .snapshot hf, hsplit ▸ List.suffix_append above (g :: below)⟩
  guard_lt _ hg := absurd hg List.not_mem_nil
  fits := Renaming.Fits.refl _
  value _ _ := rfl
  spared _ _ h := h
  foreign_lt _ h := h.elim

/-- Tasks that take turns on a thread do not see each other's bindings. Let each of them start from the
same snapshot, let them be polled in any order, and let each set only bindings that it pushed itself.
Whenever a poll is over the chain of the thread is what it was before the first, and each task has
seen in its polls what it sees when only these polls happen: values, errors and depths. -/
theorem tasks_see_alike {s : Scene} (hs : s.ReachedBy KeepsCells) {f : BindingFrame}
    (hf : f ∈ s.snapshots) {i n : Nat} {ps : List (ι × List Move)}
    (hown : PollsOwn n (fun _ _ => False) ps (fun _ => ⟨f, []⟩) (s.seen i)) {front : List (ι × List Move)}
    (hfront : front <+: ps) :
    ∃ seen ts w, polls front (fun _ => ⟨f, []⟩) n (s.seen i) = .ok (seen, ts) w ∧
      w.chain = (s.threads i).chain ∧
      ∀ j, ∃ ts' w', polls (front.filter (·.1 = j)) (fun _ => ⟨f, []⟩) n (s.seen i) =
        .ok (seen.filter (·.1 = j), ts') w' := by
  obtain ⟨back, rfl⟩ := hfront
  have hown := hown.front
  obtain ⟨⟨seen, ts⟩, w, hp, hc⟩ := polls_chain hown
  refine ⟨seen, ts, w, hp, hc, fun j => ?_⟩
  have hstart := (Scene.reachedBy_sound id hs).mirrors hf i
  have hnone : others (fun _ _ => False) j = fun _ => False := by
    funext a
    exact eq_false fun ⟨_, _, h⟩ => h
  obtain ⟨seen', ts₁, w₁, us, v, hall, halone⟩ :=
    polls_mirrored (fun _ => ⟨f, []⟩) hown (by rw [hnone]; exact hstart)
  cases hp.symm.trans hall
  exact ⟨us, v, halone⟩

/-- Two tasks that start under a binding of the var that both of them bind. -/
theorem tasks_see_alike_shared :
    let v : Var := ⟨0⟩
    let s : Scene := .start { vars := #[{ label := .anonymous 0, dynamic := true }] }
    let pushed := s.keep 0 ((Op.push v (.int 1)).run.worldAfter 0 (s.seen 0)) []
    let t : Scene :=
      { pushed.keep 0 (pushed.seen 0) [] with
        snapshots := [⟨(pushed.threads 0).chain⟩, .empty] }
    let start : Nat → Task := fun _ => ⟨⟨(pushed.threads 0).chain⟩, []⟩
    let ps : List (Nat × List Move) :=
      [(0, [.push v (.int 2), .set v (.int 3)]), (1, [.current v, .depth]), (0, [.current v, .pop v])]
    t.ReachedBy KeepsCells ∧ PollsOwn 0 (fun _ _ => False) ps start (t.seen 0) ∧
      ∃ seen ts w ts' w', polls ps start 0 (t.seen 0) = .ok (seen, ts) w ∧
        polls [ps[1]] start 0 (t.seen 0) = .ok (seen.filter (·.1 = 1), ts') w' ∧
        seen.filter (·.1 = 1) = [(1, [.value (.int 1), .number 1])] := by
  intro v s pushed t start ps
  have hpushed : pushed.ReachedBy KeepsCells :=
    .step (.start _) (.op (.push v (.int 1)) 0 fun _ _ => trivial) (Nat.zero_le _)
  have ht : t.ReachedBy KeepsCells :=
    .step hpushed (.capture (n := 0) (i := 0) rfl) (Nat.le_refl _)
  have hown : PollsOwn 0 (fun _ _ => False) ps start (t.seen 0) := by
    refine ⟨⟨nofun, ?_⟩, fun _ _ _ _ => ⟨⟨nofun, fun _ _ _ _ => ⟨nofun, fun _ _ _ _ => trivial⟩⟩,
      fun _ _ _ _ => ⟨⟨nofun, fun _ _ _ _ => ⟨nofun, fun _ _ _ _ => trivial⟩⟩,
        fun _ _ _ _ => trivial⟩⟩⟩
    -- the binding that is set is the one just pushed
    rintro _ _ _ ⟨⟩
    refine ⟨?_, fun _ _ _ _ => trivial⟩
    rintro _ _ cell ⟨⟩ ⟨⟩
    exact .inr ⟨Nat.le_refl 1, Nat.lt_succ_self 1⟩
  obtain ⟨seen, ts, w, hall, -, halone⟩ :=
    tasks_see_alike ht (f := ⟨(pushed.threads 0).chain⟩) List.mem_cons_self hown List.prefix_rfl
  obtain ⟨ts', w', h⟩ := halone 1
  have hseen : ((polls ps start).peek 0 (t.seen 0) ([], start)).1.filter (·.1 = 1) =
      [(1, [.value (.int 1), .number 1])] := rfl
  rw [Act.peek, hall] at hseen
  exact ⟨ht, hown, seen, ts, w, ts', w', hall, h, hseen⟩

end LispCore.Binding
