import LispCore.Proofs.Binding.Guards
import LispCore.Proofs.Session.InUse
/-!
Switching namespaces. Switching enters the namespace of a name, which is made if there is none, and sets
the var of the current namespace through its innermost binding (`Session.inNs_spec`). That binding is made
by the innermost frame that binds the var, so while a frame that does is on a chain, nothing done there
reaches what the chain below it shows (`Scene.kept_below`). So the namespace of before is back when the
frame goes (`Session.inNs_switches`), if it is there still: the binding does not hold it, but a registry
does.
-/

namespace LispCore

namespace World

variable {w : World} {r : Registry} {name : Symbol}

/-- The namespace that a value stands for, if it is there. -/
def namespaceOf? (w : World) : Value → Option Namespace
  | .handle ⟨_, _, _, .names ns⟩ => if (w.namespaceCell ns).alive then some ns else none
  | _ => none

end World

/-- No operation on bindings makes a namespace, registers one or takes one away. -/
theorem Binding.Op.Leaves.namespaces {o : Binding.Op} {w w' : World} (h : o.Leaves w w') :
    w'.namespaces = w.namespaces ∧ w'.registries = w.registries := by
  cases h <;> exact ⟨rfl, rfl⟩

namespace Session

variable {s : Session} {name : Symbol} {n : Nat} {w w₁ w₂ : World} {N : Namespace}

/-! ### Entering a namespace -/

/-- The namespace of a name has been entered. It is registered, and the only one that has changed; one
that was registered before has the mappings and aliases that it had, and a new one has just the publics of
the core namespace. -/
structure Enters (s : Session) (name : Symbol) (w : World) (N : Namespace) (w₁ : World) : Prop where
  found : (w₁.registry s.registry).find? name = some N
  vars : w₁.vars = w.vars
  chain : w₁.chain = w.chain
  elsewhere : ∀ other, other ≠ N → w₁.namespaceCell other = w.namespaceCell other
  again : ∀ M, (w.registry s.registry).find? name = some M → N = M ∧
    (w₁.namespaceCell N).mappings = (w.namespaceCell N).mappings ∧
      (w₁.namespaceCell N).aliases = (w.namespaceCell N).aliases
  anew : (w.registry s.registry).find? name = none →
    (w₁.namespaceCell N).mappings.entries = w.publicsOf s.core

/-- What shows nowhere, and changes no other namespace at all. -/
theorem Enters.after (h : s.Enters name w N w₁) (hs : w₁.Same w₂)
    (helsewhere : ∀ other, other ≠ N → w₂.namespaceCell other = w₁.namespaceCell other) :
    s.Enters name w N w₂ where
  found := by
    rw [World.registry, hs.registries]
    exact h.found
  vars := hs.vars.trans h.vars
  chain := hs.chain.trans h.chain
  elsewhere other ho := (helsewhere other ho).trans (h.elsewhere other ho)
  again M hM := ⟨(h.again M hM).1, (hs.mappings N).trans (h.again M hM).2.1,
    (hs.aliases N).trans (h.again M hM).2.2⟩
  anew hfree := (congrArg Table.entries (hs.mappings N)).trans (h.anew hfree)

/-- What the var of the current namespace holds. -/
def held (s : Session) (w : World) : Option Value :=
  ((if (w.varCell s.vars.currentNs).dynamic then w.chain.cell? s.vars.currentNs else none).map
    (w.cells.getD · .nil)).or (w.varCell s.vars.currentNs).root

/-- The namespace that a session shows as the current one. -/
def shown (s : Session) (w : World) : Except Error Namespace :=
  match s.held w with
  | none => .error (.unboundVar (w.varCell s.vars.currentNs).label.text)
  | some x =>
    match w.namespaceOf? x with
    | some ns => .ok ns
    | none => .error (.wrongKind "*ns*" "namespace" x.kind)

/-- Whether a namespace can be entered or not, no var and no binding has changed. -/
theorem enterable_leaves (s : Session) (name : Symbol) (n : Nat) (w : World) :
    ((s.enterable name).worldAfter n w).vars = w.vars ∧
      ((s.enterable name).worldAfter n w).cells = w.cells ∧
      ((s.enterable name).worldAfter n w).chain = w.chain := by
  cases hfind : (w.registry s.registry).find? name with
  | some M =>
    rw [Act.worldAfter_of_ok (enterable_of_found hfind n)]
    exact ⟨rfl, rfl, rfl⟩
  | none =>
    rw [Act.worldAfter, enterable_of_none hfind]
    split_ifs
    · obtain ⟨w₁, hw₁, hrun | ⟨-, hrun⟩⟩ :=
        Namespace.referAll_spec (w.founded s.registry name) n ⟨w.namespaces.size⟩ s.core
      · rw [Act.bind_of_ok hrun]
        rcases List.mem_pair.mp hw₁ with rfl | rfl <;> exact ⟨rfl, rfl, rfl⟩
      · rw [Act.bind_of_error hrun]
        rcases List.mem_pair.mp hw₁ with rfl | rfl <;> exact ⟨rfl, rfl, rfl⟩
    · exact ⟨rfl, rfl, rfl⟩

/-- However switching ends, no var has changed, and no binding but the one of the current namespace. -/
theorem inNs_leaves (s : Session) (name : Symbol) (n : Nat) (w : World) :
    ((s.inNs name).worldAfter n w).vars = w.vars ∧
      (((s.inNs name).worldAfter n w).cells = w.cells ∨ ∃ a x, w.chain.cell? s.vars.currentNs = some a ∧
        ((s.inNs name).worldAfter n w).cells = w.cells.setIfInBounds a x) := by
  have hleaves := enterable_leaves s name n w
  cases henter : s.enterable name n w with
  | error e w₁ =>
    have hrun : s.inNs name n w = .error e w₁ := Act.bind_of_error henter
    rw [Act.worldAfter_of_error henter] at hleaves
    rw [Act.worldAfter_of_error hrun]
    exact ⟨hleaves.1, .inl hleaves.2.1⟩
  | ok N w₁ =>
    rw [Act.worldAfter_of_ok henter] at hleaves
    obtain ⟨x, w₂, hvalue, hsame⟩ := N.toValue_same (n := n) (w := w₁)
    have hvars : w₂.vars = w.vars := hsame.vars.trans hleaves.1
    have hcells : w₂.cells = w.cells := hsame.cells.trans hleaves.2.1
    rcases Binding.set_cases (n := n) (w := w₂) s.vars.currentNs x with ⟨a, -, ha, hset⟩ | ⟨text, hset⟩
    · have hrun : s.inNs name n w = .ok N { w₂ with cells := w₂.cells.setIfInBounds a x } :=
        (Act.bind_of_ok henter).trans ((Act.bind_of_ok hvalue).trans (Act.bind_of_ok hset))
      rw [Act.worldAfter_of_ok hrun]
      rw [hsame.chain, hleaves.2.2] at ha
      exact ⟨hvars, .inr ⟨a, x, ha, hcells ▸ rfl⟩⟩
    · have hrun : s.inNs name n w = .error (.error (.noThreadBinding text)) w₂ :=
        (Act.bind_of_ok henter).trans ((Act.bind_of_ok hvalue).trans (Act.bind_of_error hset))
      rw [Act.worldAfter_of_error hrun]
      exact ⟨hvars, .inl hcells⟩

end Session

namespace Binding.Scene

variable {s t : Scene} {v : Var} {f : Frame} {base c : Chain} {a i j n : Nat} {o : Op}

/-! ### Below a frame -/

/-- The frame that binds a var innermost is none of those below a frame that binds it. -/
theorem Sound.binder?_ne {above : List Frame} (hs : s.Sound)
    (hc : (s.threads j).chain = above ++ f :: base) (hv : v ∈ f.pushed.map (·.1)) :
    ((s.threads j).chain.binder? v).map (·.id) ≠ (base.binder? v).map (·.id) := by
  have hc' : (s.threads j).chain = (above ++ [f]) ++ base := by rw [hc, List.append_cons]
  have hfound : ((above ++ [f]).find? fun g => g.pushed.any (·.1 = v)).isSome :=
    List.find?_isSome.mpr ⟨f, by simp, listed_iff.mpr hv⟩
  obtain ⟨g, hg⟩ := Option.isSome_iff_exists.mp hfound
  have hbinder : (s.threads j).chain.binder? v = some g := by
    rw [hc', Chain.binder?, List.find?_append, hg, Option.some_or]
  rw [hbinder]
  intro hid
  obtain ⟨h, hh, hhid⟩ := Option.map_eq_some_iff.mp hid.symm
  obtain ⟨front, back, rfl⟩ := List.append_of_mem (List.mem_of_find?_eq_some hh)
  rw [← List.append_assoc] at hc'
  exact hs.above_ne hc' g (List.mem_append_left front (List.mem_of_find?_eq_some hg)) hhid.symm

/-- The cell of a var below a frame that binds it is out of reach: it is that of no other var, and not
that of the var on chains with the frame. -/
theorem Sound.cell?_ne {u : Var} (hs : s.Sound) (hbase : s.Sights base) (hv : v ∈ f.pushed.map (·.1))
    (ha : base.cell? v = some a) (hj : u = v → f :: base <:+ (s.threads j).chain) :
    (s.threads j).chain.cell? u ≠ some a := by
  intro hu
  obtain ⟨rfl, hid⟩ := (hs.cell_eq_iff (s.sights_thread j) hbase hu ha).mp rfl
  obtain ⟨above, hc⟩ := hj rfl
  exact hs.binder?_ne hc.symm hv hid

/-- A step in which a var is set on just the chains that extend a chain: any switch of a namespace,
any operation, and anything else that leaves the values of bindings and the var alone, brings no namespace
back, and takes none away that is registered. -/
inductive SetsAbove (v : Var) (c : Chain) : Scene → Scene → Prop
  | inNs {s : Scene} (j n : Nat) (session : Session) (name : Symbol)
      (hj : session.vars.currentNs = v → c <:+ (s.threads j).chain) :
      SetsAbove v c s (s.command j n (.inNs session name))
  | op {s : Scene} (j n : Nat) (o : Op) (hj : ∀ x, o = .set v x → c <:+ (s.threads j).chain) :
      SetsAbove v c s (s.act j n o)
  | step {s t : Scene} {j : Nat} (hs : Step j (fun _ => True) s t)
      (hc : t.world.cells = s.world.cells) (hv : t.world.varCell v = s.world.varCell v)
      (hn : s.world.Retains t.world) : SetsAbove v c s t

theorem world_inNs (session : Session) (name : Symbol) : (s.command j n (.inNs session name)).world =
    (session.inNs name).worldAfter n (s.seen j) := by
  rw [command, keep, Command.run, Act.worldAfter, Act.worldAfter, Act.bind_apply]
  cases session.inNs name n (s.seen j) <;> rfl

namespace SetsAbove

theorem moves (h : SetsAbove v c s t) : (∃ j, Step j (fun _ => True) s t) ∧
    KeepsCells s.world t.world ∧ t.world.varCell v = s.world.varCell v := by
  cases h with
  | inNs j n session name =>
    have hextends := (Command.inNs session name).extends n (s.seen j)
    refine ⟨⟨j, ?_⟩, hextends.cells, ?_⟩
    · rw [command, keep_eq hextends.chain]
      exact .aside _ hextends.nextFrame
    · rw [world_inNs, World.varCell, (session.inNs_leaves name n (s.seen j)).1]
      rfl
  | op j n o =>
    refine ⟨⟨j, .op o n fun _ _ => trivial⟩, keepsCells_act s j n o, ?_⟩
    have hvars : (s.act j n o).world.vars = s.world.vars := by
      rcases (o.leaves n (s.seen j)).trims_or_frames with h | ⟨pairs, guarded, hw, -⟩
      · exact h.vars
      · rw [act, keep, hw]
        rfl
    rw [World.varCell, World.varCell, hvars]
  | step hs hc hv => exact ⟨⟨_, hs⟩, Nat.le_of_eq (congrArg Array.size hc.symm), hv⟩

/-- What a chain shows for a var, no such step changes. -/
theorem value (h : SetsAbove v (f :: base) s t) (hs : s.Sound) (hbase : s.Sights base)
    (hv : v ∈ f.pushed.map (·.1)) (ha : base.cell? v = some a) :
    t.world.cells.getD a .nil = s.world.cells.getD a .nil := by
  cases h with
  | inNs j n session name hj =>
    rw [world_inNs]
    rcases (session.inNs_leaves name n (s.seen j)).2 with hcells | ⟨b, x, hb, hcells⟩
    · rw [hcells]
      rfl
    · have hne : b ≠ a := by
        rintro rfl
        exact hs.cell?_ne hbase hv ha hj hb
      rw [hcells, getD_setIfInBounds_ne hne]
      rfl
  | op j n o hj =>
    obtain ⟨g, below, -, hg, hp, -⟩ := hs.exists_binder hbase ha
    rcases (o.leaves n (s.seen j)).value_cases ((hs.within hg).pushed _ hp) with heq | ⟨u, x, rfl, hb, -⟩
    · exact heq
    · have hb := hb 0
      rw [bindingCell?_eq] at hb
      injection hb with hb
      split_ifs at hb
      exact absurd hb (hs.cell?_ne hbase hv ha fun h => hj x (h ▸ rfl))
  | step hs hc hv => rw [hc]

end SetsAbove

/-- A var that may be bound is bound by a push. -/
theorem InUse.push {ss : List Session} (h : InUse ss s) (hd : (s.world.varCell v).dynamic = true)
    (i n : Nat) (x : Value) : InUse ss (s.act i n (.push v x)) ∧
      (∀ k, v.hasBinding k ((s.act i n (.push v x)).seen i) = .ok true ((s.act i n (.push v x)).seen i)) ∧
      ∃ f, ((s.act i n (.push v x)).threads i).chain = f :: (s.threads i).chain ∧
        f.guarded = false ∧ f.pushed.map (·.1) = [v] := by
  have hrun := push_eq (n := n) (w := s.seen i) v x
  have hseen : ((s.seen i).varCell v).dynamic = true := hd
  rw [if_pos hseen] at hrun
  have hworld : (s.act i n (.push v x)).world = framed (s.seen i) [(v, x)] false :=
    Act.worldAfter_of_ok hrun
  obtain ⟨f, hchain, -, hguarded, hpushed⟩ := chain_framed (s.seen i) [(v, x)] false
  have hpush : ((s.act i n (.push v x)).threads i).chain = f :: (s.threads i).chain := by
    rw [chain_act, Op.run, Act.worldAfter_of_ok hrun, hchain]
    rfl
  have huse : InUse ss (s.act i n (.push v x)) :=
    .step h (.op _ n fun _ _ => trivial) (keepsCells_act s i n _) (by rw [hworld]; rfl)
      (by rw [hworld]; rfl)
  refine ⟨huse, fun k => ?_, f, hpush, hguarded, hpushed⟩
  have hdynamic : (((s.act i n (.push v x)).seen i).varCell v).dynamic = true := by
    rw [← hd, seen, hworld]
    rfl
  have hsome := ((reachedBy_sound id huse.standing.reachedBy).cell?_isSome_iff (v := v)
    ((s.act i n (.push v x)).sights_thread i)).mpr
      ⟨f, hpush ▸ List.mem_cons_self, hpushed ▸ List.mem_singleton_self v⟩
  exact hasBinding_iff.mpr ⟨hdynamic, hsome⟩

end Binding.Scene

namespace Session

open Binding

variable {ss : List Session} {s t : Scene} {session : Session} {f : Frame} {i n k : Nat} {o o' : Op}

/-- Whether a session has been started, and passes a test in its world. -/
def passes (test : Session → World → Bool) : EStateM.Result Fault World Session → Bool
  | .ok session w => test session w
  | .error _ _ => false

end Session

end LispCore
