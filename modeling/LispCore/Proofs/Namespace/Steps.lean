import LispCore.Namespace.Registry
import LispCore.Proofs.Act
import Mathlib.Tactic.SplitIfs
/-!
What each operation on namespaces does to the world, as an equation. Interning gives the var that the
namespace has or makes one; refers and removals change the mappings of one namespace; a registry makes
a namespace at most once a name.
-/

namespace LispCore

/-! ### Changed worlds -/

theorem modify_modify {α : Type} (xs : Array α) (i : Nat) (f g : α → α) :
    (xs.modify i f).modify i g = xs.modify i fun x => g (f x) := by
  refine Array.ext_getElem? fun j => ?_
  simp only [Array.getElem?_modify]
  split_ifs
  · exact Option.map_map ..
  · rfl

theorem modify_id {α : Type} (xs : Array α) (i : Nat) : xs.modify i (fun x => x) = xs := by
  refine Array.ext_getElem? fun j => ?_
  rw [Array.getElem?_modify]
  split_ifs
  · exact Option.map_id'
  · rfl

namespace World

/-- The world in which the mappings of a namespace have been changed so. -/
def remapped (w : World) (ns : Namespace) (f : Table Symbol Var → Table Symbol Var) : World :=
  { w with namespaces := w.namespaces.modify ns.id fun c => { c with mappings := f c.mappings } }

/-- The world with a new unbound var of the namespace, which a symbol means there. -/
def interned (w : World) (ns : Namespace) (sym : Symbol) : World :=
  { w with vars := w.vars.push { label := .named (some (w.namespaceCell ns).name) sym } }.remapped ns
    (·.insert sym ⟨w.vars.size⟩)

/-- The world in which what a var holds has been changed so. -/
def revar (w : World) (v : Var) (f : VarCell → VarCell) : World :=
  { w with vars := w.vars.modify v.id f }

/-- The world with a new namespace of this name in the registry. -/
def founded (w : World) (r : Registry) (name : Symbol) : World :=
  { w with
    namespaces := w.namespaces.push { name }
    registries := w.registries.modify r.id (·.insert name ⟨w.namespaces.size⟩) }

variable {w : World} {ns other : Namespace} {f g : Table Symbol Var → Table Symbol Var} {sym : Symbol}
  {v u : Var}

theorem remapped_remapped : (w.remapped ns f).remapped ns g = w.remapped ns fun t => g (f t) :=
  congrArg (fun namespaces => { w with namespaces })
    (modify_modify w.namespaces ns.id (fun c => { c with mappings := f c.mappings })
      fun c => { c with mappings := g c.mappings })

theorem remapped_id : w.remapped ns (fun t => t) = w :=
  congrArg (fun namespaces => { w with namespaces }) (modify_id ..)

theorem revar_revar {f g : VarCell → VarCell} :
    (w.revar v f).revar v g = w.revar v fun c => g (f c) :=
  congrArg (fun vars => { w with vars }) (modify_modify ..)

theorem revar_id : w.revar v (fun c => c) = w :=
  congrArg (fun vars => { w with vars }) (modify_id ..)

@[simp] theorem size_remapped : (w.remapped ns f).namespaces.size = w.namespaces.size :=
  Array.size_modify ..

theorem namespaceCell_remapped : (w.remapped ns f).namespaceCell other =
    if other = ns ∧ ns.id < w.namespaces.size then
      { w.namespaceCell ns with mappings := f (w.namespaceCell ns).mappings }
    else w.namespaceCell other := by
  simp only [namespaceCell, remapped, Array.getD_eq_getD_getElem?, Array.getElem?_modify]
  split_ifs with h₁ h₂ h₂
  · obtain ⟨rfl, hlt⟩ := h₂
    rw [Array.getElem?_eq_getElem hlt]
    rfl
  · have hle : w.namespaces.size ≤ ns.id := by
      refine Nat.le_of_not_lt fun hlt => h₂ ⟨?_, hlt⟩
      cases ns; cases other
      exact congrArg Namespace.mk h₁.symm
    rw [← h₁, Array.getElem?_eq_none hle]
    rfl
  · exact absurd (congrArg Namespace.id h₂.1).symm h₁
  · rfl

/-- What a change of one namespace keeps in its cell is kept in all. -/
theorem namespaceCell_modify {α : Type} {f : NamespaceCell → NamespaceCell} (look : NamespaceCell → α)
    (h : ∀ c, look (f c) = look c) :
    look ({ w with namespaces := w.namespaces.modify ns.id f }.namespaceCell other) =
      look (w.namespaceCell other) := by
  simp only [namespaceCell, Array.getD_eq_getD_getElem?, Array.getElem?_modify]
  split_ifs
  · cases w.namespaces[other.id]? with
    | none => rfl
    | some c => exact h c
  · rfl

theorem name_remapped : ((w.remapped ns f).namespaceCell other).name = (w.namespaceCell other).name :=
  namespaceCell_modify NamespaceCell.name fun _ => rfl

theorem mem_remapped {m : Symbol × Var}
    (h : m ∈ ((w.remapped ns f).namespaceCell other).mappings.entries) :
    m ∈ (w.namespaceCell other).mappings.entries ∨
      other = ns ∧ m ∈ (f (w.namespaceCell ns).mappings).entries := by
  rw [namespaceCell_remapped] at h
  split_ifs at h with hns
  · exact .inr ⟨hns.1, h⟩
  · exact .inl h

theorem varCell_interned_of_lt (h : v.id < w.vars.size) :
    (w.interned ns sym).varCell v = w.varCell v := by
  simp only [varCell, interned, remapped, Array.getD_eq_getD_getElem?]
  rw [Array.getElem?_push_lt h, Array.getElem?_eq_getElem h]

theorem varCell_interned_new : (w.interned ns sym).varCell ⟨w.vars.size⟩ =
    { label := .named (some (w.namespaceCell ns).name) sym } := by
  simp only [varCell, interned, remapped, Array.getD_eq_getD_getElem?]
  rw [Array.getElem?_push_size]
  rfl

theorem varCell_revar_of_ne {f : VarCell → VarCell} (h : u ≠ v) :
    (w.revar v f).varCell u = w.varCell u := by
  have hid : ¬v.id = u.id := fun hid => h (by cases u; cases v; exact congrArg Var.mk hid.symm)
  simp only [varCell, revar, Array.getD_eq_getD_getElem?, Array.getElem?_modify, if_neg hid]

/-- A change of a var that keeps its label. -/
theorem label_revar {f : VarCell → VarCell} (h : ∀ c, (f c).label = c.label) :
    ((w.revar v f).varCell u).label = (w.varCell u).label := by
  simp only [varCell, revar, Array.getD_eq_getD_getElem?, Array.getElem?_modify]
  split_ifs
  · cases w.vars[u.id]? with
    | none => rfl
    | some c => exact h c
  · rfl

/-- A registry has what it had, or is the one with the new key. -/
theorem registry_founded_cases (w : World) (r r' : Registry) (name : Symbol) :
    (w.founded r name).registry r' = w.registry r' ∨
      r' = r ∧ (w.founded r name).registry r' = (w.registry r').insert name ⟨w.namespaces.size⟩ := by
  simp only [registry, founded, Array.getD_eq_getD_getElem?, Array.getElem?_modify]
  split_ifs with hid
  · cases w.registries[r'.id]? with
    | none => exact .inl rfl
    | some t => exact .inr ⟨by cases r; cases r'; exact congrArg Registry.mk hid.symm, rfl⟩
  · exact .inl rfl

/-- A new registry has no keys. -/
theorem registry_push {w' : World} {r : Registry} (hr : w'.registries = w.registries.push {}) :
    w'.registry r = w.registry r := by
  simp only [World.registry, hr, Array.getD_eq_getD_getElem?, Array.getElem?_push]
  split_ifs with h
  · rw [h, Array.getElem?_eq_none (Nat.le_refl _)]
    rfl
  · rfl

end World

/-! ### Operations -/

namespace Namespace

variable {n : Nat} {w : World} {ns other : Namespace} {sym : Symbol}

theorem refer_eq (v : Var) : ns.refer sym v n w = .ok () (w.remapped ns (·.insert sym v)) := rfl

theorem unmap_eq : ns.unmap sym n w =
    .ok ((w.namespaceCell ns).mappings.find? sym) (w.remapped ns (·.erase sym)) := rfl

theorem owns_eq (v : Var) : ns.owns v n w =
    .ok (decide ((w.varCell v).label.ns? = some (w.namespaceCell ns).name)) w := rfl

/-- A qualified symbol is refused before anything is done. -/
theorem intern_qualified (hs : sym.ns.isSome) (n : Nat) (w : World) (ns : Namespace) :
    ns.intern sym n w =
    .error (.error (.invalidName sym.text "can't intern a namespace-qualified symbol")) w := by
  rw [intern, if_pos hs]
  rfl

/-- Interning gives the var that the symbol means, if it bears the name of the namespace, and else a new
one; a var of another name is reported. -/
theorem intern_eq (hs : sym.ns = none) (n : Nat) (w : World) (ns : Namespace) : ns.intern sym n w =
    match (w.namespaceCell ns).mappings.find? sym with
    | none => .ok ⟨w.vars.size⟩ (w.interned ns sym)
    | some v =>
      if (w.varCell v).label.ns? = some (w.namespaceCell ns).name then .ok v w
      else .ok ⟨w.vars.size⟩
        ({ w with notices := w.notices.push (.referReplaced sym.text
            ("#'" ++ (w.varCell v).label.text) (w.namespaceCell ns).name.text) }.interned ns sym) := by
  have hm : ns.mapping? sym n w = .ok ((w.namespaceCell ns).mappings.find? sym) w := rfl
  have hns : ¬sym.ns.isSome = true := by simp [hs]
  rw [intern, if_neg hns]
  refine (Act.bind_of_ok hm).trans ?_
  cases (w.namespaceCell ns).mappings.find? sym with
  | none => rfl
  | some v =>
    refine (Act.bind_of_ok (owns_eq v)).trans ?_
    by_cases ho : (w.varCell v).label.ns? = some (w.namespaceCell ns).name
    · rw [if_pos (decide_eq_true ho)]
      exact (if_pos ho).symm
    · rw [if_neg (by simpa using ho)]
      exact (if_neg ho).symm

/-- The mappings to the namespace's own vars. -/
theorem select_owns_eq : ∀ ms : List (Symbol × Var), select ns.owns ms n w =
    .ok (ms.filter fun m => (w.varCell m.2).label.ns? = some (w.namespaceCell ns).name) w
  | [] => rfl
  | m :: ms => by
    refine (Act.bind_of_ok (owns_eq m.2)).trans ?_
    refine (Act.bind_of_ok (select_owns_eq ms)).trans ?_
    rw [List.filter_cons]
    split_ifs <;> rfl

theorem interns_eq : ns.interns n w =
    .ok ((w.namespaceCell ns).mappings.entries.filter fun m =>
      (w.varCell m.2).label.ns? = some (w.namespaceCell ns).name) w := by
  have hm : ns.mappings n w = .ok (w.namespaceCell ns).mappings.entries w := rfl
  exact (Act.bind_of_ok hm).trans (select_owns_eq _)

theorem referEach_eq : ∀ (ms : List (Symbol × Var)) (w : World), ns.referEach ms n w =
    .ok () (w.remapped ns fun t => ms.foldl (fun t m => t.insert m.1 m.2) t)
  | [], _ => congrArg (EStateM.Result.ok ()) World.remapped_id.symm
  | m :: ms, w => by
    refine (Act.bind_of_ok (refer_eq m.2)).trans ?_
    rw [referEach_eq ms, World.remapped_remapped]
    rfl

end Namespace

/-! ### Definitions -/

/-- The ways to define a symbol in a namespace. -/
inductive Definition where
  | plain
  | root (init : Option Value)
  | dynamic (init : Option Value)

namespace Definition

def run (ns : Namespace) (sym : Symbol) : Definition → Act Var
  | plain => ns.intern sym
  | root init => ns.internVar sym init
  | dynamic init => ns.internDynamic sym init

/-- What becomes of what the var holds. -/
def fill : Definition → VarCell → VarCell
  | plain, c => c
  | root init, c => { c with root := init.or c.root }
  | dynamic init, c => { c with root := init.or c.root, dynamic := true }

theorem label_fill (d : Definition) (c : VarCell) : (d.fill c).label = c.label := by
  cases d <;> rfl

variable {n : Nat} {w w' : World} {ns : Namespace} {sym : Symbol} {v : Var}

/-- A definition interns the symbol and then changes what the var holds. -/
theorem run_of_ok (d : Definition) (h : ns.intern sym n w = .ok v w') :
    d.run ns sym n w = .ok v (w'.revar v d.fill) := by
  have hroot (init : Option Value) : ns.internVar sym init n w =
      .ok v (w'.revar v fun c => { c with root := init.or c.root }) := by
    refine (Act.bind_of_ok h).trans ?_
    cases init with
    | none => exact congrArg (EStateM.Result.ok v) World.revar_id.symm
    | some x => rfl
  cases d with
  | plain => rw [run, h]; exact congrArg (EStateM.Result.ok v) World.revar_id.symm
  | root init => exact hroot init
  | dynamic init =>
    refine (Act.bind_of_ok (hroot init)).trans ?_
    exact congrArg (EStateM.Result.ok v) World.revar_revar

theorem run_of_error (d : Definition) {e : Fault} (h : ns.intern sym n w = .error e w') :
    d.run ns sym n w = .error e w' := by
  have hroot (init : Option Value) : ns.internVar sym init n w = .error e w' := Act.bind_of_error h
  cases d with
  | plain => exact h
  | root init => exact hroot init
  | dynamic init => exact Act.bind_of_error (hroot init)

end Definition

/-- The world in which a symbol has been defined by a new var. -/
def World.defined (w : World) (ns : Namespace) (sym : Symbol) (d : Definition)
    (notices : Array Notice) : World :=
  ({ w with notices }.interned ns sym).revar ⟨w.vars.size⟩ d.fill

namespace World

variable {w : World} {ns other : Namespace} {sym : Symbol} {d : Definition} {notices : Array Notice}

theorem size_vars_defined : (w.defined ns sym d notices).vars.size = w.vars.size + 1 :=
  Array.size_modify.trans (Array.size_push _)

theorem size_namespaces_defined :
    (w.defined ns sym d notices).namespaces.size = w.namespaces.size :=
  Array.size_modify

theorem varCell_defined_of_lt {u : Var} (h : u.id < w.vars.size) :
    (w.defined ns sym d notices).varCell u = w.varCell u := by
  have hne : u ≠ ⟨w.vars.size⟩ := fun hu => Nat.ne_of_lt h (congrArg Var.id hu)
  exact (varCell_revar_of_ne hne).trans (varCell_interned_of_lt h)

theorem label_defined : ((w.defined ns sym d notices).varCell ⟨w.vars.size⟩).label =
    .named (some (w.namespaceCell ns).name) sym :=
  (label_revar d.label_fill).trans (congrArg VarCell.label varCell_interned_new)

theorem namespaceCell_defined : (w.defined ns sym d notices).namespaceCell other =
    (w.remapped ns (·.insert sym ⟨w.vars.size⟩)).namespaceCell other := rfl

theorem name_defined :
    ((w.defined ns sym d notices).namespaceCell other).name = (w.namespaceCell other).name := by
  rw [namespaceCell_defined, name_remapped]

theorem mem_defined {m : Symbol × Var}
    (h : m ∈ ((w.defined ns sym d notices).namespaceCell other).mappings.entries) :
    m ∈ (w.namespaceCell other).mappings.entries ∨ other = ns ∧ m = (sym, ⟨w.vars.size⟩) := by
  rw [namespaceCell_defined] at h
  rcases mem_remapped h with h | ⟨rfl, h⟩
  · exact .inl h
  · exact (Table.mem_insertEntry h).symm.imp_right fun h => ⟨rfl, h⟩

theorem find?_defined (h : ns.id < w.namespaces.size) :
    ((w.defined ns sym d notices).namespaceCell ns).mappings.find? sym = some ⟨w.vars.size⟩ := by
  rw [namespaceCell_defined, namespaceCell_remapped, if_pos ⟨rfl, h⟩]
  simp only [Table.find?_insert, if_true]

end World

namespace Definition

variable {n : Nat} {w w' : World} {ns : Namespace} {sym : Symbol} {v : Var}

/-- A definition takes the var that the symbol means, if it bears the name of the namespace, and else a
new one. -/
theorem run_cases (d : Definition) (hs : sym.ns = none) (n : Nat) (w : World) (ns : Namespace) :
    (∃ v, (w.namespaceCell ns).mappings.find? sym = some v ∧
      (w.varCell v).label.ns? = some (w.namespaceCell ns).name ∧
      d.run ns sym n w = .ok v (w.revar v d.fill)) ∨
    ∃ notices, d.run ns sym n w = .ok ⟨w.vars.size⟩ (w.defined ns sym d notices) := by
  have h := Namespace.intern_eq hs n w ns
  cases hm : (w.namespaceCell ns).mappings.find? sym with
  | none =>
    rw [hm] at h
    exact .inr ⟨w.notices, run_of_ok d h⟩
  | some v =>
    rw [hm] at h
    by_cases ho : (w.varCell v).label.ns? = some (w.namespaceCell ns).name
    · exact .inl ⟨v, rfl, ho, run_of_ok d (h.trans (if_pos ho))⟩
    · exact .inr ⟨_, run_of_ok d (h.trans (if_neg ho))⟩

end Definition

/-! ### Registries -/

namespace Registry

theorem findOrCreate_eq (r : Registry) (name : Symbol) (n : Nat) (w : World) : r.findOrCreate name n w =
    match (w.registry r).find? name with
    | some ns => .ok ns w
    | none => .ok ⟨w.namespaces.size⟩ (w.founded r name) := by
  have hf : r.find? name n w = .ok ((w.registry r).find? name) w := rfl
  refine (Act.bind_of_ok hf).trans ?_
  cases (w.registry r).find? name <;> rfl

end Registry

end LispCore
