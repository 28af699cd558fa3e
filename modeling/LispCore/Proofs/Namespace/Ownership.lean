import LispCore.Proofs.Namespace.Publics
import Mathlib.Data.List.Basic
/-!
Whose var a definition defines. A history records, besides the world, which vars were made by defining
a symbol of a namespace and which ones a symbol was made to refer to. What a symbol means in a namespace
is always one or the other (`History.Kept`). So a definition gives a var that was made by defining that
symbol there, or one that was referred to there and bears the namespace's name (`defines_own`). The
name is all that tells the namespace's own vars from others: a var of the namespace that is referred to
under a second symbol is defined by that symbol too, and so is one of another namespace of the same name
(`defines_lent`).
-/

namespace LispCore.Namespace

/-! ### Histories -/

/-- What has happened to namespaces: the world, and each var that was made by defining a symbol of a
namespace or that a symbol was made to refer to there. -/
structure History where
  world : World
  made : List (Namespace × Symbol × Var) := []
  lent : List (Namespace × Symbol × Var) := []

/-- Namespaces keep their names and vars their labels; there may be more of both. -/
structure Widens (w w' : World) : Prop where
  namespaces : w.namespaces.size ≤ w'.namespaces.size
  name : ∀ ns : Namespace, ns.id < w.namespaces.size →
    (w'.namespaceCell ns).name = (w.namespaceCell ns).name
  vars : w.vars.size ≤ w'.vars.size
  label : ∀ v : Var, v.id < w.vars.size → (w'.varCell v).label = (w.varCell v).label

/-- What changes no mapping; new namespaces have none. -/
structure Beside (w w' : World) : Prop extends Widens w w' where
  mappings : ∀ ns, (w'.namespaceCell ns).mappings = (w.namespaceCell ns).mappings

namespace History

/-- The namespace is there. -/
def Has (h : History) (ns : Namespace) : Prop := ns.id < h.world.namespaces.size

/-- Anything that may happen to namespaces. -/
inductive Step : History → History → Prop
  | define {h : History} {v : Var} {w : World} (d : Definition) (n : Nat) (ns : Namespace) (sym : Symbol)
      (hns : h.Has ns) (hd : d.run ns sym n h.world = .ok v w) :
      Step h { h with
        world := w
        made := if v.id < h.world.vars.size then h.made else (ns, sym, v) :: h.made }
  | refer {h : History} {w : World} (n : Nat) (ns : Namespace) (sym : Symbol) (v : Var)
      (hv : v.id < h.world.vars.size) (hr : ns.refer sym v n h.world = .ok () w) :
      Step h { h with world := w, lent := (ns, sym, v) :: h.lent }
  | referAll {h : History} {ms : List (Symbol × Var)} {w w' : World} (n : Nat) (ns other : Namespace)
      (hp : other.publics n h.world = .ok ms w) (hr : ns.referAll other n h.world = .ok () w') :
      Step h { h with world := w', lent := ms.map (fun m => (ns, m.1, m.2)) ++ h.lent }
  | unmap {h : History} {o : Option Var} {w : World} (n : Nat) (ns : Namespace) (sym : Symbol)
      (hu : ns.unmap sym n h.world = .ok o w) : Step h { h with world := w }
  | make {h : History} {ns : Namespace} {w : World} (n : Nat) (name : Symbol)
      (hm : Namespace.make name n h.world = .ok ns w) : Step h { h with world := w }
  | findOrCreate {h : History} {ns : Namespace} {w : World} (n : Nat) (r : Registry) (name : Symbol)
      (hf : r.findOrCreate name n h.world = .ok ns w) : Step h { h with world := w }
  | aside {h : History} {w : World} (hw : Beside h.world w) : Step h { h with world := w }

/-- What comes about from a world without namespaces. -/
inductive Reached : History → Prop
  | start {w : World} (h : w.namespaces = #[]) : Reached { world := w }
  | step {h h' : History} (hh : Reached h) (hs : Step h h') : Reached h'

/-- What a symbol means in a namespace was made by defining it there or referred to there, and what was
made so is labelled so. -/
structure Kept (h : History) : Prop where
  has : ∀ e ∈ h.made, h.Has e.1 ∧ e.2.2.id < h.world.vars.size
  label : ∀ e ∈ h.made, (h.world.varCell e.2.2).label =
    .named (some (h.world.namespaceCell e.1).name) e.2.1
  lt : ∀ ns, ∀ m ∈ (h.world.namespaceCell ns).mappings.entries, m.2.id < h.world.vars.size
  origin : ∀ ns, ∀ m ∈ (h.world.namespaceCell ns).mappings.entries,
    (ns, m.1, m.2) ∈ h.made ∨ (ns, m.1, m.2) ∈ h.lent

end History

/-! ### What one step keeps -/

section

variable {w w' : World} {ns other : Namespace} {sym : Symbol} {v : Var}

theorem widens_remapped (w : World) (ns : Namespace) (f : Table Symbol Var → Table Symbol Var) :
    Widens w (w.remapped ns f) where
  namespaces := Nat.le_of_eq World.size_remapped.symm
  name _ _ := World.name_remapped
  vars := Nat.le_refl _
  label _ _ := rfl

theorem widens_revar {f : VarCell → VarCell} (hf : ∀ c, (f c).label = c.label) :
    Widens w (w.revar v f) where
  namespaces := Nat.le_refl _
  name _ _ := rfl
  vars := Nat.le_of_eq Array.size_modify.symm
  label _ _ := World.label_revar hf

theorem widens_defined {d : Definition} {notices : Array Notice} :
    Widens w (w.defined ns sym d notices) where
  namespaces := Nat.le_of_eq World.size_namespaces_defined.symm
  name _ _ := World.name_defined
  vars := World.size_vars_defined ▸ Nat.le_succ _
  label _ hv := congrArg VarCell.label (World.varCell_defined_of_lt hv)

/-- A new namespace has no mappings. -/
theorem beside_push {name : Symbol} (hc : w'.namespaces = w.namespaces.push { name })
    (hv : w'.vars = w.vars) : Beside w w' where
  namespaces := by rw [hc, Array.size_push]; exact Nat.le_succ _
  name ns hns := by
    simp only [World.namespaceCell, hc, Array.getD_eq_getD_getElem?]
    rw [Array.getElem?_push_lt hns, Array.getElem?_eq_getElem hns]
  vars := Nat.le_of_eq (congrArg Array.size hv).symm
  label v _ := by rw [World.varCell, World.varCell, hv]
  mappings ns := by
    simp only [World.namespaceCell, hc, Array.getD_eq_getD_getElem?, Array.getElem?_push]
    split_ifs with h
    · rw [h, Array.getElem?_eq_none (Nat.le_refl _)]
      rfl
    · rfl

end

namespace History

variable {h h' : History}

/-- What a step may change: more may be made, with the right labels, and referred to, and each new mapping
is to such a var. -/
structure Grows (h h' : History) : Prop where
  world : Widens h.world h'.world
  made : h.made ⊆ h'.made
  lent : h.lent ⊆ h'.lent
  fresh : ∀ e ∈ h'.made, e ∈ h.made ∨ (h'.Has e.1 ∧ e.2.2.id < h'.world.vars.size ∧
    (h'.world.varCell e.2.2).label = .named (some (h'.world.namespaceCell e.1).name) e.2.1)
  mapped : ∀ ns, ∀ m ∈ (h'.world.namespaceCell ns).mappings.entries,
    m ∈ (h.world.namespaceCell ns).mappings.entries ∨
      (m.2.id < h'.world.vars.size ∧ ((ns, m.1, m.2) ∈ h'.made ∨ (ns, m.1, m.2) ∈ h'.lent))

theorem Kept.grows (hk : h.Kept) (hg : Grows h h') : h'.Kept where
  has e he := by
    rcases hg.fresh e he with he | ⟨hns, hv, -⟩
    · obtain ⟨hns, hv⟩ := hk.has e he
      exact ⟨Nat.lt_of_lt_of_le hns hg.world.namespaces, Nat.lt_of_lt_of_le hv hg.world.vars⟩
    · exact ⟨hns, hv⟩
  label e he := by
    rcases hg.fresh e he with he | ⟨-, -, hl⟩
    · obtain ⟨hns, hv⟩ := hk.has e he
      rw [hg.world.label _ hv, hg.world.name _ hns]
      exact hk.label e he
    · exact hl
  lt ns m hm := by
    rcases hg.mapped ns m hm with hm | ⟨hv, -⟩
    · exact Nat.lt_of_lt_of_le (hk.lt ns m hm) hg.world.vars
    · exact hv
  origin ns m hm := by
    rcases hg.mapped ns m hm with hm | ⟨-, ho⟩
    · exact (hk.origin ns m hm).imp (hg.made ·) (hg.lent ·)
    · exact ho

theorem grows_beside {w : World} (hw : Beside h.world w) : Grows h { h with world := w } where
  world := hw.toWidens
  made := List.Subset.refl _
  lent := List.Subset.refl _
  fresh _ he := .inl he
  mapped ns _ hm := .inl (hw.mappings ns ▸ hm)

theorem Step.grows (hk : h.Kept) (hs : Step h h') : Grows h h' := by
  cases hs with
  | @define v w d n ns sym hns hd =>
    cases hs : sym.ns with
    | some part =>
      rw [d.run_of_error (intern_qualified (by rw [hs]; rfl) n h.world ns)] at hd
      cases hd
    | none =>
      rcases d.run_cases hs n h.world ns with ⟨u, hu, -, hrun⟩ | ⟨notices, hrun⟩
      · -- the var that the symbol means is an old one
        cases hd.symm.trans hrun
        rw [if_pos (hk.lt ns _ (Table.mem_of_find? hu))]
        exact ⟨widens_revar d.label_fill, List.Subset.refl _, List.Subset.refl _, fun _ he => .inl he,
          fun _ _ hm => .inl hm⟩
      · cases hd.symm.trans hrun
        rw [if_neg (Nat.lt_irrefl _)]
        refine ⟨widens_defined, List.subset_cons_self _ _, List.Subset.refl _, fun e he => ?_, ?_⟩
        · rcases List.mem_cons.mp he with rfl | he
          · refine .inr ⟨Nat.lt_of_lt_of_le hns widens_defined.namespaces, ?_, ?_⟩
            · rw [World.size_vars_defined]
              exact Nat.lt_succ_self _
            · rw [World.label_defined, World.name_defined]
          · exact .inl he
        · intro other m hm
          rcases World.mem_defined hm with hm | ⟨rfl, rfl⟩
          · exact .inl hm
          · refine .inr ⟨?_, .inl List.mem_cons_self⟩
            rw [World.size_vars_defined]
            exact Nat.lt_succ_self _
  | @refer w n ns sym v hv hr =>
    rw [refer_eq] at hr
    cases hr
    refine ⟨widens_remapped h.world ns (·.insert sym v), List.Subset.refl _, List.subset_cons_self _ _,
      fun _ he => .inl he, ?_⟩
    intro other m hm
    rcases World.mem_remapped hm with hm | ⟨rfl, hm⟩
    · exact .inl hm
    · rcases Table.mem_insertEntry hm with rfl | hm
      · exact .inr ⟨hv, .inr List.mem_cons_self⟩
      · exact .inl hm
  | @referAll ms w w' n ns other hp hr =>
    obtain ⟨keywords, ⟨ms', hp', hsub, hr'⟩ | hr'⟩ := referAll_cases n h.world ns other
    · cases hp.symm.trans hp'
      cases hr.symm.trans hr'
      have hw := widens_remapped h.world ns fun t => ms.foldl (fun t m => t.insert m.1 m.2) t
      refine ⟨⟨hw.namespaces, hw.name, hw.vars, hw.label⟩, List.Subset.refl _, List.subset_append_right _ _,
        fun _ he => .inl he, ?_⟩
      intro into m hm
      rcases World.mem_remapped hm with hm | ⟨rfl, hm⟩
      · exact .inl hm
      · rcases Table.mem_foldl_insert _ hm with hm | hm
        · have hold := hk.lt other m (List.mem_of_mem_filter (hsub.subset hm))
          exact .inr ⟨hold, .inr (List.mem_append_left _ (List.mem_map_of_mem hm))⟩
        · exact .inl hm
    · cases hr.symm.trans hr'
  | @unmap o w n ns sym hu =>
    rw [unmap_eq] at hu
    cases hu
    refine ⟨widens_remapped h.world ns (·.erase sym), List.Subset.refl _, List.Subset.refl _,
      fun _ he => .inl he, ?_⟩
    intro other m hm
    rcases World.mem_remapped hm with hm | ⟨rfl, hm⟩
    · exact .inl hm
    · exact .inl (List.mem_of_mem_filter hm)
  | make n name hm =>
    cases hm
    exact grows_beside (beside_push rfl rfl)
  | findOrCreate n r name hf =>
    rw [Registry.findOrCreate_eq] at hf
    split at hf
    · cases hf
      exact grows_beside ⟨⟨Nat.le_refl _, fun _ _ => rfl, Nat.le_refl _, fun _ _ => rfl⟩, fun _ => rfl⟩
    · cases hf
      exact grows_beside (beside_push rfl rfl)
  | aside hw => exact grows_beside hw

theorem Reached.kept (hh : h.Reached) : h.Kept := by
  induction hh with
  | @start w h =>
    have hnone (ns : Namespace) : (w.namespaceCell ns).mappings.entries = [] := by
      rw [World.namespaceCell, h]
      rfl
    exact ⟨fun _ he => absurd he List.not_mem_nil, fun _ he => absurd he List.not_mem_nil,
      fun ns _ hm => absurd (hnone ns ▸ hm) List.not_mem_nil,
      fun ns _ hm => absurd (hnone ns ▸ hm) List.not_mem_nil⟩
  | step _ hs ih => exact ih.grows (hs.grows ih)

end History

/-! ### Definitions -/

/-- A definition never fails for an unqualified symbol. Afterwards the symbol means the var that it
gives, and that var bears the namespace's name. The var is a new one or was made earlier by defining the same
symbol in the same namespace, and then it bears the symbol too; or else it is a var that the symbol was
made to refer to there and that bore the namespace's name already. What other vars hold stays as it
was. -/
theorem defines_own {h : History} (hh : h.Reached) {ns : Namespace} (hns : h.Has ns) {sym : Symbol}
    (hs : sym.ns = none) (d : Definition) (n : Nat) :
    ∃ v w, d.run ns sym n h.world = .ok v w ∧
      (w.namespaceCell ns).mappings.find? sym = some v ∧
      ((v.id = h.world.vars.size ∨ (ns, sym, v) ∈ h.made) ∧
          (w.varCell v).label = .named (some (h.world.namespaceCell ns).name) sym ∨
        (ns, sym, v) ∈ h.lent ∧ (w.varCell v).label = (h.world.varCell v).label ∧
          (w.varCell v).label.ns? = some (h.world.namespaceCell ns).name) ∧
      ∀ u : Var, u.id < h.world.vars.size → u ≠ v → w.varCell u = h.world.varCell u := by
  have hk := hh.kept
  rcases d.run_cases hs n h.world ns with ⟨v, hv, ho, hrun⟩ | ⟨notices, hrun⟩
  · have hlabel : ((h.world.revar v d.fill).varCell v).label = (h.world.varCell v).label :=
      World.label_revar d.label_fill
    refine ⟨v, _, hrun, hv, ?_, fun u _ hu => World.varCell_revar_of_ne hu⟩
    rcases hk.origin ns _ (Table.mem_of_find? hv) with hmade | hlent
    · exact .inl ⟨.inr hmade, hlabel.trans (hk.label _ hmade)⟩
    · exact .inr ⟨hlent, hlabel, hlabel ▸ ho⟩
  · exact ⟨⟨h.world.vars.size⟩, _, hrun, World.find?_defined hns, .inl ⟨.inl rfl, World.label_defined⟩,
      fun u hu _ => World.varCell_defined_of_lt hu⟩

/-- A symbol that refers to a var of another namespace is defined by a new var. -/
theorem defines_own_replaced :
    let own : Symbol := ⟨0, none, "own"⟩
    let other : Symbol := ⟨1, none, "other"⟩
    let x : Symbol := ⟨2, none, "x"⟩
    let w : World :=
      { vars := #[{ label := .named (some other) x }]
        namespaces := #[{ name := own, mappings := ⟨[(x, ⟨0⟩)]⟩ }] }
    let h : History := { world := w, lent := [(⟨0⟩, x, ⟨0⟩)] }
    h.Reached ∧ h.Has ⟨0⟩ ∧ x.ns = none ∧
      ∃ v w', (Definition.plain).run ⟨0⟩ x 0 w = .ok v w' ∧ v.id = 1 ∧
        (w'.varCell v).label = .named (some own) x ∧ w'.varCell ⟨0⟩ = w.varCell ⟨0⟩ := by
  intro own other x w h
  have hstart : History.Reached { world := { vars := w.vars } } := .start rfl
  have hmade : History.Reached { world := { vars := w.vars, namespaces := #[{ name := own }] } } :=
    hstart.step (.make 0 own rfl)
  have hh : h.Reached :=
    hmade.step (.refer 0 ⟨0⟩ x ⟨0⟩ Nat.zero_lt_one rfl)
  have hns : h.Has ⟨0⟩ := Nat.zero_lt_one
  obtain ⟨v, w', hrun, -, hv, hrest⟩ := defines_own hh hns (show x.ns = none from rfl) .plain 0
  refine ⟨hh, hns, rfl, v, w', hrun, ?_⟩
  rcases hv with ⟨hid | hmem, hlabel⟩ | ⟨hmem, hlabel, hname⟩
  · exact ⟨hid, hlabel, hrest ⟨0⟩ Nat.zero_lt_one fun h0 => by rw [← h0] at hid; cases hid⟩
  · exact absurd hmem List.not_mem_nil
  · obtain rfl : v = ⟨0⟩ := by
      cases List.mem_singleton.mp hmem
      rfl
    have hserial : (1 : Nat) = 0 := congrArg (fun o => (o.getD x).serial) (hlabel ▸ hname)
    exact absurd hserial Nat.one_ne_zero

/-- A var that bears the namespace's name and that a symbol refers to there is taken for the namespace's
own: one of the namespace itself under a second symbol, and one of another namespace of the same name.
Defining the symbol replaces its root. -/
theorem defines_lent :
    let n : Symbol := ⟨0, none, "n"⟩
    let a : Symbol := ⟨1, none, "a"⟩
    let b : Symbol := ⟨2, none, "b"⟩
    let c : Symbol := ⟨3, none, "c"⟩
    let w : World :=
      { vars := #[{ label := .named (some n) a, root := some (.int 1) },
          { label := .named (some n) c, root := some (.int 1) }]
        namespaces := #[{ name := n, mappings := ⟨[(a, ⟨0⟩), (b, ⟨0⟩), (c, ⟨1⟩)]⟩ },
          { name := n, mappings := ⟨[(c, ⟨1⟩)]⟩ }] }
    let h : History :=
      { world := w
        made := [(⟨1⟩, c, ⟨1⟩), (⟨0⟩, a, ⟨0⟩)]
        lent := [(⟨0⟩, c, ⟨1⟩), (⟨0⟩, b, ⟨0⟩)] }
    h.Reached ∧ h.Has ⟨0⟩ ∧ b.ns = none ∧ c.ns = none ∧
      (∃ w', (Definition.root (some (.int 2))).run ⟨0⟩ b 0 w = .ok ⟨0⟩ w' ∧
        (w'.varCell ⟨0⟩).label.sym? = some a ∧ (⟨0⟩, b, ⟨0⟩) ∉ h.made ∧
        (w.varCell ⟨0⟩).root = some (.int 1) ∧ (w'.varCell ⟨0⟩).root = some (.int 2)) ∧
      ∃ w', (Definition.root (some (.int 2))).run ⟨0⟩ c 0 w = .ok ⟨1⟩ w' ∧ (⟨0⟩, c, ⟨1⟩) ∉ h.made ∧
        (w.varCell ⟨1⟩).root = some (.int 1) ∧ (w'.varCell ⟨1⟩).root = some (.int 2) := by
  intro n a b c w h
  have hstart : History.Reached { world := {} } := .start rfl
  have hone : History.Reached { world := { namespaces := #[{ name := n }] } } :=
    hstart.step (.make 0 n rfl)
  have htwo : History.Reached { world := { namespaces := #[{ name := n }, { name := n }] } } :=
    hone.step (.make 0 n rfl)
  have ha : History.Reached
      { world := { vars := #[{ label := .named (some n) a, root := some (.int 1) }]
                   namespaces := #[{ name := n, mappings := ⟨[(a, ⟨0⟩)]⟩ }, { name := n }] }
        made := [(⟨0⟩, a, ⟨0⟩)] } :=
    htwo.step (.define (.root (some (.int 1))) 0 ⟨0⟩ a Nat.zero_lt_two rfl)
  have hc : History.Reached
      { world := { vars := w.vars
                   namespaces := #[{ name := n, mappings := ⟨[(a, ⟨0⟩)]⟩ },
                     { name := n, mappings := ⟨[(c, ⟨1⟩)]⟩ }] }
        made := h.made } :=
    ha.step (History.Step.define (v := ⟨1⟩) (.root (some (.int 1))) 0 ⟨1⟩ c Nat.one_lt_two rfl)
  have hb : History.Reached
      { world := { vars := w.vars
                   namespaces := #[{ name := n, mappings := ⟨[(a, ⟨0⟩), (b, ⟨0⟩)]⟩ },
                     { name := n, mappings := ⟨[(c, ⟨1⟩)]⟩ }] }
        made := h.made, lent := [(⟨0⟩, b, ⟨0⟩)] } :=
    hc.step (.refer 0 ⟨0⟩ b ⟨0⟩ Nat.zero_lt_two rfl)
  have hh : h.Reached := hb.step (.refer 0 ⟨0⟩ c ⟨1⟩ (Nat.lt_succ_self 1) rfl)
  refine ⟨hh, Nat.zero_lt_two, rfl, rfl, ⟨_, rfl, rfl, ?_, rfl, rfl⟩, _, rfl, ?_, rfl, rfl⟩
  · simp [h, a, b, c]
  · simp [h, a, c]

end LispCore.Namespace
