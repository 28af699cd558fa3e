import LispCore.Proofs.Binding.Conveyance
import LispCore.Proofs.Namespace.Entries
import LispCore.Proofs.Session.Failure
/-!
Sessions in use. Threads start sessions, give commands on namespaces, release those that no caller holds
any more, and bind vars in between. No command takes a registered namespace, a registry or a binding cell
away, and each leaves handles and mappings in order (`Command.extends`); so whatever has happened, the
core namespace and the registry of each session are there, every registered namespace is, and the handle
of a namespace stands for it (`InUse.standing`).
-/

namespace LispCore

/-! ### What commands keep -/

namespace World

/-- The handle of each namespace stands for it, no symbol is mapped twice, and registered namespaces are
there. -/
structure Orderly (w : World) : Prop where
  handle : ∀ ns h, (w.namespaceCell ns).handle = some h → h.referent = .names ns
  distinct : ∀ ns, (w.namespaceCell ns).mappings.Distinct
  registered : ∀ r name ns, (w.registry r).find? name = some ns → (w.namespaceCell ns).alive = true

/-- Namespaces that are gone stay so, those that are registered stay registered, and order is kept. -/
structure Retains (w w' : World) : Prop where
  gone : ∀ ns, (w.namespaceCell ns).alive = false → (w'.namespaceCell ns).alive = false
  registered : ∀ r name ns, (w.registry r).find? name = some ns → (w'.registry r).find? name = some ns
  orderly : w.Orderly → w'.Orderly

/-- Nothing is taken away, and frames stay as they are. -/
structure Extends (w w' : World) : Prop extends w.Retains w' where
  namespaces : w.namespaces.size ≤ w'.namespaces.size
  registries : w.registries.size ≤ w'.registries.size
  cells : w.cells.size ≤ w'.cells.size
  nextFrame : w'.nextFrame = w.nextFrame
  chain : w'.chain = w.chain

variable {w w' w'' : World} {ns : Namespace}

theorem namespaceCell_congr (hn : w'.namespaces = w.namespaces) (ns : Namespace) :
    w'.namespaceCell ns = w.namespaceCell ns := by
  rw [namespaceCell, namespaceCell, hn]

theorem Orderly.congr (h : w.Orderly) (hn : w'.namespaces = w.namespaces)
    (hr : ∀ r name ns, (w'.registry r).find? name = some ns → (w.registry r).find? name = some ns) :
    w'.Orderly :=
  ⟨fun ns => namespaceCell_congr hn ns ▸ h.handle ns, fun ns => namespaceCell_congr hn ns ▸ h.distinct ns,
    fun r name ns hfind => namespaceCell_congr hn ns ▸ h.registered r name ns (hr r name ns hfind)⟩

theorem registry_congr (hr : w'.registries = w.registries) (r : Registry) :
    w'.registry r = w.registry r := by
  rw [registry, registry, hr]

namespace Retains

theorem refl (w : World) : w.Retains w := ⟨fun _ => id, fun _ _ _ => id, id⟩

theorem trans (h : w.Retains w') (h' : w'.Retains w'') : w.Retains w'' where
  gone ns hg := h'.gone ns (h.gone ns hg)
  registered r name ns hfind := h'.registered r name ns (h.registered r name ns hfind)
  orderly ho := h'.orderly (h.orderly ho)

theorem beside (hn : w'.namespaces = w.namespaces) (hr : w'.registries = w.registries) :
    w.Retains w' :=
  ⟨fun ns hg => namespaceCell_congr hn ns ▸ hg, fun r _ _ h => (registry_congr hr r).symm ▸ h,
    fun ho => ho.congr hn fun r _ _ h => registry_congr hr r ▸ h⟩

end Retains

namespace Extends

theorem refl (w : World) : w.Extends w :=
  ⟨.refl w, Nat.le_refl _, Nat.le_refl _, Nat.le_refl _, rfl, rfl⟩

theorem trans (h : w.Extends w') (h' : w'.Extends w'') : w.Extends w'' where
  toRetains := h.toRetains.trans h'.toRetains
  namespaces := Nat.le_trans h.namespaces h'.namespaces
  registries := Nat.le_trans h.registries h'.registries
  cells := Nat.le_trans h.cells h'.cells
  nextFrame := h'.nextFrame.trans h.nextFrame
  chain := h'.chain.trans h.chain

/-- Names, vars, stamps and notices are not what counts. -/
theorem beside (hn : w'.namespaces = w.namespaces) (hr : w'.registries = w.registries)
    (hc : w'.cells.size = w.cells.size) (hf : w'.nextFrame = w.nextFrame) (hch : w'.chain = w.chain) :
    w.Extends w' :=
  ⟨.beside hn hr, Nat.le_of_eq (congrArg Array.size hn.symm), Nat.le_of_eq (congrArg Array.size hr.symm),
    Nat.le_of_eq hc.symm, hf, hch⟩

/-- A change of one namespace shows there or nowhere. -/
theorem namespaceCell_cases (w : World) (ns : Namespace) (f : NamespaceCell → NamespaceCell)
    (other : Namespace) :
    ({ w with namespaces := w.namespaces.modify ns.id f } : World).namespaceCell other =
      w.namespaceCell other ∨
    other = ns ∧ ({ w with namespaces := w.namespaces.modify ns.id f } : World).namespaceCell other =
      f (w.namespaceCell other) := by
  simp only [namespaceCell, Array.getD_eq_getD_getElem?, Array.getElem?_modify]
  split_ifs with hid
  · cases w.namespaces[other.id]? with
    | none => exact .inl rfl
    | some c => exact .inr ⟨by cases ns; cases other; exact congrArg _ hid.symm, rfl⟩
  · exact .inl rfl

/-- A namespace is changed so that its handle still stands for it, no symbol is mapped twice, and it is
there if it was and is registered. -/
theorem modify {f : NamespaceCell → NamespaceCell}
    (hh : ∀ c h, (f c).handle = some h → c.handle = some h ∨ h.referent = .names ns)
    (hd : ∀ c, c.mappings.Distinct → (f c).mappings.Distinct)
    (hg : ∀ c, c.alive = false → (f c).alive = false)
    (hr : ∀ r name, (w.registry r).find? name = some ns → ∀ c, c.alive = true → (f c).alive = true) :
    w.Extends { w with namespaces := w.namespaces.modify ns.id f } := by
  refine ⟨⟨fun other hg' => ?_, fun _ _ _ => id, fun ho => ⟨fun other h hh' => ?_, fun other => ?_,
    fun r name other hfind => ?_⟩⟩, Nat.le_of_eq Array.size_modify.symm, Nat.le_refl _, Nat.le_refl _,
    rfl, rfl⟩
  · rcases namespaceCell_cases w ns f other with heq | ⟨-, heq⟩
    · rw [heq]
      exact hg'
    · rw [heq]
      exact hg _ hg'
  · rcases namespaceCell_cases w ns f other with heq | ⟨rfl, heq⟩
    · exact ho.handle other h (heq ▸ hh')
    · rw [heq] at hh'
      exact (hh _ _ hh').elim (ho.handle other h) id
  · rcases namespaceCell_cases w ns f other with heq | ⟨rfl, heq⟩
    · exact heq ▸ ho.distinct other
    · exact heq ▸ hd _ (ho.distinct other)
  · have halive := ho.registered r name other hfind
    rcases namespaceCell_cases w ns f other with heq | ⟨rfl, heq⟩
    · rw [heq]
      exact halive
    · rw [heq]
      exact hr r name hfind _ halive

theorem remapped {f : Table Symbol Var → Table Symbol Var} (hf : ∀ t, t.Distinct → (f t).Distinct) :
    w.Extends (w.remapped ns f) :=
  modify (fun _ _ h => .inl h) (fun c => hf c.mappings) (fun _ => id) fun _ _ _ _ => id

/-- New namespaces have neither a handle nor mappings, and are there. What was registered still is, and
nothing else but the new namespace. -/
theorem push {name : Symbol} (hn : w'.namespaces = w.namespaces.push { name })
    (hr : w.registries.size ≤ w'.registries.size)
    (hkept : ∀ r key ns, (w.registry r).find? key = some ns → (w'.registry r).find? key = some ns)
    (hfind : ∀ r key ns, (w'.registry r).find? key = some ns →
      (w.registry r).find? key = some ns ∨ ns = ⟨w.namespaces.size⟩)
    (hc : w'.cells = w.cells) (hf : w'.nextFrame = w.nextFrame) (hch : w'.chain = w.chain) :
    w.Extends w' := by
  have hhandle := Chronicle.namespaceCell_push name NamespaceCell.handle rfl hn
  have hmappings := Chronicle.namespaceCell_push name NamespaceCell.mappings rfl hn
  have halive := Chronicle.namespaceCell_push name NamespaceCell.alive rfl hn
  refine ⟨⟨fun ns hg => halive ns ▸ hg, hkept, fun ho => ⟨fun ns => hhandle ns ▸ ho.handle ns,
    fun ns => hmappings ns ▸ ho.distinct ns, fun r key ns h => ?_⟩⟩,
    by rw [hn, Array.size_push]; exact Nat.le_succ _, hr, by rw [hc], hf, hch⟩
  rw [halive]
  rcases hfind r key ns h with h | rfl
  · exact ho.registered r key ns h
  · rw [namespaceCell, Array.getD_eq_getD_getElem?, Array.getElem?_eq_none (Nat.le_refl _)]
    rfl

end Extends

/-- A registered namespace is held. -/
theorem keeps_of_find? {r : Registry} {name : Symbol} (h : (w.registry r).find? name = some ns) :
    w.keeps ns = true := by
  obtain ⟨e, he, rfl⟩ := Option.map_eq_some_iff.mp h
  have hmem := List.mem_of_find?_eq_some he
  rw [registry, Array.getD_eq_getD_getElem?] at hmem
  cases hr : w.registries[r.id]? with
  | none =>
    rw [hr] at hmem
    cases hmem
  | some table =>
    rw [hr] at hmem
    have hany : table.entries.any (·.2 = e.2) = true := List.any_eq_true.mpr ⟨e, hmem, by simp⟩
    rw [keeps, Bool.or_eq_true]
    exact .inl (Array.any_eq_true'.mpr ⟨table, Array.mem_of_getElem? hr, hany⟩)

/-- A registry has what it had before, or the new namespace. -/
theorem find?_of_founded {r r' : Registry} {name key : Symbol}
    (h : ((w.founded r name).registry r').find? key = some ns) :
    (w.registry r').find? key = some ns ∨ ns = ⟨w.namespaces.size⟩ := by
  rcases w.registry_founded_cases r r' name with hr | ⟨-, hr⟩ <;> rw [hr] at h
  · exact .inl h
  · rw [Table.find?_insert] at h
    split_ifs at h
    · exact .inr (Option.some.inj h).symm
    · exact .inl h

/-- A registry that has been given a namespace under a free name has what it had. -/
theorem find?_founded_of_find? {r r' : Registry} {name key : Symbol}
    (hfree : (w.registry r).find? name = none) (h : (w.registry r').find? key = some ns) :
    ((w.founded r name).registry r').find? key = some ns := by
  rcases w.registry_founded_cases r r' name with hr | ⟨rfl, hr⟩ <;> rw [hr]
  · exact h
  · have hne : key ≠ name := by
      rintro rfl
      cases hfree.symm.trans h
    rw [Table.find?_insert, if_neg hne]
    exact h

end World

/-- However the action ends, it has kept what there was. -/
def Act.Extends {α : Type} (x : Act α) : Prop := x.Leads World.Extends

namespace Act.Extends

variable {α β : Type} {x : Act α} {f : α → Act β}

theorem read (h : ∀ n w, x.worldAfter n w = w) : x.Extends := Leads.read .refl h

theorem pure (a : α) : (Pure.pure a : Act α).Extends := read fun _ _ => rfl

theorem bind (hx : x.Extends) (hf : ∀ a, (f a).Extends) : (x >>= f).Extends := Leads.bind .trans hx hf

theorem freshStamp : Act.freshStamp.Extends := fun _ _ => .beside rfl rfl rfl rfl rfl

theorem freshStamps (count : Nat) : (Act.freshStamps count).Extends :=
  fun _ _ => .beside rfl rfl rfl rfl rfl

theorem notice (x : Notice) : (Act.notice x).Extends := fun _ _ => .beside rfl rfl rfl rfl rfl

theorem intern (kind : NameKind) (ns : Option String) (name : String) :
    (Name.intern kind ns name).Extends := by
  intro n w
  rw [worldAfter, Name.intern]
  cases (w.names kind).intern kind ns name with
  | ok p => cases kind <;> exact .beside rfl rfl rfl rfl rfl
  | error e => exact .refl w

/-! ### Namespaces -/

theorem define (ns : Namespace) (sym : Symbol) (d : Definition) : (d.run ns sym).Extends := by
  intro n w
  cases hs : sym.ns with
  | some part =>
    have hrun := d.run_of_error (Namespace.intern_qualified (by rw [hs]; rfl) n w ns)
    rw [worldAfter_of_error hrun]
    exact .refl w
  | none =>
    rcases d.run_cases hs n w ns with ⟨v, -, -, hrun⟩ | ⟨notices, hrun⟩
    · rw [worldAfter_of_ok hrun]
      exact .beside rfl rfl rfl rfl rfl
    · rw [worldAfter_of_ok hrun, World.defined]
      -- the var is made, mapped and filled
      let made : World := { w with
        notices, vars := w.vars.push { label := .named (some (w.namespaceCell ns).name) sym } }
      have hmade : w.Extends made := .beside rfl rfl rfl rfl rfl
      have hmapped : made.Extends (made.remapped ns (·.insert sym ⟨w.vars.size⟩)) :=
        .remapped fun t ht => ht.put sym (some ⟨w.vars.size⟩)
      exact (hmade.trans hmapped).trans (.beside rfl rfl rfl rfl rfl)

theorem internVar (ns : Namespace) (sym : Symbol) (init : Option Value) :
    (ns.internVar sym init).Extends := define ns sym (.root init)

theorem referAll (ns other : Namespace) : (ns.referAll other).Extends := by
  intro n w
  obtain ⟨w₁, hw₁, hrun⟩ := Namespace.referAll_spec w n ns other
  have hkeywords : w.Extends w₁ := by
    rcases List.mem_pair.mp hw₁ with rfl | rfl <;> exact .beside rfl rfl rfl rfl rfl
  rcases hrun with hrun | ⟨-, hrun⟩
  · rw [worldAfter_of_ok hrun]
    exact hkeywords.trans (.remapped fun t ht => ht.putAll _)
  · rw [worldAfter_of_error hrun]
    exact hkeywords

theorem update {ns : Namespace} {g : NamespaceCell → NamespaceCell}
    (hh : ∀ c h, (g c).handle = some h → c.handle = some h ∨ h.referent = .names ns)
    (hd : ∀ c, c.mappings.Distinct → (g c).mappings.Distinct) (ha : ∀ c, (g c).alive = c.alive) :
    (ns.update g).Extends :=
  fun _ _ => .modify hh hd (fun c h => (ha c).trans h) fun _ _ _ c h => (ha c).trans h

theorem remap (ns : Namespace) (g : Table Symbol Var → Table Symbol Var)
    (hg : ∀ t, t.Distinct → (g t).Distinct) :
    (ns.update fun c => { c with mappings := g c.mappings }).Extends :=
  update (fun _ _ h => .inl h) (fun c => hg c.mappings) fun _ => rfl

theorem mapping (ns : Namespace) (c : MappingCall) : (c.run ns).Extends := by
  cases c with
  | one op sym =>
    refine bind ?_ fun _ => pure _
    cases op with
    | define d => exact (define ns sym d).bind fun _ => pure _
    | refer v =>
      have hrefer : (ns.refer sym v).Extends :=
        remap ns (·.insert sym v) fun t ht => ht.put sym (some v)
      exact hrefer.bind fun _ => pure _
    | unmap =>
      have herase := remap ns (·.erase sym) fun t ht => ht.put sym none
      exact bind (bind (read fun _ _ => rfl) fun _ => herase.bind fun _ => pure _) fun _ => pure _
  | all other => exact referAll ns other

theorem realias (ns : Namespace) (short : Symbol) (op : Aliasing) : (op.run ns short).Extends := by
  cases op with
  | add target => exact bind (update (fun _ _ h => .inl h) (fun _ hc => hc) fun _ => rfl) fun _ => pure _
  | remove =>
    exact bind (bind (read fun _ _ => rfl) fun _ =>
      bind (update (fun _ _ h => .inl h) (fun _ hc => hc) fun _ => rfl) fun _ => pure _) fun _ => pure _

theorem toValue (ns : Namespace) : ns.toValue.Extends := by
  refine bind (read fun _ _ => rfl) fun c => ?_
  cases c.handle with
  | some h => exact pure _
  | none =>
    refine freshStamp.bind fun stamp =>
      bind (update (fun c h hh => .inr ?_) (fun _ hc => hc) fun _ => rfl) fun _ => pure _
    rw [← Option.some.inj hh]

theorem make (name : Symbol) : (Namespace.make name).Extends :=
  fun _ _ => .push rfl (Nat.le_refl _) (fun _ _ _ => id) (fun _ _ _ => .inl) rfl rfl rfl

/-- What no registry has may go. -/
theorem release (ns : Namespace) : ns.release.Extends := by
  intro n w
  cases hk : w.keeps ns with
  | true =>
    rw [worldAfter_of_ok (if_pos hk)]
    exact .refl w
  | false =>
    rw [worldAfter_of_ok (if_neg (Bool.eq_false_iff.mp hk))]
    refine .modify (fun _ _ h => .inl h) (fun _ hc => hc) (fun _ _ => rfl) fun r name hfind => ?_
    exact absurd (World.keeps_of_find? hfind) (Bool.eq_false_iff.mp hk)

theorem findOrCreate (r : Registry) (name : Symbol) : (r.findOrCreate name).Extends := by
  intro n w
  rw [worldAfter, Registry.findOrCreate_eq]
  cases hfind : (w.registry r).find? name with
  | some ns => exact .refl w
  | none =>
    exact .push rfl (Nat.le_of_eq Array.size_modify.symm)
      (fun _ _ _ => World.find?_founded_of_find? hfind) (fun _ _ _ => World.find?_of_founded) rfl rfl rfl

theorem registry : Registry.make.Extends := by
  intro n w
  have hsame (r : Registry) : (Registry.make.worldAfter n w).registry r = w.registry r :=
    World.registry_push rfl
  exact ⟨⟨fun _ => id, fun r _ _ h => hsame r ▸ h, fun ho => ho.congr rfl fun r _ _ h => hsame r ▸ h⟩,
    Nat.le_refl _, Nat.le_trans (Nat.le_succ _) (Nat.le_of_eq (Array.size_push _).symm), Nat.le_refl _,
    rfl, rfl⟩

theorem var (r : Registry) (ns name : String) (init : Option Value) : (r.var ns name init).Extends :=
  (intern _ _ _).bind fun _ => (findOrCreate _ _).bind fun N => (intern _ _ _).bind fun sym =>
    internVar N sym init

theorem set (v : Var) (x : Value) : (v.set x).Extends := by
  intro n w
  rcases Binding.set_cases (n := n) (w := w) v x with ⟨cell, -, -, h⟩ | ⟨name, h⟩
  · rw [worldAfter_of_ok h]
    exact .beside rfl rfl Array.size_setIfInBounds rfl rfl
  · rw [worldAfter_of_error h]
    exact .refl w

/-! ### Sessions -/

theorem enterable (s : Session) (name : Symbol) : (s.enterable name).Extends := by
  refine bind (read fun _ _ => rfl) fun o => ?_
  cases o with
  | some ns => exact pure ns
  | none =>
    refine (findOrCreate _ _).bind fun ns => ?_
    split_ifs
    · exact (referAll ns s.core).bind fun _ => pure ns
    · exact pure ns

theorem inNs (s : Session) (name : Symbol) : (s.inNs name).Extends :=
  (enterable s name).bind fun ns => (toValue ns).bind fun x => (set _ x).bind fun _ => pure ns

theorem internCore (core : Namespace) (name : String) (init : Value) :
    (Session.internCore core name init).Extends :=
  (intern _ _ _).bind fun sym => define core sym (.dynamic (some init))

theorem readEvalValue (setting : String) : (Session.readEvalValue setting).Extends := by
  rw [Session.readEvalValue]
  split_ifs
  · exact pure _
  · exact pure _
  · have hread : (Name.read .keyword "unknown").Extends :=
      intern .keyword (Name.parse .keyword "unknown").1 (Name.parse .keyword "unknown").2
    exact (notice _).bind fun _ => hread.bind fun _ => pure _

theorem argumentsValue (arguments : List String) : (Session.argumentsValue arguments).Extends := by
  rw [Session.argumentsValue]
  split_ifs
  · exact pure _
  · exact ((freshStamps _).bind fun _ => pure _).bind fun _ => pure _

theorem stream (s : Stream) : s.toValue.Extends := freshStamp.bind fun _ => pure _

theorem internVars (core : Namespace) (config : Config) : (Session.internVars core config).Extends := by
  refine (argumentsValue _).bind fun arguments => ?_
  refine (stream _).bind fun _ => (internCore core _ _).bind fun stdin => ?_
  refine (stream _).bind fun _ => (internCore core _ _).bind fun stdout => ?_
  refine (stream _).bind fun _ => (internCore core _ _).bind fun stderr => ?_
  refine (toValue core).bind fun _ => (internCore core _ _).bind fun currentNs => ?_
  refine (internCore core _ _).bind fun printMeta => (internCore core _ _).bind fun printReadably => ?_
  refine (internCore core _ _).bind fun printDup => (internCore core _ _).bind fun printLength => ?_
  refine (readEvalValue _).bind fun _ => (internCore core _ _).bind fun readEval => ?_
  refine (internCore core _ _).bind fun dataReaders => (internCore core _ _).bind fun readersFn => ?_
  refine (internCore core _ _).bind fun defaultReaders => (internCore core _ _).bind fun arguments' => ?_
  refine (internCore core _ _).bind fun agent => (internCore core _ _).bind fun fnLoader => ?_
  refine (intern _ _ _).bind fun sym => (internVar core sym _).bind fun inNs => ?_
  refine (intern _ _ _).bind fun sym => (internVar core sym _).bind fun ns => ?_
  have hintern (sym : Symbol) : (core.intern sym).Extends := define core sym .plain
  exact (intern _ _ _).bind fun sym => (hintern sym).bind fun _ => pure _

theorem internKeywords : Session.internKeywords.Extends :=
  (intern _ _ _).bind fun _ => (intern _ _ _).bind fun _ => (intern _ _ _).bind fun _ =>
    (intern _ _ _).bind fun _ => (intern _ _ _).bind fun _ => (intern _ _ _).bind fun _ =>
      (intern _ _ _).bind fun _ => pure _

end Act.Extends

/-! ### Sessions in use -/

/-- The core namespace and the registry of the session are there. -/
structure Session.Standing (s : Session) (w : World) : Prop where
  core : s.core.id < w.namespaces.size
  registry : s.registry.id < w.registries.size

theorem Session.Standing.mono {s : Session} {w w' : World} (h : s.Standing w)
    (hn : w.namespaces.size ≤ w'.namespaces.size) (hr : w.registries.size ≤ w'.registries.size) :
    s.Standing w' :=
  ⟨Nat.lt_of_lt_of_le h.core hn, Nat.lt_of_lt_of_le h.registry hr⟩

/-- The first namespace of a new registry is made. -/
theorem Registry.made_in_new {r : Registry} {ns : Namespace} {text : String} {name : Symbol} {n : Nat}
    {w w₁ w₂ w₃ : World} (hr : Registry.make n w = .ok r w₁) (hname : Symbol.plain text n w₁ = .ok name w₂)
    (hns : r.findOrCreate name n w₂ = .ok ns w₃) :
    ns.id < w₃.namespaces.size ∧ r.id < w₃.registries.size := by
  have hregistries : w₂.registries = w₁.registries := by
    rcases Symbol.plain_cases n w₁ text with ⟨e, -, h⟩ | ⟨-, sym, symbols, -, -, h⟩
    · cases hname.symm.trans h
    · cases hname.symm.trans h
      rfl
  cases hr
  have hnew : (w₂.registry ⟨w.registries.size⟩).find? name = none := by
    rw [World.registry, hregistries, Array.getD_eq_getD_getElem?, Array.getElem?_push_size]
    rfl
  rw [Registry.findOrCreate_eq, hnew] at hns
  cases hns
  constructor
  · simp [World.founded]
  · simp [World.founded, hregistries]

/-- A session that has been started stands, and the start has kept what there was. -/
theorem Session.start_spec {config : Config} {n : Nat} {w w' : World} {s : Session}
    (h : Session.start config n w = .ok s w') : w.Extends w' ∧ s.Standing w' := by
  -- a result of an action that keeps what there was
  have step {α : Type} {x : Act α} {a : α} {w₁ w₂ : World} (hx : x.Extends)
      (hrun : x n w₁ = .ok a w₂) : w₁.Extends w₂ := Act.worldAfter_of_ok hrun ▸ hx n w₁
  obtain ⟨registry, w₁, hregistry, h⟩ := Act.ok_of_bind h
  obtain ⟨coreName, w₂, hcoreName, h⟩ := Act.ok_of_bind h
  obtain ⟨core, w₃, hcore, h⟩ := Act.ok_of_bind h
  obtain ⟨userName, w₄, huserName, h⟩ := Act.ok_of_bind h
  obtain ⟨user, w₅, huser, h⟩ := Act.ok_of_bind h
  obtain ⟨vars, w₆, hvars, h⟩ := Act.ok_of_bind h
  obtain ⟨⟨⟩, w₇, hrefer, h⟩ := Act.ok_of_bind h
  obtain ⟨keywords, w₈, hkeywords, h⟩ := Act.ok_of_bind h
  cases h
  have hfirst := (step .registry hregistry).trans (step (.intern _ _ _) hcoreName)
  have hrest := ((((step (.intern _ _ _) huserName).trans (step (.findOrCreate _ _) huser)).trans
    (step (.internVars _ _) hvars)).trans (step (.referAll _ _) hrefer)).trans
      (step .internKeywords hkeywords)
  have hmade := step (.findOrCreate registry coreName) hcore
  have hthere := Registry.made_in_new hregistry hcoreName hcore
  exact ⟨(hfirst.trans hmade).trans hrest,
    Session.Standing.mono ⟨hthere.1, hthere.2⟩ hrest.namespaces hrest.registries⟩

/-- The commands on namespaces, registries and sessions. -/
inductive Command where
  | mapping (ns : Namespace) (c : MappingCall)
  | realias (ns : Namespace) (short : Symbol) (op : Aliasing)
  | value (ns : Namespace)
  | make (name : Symbol)
  | release (ns : Namespace)
  | registry
  | findOrCreate (r : Registry) (name : Symbol)
  | var (r : Registry) (ns name : String) (init : Option Value)
  | inNs (s : Session) (name : Symbol)

def Command.run : Command → Act Unit
  | mapping ns c => c.run ns
  | realias ns short op => do let _ ← op.run ns short
  | value ns => do let _ ← ns.toValue
  | make name => do let _ ← Namespace.make name
  | release ns => ns.release
  | registry => do let _ ← Registry.make
  | findOrCreate r name => do let _ ← r.findOrCreate name
  | var r ns name init => do let _ ← r.var ns name init
  | inNs s name => do let _ ← s.inNs name

theorem Command.extends (c : Command) : c.run.Extends := by
  cases c with
  | mapping ns c => exact .mapping ns c
  | realias ns short op => exact (Act.Extends.realias ns short op).bind fun _ => .pure _
  | value ns => exact (Act.Extends.toValue ns).bind fun _ => .pure _
  | make name => exact (Act.Extends.make name).bind fun _ => .pure _
  | release ns => exact .release ns
  | registry => exact Act.Extends.registry.bind fun _ => .pure _
  | findOrCreate r name => exact (Act.Extends.findOrCreate r name).bind fun _ => .pure _
  | var r ns name init => exact (Act.Extends.var r ns name init).bind fun _ => .pure _
  | inNs s name => exact (Act.Extends.inNs s name).bind fun _ => .pure _

namespace Binding.Scene

/-- The scene after a command of a thread. -/
def command (s : Scene) (i n : Nat) (c : Command) : Scene :=
  s.keep i (c.run.worldAfter n (s.seen i)) (s.threads i).regions

/-- What threads come to that start sessions, give commands and bind vars, in a world without namespaces
at first, with all sessions that were started; between commands anything else may happen that leaves
namespaces and registries alone. -/
inductive InUse : List Session → Scene → Prop
  | begin {w : World} (h : w.namespaces = #[]) : InUse [] (start w)
  | started {ss : List Session} {s : Scene} {session : Session} {w : World} (h : InUse ss s) (i n : Nat)
      (config : Config) (hs : Session.start config n (s.seen i) = .ok session w) :
      InUse (session :: ss) (s.keep i w (s.threads i).regions)
  | command {ss : List Session} {s : Scene} (h : InUse ss s) (i n : Nat) (c : Command) :
      InUse ss (s.command i n c)
  | step {ss : List Session} {s t : Scene} {i : Nat} (h : InUse ss s) (hs : Step i (fun _ => True) s t)
      (hc : KeepsCells s.world t.world) (hn : t.world.namespaces = s.world.namespaces)
      (hr : t.world.registries = s.world.registries) : InUse ss t

/-- What has happened so far has left bindings, namespaces and sessions in order. -/
structure Standing (ss : List Session) (s : Scene) : Prop where
  reachedBy : s.ReachedBy KeepsCells
  orderly : s.world.Orderly
  sessions : ∀ session ∈ ss, session.Standing s.world

variable {ss : List Session} {s t : Scene} {i n : Nat} {w : World}

/-- What keeps the chain changes the world alone. -/
theorem keep_eq (hw : w.chain = (s.threads i).chain) :
    s.keep i w (s.threads i).regions = { s with world := w } := by
  rw [keep, hw]
  exact congrArg (Scene.mk w · s.snapshots) (Function.update_eq_self i s.threads)

theorem chain_act (s : Scene) (i n : Nat) (o : Op) :
    ((s.act i n o).threads i).chain = (o.run.worldAfter n (s.seen i)).chain := by
  rw [act, keep_self]

theorem Standing.extend (h : s.Standing ss) (hw : (s.seen i).Extends w) :
    (s.keep i w (s.threads i).regions).Standing ss := by
  rw [keep_eq hw.chain]
  have hs : Step i (fun _ => True) s { s with world := w } := .aside w hw.nextFrame
  exact ⟨.step h.reachedBy hs hw.cells, hw.orderly (h.orderly.congr rfl fun _ _ _ => id),
    fun session hsession => (h.sessions session hsession).mono hw.namespaces hw.registries⟩

theorem InUse.standing (h : InUse ss s) : s.Standing ss := by
  induction h with
  | @begin w hw =>
    have hcell (ns : Namespace) : w.namespaceCell ns = default := by
      rw [World.namespaceCell, hw]
      rfl
    refine ⟨.start w, ⟨fun ns h hh => ?_, fun ns => ?_, fun r name ns _ => ?_⟩,
      fun _ h => absurd h List.not_mem_nil⟩
    · rw [start, hcell] at hh
      cases hh
    · rw [start, hcell]
      exact List.nodup_nil
    · rw [start, hcell]
      rfl
  | started _ i n config hs ih =>
    obtain ⟨hextends, hstanding⟩ := Session.start_spec hs
    obtain ⟨hreached, horderly, hsessions⟩ := ih.extend hextends
    exact ⟨hreached, horderly, List.forall_mem_cons.mpr ⟨hstanding, hsessions⟩⟩
  | command _ i n c ih => exact ih.extend (c.extends n _)
  | step _ hs hc hn hr ih =>
    refine ⟨.step ih.reachedBy hs hc, ih.orderly.congr hn fun r _ _ h => World.registry_congr hr r ▸ h,
      fun session hsession => ?_⟩
    exact (ih.sessions session hsession).mono (by rw [hn]) (by rw [hr])

end Binding.Scene

end LispCore
