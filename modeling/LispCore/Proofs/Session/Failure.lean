import LispCore.Session.Use
import LispCore.Proofs.Binding.Stack
import LispCore.Proofs.Namespace.Publics
/-!
What a failing operation on namespaces leaves behind. Interning checks the symbol first, so when it fails
nothing has happened. Interning by names and switching the current namespace register a namespace before
they can fail, and a new one stays registered (`failed_var_registers`); nothing else has changed then
(`failure_registers_at_most`).
-/

namespace LispCore

/-- Nothing has changed that a registry, a namespace, a var or a thread shows. -/
structure World.Same (w w' : World) : Prop where
  registries : w'.registries = w.registries
  namespaces : w'.namespaces.size = w.namespaces.size
  name : ∀ ns, (w'.namespaceCell ns).name = (w.namespaceCell ns).name
  mappings : ∀ ns, (w'.namespaceCell ns).mappings = (w.namespaceCell ns).mappings
  aliases : ∀ ns, (w'.namespaceCell ns).aliases = (w.namespaceCell ns).aliases
  alive : ∀ ns, (w'.namespaceCell ns).alive = (w.namespaceCell ns).alive
  vars : w'.vars = w.vars
  cells : w'.cells = w.cells
  chain : w'.chain = w.chain

namespace World.Same

variable {w w' w'' : World}

theorem refl (w : World) : w.Same w :=
  ⟨rfl, rfl, fun _ => rfl, fun _ => rfl, fun _ => rfl, fun _ => rfl, rfl, rfl, rfl⟩

/-- Interned names show nowhere. -/
theorem symbols (w : World) (symbols : InternTable) : w.Same { w with symbols } :=
  ⟨rfl, rfl, fun _ => rfl, fun _ => rfl, fun _ => rfl, fun _ => rfl, rfl, rfl, rfl⟩

theorem keywords (w : World) (keywords : InternTable) : w.Same { w with keywords } :=
  ⟨rfl, rfl, fun _ => rfl, fun _ => rfl, fun _ => rfl, fun _ => rfl, rfl, rfl, rfl⟩

theorem trans (h : w.Same w') (h' : w'.Same w'') : w.Same w'' where
  registries := h'.registries.trans h.registries
  namespaces := h'.namespaces.trans h.namespaces
  name ns := (h'.name ns).trans (h.name ns)
  mappings ns := (h'.mappings ns).trans (h.mappings ns)
  aliases ns := (h'.aliases ns).trans (h.aliases ns)
  alive ns := (h'.alive ns).trans (h.alive ns)
  vars := h'.vars.trans h.vars
  cells := h'.cells.trans h.cells
  chain := h'.chain.trans h.chain

end World.Same

/-- Nothing has changed, but that the name, if it was free, is taken by a new namespace with these
mappings. -/
def World.SameBut (w : World) (r : Registry) (name : Symbol) (ms : List (Symbol × Var)) (w' : World) :
    Prop :=
  if ((w.registry r).find? name).isSome then w.Same w'
  else ((w.founded r name).remapped ⟨w.namespaces.size⟩
    fun t => ms.foldl (fun t m => t.insert m.1 m.2) t).Same w'

variable {n : Nat} {w : World}

/-- Making the handle of a namespace shows nowhere. -/
theorem Namespace.toValue_same (ns : Namespace) : ∃ x w', ns.toValue n w = .ok x w' ∧ w.Same w' := by
  have hc : ns.cell n w = .ok (w.namespaceCell ns) w := rfl
  rw [toValue, Act.bind_of_ok hc]
  cases hh : (w.namespaceCell ns).handle with
  | some h => exact ⟨_, _, rfl, .refl w⟩
  | none =>
    exact ⟨_, _, rfl, rfl, Array.size_modify,
      fun _ => World.namespaceCell_modify NamespaceCell.name fun _ => rfl,
      fun _ => World.namespaceCell_modify NamespaceCell.mappings fun _ => rfl,
      fun _ => World.namespaceCell_modify NamespaceCell.aliases fun _ => rfl,
      fun _ => World.namespaceCell_modify NamespaceCell.alive fun _ => rfl, rfl, rfl, rfl⟩

/-- Interning a plain symbol fails if the name is refused, and else shows nowhere. -/
theorem Symbol.plain_cases (n : Nat) (w : World) (name : String) :
    (∃ e, InternTable.validate none name = .error e ∧ Symbol.plain name n w = .error (.error e) w) ∨
    InternTable.validate none name = .ok () ∧
      ∃ s symbols, s.ns = none ∧ s.name = name ∧ Symbol.plain name n w = .ok s { w with symbols } := by
  cases hv : InternTable.validate none name with
  | error e =>
    refine .inl ⟨e, rfl, ?_⟩
    rw [Symbol.plain, Name.intern, InternTable.intern, hv]
  | ok u =>
    refine .inr ⟨rfl, ⟨(w.symbols.serialOf none name).1, none, name⟩, (w.symbols.serialOf none name).2,
      rfl, rfl, ?_⟩
    rw [Symbol.plain, Name.intern, InternTable.intern, hv]
    rfl

theorem Namespace.internVar_ok {sym : Symbol} (hs : sym.ns = none) (n : Nat) (w : World)
    (ns : Namespace) (init : Option Value) : ∃ v w', ns.internVar sym init n w = .ok v w' := by
  rcases (Definition.root init).run_cases hs n w ns with ⟨v, -, -, h⟩ | ⟨_, h⟩
  · exact ⟨v, _, h⟩
  · exact ⟨_, _, h⟩

/-- Defining a symbol checks it before anything else. -/
theorem Definition.failure {d : Definition} {ns : Namespace} {sym : Symbol} {e : Error} {w' : World}
    (h : d.run ns sym n w = .error (.error e) w') : w' = w := by
  cases hs : sym.ns with
  | some part =>
    have hrun := d.run_of_error (Namespace.intern_qualified (by rw [hs]; rfl) n w ns)
    cases h.symm.trans hrun
    rfl
  | none =>
    rcases d.run_cases hs n w ns with ⟨v, -, -, hrun⟩ | ⟨_, hrun⟩ <;> cases h.symm.trans hrun

/-- Interning by names checks the name of the namespace, registers the namespace, and only then checks
the other name. -/
theorem Registry.var_failure {r : Registry} {ns name : String} {init : Option Value} {e : Error}
    {w' : World} (h : r.var ns name init n w = .error (.error e) w') :
    (InternTable.validate none ns = .error e ∧ w' = w) ∨
    InternTable.validate none ns = .ok () ∧ InternTable.validate none name = .error e ∧
      ∃ sym : Symbol, sym.ns = none ∧ sym.name = ns ∧ w.SameBut r sym [] w' := by
  rcases Symbol.plain_cases n w ns with ⟨e', hv, hp⟩ | ⟨hv, sym, symbols, hns, hname, hp⟩
  · cases h.symm.trans (Act.bind_of_error hp)
    exact .inl ⟨hv, rfl⟩
  · refine .inr ⟨hv, ?_⟩
    -- from here on only the second name can be refused
    have hrest {N : Namespace} {v : World} (hf : r.findOrCreate sym n { w with symbols } = .ok N v) :
        InternTable.validate none name = .error e ∧ w' = v := by
      have h := h.symm.trans ((Act.bind_of_ok hp).trans (Act.bind_of_ok hf))
      rcases Symbol.plain_cases n v name with ⟨e', hv', hp'⟩ | ⟨-, t, symbols', ht, -, hp'⟩
      · cases h.trans (Act.bind_of_error hp')
        exact ⟨hv', rfl⟩
      · obtain ⟨u, v', hok⟩ := Namespace.internVar_ok ht n { v with symbols := symbols' } N init
        cases h.trans ((Act.bind_of_ok hp').trans hok)
    have hf := Registry.findOrCreate_eq r sym n { w with symbols }
    have hreg : ({ w with symbols } : World).registry r = w.registry r := rfl
    rw [hreg] at hf
    cases hfind : (w.registry r).find? sym with
    | some N =>
      rw [hfind] at hf
      obtain ⟨hv', rfl⟩ := hrest hf
      refine ⟨hv', sym, hns, hname, ?_⟩
      rw [World.SameBut, hfind]
      exact .symbols w symbols
    | none =>
      rw [hfind] at hf
      obtain ⟨hv', rfl⟩ := hrest hf
      refine ⟨hv', sym, hns, hname, ?_⟩
      rw [World.SameBut, hfind]
      exact World.remapped_id.symm ▸ .symbols (w.founded r sym) symbols

namespace Session

variable {s : Session} {name : Symbol}

/-- A namespace that is entered for the first time is made and, if it is not the core namespace itself,
then refers to that. -/
theorem enterable_of_none (hfree : (w.registry s.registry).find? name = none) (n : Nat) :
    s.enterable name n w =
      (do
        if (⟨w.namespaces.size⟩ : Namespace) ≠ s.core then
          (⟨w.namespaces.size⟩ : Namespace).referAll s.core
        return ⟨w.namespaces.size⟩ : Act Namespace) n (w.founded s.registry name) := by
  have hf : s.registry.find? name n w = .ok ((w.registry s.registry).find? name) w := rfl
  have hcreate := Registry.findOrCreate_eq s.registry name n w
  rw [hfree] at hf hcreate
  exact (Act.bind_of_ok hf).trans (Act.bind_of_ok hcreate)

theorem enterable_of_free (hcore : s.core.id < w.namespaces.size)
    (hfree : (w.registry s.registry).find? name = none) (n : Nat) : s.enterable name n w =
      (do (⟨w.namespaces.size⟩ : Namespace).referAll s.core; return ⟨w.namespaces.size⟩ : Act Namespace)
        n (w.founded s.registry name) := by
  have hne : (⟨w.namespaces.size⟩ : Namespace) ≠ s.core := fun h =>
    Nat.lt_irrefl _ (h ▸ hcore)
  rw [enterable_of_none hfree, if_pos hne]

theorem enterable_of_found {ns : Namespace}
    (hfound : (w.registry s.registry).find? name = some ns) (n : Nat) :
    s.enterable name n w = .ok ns w := by
  have hf : s.registry.find? name n w = .ok ((w.registry s.registry).find? name) w := rfl
  rw [hfound] at hf
  exact Act.bind_of_ok hf

/-- A namespace that is entered for the first time refers to everything public in the core namespace; it
is only for want of budget that none can be entered. -/
theorem enterable_cases (hcore : s.core.id < w.namespaces.size) (n : Nat) (name : Symbol) :
    (∃ ns, (w.registry s.registry).find? name = some ns ∧ s.enterable name n w = .ok ns w) ∨
    (w.registry s.registry).find? name = none ∧
      ((∃ ms w₁ w₂, s.core.publics n (w.founded s.registry name) = .ok ms w₁ ∧
        s.enterable name n w = .ok ⟨w.namespaces.size⟩ w₂ ∧
        ((w.founded s.registry name).remapped ⟨w.namespaces.size⟩
          fun t => ms.foldl (fun t (m : Symbol × Var) => t.insert m.1 m.2) t).Same w₂) ∨
      ∃ w', s.enterable name n w = .error .exhausted w') := by
  cases hfind : (w.registry s.registry).find? name with
  | some ns => exact .inl ⟨ns, rfl, enterable_of_found hfind n⟩
  | none =>
    refine .inr ⟨rfl, ?_⟩
    have henter := enterable_of_free hcore hfind n
    obtain ⟨keywords, ⟨ms, hp, -, hr⟩ | hr⟩ :=
      Namespace.referAll_cases n (w.founded s.registry name) ⟨w.namespaces.size⟩ s.core
    · refine .inl ⟨ms, _, _, hp, henter.trans (Act.bind_of_ok hr), ?_⟩
      exact .keywords _ keywords
    · exact .inr ⟨_, henter.trans (Act.bind_of_error hr)⟩

/-- Switching fails only if the var of the current namespace has no binding on this thread, and that shows
after the namespace has been entered. -/
theorem inNs_failure {e : Error} {w' : World} (hcore : s.core.id < w.namespaces.size)
    (h : s.inNs name n w = .error (.error e) w') :
    e = .noThreadBinding (w.varCell s.vars.currentNs).label.text ∧
    (if (w.varCell s.vars.currentNs).dynamic then w.chain.cell? s.vars.currentNs else none) = none ∧
    ∃ ms, w.SameBut s.registry name ms w' ∧
      ((w.registry s.registry).find? name = none →
        ∃ w₁, s.core.publics n (w.founded s.registry name) = .ok ms w₁) := by
  -- once the namespace is entered, only setting the var can fail
  have hset {ns : Namespace} {v : World} (hs : s.enterable name n w = .ok ns v) (hvars : v.vars = w.vars)
      (hchain : v.chain = w.chain) : v.Same w' ∧
      e = .noThreadBinding (w.varCell s.vars.currentNs).label.text ∧
      (if (w.varCell s.vars.currentNs).dynamic then w.chain.cell? s.vars.currentNs else none) = none := by
    obtain ⟨x, v', hx, hsame⟩ := ns.toValue_same (n := n) (w := v)
    have h := h.symm.trans ((Act.bind_of_ok hs).trans (Act.bind_of_ok hx))
    have hset := Binding.set_eq (n := n) (w := v') s.vars.currentNs x
    have hcell : v'.varCell s.vars.currentNs = w.varCell s.vars.currentNs := by
      rw [World.varCell, World.varCell, hsame.vars, hvars]
    rw [hcell, hsame.chain, hchain] at hset
    cases hb : if (w.varCell s.vars.currentNs).dynamic then w.chain.cell? s.vars.currentNs else none with
    | some cell =>
      rw [hb] at hset
      cases h.trans (Act.bind_of_ok hset)
    | none =>
      rw [hb] at hset
      cases h.trans (Act.bind_of_error hset)
      exact ⟨hsame, rfl, rfl⟩
  rcases enterable_cases hcore n name with ⟨ns, hfind, hs⟩ | ⟨hfind, ⟨ms, w₁, w₂, hp, hs, hsame⟩ | ⟨v, hs⟩⟩
  · obtain ⟨hsame, he, hb⟩ := hset hs rfl rfl
    refine ⟨he, hb, [], ?_, fun hnone => by rw [hfind] at hnone; cases hnone⟩
    rw [World.SameBut, hfind]
    exact hsame
  · obtain ⟨hsame', he, hb⟩ := hset hs hsame.vars hsame.chain
    refine ⟨he, hb, ms, ?_, fun _ => ⟨w₁, hp⟩⟩
    rw [World.SameBut, hfind]
    exact hsame.trans hsame'
  · cases h.symm.trans (Act.bind_of_error hs)

end Session

/-- What a failing operation on namespaces leaves behind. When a definition fails nothing has happened.
When interning by names fails, one of the names is refused. If it is the name of the namespace nothing has
happened, and else nothing but that this name is registered now. When switching the current namespace
fails, its var has no binding on this thread, and nothing has happened but that the name is
registered now; a namespace made for it refers to everything public in the core namespace. So nothing at
all has changed when the name was registered before: the registries, the names, mappings and aliases of
all namespaces, which of them are there, all vars and all bindings are as they were. -/
theorem failure_registers_at_most (n : Nat) (w w' : World) (e : Error) :
    (∀ (d : Definition) (ns : Namespace) (sym : Symbol),
      d.run ns sym n w = .error (.error e) w' → w' = w) ∧
    (∀ (r : Registry) (ns name : String) (init : Option Value),
      r.var ns name init n w = .error (.error e) w' →
        (InternTable.validate none ns = .error e ∧ w' = w) ∨
        InternTable.validate none ns = .ok () ∧ InternTable.validate none name = .error e ∧
          ∃ sym : Symbol, sym.ns = none ∧ sym.name = ns ∧ w.SameBut r sym [] w') ∧
    (∀ (s : Session) (ns name : String) (init : Option Value),
      s.var ns name init = s.registry.var ns name init) ∧
    ∀ (s : Session) (name : Symbol), s.core.id < w.namespaces.size →
      s.inNs name n w = .error (.error e) w' →
        e = .noThreadBinding (w.varCell s.vars.currentNs).label.text ∧
        (if (w.varCell s.vars.currentNs).dynamic then w.chain.cell? s.vars.currentNs else none) = none ∧
        ∃ ms, w.SameBut s.registry name ms w' ∧
          ((w.registry s.registry).find? name = none →
            ∃ w₁, s.core.publics n (w.founded s.registry name) = .ok ms w₁) :=
  ⟨fun _ _ _ => Definition.failure, fun _ _ _ _ => Registry.var_failure, fun _ _ _ _ => rfl,
    fun _ _ => Session.inNs_failure⟩

/-- Switching to the core namespace where its var is not bound. -/
theorem failure_registers_at_most_switch :
    let core : Symbol := ⟨0, none, "kestrel.core"⟩
    let s : Session := { (default : Session) with registry := ⟨0⟩, core := ⟨0⟩ }
    let w : World :=
      { vars := #[{ label := .named (some core) ⟨1, none, "*ns*"⟩, dynamic := true }]
        namespaces := #[{ name := core }]
        registries := #[⟨[(core, ⟨0⟩)]⟩] }
    s.core.id < w.namespaces.size ∧ ∃ e w', s.inNs core 0 w = .error (.error e) w' ∧ w.Same w' := by
  intro core s w
  have hcore : s.core.id < w.namespaces.size := Nat.zero_lt_one
  have hrun : ∃ w', s.inNs core 0 w =
      .error (.error (.noThreadBinding "kestrel.core/*ns*")) w' := ⟨_, rfl⟩
  obtain ⟨w', hrun⟩ := hrun
  obtain ⟨-, -, -, hswitch⟩ := failure_registers_at_most 0 w w' (.noThreadBinding "kestrel.core/*ns*")
  obtain ⟨-, -, ms, hsame, -⟩ := hswitch s core hcore hrun
  exact ⟨hcore, _, w', hrun, hsame⟩

/-- Interning an empty name fails, and leaves a namespace registered that was not there before. -/
theorem failed_var_registers :
    ∃ r w w', Registry.make 0 {} = .ok r w ∧
      r.var "a" "" none 0 w = .error (.error (.invalidName "" "empty name")) w' ∧
      (w.registry r).entries = [] ∧ (w'.registry r).entries = [(⟨0, none, "a"⟩, ⟨0⟩)] :=
  ⟨_, _, _, rfl, rfl, rfl, rfl⟩

end LispCore
