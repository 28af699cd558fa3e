import LispCore.Proofs.Namespace.Resolution
/-!
Which mappings of a namespace resolution finds. Definitions refuse qualified symbols, but a refer puts a
var at whatever symbol it is given, and what a namespace is made to refer to goes on to others with all
its publics. So each mapping is at an unqualified symbol, which resolves to it, or goes back to a refer of
a qualified one (`Entered`, `Mapped.entered`), which no resolution ever finds
(`qualified_entry_unseen`).
-/

namespace LispCore

/-! ### Calls that change mappings -/

/-- The calls that may change the mappings of a namespace. -/
inductive MappingCall where
  | one (op : Remapping) (sym : Symbol)
  | all (other : Namespace)

/-- Where a var was put at a symbol: the namespace, the symbol and the var. -/
abbrev Lent := Namespace × Symbol × Var

namespace MappingCall

def run (ns : Namespace) : MappingCall → Act Unit
  | one op sym => do let _ ← op.run ns sym
  | all other => ns.referAll other

/-- What the call itself makes a symbol refer to. -/
def lent (ns : Namespace) : MappingCall → List Lent
  | one (.refer v) sym => [(ns, sym, v)]
  | _ => []

end MappingCall

namespace World

/-- What a world without namespaces comes to when calls change mappings, however each of them ends, and
anything else happens that changes none; with all that symbols were made to refer to. -/
inductive Mapped : List Lent → World → Prop
  | start {w : World} (h : w.namespaces = #[]) : Mapped [] w
  | call {lent : List Lent} {w : World} (h : Mapped lent w) (n : Nat) (ns : Namespace)
      (c : MappingCall) (hns : ns.id < w.namespaces.size) :
      Mapped (c.lent ns ++ lent) ((c.run ns).worldAfter n w)
  | aside {lent : List Lent} {w w' : World} (h : Mapped lent w)
      (hm : ∀ ns, (w'.namespaceCell ns).mappings = (w.namespaceCell ns).mappings) : Mapped lent w'

/-- Symbols are mapped once, and each to a var to which it was made to refer, unless it is unqualified. -/
structure Entered (lent : List Lent) (w : World) : Prop where
  distinct : ∀ ns, (w.namespaceCell ns).mappings.Distinct
  key : ∀ ns, ∀ m ∈ (w.namespaceCell ns).mappings.entries,
    m.1.ns = none ∨ ∃ origin, (origin, m.1, m.2) ∈ lent

end World

/-- A call on one symbol puts there what it leaves, or fails and changes nothing; only a refer leaves
something at a qualified symbol. -/
theorem Remapping.run_cases (op : Remapping) (ns : Namespace) (sym : Symbol) (n : Nat) (w : World) :
    (∃ e, op.run ns sym n w = .error e w) ∨ ∃ o w', op.run ns sym n w = .ok o w' ∧
      ∀ v, o = some v → sym.ns = none ∨ op = .refer v := by
  cases op with
  | define d =>
    cases hs : sym.ns with
    | none =>
      obtain ⟨o, w', hrun⟩ := Chronicle.run_ends (.define d) ns hs n w
      exact .inr ⟨o, w', hrun, fun _ _ => .inl rfl⟩
    | some part =>
      have hfail := d.run_of_error (Namespace.intern_qualified (by rw [hs]; rfl) n w ns)
      exact .inl ⟨_, Act.bind_of_error hfail⟩
  | refer v =>
    refine .inr ⟨some v, _, rfl, fun u hu => .inr ?_⟩
    rw [Option.some.inj hu]
  | unmap => exact .inr ⟨none, _, rfl, nofun⟩

namespace World

variable {lent lent' : List Lent} {w w' : World} {ns other : Namespace} {s sym : Symbol} {v : Var}

/-- What is put into one namespace is unqualified, comes from another one, or was made to refer. -/
theorem Entered.recelled (h : Entered lent w) (hsub : lent ⊆ lent') {f : NamespaceCell → NamespaceCell}
    (hw : Recelled w w' ns f) (hns : ns.id < w.namespaces.size)
    (hd : (f (w.namespaceCell ns)).mappings.Distinct)
    (hf : ∀ m ∈ (f (w.namespaceCell ns)).mappings.entries,
      (∃ other, m ∈ (w.namespaceCell other).mappings.entries) ∨ m.1.ns = none ∨
        ∃ origin, (origin, m.1, m.2) ∈ lent') : Entered lent' w' := by
  have hold {other : Namespace} {m : Symbol × Var} (hm : m ∈ (w.namespaceCell other).mappings.entries) :
      m.1.ns = none ∨ ∃ origin, (origin, m.1, m.2) ∈ lent' :=
    (h.key other m hm).imp_right fun ⟨origin, ho⟩ => ⟨origin, hsub ho⟩
  refine ⟨fun other => ?_, fun other m hm => ?_⟩
  · by_cases ho : other = ns
    · rw [ho, hw.here hns]
      exact hd
    · rw [hw.elsewhere other ho]
      exact h.distinct other
  · by_cases ho : other = ns
    · rw [ho, hw.here hns] at hm
      rcases hf m hm with ⟨origin, hm⟩ | hnew
      · exact hold hm
      · exact hnew
    · rw [hw.elsewhere other ho] at hm
      exact hold hm

/-- What changes no mapping. -/
theorem Entered.mono (h : Entered lent w) (hsub : lent ⊆ lent')
    (hm : ∀ ns, (w'.namespaceCell ns).mappings = (w.namespaceCell ns).mappings) : Entered lent' w' where
  distinct ns := hm ns ▸ h.distinct ns
  key ns m he := (h.key ns m (hm ns ▸ he)).imp_right fun ⟨origin, ho⟩ => ⟨origin, hsub ho⟩

theorem Entered.call (h : Entered lent w) (n : Nat) (c : MappingCall) (hns : ns.id < w.namespaces.size) :
    Entered (c.lent ns ++ lent) ((c.run ns).worldAfter n w) := by
  have hsub : lent ⊆ c.lent ns ++ lent := List.subset_append_right _ _
  cases c with
  | one op sym =>
    rw [MappingCall.run]
    rcases op.run_cases ns sym n w with ⟨e, hrun⟩ | ⟨o, w', hrun, ho⟩
    · rw [Act.worldAfter_of_error (Act.bind_of_error hrun)]
      exact h.mono hsub fun _ => rfl
    · have hafter : (do let _ ← op.run ns sym : Act Unit).worldAfter n w = w' :=
        Act.worldAfter_of_ok (Act.bind_of_ok hrun)
      rw [hafter]
      refine h.recelled hsub (Remapping.run_spec hrun) hns ((h.distinct ns).put sym o) fun m hm => ?_
      cases o with
      | none => exact .inl ⟨ns, List.mem_of_mem_filter hm⟩
      | some v =>
        rcases Table.mem_insertEntry hm with rfl | hm
        · refine .inr ((ho v rfl).imp_right fun hop => ⟨ns, ?_⟩)
          rw [hop]
          exact List.mem_cons_self
        · exact .inl ⟨ns, hm⟩
  | all other =>
    rw [MappingCall.run]
    obtain ⟨w₁, hw₁, hrun | ⟨-, hrun⟩⟩ := Namespace.referAll_spec w n ns other
    · have hcells : Recelled w (w₁.remapped ns (·.putAll (w.publicsOf other))) ns
          fun cell => { cell with mappings := cell.mappings.putAll (w.publicsOf other) } := by
        rcases List.mem_pair.mp hw₁ with rfl | rfl <;> exact recelled_update rfl rfl rfl
      rw [Act.worldAfter_of_ok hrun]
      refine h.recelled hsub hcells hns ((h.distinct ns).putAll _) fun m hm => .inl ?_
      rcases Table.mem_foldl_insert _ hm with hm | hm
      · exact ⟨other, List.mem_of_mem_filter hm⟩
      · exact ⟨ns, hm⟩
    · rw [Act.worldAfter_of_error hrun]
      refine h.mono hsub fun _ => ?_
      rcases List.mem_pair.mp hw₁ with rfl | rfl <;> rfl

theorem Mapped.entered (h : Mapped lent w) : Entered lent w := by
  induction h with
  | @start w hn =>
    have hcell (ns : Namespace) : w.namespaceCell ns = default := by
      rw [World.namespaceCell, hn]
      rfl
    refine ⟨fun ns => ?_, fun ns m hm => ?_⟩
    · exact hcell ns ▸ List.nodup_nil
    · rw [hcell ns] at hm
      exact absurd hm List.not_mem_nil
  | call _ n ns c hns ih => exact ih.call n c hns
  | aside _ hm ih => exact ih.mono (List.Subset.refl _) hm

/-! ### Resolution -/

/-- An unqualified symbol is looked up in the namespace itself. -/
theorem resolve_of_plain (hs : s.ns = none) (r : Registry) (n : Nat) (w : World) (ns : Namespace) :
    r.resolve ns s n w = .ok ((w.namespaceCell ns).mappings.find? s) w := by
  rw [Registry.resolve, hs]
  rfl

/-- Removing the mapping of a qualified symbol changes no mapping of an unqualified one. -/
theorem find?_erased (hs : s.ns.isSome) (w : World) (ns other : Namespace) (hsym : sym.ns = none) :
    ((w.remapped ns (·.erase s)).namespaceCell other).mappings.find? sym =
      (w.namespaceCell other).mappings.find? sym := by
  rw [namespaceCell_remapped]
  split_ifs with hns
  · have hne : sym ≠ s := by
      rintro rfl
      rw [hsym] at hs
      cases hs
    rw [Table.find?_erase, if_neg hne, hns.1]
  · rfl

theorem resolved?_erased (hs : s.ns.isSome) (w : World) (ns : Namespace) (r : Registry)
    (current : Namespace) (part name : String) :
    (w.remapped ns (·.erase s)).resolved? r current part name = w.resolved? r current part name := by
  have halias : ((w.remapped ns (·.erase s)).namespaceCell current).aliases =
      (w.namespaceCell current).aliases := namespaceCell_modify NamespaceCell.aliases fun _ => rfl
  have howns (other : Namespace) : (w.remapped ns (·.erase s)).owns other = w.owns other := by
    funext v
    rw [World.owns, World.owns, name_remapped]
    rfl
  rw [resolved?, resolved?, halias]
  simp only [howns]
  refine congrArg (Option.bind _) (funext fun other => congrArg (Option.filter _) ?_)
  exact find?_erased hs w ns other rfl

/-- No resolution finds what a qualified symbol is mapped to. -/
theorem qualified_entry_unseen (hs : s.ns.isSome) (ns : Namespace) (r : Registry) (current : Namespace)
    (hsym : InternTable.validate sym.ns sym.name = .ok ()) (n m : Nat) (w : World) : ∃ o w₁ w₂,
      r.resolve current sym n w = .ok o w₁ ∧
        r.resolve current sym n ((ns.unmap s).worldAfter m w) = .ok o w₂ := by
  rw [Act.worldAfter_of_ok Namespace.unmap_eq]
  cases hpart : sym.ns with
  | none =>
    have hafter := resolve_of_plain hpart r n (w.remapped ns (·.erase s)) current
    rw [find?_erased hs w ns current hpart] at hafter
    exact ⟨_, _, _, resolve_of_plain hpart r n w current, hafter⟩
  | some part =>
    rw [hpart] at hsym
    obtain ⟨_, hbefore⟩ := Chronicle.resolve_qualified_eq r current hpart hsym n w
    obtain ⟨_, hafter⟩ :=
      Chronicle.resolve_qualified_eq r current hpart hsym n (w.remapped ns (·.erase s))
    rw [resolved?_erased hs] at hafter
    exact ⟨_, _, _, hbefore, hafter⟩

/-- Which mappings resolution finds. After any calls, whichever of them fail, each mapping of a namespace
is at an unqualified symbol, unless a refer put that var at that very symbol, in this namespace or in one
from which it was taken over. At an unqualified symbol each registry resolves it to the var. At a qualified
one it is of no use: definitions of the symbol are refused, and no resolution would be different without
it. -/
theorem unqualified_entries_resolve (h : Mapped lent w) (ns : Namespace) {n : Nat}
    {ms : List (Symbol × Var)} (hms : ns.mappings n w = .ok ms w') :
    w' = w ∧ ∀ s v, (s, v) ∈ ms →
      (s.ns = none ∨ ∃ origin, (origin, s, v) ∈ lent) ∧
      (s.ns = none → ∀ (r : Registry) m, r.resolve ns s m w = .ok (some v) w) ∧
      (s.ns.isSome → (∀ (d : Definition) other m, d.run other s m w =
          .error (.error (.invalidName s.text "can't intern a namespace-qualified symbol")) w) ∧
        ∀ (r : Registry) current sym m, InternTable.validate sym.ns sym.name = .ok () → ∃ o w₁ w₂,
          r.resolve current sym m w = .ok o w₁ ∧
            r.resolve current sym m ((ns.unmap s).worldAfter m w) = .ok o w₂) := by
  obtain ⟨rfl, rfl⟩ : (w.namespaceCell ns).mappings.entries = ms ∧ w = w' := by
    cases hms
    exact ⟨rfl, rfl⟩
  refine ⟨rfl, fun s v hsv => ⟨h.entered.key ns (s, v) hsv, fun hs r m => ?_, fun hs => ⟨?_, ?_⟩⟩⟩
  · rw [resolve_of_plain hs, (h.entered.distinct ns).find?_of_mem hsv]
  · exact fun d other m => d.run_of_error (Namespace.intern_qualified hs m w other)
  · exact fun r current sym m hsym => qualified_entry_unseen hs ns r current hsym m m w

/-- A namespace refers to its own var under a qualified symbol too, and another one to all its publics. -/
theorem unqualified_entries_resolve_taken :
    let x : Symbol := ⟨0, none, "x"⟩
    let q : Symbol := ⟨1, some "q", "x"⟩
    ∃ lent w, Mapped lent w ∧ (⟨1⟩ : Namespace).mappings 0 w = .ok [(x, ⟨0⟩), (q, ⟨0⟩)] w ∧
      (∀ r : Registry, r.resolve ⟨1⟩ x 0 w = .ok (some ⟨0⟩) w) ∧ ∃ origin, (origin, q, ⟨0⟩) ∈ lent := by
  intro x q
  let names : World := { namespaces := #[{ name := ⟨2, none, "a"⟩ }, { name := ⟨3, none, "b"⟩ }] }
  have hstart : Mapped [] ({} : World) := .start rfl
  have hnames : Mapped [] names := hstart.aside fun ns => by
    cases ns with | mk id => rcases id with _ | _ | id <;> rfl
  let own : World := ((MappingCall.one (.define .plain) x).run ⟨0⟩).worldAfter 0 names
  let both : World := ((MappingCall.one (.refer ⟨0⟩) q).run ⟨0⟩).worldAfter 0 own
  let taken : World := ((MappingCall.all ⟨0⟩).run ⟨1⟩).worldAfter 1 both
  have hown : Mapped [] own := hnames.call 0 ⟨0⟩ (.one (.define .plain) x) Nat.zero_lt_two
  have hboth : Mapped [(⟨0⟩, q, ⟨0⟩)] both :=
    hown.call 0 ⟨0⟩ (.one (.refer ⟨0⟩) q) Nat.zero_lt_two
  have htaken : Mapped [(⟨0⟩, q, ⟨0⟩)] taken := hboth.call 1 ⟨1⟩ (.all ⟨0⟩) Nat.one_lt_two
  have hentry : (taken.namespaceCell ⟨1⟩).mappings.entries = [(x, ⟨0⟩), (q, ⟨0⟩)] := by
    decide +kernel
  have hms : (⟨1⟩ : Namespace).mappings 0 taken = .ok [(x, ⟨0⟩), (q, ⟨0⟩)] taken :=
    congrArg (EStateM.Result.ok · taken) hentry
  obtain ⟨-, hentries⟩ := unqualified_entries_resolve htaken ⟨1⟩ hms
  refine ⟨[(⟨0⟩, q, ⟨0⟩)], taken, htaken, hms, fun r => ?_, ?_⟩
  · exact (hentries x ⟨0⟩ List.mem_cons_self).2.1 rfl r 0
  · exact (hentries q ⟨0⟩ (List.mem_cons_of_mem _ List.mem_cons_self)).1.resolve_left nofun

/-- A refer of a qualified symbol leaves a mapping that does not resolve. -/
theorem qualified_refer_unresolved :
    let q : Symbol := ⟨0, some "a", "b"⟩
    let w : World := { vars := #[{ label := .anonymous 0 }], registries := #[{}],
                       namespaces := #[{ name := ⟨1, none, "n"⟩ }] }
    let t : World := ((⟨0⟩ : Namespace).refer q ⟨0⟩).worldAfter 0 w
    (∃ lent, Mapped lent t) ∧ (⟨0⟩ : Namespace).mappings 0 t = .ok [(q, ⟨0⟩)] t ∧ q.ns ≠ none ∧
      ∃ w', Registry.resolve ⟨0⟩ ⟨0⟩ q 0 t = .ok none w' := by
  intro q w t
  have hw : Mapped [] w := (Mapped.start (w := {}) rfl).aside fun ns => by
    cases ns with | mk id => rcases id with _ | id <;> rfl
  have hpart : q.ns = some "a" := rfl
  obtain ⟨symbols, hresolve⟩ := Chronicle.resolve_qualified_eq ⟨0⟩ ⟨0⟩ hpart (by decide) 0 t
  exact ⟨⟨_, hw.call 0 ⟨0⟩ (.one (.refer ⟨0⟩) q) Nat.zero_lt_one⟩, rfl, nofun, _, hresolve⟩

end World

end LispCore
