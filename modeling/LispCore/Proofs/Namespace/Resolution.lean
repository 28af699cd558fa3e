import LispCore.Proofs.Namespace.Publics
/-!
What symbols resolve to after any history. A chronicle logs, besides the world, what each operation put
at a symbol of a namespace, among its mappings or its aliases. The tables follow the logs
(`Chronicle.Kept`), text by text, because their keys are interned symbols without a namespace. So an
unqualified symbol resolves to what was put there last, and a qualified one goes by the last alias or
else the registry to the last var put there, if that is one of the namespace's own
(`Chronicle.resolves_after`).
-/

namespace LispCore

/-! ### Plain symbols -/

namespace World

variable {w w' : World} {a b sym : Symbol}

def Knows (w : World) (sym : Symbol) : Prop :=
  w.symbols.serials.find? (sym.ns, sym.name) = some sym.serial

/-- An interned symbol without a namespace. -/
def Plain (w : World) (sym : Symbol) : Prop := sym.ns = none ∧ w.Knows sym

/-- Plain symbols are known by their text. -/
theorem Plain.eq (ha : w.Plain a) (hb : w.Plain b) (h : a.name = b.name) : a = b := by
  obtain ⟨sa, na, ta⟩ := a
  obtain ⟨sb, nb, tb⟩ := b
  obtain ⟨rfl, hka⟩ := ha
  obtain ⟨rfl, hkb⟩ := hb
  obtain rfl : ta = tb := h
  obtain rfl : sa = sb := Option.some.inj (hka.symm.trans hkb)
  rfl

/-- The keys of a table are plain symbols. -/
def Keyed {ν : Type} (w : World) (t : Table Symbol ν) : Prop := ∀ e ∈ t.entries, w.Plain e.1

def Remembers (w w' : World) : Prop := ∀ sym, w.Knows sym → w'.Knows sym

theorem Remembers.plain (h : Remembers w w') (hs : w.Plain sym) : w'.Plain sym := hs.imp_right (h sym)

theorem Remembers.keyed {ν : Type} {t : Table Symbol ν} (h : Remembers w w') (ht : w.Keyed t) :
    w'.Keyed t := fun e he => h.plain (ht e he)

end World

/-- What a table has at the first key of this text. -/
def Table.named? {ν : Type} (t : Table Symbol ν) (text : String) : Option ν :=
  (t.entries.find? (·.1.name = text)).map (·.2)

namespace World.Keyed

variable {ν : Type} {w : World} {t : Table Symbol ν} {a sym : Symbol}

/-- Where keys are plain, a plain symbol is looked up by its text. -/
theorem find?_eq (ht : w.Keyed t) (ha : w.Plain a) : t.find? a = t.named? a.name := by
  refine congrArg (Option.map Prod.snd) (List.find?_congr fun e he => decide_eq_decide.mpr ⟨?_, ?_⟩)
  · exact fun h => congrArg Name.name h
  · exact fun h => (ht e he).eq ha h

theorem put (ht : w.Keyed t) (hs : w.Plain sym) (o : Option ν) : w.Keyed (t.put sym o) := by
  cases o with
  | some v =>
    intro e he
    rcases Table.mem_insertEntry he with rfl | he
    · exact hs
    · exact ht e he
  | none => exact fun e he => ht e (List.mem_of_mem_filter he)

theorem named?_put (ht : w.Keyed t) (hs : w.Plain sym) (o : Option ν) (text : String) :
    (t.put sym o).named? text = if sym.name = text then o else t.named? text := by
  by_cases h : ∃ a, w.Plain a ∧ a.name = text
  · obtain ⟨a, ha, rfl⟩ := h
    rw [← (ht.put hs o).find?_eq ha, ← ht.find?_eq ha, Table.find?_put]
    by_cases hsa : sym.name = a.name
    · rw [if_pos hsa, if_pos (ha.eq hs hsa.symm)]
    · rw [if_neg hsa, if_neg fun h => hsa (congrArg Name.name h).symm]
  · -- No key has a text that no plain symbol has.
    have hnone {t : Table Symbol ν} (ht : w.Keyed t) : t.named? text = none :=
      Option.map_eq_none_iff.mpr (List.find?_eq_none.mpr fun e he htext =>
        h ⟨e.1, ht e he, of_decide_eq_true htext⟩)
    rw [hnone (ht.put hs o), hnone ht, if_neg fun htext => h ⟨sym, hs, htext⟩]

end World.Keyed

/-- The symbol that a text without a namespace is interned as. -/
def InternTable.plain (t : InternTable) (text : String) : Symbol :=
  ⟨(t.serialOf none text).1, none, text⟩

theorem Symbol.plain_eq {text : String} (h : InternTable.validate none text = .ok ()) (n : Nat)
    (w : World) : Symbol.plain text n w =
      .ok (w.symbols.plain text) { w with symbols := (w.symbols.serialOf none text).2 } := by
  simp only [Symbol.plain, Name.intern, World.names, InternTable.intern, h]
  rfl

/-- A plain symbol of a text is known once it has been interned, and no other one is forgotten. -/
theorem InternTable.plain_spec (text : String) (w : World) :
    World.Plain { w with symbols := (w.symbols.serialOf none text).2 } (w.symbols.plain text) ∧
      World.Remembers w { w with symbols := (w.symbols.serialOf none text).2 } := by
  refine ⟨⟨rfl, InternTable.find?_serialOf ..⟩, fun sym hs => ?_⟩
  show (w.symbols.serialOf none text).2.serials.find? (sym.ns, sym.name) = _
  unfold InternTable.serialOf
  cases hf : w.symbols.serials.find? (none, text) with
  | some serial => exact hs
  | none =>
    have hne : ¬(sym.ns, sym.name) = (none, text) := fun he => by
      rw [World.Knows, he, hf] at hs
      cases hs
    rw [Table.find?_insert, if_neg hne]
    exact hs

/-! ### Logs -/

/-- What was put at which symbol of which namespace, the last first. -/
abbrev Log (α : Type) := List (Namespace × Symbol × Option α)

namespace Log

variable {α : Type} {log : Log α} {ns other : Namespace} {sym : Symbol} {o : Option α}

/-- What was put last at a symbol of this text in a namespace, if anything was. -/
def last (log : Log α) (ns : Namespace) (text : String) : Option α :=
  (log.find? fun e => e.1 = ns ∧ e.2.1.name = text).bind (·.2.2)

theorem last_cons (text : String) : last ((ns, sym, o) :: log) other text =
    if ns = other ∧ sym.name = text then o else log.last other text := by
  rw [last, List.find?_cons]
  by_cases h : ns = other ∧ sym.name = text
  · simp [h]
  · simp [h, last]

/-- The table of a namespace follows a log: its keys are plain, and it has at each what was put there
last. -/
def Followed (log : Log α) (w : World) (ns : Namespace) (t : Table Symbol α) : Prop :=
  w.Keyed t ∧ ∀ text, t.named? text = log.last ns text

variable {w w' : World} {t : Table Symbol α}

theorem Followed.find?_eq (h : log.Followed w ns t) (hs : w.Plain sym) :
    t.find? sym = log.last ns sym.name :=
  (h.1.find?_eq hs).trans (h.2 _)

theorem Followed.mono (h : log.Followed w ns t) (hw : w.Remembers w') : log.Followed w' ns t :=
  ⟨hw.keyed h.1, h.2⟩

theorem Followed.put (h : log.Followed w ns t) (hs : w.Plain sym) (o : Option α) :
    Followed ((ns, sym, o) :: log) w ns (t.put sym o) := by
  refine ⟨h.1.put hs o, fun text => ?_⟩
  rw [h.1.named?_put hs, last_cons, h.2]
  simp

theorem Followed.beside (h : log.Followed w other t) (hne : other ≠ ns) (sym : Symbol) (o : Option α) :
    Followed ((ns, sym, o) :: log) w other t := by
  refine ⟨h.1, fun text => ?_⟩
  rw [last_cons, if_neg fun he => hne he.1.symm, h.2]

/-- The entries of a log for several symbols of one namespace, the first put first. -/
def puts (ns : Namespace) (ms : List (Symbol × α)) : Log α :=
  (ms.map fun m => (ns, m.1, some m.2)).reverse

theorem puts_cons (m : Symbol × α) (ms : List (Symbol × α)) :
    puts ns (m :: ms) ++ log = puts ns ms ++ (ns, m.1, some m.2) :: log := by
  simp [puts]

theorem Followed.putAll : ∀ {ms : List (Symbol × α)} {log : Log α} {t : Table Symbol α},
    log.Followed w ns t → (∀ m ∈ ms, w.Plain m.1) →
      Followed (puts ns ms ++ log) w ns (t.putAll ms)
  | [], _, _, h, _ => h
  | m :: ms, log, t, h, hms => by
    rw [puts_cons]
    exact (h.put (hms m List.mem_cons_self) (some m.2)).putAll fun m hm =>
      hms m (List.mem_cons_of_mem _ hm)

theorem Followed.puts_beside (hne : other ≠ ns) : ∀ (ms : List (Symbol × α)) {log : Log α},
    log.Followed w other t → Followed (puts ns ms ++ log) w other t
  | [], _, h => h
  | m :: ms, log, h => by
    rw [puts_cons]
    exact (h.beside hne m.1 (some m.2)).puts_beside hne ms

end Log

/-! ### Operations on one symbol -/

inductive Remapping where
  | define (d : Definition)
  | refer (v : Var)
  | unmap

/-- Runs an operation; gives the var that it leaves at the symbol, if it leaves one. -/
def Remapping.run (ns : Namespace) (sym : Symbol) : Remapping → Act (Option Var)
  | define d => do return some (← d.run ns sym)
  | refer v => do
    ns.refer sym v
    return some v
  | unmap => do
    let _ ← ns.unmap sym
    return none

def Definition.init : Definition → Option Value
  | plain => none
  | root init => init
  | dynamic init => init

inductive Aliasing where
  | add (target : Namespace)
  | remove

/-- Runs an operation; gives the namespace that the alias names then, if it names one. -/
def Aliasing.run (ns : Namespace) (short : Symbol) : Aliasing → Act (Option Namespace)
  | add target => do
    ns.addAlias short target
    return some target
  | remove => do
    let _ ← ns.removeAlias short
    return none

/-- A world that differs from another in what one namespace holds, and in nothing else that resolution
reads. -/
structure Recelled (w w' : World) (ns : Namespace) (f : NamespaceCell → NamespaceCell) : Prop where
  size : w'.namespaces.size = w.namespaces.size
  here : ns.id < w.namespaces.size → w'.namespaceCell ns = f (w.namespaceCell ns)
  elsewhere : ∀ other, other ≠ ns → w'.namespaceCell other = w.namespaceCell other
  registries : w'.registries = w.registries
  symbols : w'.symbols = w.symbols

theorem recelled_update {w w' : World} {ns : Namespace} {f : NamespaceCell → NamespaceCell}
    (hn : w'.namespaces = w.namespaces.modify ns.id f) (hr : w'.registries = w.registries)
    (hs : w'.symbols = w.symbols) : Recelled w w' ns f where
  size := by rw [hn, Array.size_modify]
  here hlt := by
    simp only [World.namespaceCell, hn, Array.getD_eq_getD_getElem?, Array.getElem?_modify, if_true]
    rw [Array.getElem?_eq_getElem hlt]
    rfl
  elsewhere other hne := by
    have hid : ¬ns.id = other.id := fun h => hne (by cases ns; cases other; exact congrArg _ h.symm)
    simp only [World.namespaceCell, hn, Array.getD_eq_getD_getElem?, Array.getElem?_modify, if_neg hid]
  registries := hr
  symbols := hs

/-- What an operation leaves at a symbol is what it puts there, and it puts nothing elsewhere. -/
theorem Remapping.run_spec {ns : Namespace} {sym : Symbol} {op : Remapping} {n : Nat} {w w' : World}
    {o : Option Var} (h : op.run ns sym n w = .ok o w') :
    Recelled w w' ns fun c => { c with mappings := c.mappings.put sym o } := by
  cases op with
  | define d =>
    cases hs : sym.ns with
    | some part =>
      have hfail := d.run_of_error (Namespace.intern_qualified (by rw [hs]; rfl) n w ns)
      rw [run, Act.bind_of_error hfail] at h
      cases h
    | none =>
      rcases d.run_cases hs n w ns with ⟨v, hv, -, hrun⟩ | ⟨notices, hrun⟩
      · rw [run, Act.bind_of_ok hrun] at h
        cases h
        have hsame : { w.namespaceCell ns with
            mappings := (w.namespaceCell ns).mappings.insert sym v } = w.namespaceCell ns := by
          rw [Table.insert_of_find? hv]
        exact ⟨rfl, fun _ => hsame.symm, fun _ _ => rfl, rfl, rfl⟩
      · rw [run, Act.bind_of_ok hrun] at h
        cases h
        exact recelled_update rfl rfl rfl
  | refer v =>
    cases h
    exact recelled_update rfl rfl rfl
  | unmap =>
    cases h
    exact recelled_update rfl rfl rfl

theorem Aliasing.run_spec {ns : Namespace} {short : Symbol} {op : Aliasing} {n : Nat} {w w' : World}
    {o : Option Namespace} (h : op.run ns short n w = .ok o w') :
    Recelled w w' ns fun c => { c with aliases := c.aliases.put short o } := by
  cases op <;> cases h <;> exact recelled_update rfl rfl rfl

/-! ### Qualified symbols -/

/-- The var of the plain name in the namespace that the plain part names, if it is that one's own. -/
def World.resolved? (w : World) (r : Registry) (current : Namespace) (part name : String) :
    Option Var :=
  (((w.namespaceCell current).aliases.find? (w.symbols.plain part)).or
    ((w.registry r).find? (w.symbols.plain part))).bind fun ns =>
      ((w.namespaceCell ns).mappings.find?
        ((w.symbols.serialOf none part).2.plain name)).filter (w.owns ns)

/-! ### Chronicles -/

/-- What changes neither mappings nor aliases nor registries. -/
structure Apart (w w' : World) : Prop where
  namespaces : w.namespaces.size ≤ w'.namespaces.size
  mappings : ∀ ns, (w'.namespaceCell ns).mappings = (w.namespaceCell ns).mappings
  aliases : ∀ ns, (w'.namespaceCell ns).aliases = (w.namespaceCell ns).aliases
  registries : ∀ r, w'.registry r = w.registry r
  symbols : w.Remembers w'

/-- What has happened to namespaces: the world, and what was put at symbols among their mappings and
their aliases. -/
structure Chronicle where
  world : World
  mapped : Log Var := []
  aliased : Log Namespace := []

namespace Chronicle

/-- The namespace is there. -/
def Has (c : Chronicle) (ns : Namespace) : Prop := ns.id < c.world.namespaces.size

/-- Anything that may happen to namespaces, whose mappings, aliases and registered names are plain
symbols. -/
inductive Step : Chronicle → Chronicle → Prop
  | remap {c : Chronicle} {o : Option Var} {w : World} (op : Remapping) (n : Nat) (ns : Namespace)
      (sym : Symbol) (hns : c.Has ns) (hs : c.world.Plain sym) (h : op.run ns sym n c.world = .ok o w) :
      Step c { c with world := w, mapped := (ns, sym, o) :: c.mapped }
  | referAll {c : Chronicle} {w : World} (n : Nat) (ns other : Namespace) (hns : c.Has ns)
      (h : ns.referAll other n c.world = .ok () w) :
      Step c { c with world := w, mapped := Log.puts ns (c.world.publicsOf other) ++ c.mapped }
  | realias {c : Chronicle} {o : Option Namespace} {w : World} (op : Aliasing) (n : Nat)
      (ns : Namespace) (short : Symbol) (hns : c.Has ns) (hs : c.world.Plain short)
      (h : op.run ns short n c.world = .ok o w) :
      Step c { c with world := w, aliased := (ns, short, o) :: c.aliased }
  | make {c : Chronicle} {ns : Namespace} {w : World} (n : Nat) (name : Symbol)
      (h : Namespace.make name n c.world = .ok ns w) : Step c { c with world := w }
  | findOrCreate {c : Chronicle} {ns : Namespace} {w : World} (n : Nat) (r : Registry) (name : Symbol)
      (hs : c.world.Plain name) (h : r.findOrCreate name n c.world = .ok ns w) :
      Step c { c with world := w }
  | apart {c : Chronicle} {w : World} (h : Apart c.world w) : Step c { c with world := w }

/-- What comes about from a world without namespaces. -/
inductive Reached : Chronicle → Prop
  | start {w : World} (hn : w.namespaces = #[]) (hr : w.registries = #[]) : Reached { world := w }
  | step {c c' : Chronicle} (hc : Reached c) (hs : Step c c') : Reached c'

/-- The tables of namespaces follow the logs, and no symbol is there twice; registries know namespaces by
plain symbols. -/
structure Kept (c : Chronicle) : Prop where
  mappings : ∀ ns, c.mapped.Followed c.world ns (c.world.namespaceCell ns).mappings
  aliases : ∀ ns, c.aliased.Followed c.world ns (c.world.namespaceCell ns).aliases
  distinct : ∀ ns, (c.world.namespaceCell ns).mappings.Distinct
  registries : ∀ r, c.world.Keyed (c.world.registry r)

variable {c c' : Chronicle}

/-- A change of one namespace is followed when the logs follow it there and stay as they are
elsewhere. -/
theorem Kept.recelled (hk : c.Kept) {w : World} {ns : Namespace} {f : NamespaceCell → NamespaceCell}
    (hw : Recelled c.world w ns f) (hns : c.Has ns) {mapped : Log Var} {aliased : Log Namespace}
    (hm : mapped.Followed c.world ns (f (c.world.namespaceCell ns)).mappings)
    (ha : aliased.Followed c.world ns (f (c.world.namespaceCell ns)).aliases)
    (hd : (f (c.world.namespaceCell ns)).mappings.Distinct)
    (hm' : ∀ other, other ≠ ns → mapped.Followed c.world other (c.world.namespaceCell other).mappings)
    (ha' : ∀ other, other ≠ ns → aliased.Followed c.world other (c.world.namespaceCell other).aliases) :
    Kept ⟨w, mapped, aliased⟩ := by
  have hsym : c.world.Remembers w := fun sym hs => by
    rw [World.Knows, hw.symbols]
    exact hs
  have hreg (r : Registry) : w.registry r = c.world.registry r := by
    rw [World.registry, World.registry, hw.registries]
  refine ⟨fun other => ?_, fun other => ?_, fun other => ?_, fun r => ?_⟩
  · by_cases h : other = ns
    · rw [h, hw.here hns]
      exact hm.mono hsym
    · rw [hw.elsewhere other h]
      exact (hm' other h).mono hsym
  · by_cases h : other = ns
    · rw [h, hw.here hns]
      exact ha.mono hsym
    · rw [hw.elsewhere other h]
      exact (ha' other h).mono hsym
  · by_cases h : other = ns
    · rw [h, hw.here hns]
      exact hd
    · rw [hw.elsewhere other h]
      exact hk.distinct other
  · rw [hreg]
    exact hsym.keyed (hk.registries r)

/-- Where the tables of namespaces stay, they are followed as before. -/
theorem Kept.spread (hk : c.Kept) {w : World}
    (hm : ∀ ns, (w.namespaceCell ns).mappings = (c.world.namespaceCell ns).mappings)
    (ha : ∀ ns, (w.namespaceCell ns).aliases = (c.world.namespaceCell ns).aliases)
    (hs : c.world.Remembers w) (hr : ∀ r, w.Keyed (w.registry r)) : Kept { c with world := w } where
  mappings ns := hm ns ▸ (hk.mappings ns).mono hs
  aliases ns := ha ns ▸ (hk.aliases ns).mono hs
  distinct ns := hm ns ▸ hk.distinct ns
  registries := hr

/-- A new namespace holds nothing yet. -/
theorem namespaceCell_push {α : Type} {w w' : World} (name : Symbol) (look : NamespaceCell → α)
    (hlook : look { name } = look default) (h : w'.namespaces = w.namespaces.push { name })
    (ns : Namespace) : look (w'.namespaceCell ns) = look (w.namespaceCell ns) := by
  simp only [World.namespaceCell, h, Array.getD_eq_getD_getElem?, Array.getElem?_push]
  split_ifs with hid
  · rw [hid, Array.getElem?_eq_none (Nat.le_refl _)]
    exact hlook
  · rfl

theorem keyed_registry_founded {w : World} {r : Registry} {name : Symbol} (hs : w.Plain name)
    (hr : ∀ r, w.Keyed (w.registry r)) (r' : Registry) :
    (w.founded r name).Keyed ((w.founded r name).registry r') := by
  have hold := hr r'
  have hput := hold.put hs (some ⟨w.namespaces.size⟩)
  rcases w.registry_founded_cases r r' name with hr' | ⟨-, hr'⟩ <;> rw [hr']
  · exact hold
  · exact hput

theorem Step.kept (hk : c.Kept) (hs : Step c c') : c'.Kept := by
  cases hs with
  | @remap o w op n ns sym hns hs h =>
    exact hk.recelled (Remapping.run_spec h) hns ((hk.mappings ns).put hs o) (hk.aliases ns)
      ((hk.distinct ns).put sym o) (fun other hne => (hk.mappings other).beside hne sym o)
      fun other _ => hk.aliases other
  | @referAll w n ns other hns h =>
    obtain ⟨w₁, hw₁, hrun | ⟨-, hrun⟩⟩ := Namespace.referAll_spec c.world n ns other
    · cases h.symm.trans hrun
      have hcells : Recelled c.world (w₁.remapped ns (·.putAll (c.world.publicsOf other))) ns
          fun cell => { cell with mappings := cell.mappings.putAll (c.world.publicsOf other) } := by
        rcases List.mem_pair.mp hw₁ with rfl | rfl <;> exact recelled_update rfl rfl rfl
      refine hk.recelled hcells hns ((hk.mappings ns).putAll fun m hm => ?_) (hk.aliases ns)
        ((hk.distinct ns).putAll _) (fun into hne => (hk.mappings into).puts_beside hne _)
        fun into _ => hk.aliases into
      exact (hk.mappings other).1 m (List.mem_of_mem_filter hm)
    · cases h.symm.trans hrun
  | @realias o w op n ns short hns hs h =>
    exact hk.recelled (Aliasing.run_spec h) hns (hk.mappings ns) ((hk.aliases ns).put hs o)
      (hk.distinct ns) (fun other _ => hk.mappings other)
      fun other hne => (hk.aliases other).beside hne short o
  | make n name h =>
    cases h
    exact hk.spread (namespaceCell_push name NamespaceCell.mappings rfl rfl)
      (namespaceCell_push name NamespaceCell.aliases rfl rfl) (fun _ hs => hs) hk.registries
  | findOrCreate n r name hs h =>
    rw [Registry.findOrCreate_eq] at h
    split at h
    · cases h
      exact hk
    · cases h
      exact hk.spread (namespaceCell_push name NamespaceCell.mappings rfl rfl)
        (namespaceCell_push name NamespaceCell.aliases rfl rfl) (fun _ hs => hs)
        (keyed_registry_founded hs hk.registries)
  | @apart w hw =>
    exact hk.spread hw.mappings hw.aliases hw.symbols fun r =>
      hw.registries r ▸ hw.symbols.keyed (hk.registries r)

theorem Reached.kept (hc : c.Reached) : c.Kept := by
  induction hc with
  | @start w hn hr =>
    have hcell (ns : Namespace) : w.namespaceCell ns = default := by
      rw [World.namespaceCell, hn]
      rfl
    have hreg (r : Registry) : w.registry r = {} := by
      rw [World.registry, hr]
      rfl
    refine ⟨fun ns => ?_, fun ns => ?_, fun ns => ?_, fun r => ?_⟩
    · exact hcell ns ▸ ⟨fun _ he => absurd he List.not_mem_nil, fun _ => rfl⟩
    · exact hcell ns ▸ ⟨fun _ he => absurd he List.not_mem_nil, fun _ => rfl⟩
    · exact hcell ns ▸ List.nodup_nil
    · exact hreg r ▸ fun _ he => absurd he List.not_mem_nil
  | step _ hs ih => exact hs.kept ih

/-! ### Resolution -/

/-- What a qualified symbol means as seen from a namespace: in the one that its alias names now, or else
the one registered under that name, the var put last at the plain name, if it is that namespace's own. -/
def found (c : Chronicle) (r : Registry) (current : Namespace) (part name : String) : Option Var :=
  ((c.aliased.last current part).or ((c.world.registry r).named? part)).bind fun ns =>
    (c.mapped.last ns name).filter (c.world.owns ns)

theorem Kept.resolve_plain (hk : c.Kept) (r : Registry) (current : Namespace) {sym : Symbol}
    (hs : c.world.Plain sym) (n : Nat) :
    r.resolve current sym n c.world = .ok (c.mapped.last current sym.name) c.world := by
  rw [← (hk.mappings current).find?_eq hs, Registry.resolve, hs.1]
  rfl

/-- The parts of a proper qualified name are proper plain names. -/
theorem validate_parts {part name : String} (h : InternTable.validate (some part) name = .ok ()) :
    InternTable.validate none part = .ok () ∧ InternTable.validate none name = .ok () := by
  simp only [InternTable.validate] at h ⊢
  split_ifs at h with h₁ h₂ h₃ h₄
  simp [h₁, h₂, h₃, h₄]

theorem findVar?_eq (ns : Namespace) (sym : Symbol) (n : Nat) (w : World) : ns.findVar? sym n w =
    .ok (((w.namespaceCell ns).mappings.find? sym).filter (w.owns ns)) w := by
  have hm : ns.mapping? sym n w = .ok ((w.namespaceCell ns).mappings.find? sym) w := rfl
  refine (Act.bind_of_ok hm).trans ?_
  cases (w.namespaceCell ns).mappings.find? sym with
  | none => rfl
  | some v =>
    refine (Act.bind_of_ok (Namespace.owns_eq v)).trans ?_
    simp only [Option.filter_some, World.owns]
    rfl

/-- A qualified symbol is looked up by its plain name in the namespace that its plain part names. -/
theorem resolve_qualified_eq (r : Registry) (current : Namespace) {sym : Symbol} {part : String}
    (hpart : sym.ns = some part) (hname : InternTable.validate (some part) sym.name = .ok ()) (n : Nat)
    (w : World) : ∃ symbols, r.resolve current sym n w =
      .ok (w.resolved? r current part sym.name) { w with symbols } := by
  obtain ⟨hvpart, hvname⟩ := validate_parts hname
  let t := (w.symbols.serialOf none part).2
  have hvar (ns : Namespace) : (sym.withoutNs >>= ns.findVar?) n { w with symbols := t } =
      .ok (((w.namespaceCell ns).mappings.find? (t.plain sym.name)).filter (w.owns ns))
        { w with symbols := (t.serialOf none sym.name).2 } := by
    have hplain := Symbol.plain_eq hvname n { w with symbols := t }
    have hwithout : sym.withoutNs n { w with symbols := t } =
        .ok (t.plain sym.name) { w with symbols := (t.serialOf none sym.name).2 } := by
      simp only [Symbol.withoutNs, hpart, hplain]
    exact (Act.bind_of_ok hwithout).trans (findVar?_eq ..)
  have halias : current.aliased? (w.symbols.plain part) n { w with symbols := t } =
    .ok ((w.namespaceCell current).aliases.find? (w.symbols.plain part)) { w with symbols := t } := rfl
  have hreg : r.find? (w.symbols.plain part) n { w with symbols := t } =
    .ok ((w.registry r).find? (w.symbols.plain part)) { w with symbols := t } := rfl
  have hstart := Act.attempt_of_ok (Symbol.plain_eq hvpart n w)
  rw [Registry.resolve, hpart, World.resolved?]
  cases ha : (w.namespaceCell current).aliases.find? (w.symbols.plain part) with
  | some ns =>
    rw [ha] at halias
    exact ⟨_, (Act.bind_of_ok hstart).trans ((Act.bind_of_ok halias).trans (hvar ns))⟩
  | none =>
    rw [ha] at halias
    cases hr : (w.registry r).find? (w.symbols.plain part) with
    | none =>
      rw [hr] at hreg
      exact ⟨_, (Act.bind_of_ok hstart).trans ((Act.bind_of_ok halias).trans (Act.bind_of_ok hreg))⟩
    | some ns =>
      rw [hr] at hreg
      exact ⟨_, (Act.bind_of_ok hstart).trans
        ((Act.bind_of_ok halias).trans ((Act.bind_of_ok hreg).trans (hvar ns)))⟩

theorem Kept.resolve_qualified (hk : c.Kept) (r : Registry) (current : Namespace) {sym : Symbol}
    {part : String} (hpart : sym.ns = some part)
    (hname : InternTable.validate (some part) sym.name = .ok ()) (n : Nat) : ∃ symbols,
      r.resolve current sym n c.world =
        .ok (c.found r current part sym.name) { c.world with symbols } := by
  obtain ⟨symbols, hresolve⟩ := resolve_qualified_eq r current hpart hname n c.world
  obtain ⟨haplain, hrem⟩ := InternTable.plain_spec part c.world
  obtain ⟨hsplain, hrem'⟩ := InternTable.plain_spec sym.name
    { c.world with symbols := (c.world.symbols.serialOf none part).2 }
  -- The plain part names what the logs say, and so does the plain name in each namespace.
  have halias := ((hk.aliases current).mono hrem).find?_eq haplain
  have hreg := (hrem.keyed (hk.registries r)).find?_eq haplain
  have hvar (ns : Namespace) := (((hk.mappings ns).mono hrem).mono hrem').find?_eq hsplain
  refine ⟨symbols, hresolve.trans ?_⟩
  rw [World.resolved?, found]
  simp only [halias, hreg, hvar]
  rfl

/-- Referring to all of another namespace remaps the symbols that it maps to its own public vars, each to
that var, and no others. -/
theorem Kept.referAll_exact (hk : c.Kept) {n : Nat} {ns other : Namespace} {w : World}
    (hns : c.Has ns) (h : ns.referAll other n c.world = .ok () w) :
    (∀ sym, (w.namespaceCell ns).mappings.find? sym =
      (((c.world.namespaceCell other).mappings.find? sym).filter fun v =>
        c.world.owns other v && c.world.isPublic v).or ((c.world.namespaceCell ns).mappings.find? sym)) ∧
    ∀ into, into ≠ ns → w.namespaceCell into = c.world.namespaceCell into := by
  obtain ⟨w₁, hw₁, hrun | ⟨-, hrun⟩⟩ := Namespace.referAll_spec c.world n ns other
  · cases h.symm.trans hrun
    have hcells : Recelled c.world (w₁.remapped ns (·.putAll (c.world.publicsOf other))) ns
        fun cell => { cell with mappings := cell.mappings.putAll (c.world.publicsOf other) } := by
      rcases List.mem_pair.mp hw₁ with rfl | rfl <;> exact recelled_update rfl rfl rfl
    refine ⟨fun sym => ?_, hcells.elsewhere⟩
    have hdistinct : ((c.world.publicsOf other).map (·.1)).Nodup :=
      (hk.distinct other).sublist (List.filter_sublist.map _)
    rw [hcells.here hns]
    refine (Table.find?_putAll _ hdistinct).trans ?_
    rw [World.publicsOf, Table.find?_filter _ (hk.distinct other)]
  · cases h.symm.trans hrun

/-- An operation on the mapping of one symbol changes no other mapping. -/
theorem frame {w w' : World} {op : Remapping} {ns : Namespace} {sym : Symbol} {n : Nat} {o : Option Var}
    (h : op.run ns sym n w = .ok o w') {other : Namespace} {s : Symbol} (hne : other ≠ ns ∨ s ≠ sym) :
    (w'.namespaceCell other).mappings.find? s = (w.namespaceCell other).mappings.find? s := by
  have hspec := Remapping.run_spec h
  by_cases hns : other = ns
  · subst hns
    have hs : s ≠ sym := hne.resolve_left fun h => h rfl
    by_cases hlt : other.id < w.namespaces.size
    · rw [hspec.here hlt, Table.find?_put, if_neg hs]
    · have hnone (w : World) (hge : ¬other.id < w.namespaces.size) :
          w.namespaceCell other = default := by
        rw [World.namespaceCell, Array.getD_eq_getD_getElem?,
          Array.getElem?_eq_none (Nat.le_of_not_lt hge)]
        rfl
      rw [hnone w hlt, hnone w' (hspec.size ▸ hlt)]
  · rw [hspec.elsewhere other hns]

/-- A definition without a value changes no root. -/
theorem root_kept {w w' : World} {d : Definition} {ns : Namespace} {sym : Symbol} {n : Nat} {v : Var}
    (hd : d.init = none) (h : d.run ns sym n w = .ok v w') (u : Var) :
    (w'.varCell u).root = (w.varCell u).root := by
  have hfill (c : VarCell) : (d.fill c).root = c.root := by
    cases d with
    | plain => rfl
    | root init | dynamic init =>
      obtain rfl : init = none := hd
      rfl
  cases hs : sym.ns with
  | some part =>
    cases h.symm.trans (d.run_of_error (Namespace.intern_qualified (by rw [hs]; rfl) n w ns))
  | none =>
    rcases d.run_cases hs n w ns with ⟨v, -, -, hrun⟩ | ⟨notices, hrun⟩
    · cases h.symm.trans hrun
      simp only [World.varCell, World.revar, Array.getD_eq_getD_getElem?, Array.getElem?_modify]
      split_ifs
      · cases w.vars[u.id]? with
        | none => rfl
        | some c => exact hfill c
      · rfl
    · cases h.symm.trans hrun
      simp only [World.varCell, World.defined, World.revar, World.interned, World.remapped,
        Array.getD_eq_getD_getElem?, Array.getElem?_modify, Array.getElem?_push]
      split_ifs with h₁ h₂ h₂
      · rw [← h₁, Array.getElem?_eq_none (Nat.le_refl _)]
        exact hfill _
      · exact absurd h₁.symm h₂
      · exact absurd h₂.symm h₁
      · rfl

/-- What symbols resolve to in the world of a chronicle, and what the next operation does there. -/
structure Resolves (c : Chronicle) : Prop where
  /-- An unqualified symbol means what was put at it last, nothing when that was an unmapping. -/
  unqualified : ∀ (r : Registry) (current : Namespace) (sym : Symbol) (n : Nat), c.world.Plain sym →
    r.resolve current sym n c.world = .ok (c.mapped.last current sym.name) c.world
  /-- A qualified symbol means what was put last in the namespace that it names, if that one owns it. -/
  qualified : ∀ (r : Registry) (current : Namespace) (sym : Symbol) (part : String) (n : Nat),
    sym.ns = some part → InternTable.validate (some part) sym.name = .ok () → ∃ symbols,
      r.resolve current sym n c.world =
        .ok (c.found r current part sym.name) { c.world with symbols }
  /-- Operations on plain symbols do not fail, and referring to all of a namespace needs some budget. -/
  ends : (∀ (op : Remapping) (ns : Namespace) (sym : Symbol) (n : Nat), sym.ns = none →
      ∃ o w, op.run ns sym n c.world = .ok o w) ∧
    ∀ (ns other : Namespace) (n : Nat), 0 < n → ∃ w, ns.referAll other n c.world = .ok () w
  /-- Referring to all of a namespace remaps just the symbols of its own public vars. -/
  referAll : ∀ (ns other : Namespace) (n : Nat) (w : World), c.Has ns →
    ns.referAll other n c.world = .ok () w →
      (∀ sym, (w.namespaceCell ns).mappings.find? sym =
        (((c.world.namespaceCell other).mappings.find? sym).filter fun v =>
          c.world.owns other v && c.world.isPublic v).or
            ((c.world.namespaceCell ns).mappings.find? sym)) ∧
      ∀ into, into ≠ ns → w.namespaceCell into = c.world.namespaceCell into
  /-- An operation on the mapping of one symbol in one namespace changes no other mapping. -/
  frame : ∀ (op : Remapping) (ns : Namespace) (sym : Symbol) (n : Nat) (o : Option Var) (w : World),
    op.run ns sym n c.world = .ok o w → ∀ other s, other ≠ ns ∨ s ≠ sym →
      (w.namespaceCell other).mappings.find? s = (c.world.namespaceCell other).mappings.find? s
  /-- A definition without a value changes no root. -/
  roots : ∀ (d : Definition) (ns : Namespace) (sym : Symbol) (n : Nat) (v : Var) (w : World),
    d.init = none → d.run ns sym n c.world = .ok v w →
      ∀ u, (w.varCell u).root = (c.world.varCell u).root

theorem run_ends (op : Remapping) (ns : Namespace) {sym : Symbol} (hs : sym.ns = none) (n : Nat)
    (w : World) : ∃ o w', op.run ns sym n w = .ok o w' := by
  cases op with
  | define d =>
    rcases d.run_cases hs n w ns with ⟨v, -, -, hrun⟩ | ⟨notices, hrun⟩
    · exact ⟨_, _, Act.bind_of_ok hrun⟩
    · exact ⟨_, _, Act.bind_of_ok hrun⟩
  | refer v => exact ⟨_, _, rfl⟩
  | unmap => exact ⟨_, _, rfl⟩

/-- After any history of namespaces, symbols resolve by what was put last. -/
theorem resolves_after (hc : c.Reached) : c.Resolves where
  unqualified r current _ n hs := hc.kept.resolve_plain r current hs n
  qualified r current _ _ n hpart hname := hc.kept.resolve_qualified r current hpart hname n
  ends := by
    refine ⟨fun op ns sym n hs => run_ends op ns hs n c.world, fun ns other n hn => ?_⟩
    obtain ⟨w₁, -, h | ⟨h0, -⟩⟩ := Namespace.referAll_spec c.world n ns other
    · exact ⟨_, h⟩
    · exact absurd h0 (Nat.ne_of_gt hn)
  referAll _ _ _ _ hns h := hc.kept.referAll_exact hns h
  frame _ _ _ _ _ _ h _ _ hne := frame h hne
  roots _ _ _ _ _ _ hd h := root_kept hd h

/-- A namespace defines a symbol, another refers to its var and names it by an alias: the var is found
through the alias, and no longer through the other namespace, which only refers to it. -/
theorem resolves_after_refer :
    let x : Symbol := ⟨2, none, "x"⟩
    ∃ c : Chronicle, c.Reached ∧
      c.mapped = [(⟨1⟩, x, some ⟨0⟩), (⟨0⟩, x, some ⟨0⟩)] ∧
      (∃ symbols, Registry.resolve ⟨0⟩ ⟨1⟩ ⟨5, some "l", "x"⟩ 0 c.world =
        .ok (some ⟨0⟩) { c.world with symbols }) ∧
      ∃ symbols, Registry.resolve ⟨0⟩ ⟨1⟩ ⟨6, some "u", "x"⟩ 0 c.world =
        .ok none { c.world with symbols } := by
  intro x
  let symbols : InternTable :=
    ⟨⟨[((none, "lib"), 0), ((none, "user"), 1), ((none, "x"), 2), ((none, "l"), 3), ((none, "u"), 4)]⟩⟩
  have hstart : Reached { world := { symbols } } := .start rfl rfl
  have hregistry : Reached { world := { symbols, registries := #[{}] } } :=
    hstart.step (.apart ⟨Nat.le_refl _, fun _ => rfl, fun _ => rfl,
      fun r => by cases r with | mk id => cases id <;> rfl, fun _ hs => hs⟩)
  have hlib := hregistry.step (.findOrCreate 0 ⟨0⟩ ⟨0, none, "lib"⟩ ⟨rfl, rfl⟩ rfl)
  have huser := hlib.step (.findOrCreate 0 ⟨0⟩ ⟨1, none, "user"⟩ ⟨rfl, rfl⟩ rfl)
  have hdefined := huser.step (.remap (.define .plain) 0 ⟨0⟩ x Nat.zero_lt_two ⟨rfl, rfl⟩ rfl)
  have hreferred := hdefined.step (.remap (.refer ⟨0⟩) 0 ⟨1⟩ x Nat.one_lt_two ⟨rfl, rfl⟩ rfl)
  have hl := hreferred.step
    (.realias (.add ⟨0⟩) 0 ⟨1⟩ ⟨3, none, "l"⟩ Nat.one_lt_two ⟨rfl, rfl⟩ rfl)
  have hu := hl.step (.realias (.add ⟨1⟩) 0 ⟨1⟩ ⟨4, none, "u"⟩ Nat.one_lt_two ⟨rfl, rfl⟩ rfl)
  have hresolves := resolves_after hu
  refine ⟨_, hu, rfl, ?_, ?_⟩
  · exact hresolves.qualified ⟨0⟩ ⟨1⟩ ⟨5, some "l", "x"⟩ "l" 0 rfl (by decide)
  · exact hresolves.qualified ⟨0⟩ ⟨1⟩ ⟨6, some "u", "x"⟩ "u" 0 rfl (by decide)

end Chronicle

end LispCore
