import LispCore.Proofs.Name.Written
import LispCore.Proofs.Namespace.Steps
import Mathlib.Data.List.Nodup
/-!
Interning gives each name one instance. A table numbers its names in the order in which they came
(`InternTable.Numbered`), so no two of them share a number, and none ever loses its own. Whatever is
interned, two names of a kind are therefore one instance just when they have the same parts, and the order by
content, which compares parts, calls names equal just when they are one instance (`names_are_canonical`).
A registry has each of its keys once, so its names come out in strictly increasing order.
-/

namespace LispCore

variable {kind : NameKind} {n : Nat} {w w' : World} {ns : Option String} {name s : String}

/-! ### What may be a part of a name -/

/-- The text cannot stand in a name: it is empty or has a blank in it. -/
def Text.Unfit (s : String) : Prop := s = "" ∨ ∃ c ∈ s.toList, Text.isBlank c = true

/-- The parts are no name: the plain name is unfit, or there is a namespace and it is. -/
def Name.Improper (parts : Option String × String) : Prop :=
  Text.Unfit parts.2 ∨ ∃ ns, parts.1 = some ns ∧ Text.Unfit ns

theorem Text.unfit_iff : Text.Unfit s ↔ s.isEmpty = true ∨ Text.hasBlank s = true := by
  rw [Text.Unfit, Text.hasBlank, List.any_eq_true, String.isEmpty_iff]

/-- Parts are refused just when they are no name. -/
theorem InternTable.validate_cases (ns : Option String) (name : String) :
    validate ns name = .ok () ∧ ¬Name.Improper (ns, name) ∨
      Name.Improper (ns, name) ∧ ∃ text reason, validate ns name = .error (.invalidName text reason) := by
  simp only [Name.Improper, Text.unfit_iff, validate]
  split_ifs with hempty hblank
  · exact .inr ⟨.inl (.inl hempty), _, _, rfl⟩
  · exact .inr ⟨.inl (.inr hblank), _, _, rfl⟩
  · cases ns with
    | none => simp [hempty, hblank]
    | some ns =>
      simp only
      split_ifs with hempty' hblank'
      · exact .inr ⟨.inr ⟨ns, rfl, .inl hempty'⟩, _, _, rfl⟩
      · exact .inr ⟨.inr ⟨ns, rfl, .inr hblank'⟩, _, _, rfl⟩
      · rw [String.isEmpty_iff] at hempty'
        simp [hempty, hblank, hempty', hblank']

/-! ### Serial numbers -/

namespace InternTable

variable {t : InternTable}

/-- Serial numbers were given out one after the other. -/
def Numbered (t : InternTable) : Prop := t.serials.entries.map (·.2) = List.range t.size

theorem numbered_empty : Numbered {} := rfl

theorem Numbered.serialOf (h : t.Numbered) (ns : Option String) (name : String) :
    (t.serialOf ns name).2.Numbered := by
  unfold InternTable.serialOf
  cases hf : t.serials.find? (ns, name) with
  | some serial => exact h
  | none =>
    have hentries : (t.serials.insert (ns, name) t.size).entries =
        t.serials.entries ++ [((ns, name), t.size)] := Table.insertEntry_of_find?_eq_none hf
    show (t.serials.insert (ns, name) t.size).entries.map (·.2) =
      List.range (t.serials.insert (ns, name) t.size).entries.length
    rw [hentries, List.map_append, h, List.length_append, List.length_singleton, List.range_succ]
    rfl

/-- No two names share a serial number. -/
theorem Numbered.parts_inj (h : t.Numbered) {p q : Option String × String} {serial : Nat}
    (hp : t.serials.find? p = some serial) (hq : t.serials.find? q = some serial) : p = q := by
  have hnodup : (t.serials.entries.map (·.2)).Nodup := by
    rw [h]
    exact List.nodup_range
  have heq := List.inj_on_of_nodup_map hnodup (Table.mem_of_find? hp) (Table.mem_of_find? hq) rfl
  exact congrArg Prod.fst heq

/-- Names that the table has are one instance just when they have the same parts. -/
theorem Numbered.serial_eq_iff (h : t.Numbered) {a b : Name kind} (ha : t.Holds a) (hb : t.Holds b) :
    a.serial = b.serial ↔ a.ns = b.ns ∧ a.name = b.name := by
  refine ⟨fun hs => ?_, fun ⟨hns, hname⟩ => ?_⟩
  · exact Prod.mk.inj (h.parts_inj ha.known (hs ▸ hb.known))
  · have hknown := ha.known
    rw [hns, hname, hb.known] at hknown
    exact (Option.some.inj hknown).symm

end InternTable

/-! ### The order by content -/

namespace Name

/-- Names are compared by their namespaces and, where these are the same, by their plain names. -/
theorem order_eq_compareLex :
    @order kind = compareLex (compareOn Name.ns) (compareOn Name.name) := by
  funext a b
  obtain ⟨_, nsa, namea⟩ := a
  obtain ⟨_, nsb, nameb⟩ := b
  cases nsa <;> cases nsb <;> rfl

instance order_total : Std.TransCmp (@order kind) := by
  rw [order_eq_compareLex]
  infer_instance

theorem eq_of_parts {a b : Name kind} (hs : a.serial = b.serial) (h : a.ns = b.ns ∧ a.name = b.name) :
    a = b := by
  obtain ⟨_, _, _⟩ := a
  obtain ⟨_, _, _⟩ := b
  cases hs
  cases h.1
  cases h.2
  rfl

theorem order_eq_eq {a b : Name kind} : a.order b = .eq ↔ a.ns = b.ns ∧ a.name = b.name := by
  rw [order_eq_compareLex]
  simp only [compareLex, compareOn, Ordering.then_eq_eq, Std.compare_eq_iff_eq]

theorem order_isLE_total (a b : Name kind) : ((a.order b).isLE || (b.order a).isLE) = true := by
  rw [@Std.OrientedCmp.eq_swap _ (@order kind) _ b a]
  cases a.order b <;> rfl

theorem order_plain {a b : Name kind} (ha : a.ns = none) (hb : b.ns ≠ none) : a.order b = .lt := by
  obtain ⟨part, hb⟩ := Option.ne_none_iff_exists'.mp hb
  simp only [order, ha, hb]

end Name

/-! ### Calls and what they gave -/

/-- A call that interns a name: from its parts, or read from a text. -/
inductive Naming (kind : NameKind) where
  | ofParts (ns : Option String) (name : String)
  | ofText (s : String)

namespace Naming

def parts : Naming kind → Option String × String
  | ofParts ns name => (ns, name)
  | ofText s => Name.parse kind s

def act : Naming kind → Act (Name kind)
  | ofParts ns name => Name.intern kind ns name
  | ofText s => Name.read kind s

theorem act_eq (c : Naming kind) : c.act = Name.intern kind c.parts.1 c.parts.2 := by
  cases c <;> rfl

/-- A call gives a name of the parts, or refuses them and changes nothing. -/
theorem act_cases (c : Naming kind) (n : Nat) (w : World) :
    ¬Name.Improper c.parts ∧ c.act n w =
        .ok ⟨((w.names kind).serialOf c.parts.1 c.parts.2).1, c.parts.1, c.parts.2⟩
          (w.setNames ((w.names kind).serialOf c.parts.1 c.parts.2).2 kind) ∨
      Name.Improper c.parts ∧ ∃ text reason,
        c.act n w = .error (.error (.invalidName text reason)) w := by
  rw [act_eq]
  rcases InternTable.validate_cases c.parts.1 c.parts.2 with ⟨hv, hproper⟩ | ⟨himproper, text, reason, hv⟩
  · exact .inl ⟨hproper, Name.intern_proper hv n w⟩
  · refine .inr ⟨himproper, text, reason, ?_⟩
    simp only [Name.intern, InternTable.intern, hv]

end Naming

/-- The calls made so far, with what each gave. -/
abbrev NamingLog := List (Σ kind, Naming kind × Except Error (Name kind))

/-- What comes about from empty tables by interning names and registering namespaces under them, whatever else
happens meanwhile. -/
inductive Named : NamingLog → World → Prop
  | start {w : World} (hs : w.symbols = {}) (hk : w.keywords = {}) (hr : w.registries = #[]) : Named [] w
  | given {log : NamingLog} {w w' : World} {kind : NameKind} {nm : Name kind} (n : Nat) (c : Naming kind)
      (h : Named log w) (hc : c.act n w = .ok nm w') : Named (log ++ [⟨kind, c, .ok nm⟩]) w'
  | refused {log : NamingLog} {w w' : World} {kind : NameKind} {e : Error} (n : Nat) (c : Naming kind)
      (h : Named log w) (hc : c.act n w = .error (.error e) w') : Named (log ++ [⟨kind, c, .error e⟩]) w'
  | register {log : NamingLog} {w w' : World} {c : Naming .symbol} {sym : Symbol} {ns : Namespace} (n : Nat)
      (r : Registry) (h : Named log w) (hs : ⟨.symbol, c, .ok sym⟩ ∈ log)
      (hr : r.findOrCreate sym n w = .ok ns w') : Named log w'
  | make {log : NamingLog} {w w' : World} {r : Registry} (n : Nat) (h : Named log w)
      (hr : Registry.make n w = .ok r w') : Named log w'
  | aside {log : NamingLog} {w w' : World} (h : Named log w) (hn : ∀ k, w'.names k = w.names k)
      (hr : w'.registries = w.registries) : Named log w'

namespace Named

variable {log : NamingLog}

/-- The tables number their names and have every name that was given, and registries have no key twice and no
key but interned symbols. -/
structure Kept (log : NamingLog) (w : World) : Prop where
  numbered : ∀ k, (w.names k).Numbered
  given : ∀ kind (c : Naming kind) nm, ⟨kind, c, .ok nm⟩ ∈ log →
    (nm.ns, nm.name) = c.parts ∧ (w.names kind).Holds nm
  distinct : ∀ r, (w.registry r).Distinct
  keys : ∀ r, ∀ e ∈ (w.registry r).entries, w.symbols.Holds e.1

/-- Tables that only grow keep the names that were given and the keys. -/
theorem Kept.grows (hk : Kept log w) (hw : ∀ k, (w.names k).Grows (w'.names k))
    (hn : ∀ k, (w'.names k).Numbered) (hr : ∀ r, w'.registry r = w.registry r) : Kept log w' where
  numbered := hn
  given kind c nm hmem := (hk.given kind c nm hmem).imp_right fun h => h.grows (hw kind)
  distinct r := hr r ▸ hk.distinct r
  keys r e he := (hk.keys r e (hr r ▸ he)).grows (hw .symbol)

theorem Kept.interned (hk : Kept log w) (ns : Option String) (name : String) :
    Kept log (w.setNames ((w.names kind).serialOf ns name).2 kind) := by
  refine hk.grows (fun k => ?_) (fun k => ?_) fun r => ?_
  · rw [Name.names_setNames]
    split_ifs with hkind
    · exact hkind ▸ InternTable.grows_serialOf (w.names k) ns name
    · exact .refl _
  · rw [Name.names_setNames]
    split_ifs with hkind
    · exact hkind ▸ (hk.numbered k).serialOf ns name
    · exact hk.numbered k
  · cases kind <;> rfl

/-- One more call is logged, with the name that it gave if it gave any. -/
theorem Kept.logged {c : Naming kind} {o : Except Error (Name kind)} (hk : Kept log w)
    (ho : ∀ nm, o = .ok nm → (nm.ns, nm.name) = c.parts ∧ (w.names kind).Holds nm) :
    Kept (log ++ [⟨kind, c, o⟩]) w where
  numbered := hk.numbered
  given k d nm hmem := by
    rcases List.mem_append.mp hmem with hmem | hmem
    · exact hk.given k d nm hmem
    · cases List.mem_singleton.mp hmem
      exact ho nm rfl
  distinct := hk.distinct
  keys := hk.keys

theorem Kept.founded {sym : Symbol} (hk : Kept log w) (hs : w.symbols.Holds sym) (r : Registry) :
    Kept log (w.founded r sym) := by
  have hnames (k : NameKind) : (w.founded r sym).names k = w.names k := by cases k <;> rfl
  refine ⟨fun k => hnames k ▸ hk.numbered k, fun k c nm hmem => hnames k ▸ hk.given k c nm hmem,
    fun r' => ?_, fun r' e he => ?_⟩
  · rcases w.registry_founded_cases r r' sym with hr | ⟨-, hr⟩
    · exact hr ▸ hk.distinct r'
    · exact hr ▸ (hk.distinct r').put sym (some ⟨w.namespaces.size⟩)
  · rcases w.registry_founded_cases r r' sym with hr | ⟨-, hr⟩
    · exact hk.keys r' e (hr ▸ he)
    · rw [hr] at he
      rcases Table.mem_insertEntry he with rfl | he
      · exact hs
      · exact hk.keys r' e he

/-- Whatever is interned, the tables and the registries are kept so. -/
theorem kept (h : Named log w) : Kept log w := by
  induction h with
  | @start w hs hk hr =>
    have hreg (r : Registry) : w.registry r = {} := by
      rw [World.registry, hr]
      rfl
    refine ⟨fun k => ?_, fun _ _ _ hmem => absurd hmem List.not_mem_nil, fun r => ?_, fun r e he => ?_⟩
    · cases k with
      | symbol =>
        rw [World.names, hs]
        exact InternTable.numbered_empty
      | keyword =>
        rw [World.names, hk]
        exact InternTable.numbered_empty
    · rw [hreg]
      exact List.nodup_nil
    · rw [hreg] at he
      exact absurd he List.not_mem_nil
  | @given log w w' kind nm n c _ hc ih =>
    obtain ⟨hns, hname, hholds, -⟩ := Name.intern_holds (c.act_eq ▸ hc)
    have hkept : Kept log w' := by
      rcases c.act_cases n w with ⟨-, hok⟩ | ⟨-, _, _, herr⟩
      · cases hok.symm.trans hc
        exact ih.interned c.parts.1 c.parts.2
      · cases herr.symm.trans hc
    refine hkept.logged fun nm' h => ?_
    cases h
    exact ⟨Prod.ext hns hname, hholds⟩
  | @refused log w w' kind e n c _ hc ih =>
    rcases c.act_cases n w with ⟨-, hok⟩ | ⟨-, _, _, herr⟩
    · cases hok.symm.trans hc
    · cases herr.symm.trans hc
      refine ih.logged fun nm h => ?_
      cases h
  | @register log w w' c sym ns n r _ hs hr ih =>
    rw [Registry.findOrCreate_eq] at hr
    split at hr
    · cases hr
      exact ih
    · cases hr
      exact ih.founded (ih.given .symbol c sym hs).2 r
  | @make log w w' r n _ hr ih =>
    cases hr
    refine ih.grows (fun k => ?_) (fun k => ?_) fun r => World.registry_push rfl
    · cases k <;> exact .refl _
    · cases k
      · exact ih.numbered .symbol
      · exact ih.numbered .keyword
  | aside _ hn hr ih =>
    refine ih.grows (fun k => hn k ▸ .refl _) (fun k => hn k ▸ ih.numbered k) fun r => ?_
    rw [World.registry, World.registry, hr]

end Named

/-! ### Registries -/

/-- The names of a registry whose keys differ in content come out strictly increasing, and are its keys. -/
theorem Registry.names_spec {r : Registry} (hdistinct : (w.registry r).Distinct)
    (hkeys : ∀ a ∈ (w.registry r).entries.map (·.1), ∀ b ∈ (w.registry r).entries.map (·.1),
      a.order b = .eq → a = b) (n : Nat) :
    ∃ names, r.names n w = .ok names w ∧ names.Pairwise (fun a b => a.order b = .lt) ∧
      ∀ sym, sym ∈ names ↔ ∃ ns, r.find? sym n w = .ok (some ns) w := by
  let le (a b : Symbol) : Bool := (a.order b).isLE
  have hperm : ((w.registry r).entries.map (·.1)).mergeSort le |>.Perm _ := List.mergeSort_perm _ le
  have hsorted := @List.pairwise_mergeSort _ le (fun a b c => Std.TransCmp.isLE_trans)
    (fun a b => Name.order_isLE_total a b) ((w.registry r).entries.map (·.1))
  have hnodup := hperm.nodup_iff.mpr hdistinct
  refine ⟨_, rfl, ?_, fun sym => ?_⟩
  · refine (hsorted.and hnodup).imp_of_mem fun {a b} ha hb hab => ?_
    have hne : a.order b ≠ .eq := fun h =>
      hab.2 (hkeys a (hperm.mem_iff.mp ha) b (hperm.mem_iff.mp hb) h)
    have hle : (a.order b).isLE = true := hab.1
    cases ho : a.order b with
    | lt => rfl
    | eq => exact absurd ho hne
    | gt =>
      rw [ho] at hle
      cases hle
  · have hfind : r.find? sym n w = .ok ((w.registry r).find? sym) w := rfl
    rw [hperm.mem_iff, Table.mem_keys_iff, hfind]
    exact exists_congr fun ns => ⟨fun h => h ▸ rfl, fun h => (EStateM.Result.ok.inj h).1⟩

/-! ### The result -/

/-- Interning gives each name one instance, and the order by content goes by instance. Whatever calls are
made, two of the names that they give are one instance just when they are of one kind and have the same
parts, and the same call gives the same instance ever after. A call is refused just when the parts are no
name, and then changes nothing. Among the names of a kind the order is total, tells two apart just when
they are two instances, and puts those without a namespace first. So the names of a registry are strictly
increasing, and are the symbols that something is registered under. -/
theorem names_are_canonical {log : NamingLog} (h : Named log w) :
    (∀ k k' (c : Naming k) (d : Naming k') a b, ⟨k, c, .ok a⟩ ∈ log → ⟨k', d, .ok b⟩ ∈ log →
      ((k = k' ∧ a.serial = b.serial) ↔ k = k' ∧ c.parts = d.parts)) ∧
    (∀ k (c : Naming k) a, ⟨k, c, .ok a⟩ ∈ log →
      (a.ns, a.name) = c.parts ∧ ∀ n, c.act n w = .ok a w) ∧
    (∀ k (c : Naming k) n, (¬Name.Improper c.parts → ∃ a w', c.act n w = .ok a w') ∧
      (Name.Improper c.parts → ∃ text reason,
        c.act n w = .error (.error (.invalidName text reason)) w)) ∧
    (∀ k, Std.TransCmp (@Name.order k) ∧ ∀ (c d : Naming k) a b,
      ⟨k, c, .ok a⟩ ∈ log → ⟨k, d, .ok b⟩ ∈ log →
        (a = b ↔ a.serial = b.serial) ∧ (a.order b = .eq ↔ a.serial = b.serial) ∧
        (a.ns = none → b.ns ≠ none → a.order b = .lt)) ∧
    ∀ (r : Registry) n, ∃ names, r.names n w = .ok names w ∧
      names.Pairwise (fun a b => a.order b = .lt) ∧
      ∀ sym, sym ∈ names ↔ ∃ ns, r.find? sym n w = .ok (some ns) w := by
  have hk := h.kept
  refine ⟨fun k k' c d a b ha hb => ?_, fun k c a ha => ?_, fun k c n => ?_,
    fun k => ⟨Name.order_total, fun c d a b ha hb => ?_⟩, fun r n => ?_⟩
  · refine and_congr_right fun hkind => ?_
    subst hkind
    obtain ⟨hac, ha⟩ := hk.given k c a ha
    obtain ⟨hbd, hb⟩ := hk.given k d b hb
    rw [(hk.numbered k).serial_eq_iff ha hb, ← hac, ← hbd, Prod.mk.injEq]
  · obtain ⟨hac, ha⟩ := hk.given k c a ha
    refine ⟨hac, fun n => ?_⟩
    rw [c.act_eq, ← hac]
    exact Name.intern_held ha n
  · rcases c.act_cases n w with ⟨hproper, hok⟩ | ⟨himproper, herr⟩
    · exact ⟨fun _ => ⟨_, _, hok⟩, fun h => absurd h hproper⟩
    · exact ⟨fun h => absurd himproper h, fun _ => herr⟩
  · have hinstance := (hk.numbered k).serial_eq_iff (hk.given k c a ha).2 (hk.given k d b hb).2
    refine ⟨⟨congrArg Name.serial, fun hserial => ?_⟩, Name.order_eq_eq.trans hinstance.symm,
      Name.order_plain⟩
    exact Name.eq_of_parts hserial (hinstance.mp hserial)
  · refine Registry.names_spec (hk.distinct r) (fun a ha b hb hab => ?_) n
    obtain ⟨e, he, rfl⟩ := List.mem_map.mp ha
    obtain ⟨e', he', rfl⟩ := List.mem_map.mp hb
    have hparts := Name.order_eq_eq.mp hab
    have hserial := ((hk.numbered .symbol).serial_eq_iff (hk.keys r e he) (hk.keys r e' he')).mpr hparts
    exact Name.eq_of_parts hserial hparts

/-- The symbols `b/a` and `m` are interned and registered in this order. -/
def twoRegistered : World where
  symbols := ⟨⟨[((some "b", "a"), 0), ((none, "m"), 1)]⟩⟩
  namespaces := #[{ name := ⟨0, some "b", "a"⟩ }, { name := ⟨1, none, "m"⟩ }]
  registries := #[⟨[(⟨0, some "b", "a"⟩, ⟨0⟩), (⟨1, none, "m"⟩, ⟨1⟩)]⟩]

/-- The symbols are interned from parts and from a text, and the second of them once more at the end. -/
theorem named_twoRegistered : Named [⟨.symbol, .ofParts (some "b") "a", .ok ⟨0, some "b", "a"⟩⟩,
    ⟨.symbol, .ofText "m", .ok ⟨1, none, "m"⟩⟩, ⟨.symbol, .ofParts none "m", .ok ⟨1, none, "m"⟩⟩]
    twoRegistered := by
  have hmade : Named [] { registries := #[{}] } := .make 0 (.start (w := {}) rfl rfl rfl) rfl
  have hone : Named [⟨.symbol, .ofParts (some "b") "a", .ok ⟨0, some "b", "a"⟩⟩]
      { symbols := ⟨⟨[((some "b", "a"), 0)]⟩⟩, registries := #[{}] } := hmade.given 0 _ rfl
  have htwo : Named [⟨.symbol, .ofParts (some "b") "a", .ok ⟨0, some "b", "a"⟩⟩]
      { symbols := ⟨⟨[((some "b", "a"), 0)]⟩⟩
        namespaces := #[{ name := ⟨0, some "b", "a"⟩ }]
        registries := #[⟨[(⟨0, some "b", "a"⟩, ⟨0⟩)]⟩] } :=
    hone.register 0 ⟨0⟩ (.head _) rfl
  have hthree : Named [⟨.symbol, .ofParts (some "b") "a", .ok ⟨0, some "b", "a"⟩⟩,
      ⟨.symbol, .ofText "m", .ok ⟨1, none, "m"⟩⟩]
      { symbols := ⟨⟨[((some "b", "a"), 0), ((none, "m"), 1)]⟩⟩
        namespaces := #[{ name := ⟨0, some "b", "a"⟩ }]
        registries := #[⟨[(⟨0, some "b", "a"⟩, ⟨0⟩)]⟩] } := htwo.given 0 _ rfl
  have hfour : Named [⟨.symbol, .ofParts (some "b") "a", .ok ⟨0, some "b", "a"⟩⟩,
      ⟨.symbol, .ofText "m", .ok ⟨1, none, "m"⟩⟩] twoRegistered :=
    hthree.register 0 ⟨0⟩ (.tail _ (.head _)) rfl
  exact hfour.given 0 _ rfl

/-- The symbol `m` is one instance however it is interned, is one of the names, and comes before `b/a`.
The empty name is refused. -/
theorem names_are_canonical_registered :
    (Naming.ofText "m" : Naming .symbol).parts = (Naming.ofParts none "m" : Naming .symbol).parts ∧
    Name.order ⟨1, none, "m"⟩ (⟨0, some "b", "a"⟩ : Symbol) = .lt ∧
    (∃ names, Registry.names ⟨0⟩ 0 twoRegistered = .ok names twoRegistered ∧
      names.Pairwise (fun a b => a.order b = .lt) ∧ ⟨1, none, "m"⟩ ∈ names ∧ ⟨0, some "b", "a"⟩ ∈ names) ∧
    ∃ text reason, Name.intern .keyword none "" 0 twoRegistered =
      .error (.error (.invalidName text reason)) twoRegistered := by
  have hm : (⟨.symbol, .ofText "m", .ok ⟨1, none, "m"⟩⟩ : Σ kind, Naming kind × Except Error (Name kind)) ∈
      [⟨.symbol, .ofParts (some "b") "a", .ok ⟨0, some "b", "a"⟩⟩, ⟨.symbol, .ofText "m", .ok ⟨1, none, "m"⟩⟩,
        ⟨.symbol, .ofParts none "m", .ok ⟨1, none, "m"⟩⟩] := .tail _ (.head _)
  obtain ⟨hinstance, -, hcalls, horder, hnames⟩ := names_are_canonical named_twoRegistered
  obtain ⟨names, hrun, hsorted, hmem⟩ := hnames ⟨0⟩ 0
  refine ⟨?_, ?_, ⟨names, hrun, hsorted, (hmem _).mpr ⟨⟨1⟩, rfl⟩, (hmem _).mpr ⟨⟨0⟩, rfl⟩⟩, ?_⟩
  · exact ((hinstance _ _ _ _ _ _ hm (.tail _ (.tail _ (.head _)))).mp ⟨rfl, rfl⟩).2
  · exact ((horder .symbol).2 _ _ _ _ hm (.head _)).2.2 rfl nofun
  · exact (hcalls .keyword (.ofParts none "") 0).2 (.inl (.inl rfl))

end LispCore
