import LispCore.Proofs.Act
import LispCore.Proofs.Namespace.Publics
/-!
Names in writing. A written name is split at its first slash, so what is split off as a namespace holds no
slash, and joining the parts gives the text again (`splitPath_cases`). The other way round a name is split
into its own parts just when its namespace holds no slash, or without a namespace the plain name holds none
or is the lone slash (`splitPath_path`). A table keeps the names that it has, so such names, and no others,
are read back from their written form (`names_read_back`).
-/

namespace LispCore

variable {kind : NameKind} {n m : Nat} {w w' v : World} {ns : Option String} {name s : String}

namespace Name

/-- Parts that a path can be split into again. -/
def Splits : Option String → String → Prop
  | some ns, _ => '/' ∉ ns.toList
  | none, name => '/' ∉ name.toList ∨ name = "/"

instance (ns : Option String) (name : String) : Decidable (Splits ns name) :=
  match ns with
  | some ns => inferInstanceAs (Decidable ('/' ∉ ns.toList))
  | none => inferInstanceAs (Decidable ('/' ∉ name.toList ∨ name = "/"))

/-- How a name is written that was read from a text. -/
def written : NameKind → String → String
  | .symbol, s => s
  | .keyword, s => ":" ++ dropColon s

/-! ### Splitting and joining -/

/-- The namespace of a proper name is not empty. -/
theorem validate_ns_ne_empty {ns : String} (h : InternTable.validate (some ns) name = .ok ()) :
    ns ≠ "" := by
  rintro rfl
  simp only [InternTable.validate] at h
  split_ifs at h with h₁ h₂ h₃
  exact h₃ rfl

theorem splitPath_plain (hs : '/' ∉ s.toList) : splitPath s = (none, s) := by
  have hall : ∀ c ∈ s.toList, decide (c ≠ '/') = true := fun c hc =>
    decide_eq_true fun h => hs (h ▸ hc)
  have hdrop : s.toList.dropWhile (fun c => decide (c ≠ '/')) = [] := by
    rw [← List.append_nil s.toList, List.dropWhile_append_of_pos hall, List.dropWhile_nil]
  rw [splitPath]
  split
  · rfl
  · simp only [hdrop]

/-- What a namespace without a slash is put in front of is split off again. -/
theorem splitPath_join {ns : String} (hns : '/' ∉ ns.toList) (hne : ns ++ "/" ++ name ≠ "/") :
    splitPath (ns ++ "/" ++ name) = (some ns, name) := by
  have hlist : (ns ++ "/" ++ name).toList = ns.toList ++ '/' :: name.toList := by simp
  have hall : ∀ c ∈ ns.toList, decide (c ≠ '/') = true := fun c hc =>
    decide_eq_true fun h => hns (h ▸ hc)
  rw [splitPath, if_neg hne]
  simp only [hlist, List.dropWhile_append_of_pos hall, List.takeWhile_append_of_pos hall]
  simp

/-- A text is a plain name or is joined from what comes before its first slash and what comes after it. -/
theorem splitPath_cases (s : String) : splitPath s = (none, s) ∧ Splits none s ∨
    ∃ ns name, splitPath s = (some ns, name) ∧ Splits (some ns) name ∧ s = ns ++ "/" ++ name := by
  by_cases hs : s = "/"
  · exact .inl ⟨if_pos hs, .inr hs⟩
  by_cases hmem : '/' ∈ s.toList
  · obtain ⟨front, back, hlist, hfront⟩ := List.eq_append_cons_of_mem hmem
    have hjoin : s = String.ofList front ++ "/" ++ String.ofList back := by
      rw [← String.toList_inj, hlist]
      simp
    have hfront : '/' ∉ (String.ofList front).toList := by rwa [String.toList_ofList]
    refine .inr ⟨String.ofList front, String.ofList back, ?_, hfront, hjoin⟩
    rw [hjoin] at hs ⊢
    exact splitPath_join hfront hs
  · exact .inl ⟨splitPath_plain hmem, .inl hmem⟩

/-- The parts that a text is split into are joined to the text again, and can be told apart. -/
theorem path_of_splitPath {nm : Name kind} (h : splitPath s = (nm.ns, nm.name)) :
    nm.path = s ∧ Splits nm.ns nm.name := by
  rcases splitPath_cases s with ⟨hs, hsplits⟩ | ⟨ns, name, hs, hsplits, rfl⟩
  · obtain ⟨hns, hname⟩ := Prod.mk.inj (h.symm.trans hs)
    rw [path, hns, hname]
    exact ⟨rfl, hsplits⟩
  · obtain ⟨hns, hname⟩ := Prod.mk.inj (h.symm.trans hs)
    rw [path, hns, hname]
    exact ⟨rfl, hsplits⟩

/-- A proper name is split into its own parts just when they can be told apart. -/
theorem splitPath_path {nm : Name kind} (hnm : InternTable.validate nm.ns nm.name = .ok ()) :
    splitPath nm.path = (nm.ns, nm.name) ↔ Splits nm.ns nm.name := by
  refine ⟨fun h => (path_of_splitPath h).2, fun hsplits => ?_⟩
  obtain ⟨serial, ns, name⟩ := nm
  cases ns with
  | none =>
    rcases hsplits with hplain | hlone
    · exact splitPath_plain hplain
    · exact if_pos hlone
  | some ns =>
    -- a namespace that is not empty makes more than a lone slash
    refine splitPath_join hsplits fun hlone => validate_ns_ne_empty hnm ?_
    have hlength := congrArg String.length hlone
    simp only [String.length_append] at hlength
    have hslash : "/".length = 1 := by decide
    exact String.length_eq_zero_iff.mp (by omega)

/-- The written form of a name stands for its path. -/
theorem parse_text (nm : Name kind) : parse kind nm.text = splitPath nm.path := by
  cases kind with
  | symbol => rfl
  | keyword =>
    have hdrop : dropColon (":" ++ nm.path) = nm.path := by
      simp [dropColon]
    exact congrArg splitPath hdrop

end Name

/-! ### Tables -/

namespace InternTable

variable {t t' : InternTable}

/-- The name was interned: its parts are proper, and its serial number is that of the table. -/
structure Holds (t : InternTable) (nm : Name kind) : Prop where
  proper : validate nm.ns nm.name = .ok ()
  known : t.serials.find? (nm.ns, nm.name) = some nm.serial

/-- No name loses its serial number. -/
def Grows (t t' : InternTable) : Prop :=
  ∀ parts serial, t.serials.find? parts = some serial → t'.serials.find? parts = some serial

theorem Grows.refl (t : InternTable) : t.Grows t := fun _ _ h => h

theorem Grows.trans {t'' : InternTable} (h : t.Grows t') (h' : t'.Grows t'') : t.Grows t'' :=
  fun parts serial hs => h' parts serial (h parts serial hs)

theorem Holds.grows {nm : Name kind} (h : t.Holds nm) (ht : t.Grows t') : t'.Holds nm :=
  ⟨h.proper, ht _ _ h.known⟩

theorem grows_serialOf (t : InternTable) (ns : Option String) (name : String) :
    t.Grows (t.serialOf ns name).2 := by
  intro parts serial h
  unfold serialOf
  cases hf : t.serials.find? (ns, name) with
  | some _ => exact h
  | none =>
    have hne : parts ≠ (ns, name) := by
      rintro rfl
      rw [hf] at h
      cases h
    rw [Table.find?_insert, if_neg hne]
    exact h

end InternTable

namespace Name

open InternTable

theorem names_setNames (w : World) (t : InternTable) (kind k : NameKind) :
    (w.setNames t kind).names k = if k = kind then t else w.names k := by
  cases kind <;> cases k <;> rfl

theorem setNames_names (w : World) (kind : NameKind) : w.setNames (w.names kind) kind = w := by
  cases kind <;> rfl

/-- Proper parts are interned with their serial number. -/
theorem intern_proper (h : validate ns name = .ok ()) (n : Nat) (w : World) :
    Name.intern kind ns name n w = .ok ⟨((w.names kind).serialOf ns name).1, ns, name⟩
      (w.setNames ((w.names kind).serialOf ns name).2 kind) := by
  simp only [Name.intern, InternTable.intern, h]

/-- What interning makes is a name of the parts, which the table has from then on. -/
theorem intern_holds {nm : Name kind} (h : Name.intern kind ns name n w = .ok nm w') :
    nm.ns = ns ∧ nm.name = name ∧ (w'.names kind).Holds nm ∧ ∀ k, (w.names k).Grows (w'.names k) := by
  cases hv : validate ns name with
  | error e =>
    simp only [Name.intern, InternTable.intern, hv] at h
    cases h
  | ok =>
    rw [intern_proper hv] at h
    cases h
    refine ⟨rfl, rfl, ⟨hv, ?_⟩, fun k => ?_⟩
    · rw [names_setNames, if_pos rfl]
      exact find?_serialOf ..
    · rw [names_setNames]
      split
      · rename_i hk
        exact hk ▸ grows_serialOf (w.names k) ns name
      · exact .refl _

/-- A name that the table has is interned as itself, and nothing changes. -/
theorem intern_held {nm : Name kind} (h : (w.names kind).Holds nm) (n : Nat) :
    Name.intern kind nm.ns nm.name n w = .ok nm w := by
  rw [intern_proper h.proper, serialOf_of_find? h.known, setNames_names]

theorem read_eq (kind : NameKind) (s : String) :
    Name.read kind s = Name.intern kind (parse kind s).1 (parse kind s).2 := rfl

/-- A name that the table has and whose parts can be told apart is read back as itself. -/
theorem read_text {nm : Name kind} (h : (w.names kind).Holds nm) (hsplits : Splits nm.ns nm.name)
    (n : Nat) : Name.read kind nm.text n w = .ok nm w := by
  rw [read_eq, parse_text, (splitPath_path h.proper).mpr hsplits]
  exact intern_held h n

/-- No other name is read back as itself. -/
theorem read_text_iff {nm : Name kind} (h : (w.names kind).Holds nm) (n : Nat) :
    (∃ w', Name.read kind nm.text n w = .ok nm w') ↔ Splits nm.ns nm.name := by
  refine ⟨fun ⟨w', hread⟩ => ?_, fun hsplits => ⟨w, read_text h hsplits n⟩⟩
  rw [read_eq, parse_text] at hread
  obtain ⟨hns, hname, -, -⟩ := intern_holds hread
  exact (path_of_splitPath (Prod.ext hns.symm hname.symm)).2

/-- A name that is read is written as the text, with a colon when it is a keyword, and is read back as
itself. -/
theorem text_of_read {nm : Name kind} (h : Name.read kind s n w = .ok nm w') :
    nm.text = written kind s ∧ Splits nm.ns nm.name ∧ (w'.names kind).Holds nm := by
  rw [read_eq] at h
  obtain ⟨hns, hname, hholds, -⟩ := intern_holds h
  have hsplit : parse kind s = (nm.ns, nm.name) := Prod.ext hns.symm hname.symm
  cases kind with
  | symbol =>
    obtain ⟨hpath, hsplits⟩ := path_of_splitPath hsplit
    exact ⟨hpath, hsplits, hholds⟩
  | keyword =>
    obtain ⟨hpath, hsplits⟩ := path_of_splitPath hsplit
    exact ⟨congrArg (":" ++ ·) hpath, hsplits, hholds⟩

/-- Names are read back from their written form. One that was read is written as the text it was read from,
a keyword with one leading colon, and reading that gives the same name at any later time. One that was
made of its parts is read back just when the namespace has no slash, or without a namespace the plain name
has none or is the lone slash. -/
theorem names_read_back (kind : NameKind) :
    (∀ s n w nm w', Name.read kind s n w = .ok nm w' → nm.text = written kind s ∧
      ∀ m v, (w'.names kind).Grows (v.names kind) → Name.read kind nm.text m v = .ok nm v) ∧
    ∀ ns name n w nm w', Name.intern kind ns name n w = .ok nm w' →
      ∀ m v, (w'.names kind).Grows (v.names kind) →
        ((∃ v', Name.read kind nm.text m v = .ok nm v') ↔ Splits ns name) := by
  refine ⟨fun s n w nm w' h => ?_, fun ns name n w nm w' h m v hv => ?_⟩
  · obtain ⟨htext, hsplits, hholds⟩ := text_of_read h
    exact ⟨htext, fun m v hv => read_text (hholds.grows hv) hsplits m⟩
  · obtain ⟨rfl, rfl, hholds, -⟩ := intern_holds h
    exact read_text_iff (hholds.grows hv) m

/-- The lone slash may stand behind a namespace, and a second colon belongs to the name. A symbol of a
namespace with a slash is not read back. -/
theorem names_read_back_slashes :
    (∃ nm w, Name.read .keyword "::a//" 1 {} = .ok nm w ∧ nm.ns = some ":a" ∧ nm.name = "/" ∧
      nm.text = "::a//" ∧ Name.read .keyword nm.text 1 w = .ok nm w) ∧
    ∃ nm w, Name.intern .symbol (some "a/b") "c" 1 {} = .ok nm w ∧
      ¬∃ w', Name.read .symbol nm.text 1 w = .ok nm w' := by
  refine ⟨⟨_, _, rfl, ?_, ?_, ?_, ?_⟩, _, _, rfl, ?_⟩
  · decide
  · decide
  · decide
  · exact ((names_read_back .keyword).1 "::a//" 1 {} _ _ rfl).2 1 _ (.refl _)
  · rw [(names_read_back .symbol).2 (some "a/b") "c" 1 {} _ _ rfl 1 _ (.refl _)]
    decide

end Name

end LispCore
