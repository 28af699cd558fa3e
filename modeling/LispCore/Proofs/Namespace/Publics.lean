import LispCore.Proofs.Namespace.Steps
import LispCore.Proofs.Table
import LispCore.Proofs.Trie.Congruence
/-!
Which vars of a namespace are public. Whether a var is public is a matter of its metadata alone: the
search for `:private` gives one answer under every budget that it does not exhaust, however often names
are interned in between (`Var.isPublic_cases`). So the publics of a namespace are its own vars that are
public, and referring to all of another namespace remaps just their symbols (`referAll_spec`).
-/

namespace LispCore

/-! ### Actions with one answer -/

/-- An action that gives one answer and changes nothing, unless there is no budget at all. -/
def Act.Fixed {α : Type} (x : Act α) : Prop :=
  ∃ a, ∀ n w, x n w = .ok a w ∨ n = 0 ∧ x n w = .error .exhausted w

namespace Act.Fixed

variable {α β : Type} {x : Act α} {f : α → Act β}

theorem pure (a : α) : (Pure.pure a : Act α).Fixed := ⟨a, fun _ _ => .inl rfl⟩

theorem bind (hx : x.Fixed) (hf : ∀ a, (f a).Fixed) : (x >>= f).Fixed := by
  obtain ⟨a, ha⟩ := hx
  obtain ⟨b, hb⟩ := hf a
  refine ⟨b, fun n w => ?_⟩
  rcases ha n w with h | ⟨hn, h⟩
  · rw [Act.bind_of_ok h]
    exact hb n w
  · exact .inr ⟨hn, Act.bind_of_error h⟩

/-- One sees the same answer from every world. -/
theorem peek_eq (hx : x.Fixed) (n m : Nat) (w w' : World) (otherwise : α) :
    x.peek (n + 1) w otherwise = x.peek (m + 1) w' otherwise := by
  obtain ⟨a, ha⟩ := hx
  rw [Act.peek, Act.peek, (ha (n + 1) w).resolve_right (fun h => Nat.succ_ne_zero n h.1),
    (ha (m + 1) w').resolve_right fun h => Nat.succ_ne_zero m h.1]

end Act.Fixed

/-- Comparing a value with a keyword takes no more than a look at the value. -/
theorem Value.same_keyword_fixed (a : Value) (k : Keyword) : (Value.same a (.keyword k)).Fixed := by
  cases a <;> exact ⟨_, fun n w => by cases n with
    | zero => exact .inr ⟨rfl, rfl⟩
    | succ n => exact .inl rfl⟩

theorem Value.hash_keyword_fixed (k : Keyword) : (Value.hash (.keyword k)).Fixed :=
  ⟨_, fun n w => by cases n with
    | zero => exact .inr ⟨rfl, rfl⟩
    | succ n => exact .inl rfl⟩

theorem Map.indexFrom_keyword_fixed (k : Keyword) : ∀ (es : List (Value × Value)) (i : Nat),
    (Map.indexFrom Value.same (.keyword k) i es).Fixed
  | [], _ => .pure _
  | e :: es, i => (Value.same_keyword_fixed e.1 k).bind fun b => by
    cases b with
    | true => exact .pure _
    | false => exact indexFrom_keyword_fixed k es (i + 1)

/-- What a map has at a keyword does not depend on the world. -/
theorem Map.find?_keyword_fixed (m : Map Value Value) (k : Keyword) : (m.find? (.keyword k)).Fixed := by
  cases m with
  | small entries =>
    refine (Map.indexFrom_keyword_fixed k entries.toList 0).bind fun i => ?_
    cases i <;> exact .pure _
  | hashed m =>
    -- The keying differs from world to world, but not in how stored keys compare with this one.
    obtain ⟨code, hcode⟩ := Value.hash_keyword_fixed k
    let K : Keying Value :=
      ⟨fun a b => (Value.same a b).peek 1 default false, fun a => (Value.hash a).peek 1 default 0⟩
    refine ⟨m.find? K (.keyword k), fun n w => ?_⟩
    rcases hcode n w with h | ⟨rfl, h⟩
    · cases n with
      | zero => cases h
      | succ n =>
        refine .inl ((Act.bind_of_ok h).trans (congrArg (EStateM.Result.ok · w) ?_))
        exact HashMap.find?_congr (fun a => (Value.same_keyword_fixed a k).peek_eq n 0 w default false)
          ((Value.hash_keyword_fixed k).peek_eq n 0 w default 0)
    · exact .inr ⟨rfl, Act.bind_of_error h⟩

/-! ### Public vars -/

namespace InternTable

variable {t : InternTable} {ns : Option String} {name : String}

theorem serialOf_of_find? {serial : Nat} (h : t.serials.find? (ns, name) = some serial) :
    t.serialOf ns name = (serial, t) := by
  rw [serialOf, h]

/-- A name that has been given a serial number has it. -/
theorem find?_serialOf (t : InternTable) (ns : Option String) (name : String) :
    (t.serialOf ns name).2.serials.find? (ns, name) = some (t.serialOf ns name).1 := by
  unfold serialOf
  cases h : t.serials.find? (ns, name) with
  | some serial => exact h
  | none => simp

theorem serialOf_serialOf (t : InternTable) (ns : Option String) (name : String) :
    (t.serialOf ns name).2.serialOf ns name = t.serialOf ns name :=
  serialOf_of_find? (find?_serialOf t ns name)

end InternTable

namespace World

variable {n : Nat} {w : World}

/-- The world in which `:private` has been interned. -/
def knowingPrivate (w : World) : World :=
  { w with keywords := (w.keywords.serialOf none "private").2 }

theorem knowingPrivate_idem : w.knowingPrivate.knowingPrivate = w.knowingPrivate := by
  rw [knowingPrivate, knowingPrivate, InternTable.serialOf_serialOf]

/-- What a var says when it is asked whether it is public. -/
def isPublic (w : World) (v : Var) : Bool := v.isPublic.peek 1 w false

/-- Whether the namespace counts a var as its own: the var bears its name. -/
def owns (w : World) (ns : Namespace) (v : Var) : Bool :=
  (w.varCell v).label.ns? = some (w.namespaceCell ns).name

/-- The mappings of a namespace to its own public vars. -/
def publicsOf (w : World) (ns : Namespace) : List (Symbol × Var) :=
  (w.namespaceCell ns).mappings.entries.filter fun m => w.owns ns m.2 && w.isPublic m.2

end World

/-- Whether a var is public depends on its metadata and on the number of `:private` alone. -/
theorem Var.isPublic_answer (info : Map Value Value) (serial : Nat) : ∃ b, ∀ (v : Var) (w : World),
    (w.varCell v).info = info → (w.keywords.serialOf none "private").1 = serial →
      (∀ n, v.isPublic n w = .ok b w.knowingPrivate ∨
        n = 0 ∧ v.isPublic n w = .error .exhausted w.knowingPrivate) ∧ w.isPublic v = b := by
  let key : Keyword := ⟨serial, none, "private"⟩
  obtain ⟨o, ho⟩ := Map.find?_keyword_fixed info key
  refine ⟨match o with | some x => !x.isTruthy | none => true, fun v w hinfo hserial => ?_⟩
  have hkey (n : Nat) : Keyword.plain "private" n w = .ok key w.knowingPrivate := by
    subst hserial
    rfl
  have hv (n : Nat) : v.info n w.knowingPrivate = .ok info w.knowingPrivate := by
    rw [← hinfo]
    rfl
  have hrun (n : Nat) : v.isPublic n w = .ok (match o with | some x => !x.isTruthy | none => true)
      w.knowingPrivate ∨ n = 0 ∧ v.isPublic n w = .error .exhausted w.knowingPrivate := by
    have hstart : v.isPublic n w = _ := (Act.bind_of_ok (hkey n)).trans (Act.bind_of_ok (hv n))
    rw [hstart]
    rcases ho n w.knowingPrivate with h | ⟨hn, h⟩
    · refine .inl ((Act.bind_of_ok h).trans ?_)
      cases o <;> rfl
    · exact .inr ⟨hn, Act.bind_of_error h⟩
  refine ⟨hrun, ?_⟩
  rw [World.isPublic, Act.peek, (hrun 1).resolve_right fun h => Nat.one_ne_zero h.1]

/-- Interning `:private` once more gives the number that it has. -/
theorem World.serialOf_knowingPrivate {w w₀ : World} (h₀ : w₀ ∈ [w, w.knowingPrivate]) :
    (w₀.keywords.serialOf none "private").1 = (w.keywords.serialOf none "private").1 ∧
      w₀.knowingPrivate = w.knowingPrivate := by
  rcases List.mem_pair.mp h₀ with rfl | rfl
  · exact ⟨rfl, rfl⟩
  · refine ⟨?_, World.knowingPrivate_idem⟩
    rw [World.knowingPrivate, InternTable.serialOf_serialOf]

/-- Asked whether it is public, a var gives one answer, before `:private` has been interned and after. -/
theorem Var.isPublic_cases (v : Var) (w : World) (n : Nat) : ∀ w₀ ∈ [w, w.knowingPrivate],
    v.isPublic n w₀ = .ok (w.isPublic v) w.knowingPrivate ∨
      n = 0 ∧ v.isPublic n w₀ = .error .exhausted w.knowingPrivate := by
  intro w₀ h₀
  obtain ⟨hserial, hknowing⟩ := World.serialOf_knowingPrivate h₀
  have hinfo : (w₀.varCell v).info = (w.varCell v).info := by
    rcases List.mem_pair.mp h₀ with rfl | rfl <;> rfl
  obtain ⟨b, hb⟩ := Var.isPublic_answer (w.varCell v).info (w.keywords.serialOf none "private").1
  rw [(hb v w rfl rfl).2, ← hknowing]
  exact (hb v w₀ hinfo hserial).1 n

namespace Namespace

variable {n : Nat} {w : World} {ns other : Namespace}

theorem select_isPublic_cases (w : World) (n : Nat) : ∀ ms : List (Symbol × Var),
    ∀ w₀ ∈ [w, w.knowingPrivate], ∃ w₁ ∈ [w, w.knowingPrivate],
      select Var.isPublic ms n w₀ = .ok (ms.filter fun m => w.isPublic m.2) w₁ ∨
        n = 0 ∧ select Var.isPublic ms n w₀ = .error .exhausted w₁
  | [], w₀, h₀ => ⟨w₀, h₀, .inl rfl⟩
  | m :: ms, w₀, h₀ => by
    rcases m.2.isPublic_cases w n w₀ h₀ with h | ⟨hn, h⟩
    · obtain ⟨w₁, h₁, hms | ⟨hn, hms⟩⟩ :=
        select_isPublic_cases w n ms w.knowingPrivate (by simp)
      · refine ⟨w₁, h₁, .inl ((Act.bind_of_ok h).trans ((Act.bind_of_ok hms).trans ?_))⟩
        rw [List.filter_cons]
        split_ifs <;> rfl
      · exact ⟨w₁, h₁, .inr ⟨hn, (Act.bind_of_ok h).trans (Act.bind_of_error hms)⟩⟩
    · exact ⟨_, by simp, .inr ⟨hn, Act.bind_of_error h⟩⟩

theorem publics_spec (w : World) (n : Nat) (other : Namespace) : ∃ w₁ ∈ [w, w.knowingPrivate],
    other.publics n w = .ok (w.publicsOf other) w₁ ∨
    n = 0 ∧ other.publics n w = .error .exhausted w₁ := by
  obtain ⟨w₁, h₁, h | ⟨hn, h⟩⟩ := select_isPublic_cases w n
    ((w.namespaceCell other).mappings.entries.filter fun m => w.owns other m.2) w (by simp)
  · refine ⟨w₁, h₁, .inl (((Act.bind_of_ok interns_eq).trans h).trans ?_)⟩
    rw [List.filter_filter, World.publicsOf]
    simp only [Bool.and_comm]
  · exact ⟨w₁, h₁, .inr ⟨hn, (Act.bind_of_ok interns_eq).trans h⟩⟩

/-- Referring to all of another namespace takes over its own public vars, and fails only without any
budget. -/
theorem referAll_spec (w : World) (n : Nat) (ns other : Namespace) : ∃ w₁ ∈ [w, w.knowingPrivate],
    ns.referAll other n w = .ok () (w₁.remapped ns (·.putAll (w.publicsOf other))) ∨
    n = 0 ∧ ns.referAll other n w = .error .exhausted w₁ := by
  obtain ⟨w₁, h₁, h | ⟨hn, h⟩⟩ := publics_spec w n other
  · exact ⟨w₁, h₁, .inl ((Act.bind_of_ok h).trans (referEach_eq _ _))⟩
  · exact ⟨w₁, h₁, .inr ⟨hn, Act.bind_of_error h⟩⟩

/-- Those that are taken over are among the mappings to vars that bear the name of the namespace. -/
theorem referAll_cases (n : Nat) (w : World) (ns other : Namespace) : ∃ keywords,
    (∃ ms, other.publics n w = .ok ms { w with keywords } ∧
      ms.Sublist ((w.namespaceCell other).mappings.entries.filter fun m =>
        (w.varCell m.2).label.ns? = some (w.namespaceCell other).name) ∧
      ns.referAll other n w = .ok () ({ w with keywords }.remapped ns
        fun t => ms.foldl (fun t (m : Symbol × Var) => t.insert m.1 m.2) t)) ∨
    ns.referAll other n w = .error .exhausted { w with keywords } := by
  obtain ⟨w₁, h₁, h⟩ := publics_spec w n other
  have hw : w₁ = { w with keywords := w₁.keywords } := by
    rcases List.mem_pair.mp h₁ with rfl | rfl <;> rfl
  refine ⟨w₁.keywords, ?_⟩
  rw [← hw]
  rcases h with h | ⟨-, h⟩
  · refine .inl ⟨_, h, ?_, (Act.bind_of_ok h).trans (referEach_eq _ _)⟩
    exact List.monotone_filter_right _ fun m hm => (Bool.and_eq_true_iff.mp hm).1
  · exact .inr (Act.bind_of_error h)

end Namespace

end LispCore
