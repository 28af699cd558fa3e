import LispCore.Proofs.Lazy.Naive
import Mathlib.Data.Finset.Card
import Mathlib.Logic.Function.Basic
import Mathlib.Logic.Relation
/-!
Families of lazy sequences that return one another without going around in a circle (`Acyclic`). The
members are ranked by how many members lead to them, and from the ranks every sequence, also one made
on the way, gets a weight that gets less with each hop (`Book.WellKept.weight_lt`) and that one bound
for the family limits (`Book.WellKept.weight_le`). `Book.run` enters the run of a producer.
-/

namespace LispCore

/-! ### Producers -/

namespace Producer

/-- The sequence that was there already and is returned, by the producer or by those that it makes
and returns. -/
def returned? : Producer → Option Lazy
  | give (.lazy m) => some m
  | log _ next => next.returned?
  | defer inner => inner.returned?
  | _ => none

/-- The sequence that was there already and is returned in the end, by the producer or by any that it
makes. -/
def mentioned? : Producer → Option Lazy
  | give (.lazy m) => some m
  | log _ next => next.mentioned?
  | defer inner => inner.mentioned?
  | cell _ rest => rest.mentioned?
  | _ => none

/-- How many sequences are made and returned, one by the producer of the other. -/
def defers : Producer → Nat
  | log _ next => next.defers
  | defer inner => inner.defers + 1
  | _ => 0

def size : Producer → Nat
  | log _ next => next.size + 1
  | defer inner => inner.size + 1
  | cell _ rest => rest.size + 1
  | _ => 0

/-- How many sequences are met after the producer has run, when so many are met from one that was
there already. -/
def hops (met : Lazy → Nat) (p : Producer) : Nat :=
  p.defers + (p.returned?.elim 0 fun m => met m + 1)

theorem mentioned_of_returned {m : Lazy} : ∀ {p : Producer}, p.returned? = some m →
    p.mentioned? = some m
  | give (.lazy _), h => h
  | log _ next, h => mentioned_of_returned (p := next) h
  | defer inner, h => mentioned_of_returned (p := inner) h

theorem defers_le_size : ∀ p : Producer, p.defers ≤ p.size
  | give _ | fail _ | panic _ | stream .. | cell .. => Nat.zero_le _
  | log _ next => Nat.le_succ_of_le (defers_le_size next)
  | defer inner => Nat.succ_le_succ (defers_le_size inner)

theorem size_makes {q : Producer} : ∀ {p : Producer}, p.makes? = some q → q.size ≤ p.size
  | log _ next, h => Nat.le_succ_of_le (size_makes (p := next) h)
  | cell .., h | defer _, h => by
    cases h
    exact Nat.le_succ _
  | stream .., h => by
    cases h
    exact Nat.le_refl _

theorem mentioned_makes {q : Producer} {m : Lazy} : ∀ {p : Producer}, p.makes? = some q →
    q.mentioned? = some m → p.mentioned? = some m
  | log _ next, h, hm => mentioned_makes (p := next) h hm
  | cell .., h, hm | defer _, h, hm => by
    cases h
    exact hm
  | stream .., h, hm => by
    cases h
    cases hm

/-- A run that returns a lazy sequence returns one that was there already or the one that it makes;
from either there is one hop less to go. -/
theorem returns_lazy {made m : Lazy} (met : Lazy → Nat) : ∀ {p : Producer},
    p.outcome made = .ok (.lazy m) →
    (p.mentioned? = some m ∧ p.hops met = met m + 1) ∨
      ∃ q, p.makes? = some q ∧ m = made ∧ p.hops met = q.hops met + 1
  | give v, h => by
    cases h
    exact .inl ⟨rfl, Nat.zero_add _⟩
  | log _ next, h => returns_lazy met (p := next) h
  | defer inner, h => by
    cases h
    exact .inr ⟨inner, rfl, rfl, Nat.add_right_comm ..⟩

end Producer

/-! ### Ranks -/

/-- The producer of the second sequence returns the first. -/
def Returns (family : List Producer) (m l : Lazy) : Prop :=
  ∃ p, family[l.id]? = some p ∧ p.returned? = some m

/-- The producers of a family of lazy sequences: they return members of the family, and no member
leads back to itself. -/
structure Acyclic (family : List Producer) : Prop where
  closed : ∀ p ∈ family, ∀ m, p.mentioned? = some m → m.id < family.length
  acyclic : ∀ l, ¬Relation.TransGen (Returns family) l l

/-- Members that return only earlier ones never lead back to themselves. -/
theorem Acyclic.of_lt {family : List Producer}
    (h : ∀ (i : Nat) (p : Producer) (m : Lazy), family[i]? = some p → p.mentioned? = some m → m.id < i) :
    Acyclic family where
  closed p hp m hm := by
    obtain ⟨i, hi, rfl⟩ := List.getElem_of_mem hp
    exact (h i _ m (List.getElem?_eq_getElem hi) hm).trans hi
  acyclic l hl := by
    have hless : ∀ m, Relation.TransGen (Returns family) m l → m.id < l.id := by
      intro m hm
      induction hm using Relation.TransGen.head_induction_on with
      | single hr =>
        obtain ⟨p, hp, hm⟩ := hr
        exact h _ p _ hp (Producer.mentioned_of_returned hm)
      | head hr _ ih =>
        obtain ⟨p, hp, hm⟩ := hr
        exact (h _ p _ hp (Producer.mentioned_of_returned hm)).trans ih
    exact Nat.lt_irrefl _ (hless l hl)

section

open Classical

/-- The members that a member leads to, by number. -/
noncomputable def beneath (family : List Producer) (l : Lazy) : Finset Nat :=
  (Finset.range family.length).filter fun i => Relation.TransGen (Returns family) ⟨i⟩ l

theorem card_beneath_lt {family : List Producer} (h : Acyclic family) {m l : Lazy}
    (hr : Returns family m l) : (beneath family m).card < (beneath family l).card := by
  obtain ⟨p, hp, hm⟩ := hr
  have hlt : m.id < family.length :=
    h.closed p (List.mem_of_getElem? hp) m (Producer.mentioned_of_returned hm)
  have hl : Relation.TransGen (Returns family) m l := .single ⟨p, hp, hm⟩
  refine Finset.card_lt_card (Finset.ssubset_iff_of_subset ?_ |>.mpr ⟨m.id, ?_, ?_⟩)
  · intro i hi
    obtain ⟨hi, ht⟩ := Finset.mem_filter.mp hi
    exact Finset.mem_filter.mpr ⟨hi, ht.trans hl⟩
  · exact Finset.mem_filter.mpr ⟨Finset.mem_range.mpr hlt, hl⟩
  · intro hmem
    exact h.acyclic m (Finset.mem_filter.mp hmem).2

theorem card_beneath_le (family : List Producer) (l : Lazy) :
    (beneath family l).card ≤ family.length := by
  have hle := Finset.card_filter_le (Finset.range family.length)
    fun i => Relation.TransGen (Returns family) ⟨i⟩ l
  rw [Finset.card_range] at hle
  exact hle

end

def largest (family : List Producer) : Nat := (family.map Producer.size).foldr max 0

theorem size_le_largest : ∀ {family : List Producer} {p : Producer}, p ∈ family →
    p.size ≤ largest family
  | q :: qs, p, h => by
    rw [largest, List.map_cons, List.foldr_cons]
    rcases List.mem_cons.mp h with rfl | h
    · exact Nat.le_max_left ..
    · exact Nat.le_trans (size_le_largest h) (Nat.le_max_right ..)

/-- A bound on how many sequences are met from a member of the family. -/
noncomputable def met (family : List Producer) (l : Lazy) : Nat :=
  ((beneath family l).card + 1) * (largest family + 1)

/-- A bound on how many sequences are met from any sequence. -/
def maxHops (family : List Producer) : Nat := (family.length + 2) * (largest family + 1)

/-- The producer of a member meets no more sequences than the member. -/
theorem hops_le_met {family : List Producer} (h : Acyclic family) {l : Lazy} {p : Producer}
    (hp : family[l.id]? = some p) : p.hops (met family) ≤ met family l := by
  have hd : p.defers ≤ largest family :=
    Nat.le_trans p.defers_le_size (size_le_largest (List.mem_of_getElem? hp))
  cases hr : p.returned? with
  | none =>
    have hle : largest family + 1 ≤ met family l := Nat.le_mul_of_pos_left _ (Nat.succ_pos _)
    rw [Producer.hops, hr, Option.elim_none]
    omega
  | some m =>
    have hlt := card_beneath_lt h ⟨p, hp, hr⟩
    have hle : ((beneath family m).card + 1 + 1) * (largest family + 1) ≤ met family l :=
      Nat.mul_le_mul_right _ (Nat.succ_le_succ hlt)
    have hm : ((beneath family m).card + 1 + 1) * (largest family + 1) =
      met family m + (largest family + 1) := Nat.succ_mul ..
    rw [Producer.hops, hr, Option.elim_some]
    omega

/-! ### Books of a family -/

/-- A producer no larger than those of the family that mentions members alone. -/
structure Fits (family : List Producer) (p : Producer) : Prop where
  size : p.size ≤ largest family
  closed : ∀ m, p.mentioned? = some m → m.id < family.length

theorem Fits.makes {family : List Producer} {p q : Producer} (h : Fits family p)
    (hq : p.makes? = some q) : Fits family q where
  size := Nat.le_trans (Producer.size_makes hq) h.size
  closed m hm := h.closed m (Producer.mentioned_makes hq hm)

theorem Fits.hops_le {family : List Producer} {p : Producer} (h : Fits family p) :
    p.hops (met family) ≤ maxHops family := by
  have hd : p.defers ≤ largest family := Nat.le_trans p.defers_le_size h.size
  have hmax : maxHops family =
    (family.length + 1) * (largest family + 1) + (largest family + 1) := Nat.succ_mul ..
  cases hr : p.returned? with
  | none =>
    rw [Producer.hops, hr, Option.elim_none]
    omega
  | some m =>
    have hle : met family m ≤ (family.length + 1) * (largest family + 1) :=
      Nat.mul_le_mul_right _ (Nat.succ_le_succ (card_beneath_le family m))
    rw [Producer.hops, hr, Option.elim_some]
    omega

namespace Book

/-- A book that starts with a family and enters each run once, with what it made. -/
structure WellKept (family : List Producer) (b : Book) : Prop where
  begins : family <+: b.started
  fits : ∀ p ∈ b.started, Fits family p
  nodup : b.ran.Nodup
  ran_lt : ∀ l ∈ b.ran, l.id < b.started.length
  made : ∀ l ∈ b.ran, ∀ p q, b.started[l.id]? = some p → p.makes? = some q →
    family.length ≤ (b.made l).id ∧ b.started[(b.made l).id]? = some q

/-- The lines that the runs wrote, in their order. -/
def lines (b : Book) : List String :=
  b.ran.reverse.flatMap fun l => b.started[l.id]?.elim [] Producer.lines

/-- A bound on how many sequences are met from a sequence. -/
noncomputable def weight (family : List Producer) (b : Book) (l : Lazy) : Nat :=
  b.started[l.id]?.elim 0 fun p => p.hops (met family)

/-- The book after a run of a producer. -/
def run (b : Book) (l : Lazy) (p : Producer) : Book where
  started := b.started ++ p.makes?.toList
  ran := l :: b.ran
  made := Function.update b.made l ⟨b.started.length⟩

variable {family : List Producer} {b : Book} {l m : Lazy} {p : Producer}

theorem weight_eq (hp : b.started[l.id]? = some p) : b.weight family l = p.hops (met family) := by
  rw [weight, hp, Option.elim_some]

theorem WellKept.weight_le (h : b.WellKept family) (l : Lazy) :
    b.weight family l ≤ maxHops family := by
  unfold weight
  cases hp : b.started[l.id]? with
  | none => exact Nat.zero_le _
  | some p => exact (h.fits p (List.mem_of_getElem? hp)).hops_le

/-- What a producer returned is in the book, and there is less to go from there. -/
theorem WellKept.weight_lt (h : b.WellKept family) (hf : Acyclic family)
    (he : b.ended l (.ok (.lazy m))) :
    m.id < b.started.length ∧ b.weight family m < b.weight family l := by
  obtain ⟨hl, p, hp, ho⟩ := he
  rw [weight_eq hp]
  rcases Producer.returns_lazy (met family) ho with ⟨hm, hhops⟩ | ⟨q, hq, rfl, hhops⟩
  · have hlt := (h.fits p (List.mem_of_getElem? hp)).closed m hm
    obtain ⟨q, hq⟩ : ∃ q, family[m.id]? = some q := ⟨_, List.getElem?_eq_getElem hlt⟩
    have hq' := started_of_prefix h.begins hq
    refine ⟨(List.getElem?_eq_some_iff.mp hq').1, ?_⟩
    rw [weight_eq hq', hhops]
    exact Nat.lt_succ_of_le (hops_le_met hf hq)
  · obtain ⟨-, hq'⟩ := h.made l hl p q hp hq
    refine ⟨(List.getElem?_eq_some_iff.mp hq').1, ?_⟩
    rw [weight_eq hq', hhops]
    exact Nat.lt_succ_self _

theorem WellKept.weight_le_of_leads (h : b.WellKept family) (hf : Acyclic family)
    (hl : Leads b.ended l m) : b.weight family m ≤ b.weight family l := by
  induction hl with
  | refl => exact Nat.le_refl _
  | inner he _ ih => exact Nat.le_trans ih (Nat.le_of_lt (h.weight_lt hf he).2)

@[simp] theorem made_run_self : (b.run l p).made l = ⟨b.started.length⟩ := Function.update_self ..

theorem made_run_of_ne (h : m ≠ l) : (b.run l p).made m = b.made m := Function.update_of_ne h ..

theorem started_run {i : Nat} {q : Producer} (hq : b.started[i]? = some q) :
    (b.run l p).started[i]? = some q := started_of_prefix (List.prefix_append ..) hq

theorem grows_run (hl : l ∉ b.ran) : b.Grows (b.run l p) where
  started := List.prefix_append ..
  ran _ hm := List.mem_cons_of_mem _ hm
  made _ hm := made_run_of_ne fun h => hl (h ▸ hm)

theorem ended_run (hp : b.started[l.id]? = some p) :
    (b.run l p).ended l (p.outcome ⟨b.started.length⟩) :=
  ⟨List.mem_cons_self .., p, started_run hp, by rw [made_run_self]⟩

theorem WellKept.lines_run (h : b.WellKept family) (hp : b.started[l.id]? = some p) :
    (b.run l p).lines = b.lines ++ p.lines := by
  rw [lines, lines, run, List.reverse_cons, List.flatMap_append, List.flatMap_singleton]
  congr 1
  · refine List.flatMap_congr fun m hm => ?_
    have hlt := h.ran_lt m (List.mem_reverse.mp hm)
    rw [List.getElem?_append_left hlt]
  · rw [List.getElem?_append_left (List.getElem?_eq_some_iff.mp hp).1, hp, Option.elim_some]

theorem WellKept.run (h : b.WellKept family) (hl : l ∉ b.ran) (hp : b.started[l.id]? = some p) :
    (b.run l p).WellKept family where
  begins := h.begins.trans (List.prefix_append ..)
  fits q hq := by
    rcases List.mem_append.mp hq with hq | hq
    · exact h.fits q hq
    · exact (h.fits p (List.mem_of_getElem? hp)).makes (Option.mem_toList.mp hq)
  nodup := List.nodup_cons.mpr ⟨hl, h.nodup⟩
  ran_lt m hm := by
    rw [Book.run, List.length_append]
    rcases List.mem_cons.mp hm with rfl | hm
    · exact Nat.lt_add_right _ (List.getElem?_eq_some_iff.mp hp).1
    · exact Nat.lt_add_right _ (h.ran_lt m hm)
  made m hm p' q hp' hq := by
    by_cases hml : m = l
    · subst hml
      have hpp : p' = p := Option.some.inj (hp'.symm.trans (started_run hp))
      rw [made_run_self, Book.run, ← hpp, hq]
      exact ⟨h.begins.length_le, by simp⟩
    · have hm : m ∈ b.ran := (List.mem_cons.mp hm).resolve_left hml
      obtain ⟨p₀, hp₀⟩ : ∃ p₀, b.started[m.id]? = some p₀ :=
        ⟨_, List.getElem?_eq_getElem (h.ran_lt m hm)⟩
      have hpp : p' = p₀ := Option.some.inj (hp'.symm.trans (started_run hp₀))
      obtain ⟨hle, hmade⟩ := h.made m hm p₀ q hp₀ (hpp ▸ hq)
      rw [made_run_of_ne hml]
      exact ⟨hle, started_run hmade⟩

end Book

end LispCore
