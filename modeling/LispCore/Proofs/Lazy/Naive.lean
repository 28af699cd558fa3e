import LispCore.Proofs.Lazy.Cells
import Mathlib.Data.List.Basic
/-!
The naive reading of lazy sequences: run the producer; if it returns another lazy sequence, read
that one. It depends on how the producers end alone. Every sequence has one reading at most
(`Reads.unique`), and a sequence that leads to another one has the same reading (`Leads.reads`,
`Leads.of_reads`). A `Book` says with which producer each sequence started, which producers have
run, and which sequence each run made.
-/

namespace LispCore

/-- What the naive reading comes to. -/
inductive Reading where
  /-- The outcome of a realization. -/
  | returns (r : Realized)
  /-- The producer of this sequence panics. -/
  | panics (j : Lazy) (text : String)

abbrev Endings := Lazy → Except Fault Value → Prop

inductive Reads (ends : Endings) : Lazy → Reading → Prop
  | value {l : Lazy} {v : Value} (h : ends l (.ok v)) (hv : ∀ m, v ≠ .lazy m) :
      Reads ends l (.returns v.directSeq)
  | error {l : Lazy} {e : Error} (h : ends l (.error (.error e))) :
      Reads ends l (.returns (.error e))
  | panic {l : Lazy} {text : String} (h : ends l (.error (.panic text))) :
      Reads ends l (.panics l text)
  | inner {l m : Lazy} {r : Reading} (h : ends l (.ok (.lazy m))) (hm : Reads ends m r) :
      Reads ends l r

/-- Each producer on the way from a sequence to another one returns the next sequence. -/
inductive Leads (ends : Endings) : Lazy → Lazy → Prop
  | refl (l : Lazy) : Leads ends l l
  | inner {l m k : Lazy} (h : ends l (.ok (.lazy m))) (hm : Leads ends m k) : Leads ends l k

/-- Every producer ends in one way at most. -/
def Endings.Unique (ends : Endings) : Prop := ∀ l o o', ends l o → ends l o' → o = o'

section

variable {ends ends' : Endings} {l m k : Lazy} {r r' : Reading}

theorem Reads.mono (hr : Reads ends l r) (h : ∀ l o, ends l o → ends' l o) : Reads ends' l r := by
  induction hr with
  | value he hv => exact .value (h _ _ he) hv
  | error he => exact .error (h _ _ he)
  | panic he => exact .panic (h _ _ he)
  | inner he _ ih => exact .inner (h _ _ he) ih

theorem Leads.mono (hl : Leads ends l m) (h : ∀ l o, ends l o → ends' l o) : Leads ends' l m := by
  induction hl with
  | refl => exact .refl _
  | inner he _ ih => exact .inner (h _ _ he) ih

theorem Leads.trans (h : Leads ends l m) (h' : Leads ends m k) : Leads ends l k := by
  induction h with
  | refl => exact h'
  | inner he _ ih => exact .inner he (ih h')

theorem Leads.step (h : Leads ends l m) (he : ends m (.ok (.lazy k))) : Leads ends l k :=
  h.trans (.inner he (.refl _))

/-- A sequence has the reading of every sequence that it leads to. -/
theorem Leads.reads (h : Leads ends l m) (hr : Reads ends m r) : Reads ends l r := by
  induction h with
  | refl => exact hr
  | inner he _ ih => exact .inner he (ih hr)

/-- Whoever is read as panicking leads to a sequence whose producer panics. -/
theorem Reads.leads {j : Lazy} {text : String} (h : Reads ends l (.panics j text)) :
    Leads ends l j ∧ ends j (.error (.panic text)) := by
  generalize hr : Reading.panics j text = r at h
  induction h with
  | value | error => cases hr
  | panic he =>
    cases hr
    exact ⟨.refl _, he⟩
  | inner he _ ih => exact ⟨.inner he (ih hr).1, (ih hr).2⟩

variable (hu : ends.Unique)
include hu

/-- What a sequence returned is read next. -/
theorem Reads.of_inner (h : Reads ends l r) (he : ends l (.ok (.lazy m))) : Reads ends m r := by
  cases h with
  | value h hv => exact absurd (Except.ok.inj (hu _ _ _ h he)) (hv m)
  | error h | panic h => cases hu _ _ _ h he
  | inner h hm =>
    cases hu _ _ _ h he
    exact hm

theorem Leads.of_reads (h : Leads ends l m) (hr : Reads ends l r) : Reads ends m r := by
  induction h with
  | refl => exact hr
  | inner he _ ih => exact ih (hr.of_inner hu he)

/-- A sequence has one reading. -/
theorem Reads.unique (h : Reads ends l r) (h' : Reads ends l r') : r = r' := by
  induction h with
  | value he hv =>
    cases h' with
    | value he' => rw [Except.ok.inj (hu _ _ _ he he')]
    | error he' | panic he' => cases hu _ _ _ he he'
    | inner he' => exact absurd (Except.ok.inj (hu _ _ _ he he')) (hv _)
  | error he =>
    cases h' with
    | value he' | inner he' | panic he' => cases hu _ _ _ he he'
    | error he' =>
      cases hu _ _ _ he he'
      rfl
  | panic he =>
    cases h' with
    | value he' | inner he' | error he' => cases hu _ _ _ he he'
    | panic he' =>
      cases hu _ _ _ he he'
      rfl
  | inner he _ ih => exact ih (h'.of_inner hu he)

end

/-! ### Books -/

/-- What has become of lazy sequences. -/
structure Book where
  /-- The producers that the sequences started with, by number. -/
  started : List Producer
  /-- The sequences whose producers have run, the latest first. -/
  ran : List Lazy
  /-- The sequence that the run of a producer made. -/
  made : Lazy → Lazy

namespace Book

/-- How the producers end when they are run, each making the sequence in the book. -/
def ends (b : Book) : Endings := fun l o =>
  ∃ p, b.started[l.id]? = some p ∧ p.outcome (b.made l) = o

/-- How the producers that have run ended. -/
def ended (b : Book) : Endings := fun l o => l ∈ b.ran ∧ b.ends l o

/-- More sequences have been made and more producers have run. -/
structure Grows (b b' : Book) : Prop where
  started : b.started <+: b'.started
  ran : ∀ l ∈ b.ran, l ∈ b'.ran
  made : ∀ l ∈ b.ran, b'.made l = b.made l

variable {b b' b'' : Book}

theorem Grows.refl (b : Book) : Grows b b := ⟨List.prefix_refl _, fun _ h => h, fun _ _ => rfl⟩

theorem Grows.trans (h : Grows b b') (h' : Grows b' b'') : Grows b b'' where
  started := h.started.trans h'.started
  ran l hl := h'.ran l (h.ran l hl)
  made l hl := (h'.made l (h.ran l hl)).trans (h.made l hl)

theorem started_of_prefix {family : List Producer} (h : family <+: b.started) {i : Nat}
    {p : Producer} (hp : family[i]? = some p) : b.started[i]? = some p := by
  obtain ⟨rest, hrest⟩ := h
  rw [← hrest, List.getElem?_append_left (List.getElem?_eq_some_iff.mp hp).1]
  exact hp

theorem Grows.ended (h : Grows b b') (l : Lazy) (o : Except Fault Value) (he : b.ended l o) :
    b'.ended l o := by
  obtain ⟨hl, p, hp, ho⟩ := he
  refine ⟨h.ran l hl, p, started_of_prefix h.started hp, ?_⟩
  rw [h.made l hl]
  exact ho

theorem ends_unique (b : Book) : b.ends.Unique := by
  rintro l o o' ⟨p, hp, rfl⟩ ⟨p', hp', rfl⟩
  rw [Option.some.inj (hp.symm.trans hp')]

theorem ended_unique (b : Book) : b.ended.Unique :=
  fun l o o' h h' => b.ends_unique l o o' h.2 h'.2

theorem mem_ran_of_reads {l : Lazy} {r : Reading} (h : Reads b.ended l r) : l ∈ b.ran := by
  cases h with
  | value h | error h | panic h | inner h => exact h.1

end Book

end LispCore
