import LispCore.Proofs.Lazy.Cells
import LispCore.Proofs.Trie.Cursor
import LispCore.Seq.Basic
/-!
Proper values and sequences. A view lies within its backing, a hashed map counts its entries, a lazy
sequence has been made, and a sequence has a first element (`Value.Formed`, `Seq.Formed`). Values come
out of lazy sequences proper when all that producers give and all outcomes kept are
(`World.Formed`), and realizing keeps that so (`Act.Forms`, `forms_seq?`).
-/

namespace LispCore

mutual

/-- Views are not empty and lie within their backing, hashed maps count their entries, and lazy
sequences are among the first that were made. -/
def Value.Formed (made : Nat) : Value → Prop
  | .view v => v.WellFormed
  | .map m => m.Formed
  | .seq s => s.Formed made
  | .lazy l => l.id < made
  | _ => True

/-- A sequence has a first element, and what comes behind it is proper. -/
def Seq.Formed (made : Nat) : Seq → Prop
  | .list l => l.isEmpty = false
  | .cons _ rest => rest.Formed made
  | .slice items index stop => index < stop ∧ stop ≤ items.size
  | .chars left => left ≠ []
  | .entries c | .keys c | .vals c => c.Formed

end

/-- All that the producer may give is proper. -/
def Producer.Formed (made : Nat) : Producer → Prop
  | give v => v.Formed made
  | log _ next => next.Formed made
  | cell _ rest => rest.Formed made
  | defer inner => inner.Formed made
  | fail _ | panic _ | stream .. => True

/-- A sequence, if there is one, is proper. -/
def Seq.AllFormed (made : Nat) (o : Option Seq) : Prop := ∀ s, o = some s → s.Formed made

/-- The producer that is left and the outcome that is kept are proper. -/
structure LazyCell.Formed (made : Nat) (c : LazyCell) : Prop where
  ready : ∀ p, c.slot = .ready p → p.Formed made
  kept : ∀ o, c.realized = some (.ok o) → Seq.AllFormed made o

/-- What is known of every lazy sequence is proper. -/
def World.Formed (w : World) : Prop := ∀ l, (w.lazyCell l).Formed w.lazies.size

/-! ### More sequences that were made -/

section mono

variable {made made' : Nat}

mutual

theorem Value.Formed.mono (hle : made ≤ made') : ∀ {v : Value}, v.Formed made → v.Formed made'
  | .view _, h | .map _, h => h
  | .seq _, h => Seq.Formed.mono hle h
  | .lazy _, h => Nat.lt_of_lt_of_le h hle
  | .nil, _ | .bool _, _ | .int _, _ | .float _, _ | .char _, _ | .str _, _ | .symbol _, _
  | .keyword _, _ | .list _, _ | .vector _, _ | .var _, _ | .reduced _ _, _ | .handle _, _ => trivial

theorem Seq.Formed.mono (hle : made ≤ made') : ∀ {s : Seq}, s.Formed made → s.Formed made'
  | .cons _ _, h => Value.Formed.mono hle h
  | .list _, h | .slice _ _ _, h | .chars _, h | .entries _, h | .keys _, h | .vals _, h => h

end

theorem Producer.Formed.mono (hle : made ≤ made') : ∀ {p : Producer}, p.Formed made →
    p.Formed made'
  | give _, h => Value.Formed.mono hle h
  | log _ next, h => mono hle (p := next) h
  | cell _ rest, h => mono hle (p := rest) h
  | defer inner, h => mono hle (p := inner) h
  | fail _, _ | panic _, _ | stream _ _ _, _ => trivial

theorem Seq.AllFormed.mono {o : Option Seq} (h : Seq.AllFormed made o) (hle : made ≤ made') :
    Seq.AllFormed made' o := fun s hs => (h s hs).mono hle

theorem LazyCell.Formed.mono {c : LazyCell} (h : c.Formed made) (hle : made ≤ made') :
    c.Formed made' :=
  ⟨fun p hp => (h.ready p hp).mono hle, fun o ho => (h.kept o ho).mono hle⟩

end mono

variable {made : Nat}

namespace Seq

/-! ### Lengths known without a walk -/

/-- A proper sequence of as many elements, none when there are none. -/
def Counts (made : Nat) : Option Seq → Nat → Prop
  | none, n => n = 0
  | some s, n => s.Formed made ∧ s.knownCount? = some n

theorem Counts.allFormed {o : Option Seq} {n : Nat} (h : Counts made o n) : AllFormed made o := by
  rintro s rfl
  exact h.1

theorem counts_ofSlice {items : Array Value} {index stop : Nat} (hstop : stop ≤ items.size) :
    Counts made (ofSlice items index stop) (stop - index) := by
  rw [ofSlice]
  split
  · exact ⟨‹_›, rfl⟩
  · have hle : stop ≤ index := by omega
    exact Nat.sub_eq_zero_of_le hle

theorem counts_ofLinked (l : Linked Value) : Counts made (ofLinked l) l.count := by
  cases l with
  | nil => rfl
  | cons => exact ⟨rfl, rfl⟩

theorem counts_ofChars (cs : List Char) : Counts made (ofChars cs) cs.length := by
  cases cs with
  | nil => rfl
  | cons c cs => exact ⟨List.cons_ne_nil c cs, rfl⟩

/-- The sequence of a cursor has as many elements as the cursor has entries left. -/
theorem counts_map {c : Option (Cursor Value Value)} {n : Nat} (h : Cursor.Counts c n)
    {f : Cursor Value Value → Seq} (hf : ∀ c, (f c).Formed made = c.Formed)
    (hn : ∀ c, (f c).knownCount? = some c.remaining) : Counts made (c.map f) n := by
  cases c with
  | none => exact h
  | some c => exact ⟨(hf c).symm ▸ h.1, (hn c).trans (congrArg some h.2)⟩

/-- A step leaves one element less. -/
theorem Formed.counts_step? {s : Seq} {n : Nat} (h : s.Formed made) (hn : s.knownCount? = some n) :
    0 < n ∧ Counts made s.step? (n - 1) := by
  cases s with
  | list l =>
    cases hn
    cases l with
    | nil => cases h
    | cons stamp x rest =>
      rw [Linked.count_eq]
      have hrest : Counts made (ofLinked rest) rest.count := counts_ofLinked rest
      rw [Linked.count_eq] at hrest
      exact ⟨Nat.succ_pos _, hrest⟩
  | cons => cases hn
  | slice items index stop =>
    cases hn
    exact ⟨Nat.sub_pos_of_lt h.1, counts_ofSlice h.2⟩
  | chars left =>
    cases hn
    cases left with
    | nil => exact absurd rfl h
    | cons c cs => exact ⟨Nat.succ_pos _, counts_ofChars cs⟩
  | entries c | keys c | vals c =>
    cases hn
    exact ⟨Cursor.Formed.remaining_pos h, counts_map (Cursor.Formed.next? h) (fun _ => rfl)
      fun _ => rfl⟩

end Seq

namespace Value

variable {v : Value} {o : Option Seq} {n : Nat}

/-- The sequence of a value that knows how many elements it has is as long. -/
theorem Formed.counts_directSeq (h : v.Formed made) (hn : v.knownCount? = some n) :
    ∃ o, v.directSeq = .ok o ∧ Seq.Counts made o n := by
  cases v with
  | nil =>
    cases hn
    exact ⟨none, rfl, rfl⟩
  | list l =>
    cases hn
    exact ⟨_, rfl, Seq.counts_ofLinked l⟩
  | vector items =>
    cases hn
    exact ⟨_, rfl, Seq.counts_ofSlice (Nat.le_refl _)⟩
  | view v =>
    cases hn
    exact ⟨_, rfl, Seq.counts_ofSlice h.2⟩
  | map m =>
    cases hn
    exact ⟨_, rfl, Seq.counts_map (Map.Formed.cursor? h) (fun _ => rfl) fun _ => rfl⟩
  | _ => cases hn

/-- The sequence of a proper value is proper. -/
theorem Formed.directSeq (h : v.Formed made) (ho : v.directSeq = .ok o) :
    Seq.AllFormed made o := by
  cases hn : v.knownCount? with
  | some n =>
    obtain ⟨o', ho', hc⟩ := h.counts_directSeq hn
    rw [ho] at ho'
    cases ho'
    exact hc.allFormed
  | none =>
    cases v with
    | seq s =>
      cases ho
      rintro _ ⟨⟩
      exact h
    | str s =>
      cases ho
      exact (Seq.counts_ofChars s.toList).allFormed
    | nil | list | vector | view | map => cases hn
    | _ => cases ho

end Value

/-- What a proper sequence steps to is proper. -/
theorem Seq.Formed.step? {s : Seq} (h : s.Formed made) : AllFormed made s.step? := by
  cases hn : s.knownCount? with
  | some n => exact (h.counts_step? hn).2.allFormed
  | none =>
    cases s with
    | cons => exact nofun
    | _ => cases hn

/-! ### Actions that keep the world proper -/

/-- Run in a proper world with as many lazy sequences, the action leaves one behind with no fewer,
and a result is such for those that there are then. -/
def Act.Forms {α : Type} (made : Nat) (x : Act α) (P : Nat → α → Prop) : Prop :=
  ∀ n w, w.Formed → made ≤ w.lazies.size → match x n w with
    | .ok a w' => made ≤ w'.lazies.size ∧ w'.Formed ∧ P w'.lazies.size a
    | .error _ w' => made ≤ w'.lazies.size ∧ w'.Formed

namespace Act.Forms

variable {α β : Type} {x : Act α} {f : α → Act β} {P : Nat → α → Prop} {Q : Nat → β → Prop}

theorem pure {a : α} (h : ∀ made' ≥ made, P made' a) : Forms made (pure a) P :=
  fun _ _ hw hm => ⟨hm, hw, h _ hm⟩

theorem fail (e : Error) : Forms made (Act.fail e) P := fun _ _ hw hm => ⟨hm, hw⟩

theorem bind (hx : Forms made x P) (hf : ∀ a, ∀ made' ≥ made, P made' a → Forms made' (f a) Q) :
    Forms made (x >>= f) Q := by
  intro n w hw hm
  have hx := hx n w hw hm
  rw [Act.bind_apply]
  cases hres : x n w with
  | error e w' =>
    rw [hres] at hx
    exact hx
  | ok a w' =>
    rw [hres] at hx
    obtain ⟨hm', hw', ha⟩ := hx
    have hfa := hf a _ hm' ha n w' hw' (Nat.le_refl _)
    simp only
    cases hres' : f a n w' with
    | error e w'' =>
      rw [hres'] at hfa
      exact ⟨Nat.le_trans hm' hfa.1, hfa.2⟩
    | ok b w'' =>
      rw [hres'] at hfa
      exact ⟨Nat.le_trans hm' hfa.1, hfa.2⟩

theorem attempt (hx : Forms made x P) :
    Forms made (Act.attempt x) fun made' r => ∀ a, r = .ok a → P made' a := by
  intro n w hw hm
  have hx := hx n w hw hm
  rw [Act.attempt]
  cases hres : x n w with
  | ok a w' =>
    rw [hres] at hx
    refine ⟨hx.1, hx.2.1, fun b hb => ?_⟩
    cases hb
    exact hx.2.2
  | error f w' =>
    rw [hres] at hx
    cases f with
    | error e => exact ⟨hx.1, hx.2, fun b hb => by cases hb⟩
    | panic | exhausted => exact hx

theorem ofExcept {r : Except Error α} (h : ∀ made' ≥ made, ∀ a, r = .ok a → P made' a) :
    Forms made (Act.ofExcept r) P := by
  cases r with
  | ok a => exact .pure fun made' hm => h made' hm a rfl
  | error e => exact .fail e

/-- An action that leaves lazy sequences alone. -/
theorem other (f : World → World) (hf : ∀ w, (f w).lazies = w.lazies) :
    Forms made (modify f : Act PUnit) fun _ _ => True := by
  intro n w hw hm
  refine ⟨(hf w).symm ▸ hm, fun l => ?_, trivial⟩
  rw [World.lazyCell, hf]
  exact hw l

end Act.Forms

/-! ### Realizing -/

namespace World.Formed

variable {w : World} {f : LazyCell → LazyCell} {p : Producer}

theorem modify (hw : w.Formed) (l : Lazy)
    (hf : ∀ c, c.Formed w.lazies.size → (f c).Formed w.lazies.size) :
    World.Formed { w with lazies := w.lazies.modify l.id f } := by
  intro m
  rw [Array.size_modify]
  rcases Nat.lt_or_ge l.id w.lazies.size with hlt | hle
  · by_cases hm : m = l
    · subst hm
      rw [World.lazyCell_modify_self f hlt]
      exact hf _ (hw m)
    · rw [World.lazyCell_modify_of_ne f hm]
      exact hw m
  · rw [World.lazyCell_modify_of_le f hle]
    exact hw m

theorem push (hw : w.Formed) (hp : p.Formed w.lazies.size) :
    World.Formed { w with lazies := w.lazies.push ⟨.ready p, none⟩ } := by
  intro m
  have hle : w.lazies.size ≤ (w.lazies.push ⟨.ready p, none⟩).size := by
    rw [Array.size_push]
    exact Nat.le_succ _
  have hm := (hw m).mono hle
  rw [World.lazyCell, Array.getD_eq_getD_getElem?] at hm ⊢
  rw [Array.getElem?_push]
  split
  · refine ⟨fun q hq => ?_, fun r hr => by cases hr⟩
    cases hq
    exact hp.mono hle
  · exact hm

end World.Formed

theorem Lazy.forms_cell (l : Lazy) : Act.Forms made l.cell fun made' c => c.Formed made' :=
  fun _ _ hw hm => ⟨hm, hw, hw l⟩

theorem Lazy.forms_make {p : Producer} (hp : p.Formed made) :
    Act.Forms made (Lazy.make p) fun made' l => l.id < made' := by
  intro n w hw hm
  have hsize : (w.lazies.push ⟨.ready p, none⟩).size = w.lazies.size + 1 := Array.size_push ..
  refine ⟨?_, hw.push (hp.mono hm), ?_⟩
  · exact hsize ▸ Nat.le_succ_of_le hm
  · exact hsize ▸ Nat.lt_succ_self _

/-- Changing what is known of one sequence to something proper. -/
theorem Lazy.forms_modify (l : Lazy) {f : LazyCell → LazyCell}
    (hf : ∀ made' ≥ made, ∀ c, c.Formed made' → (f c).Formed made') :
    Act.Forms made (modify fun w => { w with lazies := w.lazies.modify l.id f } : Act PUnit)
      fun _ _ => True := by
  intro n w hw hm
  refine ⟨?_, hw.modify l (hf _ hm), trivial⟩
  rw [Array.size_modify]
  exact hm

/-- Taking the producer of a sequence. -/
theorem Lazy.forms_setSlot (l : Lazy) (slot : Slot) (h : ∀ p, slot ≠ .ready p) :
    Act.Forms made (l.setSlot slot) fun _ _ => True :=
  forms_modify l fun _ _ _ hc => ⟨fun p hp => absurd hp (h p), hc.kept⟩

theorem Lazy.forms_keep (l : Lazy) {r : Realized} (h : ∀ o, r = .ok o → Seq.AllFormed made o) :
    Act.Forms made (l.keep r) fun _ _ => True :=
  forms_modify l fun _ hm _ hc => ⟨hc.ready, fun o ho => (h o (Option.some.inj ho)).mono hm⟩

/-- A proper producer gives a proper value. -/
theorem Producer.forms_run : ∀ {made : Nat} {p : Producer}, p.Formed made →
    Act.Forms made p.run fun made' v => v.Formed made'
  | _, give _, h => .pure fun _ hm => h.mono hm
  | _, fail e, _ => .fail e
  | _, panic _, _ => fun _ _ hw hm => ⟨hm, hw⟩
  | _, log line next, h => by
    refine (Act.Forms.other (fun w => { w with produced := w.produced.push line })
      fun _ => rfl).bind fun _ _ hm _ => ?_
    exact forms_run (p := next) (Producer.Formed.mono hm h)
  | _, cell _ rest, h => by
    refine (Lazy.forms_make (p := rest) h).bind fun l _ _ hl => .pure fun _ hm => ?_
    exact Nat.lt_of_lt_of_le hl hm
  | _, defer inner, h => by
    refine (Lazy.forms_make (p := inner) h).bind fun l _ _ hl => .pure fun _ hm => ?_
    exact Nat.lt_of_lt_of_le hl hm
  | _, stream line item i, _ => by
    refine (Act.Forms.other (fun w => { w with produced := w.produced.push (line i) })
      fun _ => rfl).bind fun _ _ _ _ => ?_
    refine (Lazy.forms_make (p := .stream line item (i + 1)) trivial).bind fun l _ _ hl =>
      .pure fun _ hm => ?_
    exact Nat.lt_of_lt_of_le hl hm

theorem Value.forms_directSeq {v : Value} (h : v.Formed made) :
    Act.Forms made (Act.ofExcept v.directSeq) Seq.AllFormed :=
  .ofExcept fun _ hm _ ho => (h.mono hm).directSeq ho

namespace Lazy

variable {ask : Lazy → Act (Option Seq)}

theorem forms_chase (hask : ∀ made l, Act.Forms made (ask l) Seq.AllFormed) (self : Lazy) :
    ∀ (rounds : Nat) {made : Nat} {v : Value}, v.Formed made →
      Act.Forms made (chase ask self rounds v) Seq.AllFormed
  | 0, _, _, _ => fun _ _ hw hm => ⟨hm, hw⟩
  | rounds + 1, _, v, hv => by
    cases v with
    | lazy next =>
      refine (forms_cell next).bind fun c _ _ hc => ?_
      cases hr : c.realized with
      | some r =>
        refine .ofExcept fun _ hm o ho => (hc.kept o ?_).mono hm
        rw [hr, ho]
      | none =>
        cases hs : c.slot with
        | ready p =>
          refine (forms_setSlot next (.delegated self) nofun).bind fun _ _ hm _ => ?_
          refine (Producer.forms_run ((hc.ready p hs).mono hm)).bind fun _ _ _ hv => ?_
          exact forms_chase hask self rounds hv
        | running => exact hask _ next
        | delegated outer => exact hask _ outer
    | _ => exact Value.forms_directSeq hv

theorem forms_realize (hask : ∀ made l, Act.Forms made (ask l) Seq.AllFormed) (self : Lazy) :
    Act.Forms made (realize ask self) Seq.AllFormed := by
  refine (forms_cell self).bind fun c _ _ hc => ?_
  refine (forms_setSlot self .running nofun).bind fun _ _ hm _ => ?_
  cases hs : c.slot with
  | ready p =>
    refine (Producer.forms_run ((hc.ready p hs).mono hm)).bind fun v _ _ hv => ?_
    exact fun n w hw hm => forms_chase hask self n hv n w hw hm
  | delegated outer => exact hask _ outer
  | running =>
    refine (Act.Forms.other (fun w => { w with notices := w.notices.push .realizedAfterPanic })
      fun _ => rfl).bind fun _ _ _ _ => ?_
    exact .fail .producerPanicked

theorem forms_seqAt : ∀ (depth : Nat) (made : Nat) (l : Lazy),
    Act.Forms made (seqAt depth l) Seq.AllFormed
  | 0, _, _ => fun _ _ hw hm => ⟨hm, hw⟩
  | depth + 1, _, l => by
    refine (forms_cell l).bind fun c _ _ hc => ?_
    cases hr : c.realized with
    | some r =>
      refine .ofExcept fun _ hm o ho => (hc.kept o ?_).mono hm
      rw [hr, ho]
    | none =>
      refine (forms_realize (forms_seqAt depth) l).attempt.bind fun r _ _ hr => ?_
      exact (forms_keep l hr).bind fun _ _ hm _ => .ofExcept fun _ hm' o ho =>
        (hr o ho).mono (Nat.le_trans hm hm')

end Lazy

/-- Asked for its sequence, a proper value gives a proper one. -/
theorem Value.forms_seq? {v : Value} (h : v.Formed made) : Act.Forms made v.seq? Seq.AllFormed := by
  cases v with
  | lazy l => exact fun n w hw hm => Lazy.forms_seqAt n _ l n w hw hm
  | _ => exact Value.forms_directSeq h

end LispCore
