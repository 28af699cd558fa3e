import LispCore.Proofs.Lazy.OneHop
import LispCore.Proofs.Seq.Places
import LispCore.Proofs.Seq.Readings
/-!
Sequences that rest on elements. A sequence is on an element of its collection (`Seq.Resting`), and so is all
that lazy sequences keep and all that their producers give (`World.Resting`). A step of a realization leaves
it so (`Move.resting`), and so does all of it (`Lazy.leaves_seq?`). What is behind a sequence that rests on an
element rests on one too, as a sequence and as a value (`Seq.Resting.leaves_next?`, `Seq.Resting.more`).
-/

namespace LispCore

/-- The sequence is on an element. Behind a cell there is another such sequence, or a lazy one. -/
inductive Seq.Resting : Seq → Prop
  /-- Of a sequence that knows how many elements it has. -/
  | counted {s : Seq} {n : Nat} (hn : s.knownCount? = some n) (h : s.Formed 0) : Resting s
  | cons {x : Value} {s : Seq} (h : Resting s) : Resting (.cons x (.seq s))
  | lazyCons (x : Value) (l : Lazy) : Resting (.cons x (.lazy l))

/-- The sequence of the value is on an element, if there is one and it is not lazy. -/
def Value.Resting : Value → Prop
  | seq s => s.Resting
  | map m => m.Formed
  | view v => v.WellFormed
  | _ => True

/-- What the producer gives, now or when the sequences that it makes are realized, is such. -/
def Producer.Gives (P : Value → Prop) : Producer → Prop
  | give v => P v
  | log _ next => next.Gives P
  | cell _ rest => rest.Gives P
  | defer inner => inner.Gives P
  | fail _ | panic _ | stream .. => True

/-- Sequences that are kept rest on elements, and those that producers give do. -/
structure World.Resting (w : World) : Prop where
  ready : ∀ l p, (w.lazyCell l).slot = .ready p → p.Gives Value.Resting
  kept : ∀ l s, (w.lazyCell l).realized = some (.ok (some s)) → s.Resting

/-! ### Values and their sequences -/

theorem Seq.Counts.resting {o : Option Seq} {n : Nat} (h : Seq.Counts 0 o n) {s : Seq}
    (hs : o = some s) : s.Resting := by
  subst hs
  exact .counted h.2 h.1

theorem Value.Resting.directSeq {v : Value} {s : Seq} (h : v.Resting)
    (hs : v.directSeq = .ok (some s)) : s.Resting := by
  cases v with
  | seq => cases hs; exact h
  | list l => exact (Seq.counts_ofLinked l).resting (Except.ok.inj hs)
  | vector items => exact (Seq.counts_ofSlice (Nat.le_refl _)).resting (Except.ok.inj hs)
  | view v => exact (Seq.counts_ofSlice h.2).resting (Except.ok.inj hs)
  | map m =>
    have hc : Seq.Counts 0 (m.cursor?.map .entries) m.count :=
      Seq.counts_map (Map.Formed.cursor? h) (fun _ => rfl) fun _ => rfl
    exact hc.resting (Except.ok.inj hs)
  | str t => exact (Seq.counts_ofChars t.toList).resting (Except.ok.inj hs)
  | _ => cases hs

/-! ### Realizing -/

namespace Producer

variable {P Q : Value → Prop} {p q : Producer}

theorem Gives.imp (h : ∀ v, P v → Q v) : ∀ {p : Producer}, p.Gives P → p.Gives Q
  | give _, hp => h _ hp
  | log _ next, hp => imp h (p := next) hp
  | cell _ rest, hp => imp h (p := rest) hp
  | defer inner, hp => imp h (p := inner) hp
  | fail _, _ | panic _, _ | stream _ _ _, _ => trivial

/-- The sequence that a run makes gives no more than its own producer. -/
theorem Gives.makes : ∀ {p : Producer}, p.Gives P → p.makes? = some q → q.Gives P
  | log _ next, hp, hq => makes (p := next) hp hq
  | cell _ _, hp, hq | defer _, hp, hq => by cases hq; exact hp
  | stream _ _ _, _, hq => by cases hq; trivial
  | give _, _, hq | fail _, _, hq | panic _, _, hq => by cases hq

/-- What a run returns was given, or starts at the sequence that the run makes. -/
theorem Gives.resting {made : Lazy} {v : Value} : ∀ {p : Producer}, p.Gives Value.Resting →
    p.outcome made = .ok v → v.Resting
  | give _, hp, hv => by cases hv; exact hp
  | log _ next, hp, hv => resting (p := next) hp hv
  | cell x _, _, hv => by cases hv; exact .lazyCons x made
  | defer _, _, hv => by cases hv; trivial
  | stream _ item i, _, hv => by cases hv; exact .lazyCons (item i) made
  | fail _, _, hv | panic _, _, hv => by cases hv

end Producer

namespace World

variable {w w' : World} {p : Producer} {l : Lazy}

/-- Giving away a slot touches no other one. -/
theorem ready_of_slotted {slot : Slot} {m : Lazy} (hs : ∀ p, slot ≠ .ready p)
    (h : ((w.slotted l slot).lazyCell m).slot = .ready p) : (w.lazyCell m).slot = .ready p := by
  by_cases hm : m = l
  · subst hm
    rcases Nat.lt_or_ge m.id w.lazies.size with hlt | hle
    · rw [lazyCell_slotted_self slot hlt] at h
      exact absurd h (hs p)
    · rwa [slotted, lazyCell_modify_of_le _ hle] at h
  · rwa [lazyCell_slotted_of_ne slot hm] at h

namespace Resting

theorem of_lazies (h : w.Resting) (hl : w'.lazies = w.lazies) : w'.Resting := by
  have hcell : ∀ m, w'.lazyCell m = w.lazyCell m := fun m => by rw [lazyCell, lazyCell, hl]
  exact ⟨fun m p => hcell m ▸ h.ready m p, fun m s => hcell m ▸ h.kept m s⟩

/-- In a world without lazy sequences there is nothing that could be off. -/
theorem of_empty (h : w.lazies = #[]) : w.Resting := by
  have hcell : ∀ m, w.lazyCell m = default := fun m => by rw [lazyCell, h]; rfl
  refine ⟨fun m p hp => ?_, fun m s hs => ?_⟩
  · rw [hcell] at hp
    cases hp
  · rw [hcell] at hs
    cases hs

theorem slotted (h : w.Resting) (l : Lazy) {slot : Slot} (hs : ∀ p, slot ≠ .ready p) :
    (w.slotted l slot).Resting where
  ready m p hp := h.ready m p (ready_of_slotted hs hp)
  kept m s hm := h.kept m s ((w.realized_slotted l slot m).symm.trans hm)

theorem taken (h : w.Resting) (l : Lazy) : (w.slotted l .running).Resting :=
  h.slotted l fun _ hs => by cases hs

theorem delegated (h : w.Resting) (l outer : Lazy) : (w.slotted l (.delegated outer)).Resting :=
  h.slotted l fun _ hs => by cases hs

theorem produce (h : w.Resting) (hp : p.Gives Value.Resting) : (w.produce p).Resting := by
  constructor
  · intro m q hq
    rcases w.lazyCell_produce_cases p m with hc | ⟨q', hq', hc⟩
    · exact h.ready m q (hc ▸ hq)
    · rw [hc] at hq
      cases hq
      exact hp.makes hq'
  · intro m s hs
    rcases w.lazyCell_produce_cases p m with hc | ⟨q', -, hc⟩
    · exact h.kept m s (hc ▸ hs)
    · rw [hc] at hs
      cases hs

theorem keep (h : w.Resting) (l : Lazy) {r : Realized} (hr : ∀ s, r = .ok (some s) → s.Resting) :
    (w.kept l r).Resting where
  ready m p hp := h.ready m p ((w.slot_kept l r m).symm.trans hp)
  kept m s hs := by
    by_cases hm : m = l
    · subst hm
      rcases Nat.lt_or_ge m.id w.lazies.size with hlt | hle
      · rw [lazyCell_kept_self r hlt] at hs
        exact hr s (Option.some.inj hs)
      · rw [World.kept, lazyCell_modify_of_le _ hle] at hs
        exact h.kept m s hs
    · rw [lazyCell_kept_of_ne r hm] at hs
      exact h.kept m s hs

end Resting

end World

/-- What is run, followed or answered next rests on elements. -/
def Doing.Resting : Doing → Prop
  | ask _ => True
  | run p => p.Gives Value.Resting
  | follow v => v.Resting
  | close a | back _ a => ∀ s, a = .ok (some s) → s.Resting

/-- All that there is at the moment rests on elements. -/
structure Moment.Resting (c : Moment) : Prop where
  world : c.world.Resting
  doing : c.doing.Resting

theorem Realized.ok_of_answer {r : Realized} {o : Option Seq} (h : r.answer = .ok o) : r = .ok o :=
  Realized.answer_inj (h.trans (show Except.ok o = Realized.answer (.ok o) from rfl))

/-- A step of a call keeps it so. -/
theorem Move.resting {c d : Moment} (h : Move c d) (hc : c.Resting) : d.Resting := by
  cases h with
  | @told _ l _ _ hr | @found _ l _ _ hr =>
    exact ⟨hc.world, fun s hs => hc.world.kept l s (by rw [hr, Realized.ok_of_answer hs])⟩
  | take hl => exact ⟨hc.world.taken _, hc.world.ready _ _ (by rw [hl])⟩
  | pass => exact ⟨hc.world.taken _, trivial⟩
  | @gone _ l => exact ⟨(hc.world.taken l).of_lazies rfl, fun _ hs => by cases hs⟩
  | returned ho => exact ⟨hc.world.produce hc.doing, Producer.Gives.resting hc.doing ho⟩
  | failed => exact ⟨hc.world.produce hc.doing, fun _ hs => by cases hs⟩
  | direct =>
    exact ⟨hc.world, fun s hs => Value.Resting.directSeq hc.doing (Realized.ok_of_answer hs)⟩
  | claim hl => exact ⟨hc.world.delegated _ _, hc.world.ready _ _ (by rw [hl])⟩
  | wait | waitOuter => exact ⟨hc.world, trivial⟩
  | keep ha => exact ⟨hc.world.keep _ fun s hs => hc.doing s (by rw [ha, hs]; rfl), hc.doing⟩
  | unwind | resume => exact ⟨hc.world, hc.doing⟩

theorem Moves.resting {c d : Moment} (h : Moves c d) (hc : c.Resting) : d.Resting := by
  induction h with
  | refl => exact hc
  | tail _ hm ih => exact hm.resting ih

/-! ### Calls -/

/-- Run where all rests on elements, the action leaves it so, unless its budget runs out, and its result is
such. -/
def Act.Leaves {α : Type} (x : Act α) (P : α → Prop) : Prop :=
  ∀ n w, w.Resting → match x n w with
    | .ok a w' => w'.Resting ∧ P a
    | .error f w' => f = .exhausted ∨ w'.Resting

namespace Act.Leaves

variable {α β : Type} {x : Act α} {f : α → Act β} {P : α → Prop} {Q : β → Prop}

theorem pure {a : α} (h : P a) : Leaves (pure a) P := fun _ _ hw => ⟨hw, h⟩

theorem ofExcept {r : Except Error α} (h : ∀ a, r = .ok a → P a) : Leaves (Act.ofExcept r) P := by
  cases r with
  | ok a => exact .pure (h a rfl)
  | error e => exact fun _ _ hw => .inr hw

theorem bind (hx : Leaves x P) (hf : ∀ a, P a → Leaves (f a) Q) : Leaves (x >>= f) Q := by
  intro n w hw
  have hx := hx n w hw
  rw [Act.bind_apply]
  cases hres : x n w with
  | error e w' =>
    rw [hres] at hx
    exact hx
  | ok a w' =>
    rw [hres] at hx
    exact hf a hx.2 n w' hx.1

/-- Taking numbers leaves lazy sequences alone. -/
theorem freshStamps (count : Nat) : Leaves (Act.freshStamps count) fun _ => True :=
  fun _ _ hw => ⟨hw.of_lazies rfl, trivial⟩

theorem freshStamp : Leaves Act.freshStamp fun _ => True :=
  fun _ _ hw => ⟨hw.of_lazies rfl, trivial⟩

end Act.Leaves

/-- A sequence that is had, if there is one, is on an element. -/
def Seq.AllResting (o : Option Seq) : Prop := ∀ s, o = some s → s.Resting

theorem Lazy.leaves_seq? (l : Lazy) : Act.Leaves l.seq? Seq.AllResting := by
  intro n w hw
  have hpass : ∀ a w', l.seq? n w = Act.ended a w' → a ≠ .error .exhausted →
      w'.Resting ∧ ∀ s, a = .ok (some s) → s.Resting := by
    intro a w' h ha
    have hend := (Lazy.moves_seqAt n n [] l w a w' h ha).resting ⟨hw, trivial⟩
    exact ⟨hend.world, hend.doing⟩
  cases h : l.seq? n w with
  | ok o w' =>
    have := hpass (.ok o) w' h (fun h => by cases h)
    exact ⟨this.1, fun s hs => this.2 s (congrArg Except.ok hs)⟩
  | error f w' =>
    by_cases hf : f = .exhausted
    · exact .inl hf
    · exact .inr (hpass (.error f) w' h fun h => hf (Except.error.inj h)).1

theorem Value.Resting.leaves_seq? {v : Value} (hv : v.Resting) : Act.Leaves v.seq? Seq.AllResting := by
  cases v with
  | lazy l => exact l.leaves_seq?
  | _ => exact .ofExcept fun o ho s hs => hv.directSeq (ho.trans (congrArg Except.ok hs))

/-! ### Going on -/

namespace Seq.Resting

variable {s t : Seq}

/-- What is behind a sequence that knows how many elements it has rests on an element too. -/
theorem step? (h : s.Resting) (ht : s.step? = some t) : t.Resting := by
  cases h with
  | counted hn hf => exact (hf.counts_step? hn).2.resting ht
  | cons | lazyCons => cases ht

theorem leaves_next? (h : s.Resting) : Act.Leaves s.next? AllResting := by
  cases h with
  | counted hn hf =>
    rw [next?_of_known hn]
    exact .pure fun t ht => (Resting.counted hn hf).step? ht
  | cons h => exact Value.Resting.leaves_seq? (v := .seq _) h
  | lazyCons x l => exact l.leaves_seq?

/-- The rest as a value is one of a sequence that rests on an element, or the empty list. -/
theorem more (h : s.Resting) : s.more.Resting := by
  cases s with
  | list l => trivial
  | cons x rest =>
    cases h with
    | counted hn => cases hn
    | cons h => exact h
    | lazyCons => trivial
  | slice | entries | chars | keys | vals =>
    dsimp only [Seq.more]
    split
    · exact h.step? ‹_›
    · trivial

end Seq.Resting

end LispCore
