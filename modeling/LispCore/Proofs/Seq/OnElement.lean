import LispCore.Proofs.Seq.Resting
import LispCore.Proofs.Trie.Counting
import LispCore.Seq.Build
/-!
Every sequence that a caller has in hand is on an element. A caller starts without lazy sequences, takes
collections, makes lazy sequences, and calls the functions of sequences on what it has (`InHand`). Each call
leaves all that there is resting on elements (`SeqOp.leaves_run`), so whatever was called before, a sequence
in hand is in order in its collection and goes on without an error, unless a lazy sequence behind a cell
fails (`Seq.rests_on_element`).
-/

namespace LispCore

/-! ### Calls -/

/-- A call of a function of sequences. -/
inductive SeqOp where
  | seq (v : Value)
  | next (v : Value)
  | more (v : Value)
  | cons (x v : Value)
  | list (xs : List Value)
  | listStar (leading : List Value) (tail : Value)
  | keys (v : Value)
  | vals (v : Value)

namespace SeqOp

/-- The value that is traversed or put behind. -/
def source? : SeqOp → Option Value
  | seq v | next v | more v | cons _ v | listStar _ v | keys v | vals v => some v
  | list _ => none

def run : SeqOp → Act Value
  | seq v => do return .ofSeq? (← v.seq?)
  | next v => do return .ofSeq? (← v.next?)
  | more v => v.more
  | cons x v => do return .seq (← Seq.consOnto x v)
  | list xs => do return .list (← Linked.ofList xs)
  | listStar leading tail => Value.listStar leading tail
  | keys v => do return .ofSeq? (← v.keys?)
  | vals v => do return .ofSeq? (← v.vals?)

end SeqOp

theorem Value.resting_ofSeq? {o : Option Seq} (h : Seq.AllResting o) : (Value.ofSeq? o).Resting := by
  cases o with
  | none => trivial
  | some s => exact h s rfl

theorem Act.Leaves.ofSeq? {x : Act (Option Seq)} (h : Act.Leaves x Seq.AllResting) :
    Act.Leaves (do return .ofSeq? (← x)) Value.Resting :=
  h.bind fun _ ho => .pure (Value.resting_ofSeq? ho)

theorem Linked.leaves_push (l : Linked Value) (x : Value) :
    Act.Leaves (l.push x) fun l => (Seq.list l).Resting :=
  Act.Leaves.freshStamp.bind fun _ _ => .pure (.counted rfl rfl)

namespace Value.Resting

variable {v : Value}

theorem leaves_next? (h : v.Resting) : Act.Leaves v.next? Seq.AllResting := by
  refine h.leaves_seq?.bind fun o ho => ?_
  cases o with
  | none => exact .pure ho
  | some s => exact (ho s rfl).leaves_next?

theorem leaves_more (h : v.Resting) : Act.Leaves v.more Value.Resting := by
  refine h.leaves_seq?.bind fun o ho => ?_
  cases o with
  | none => exact .pure trivial
  | some s => exact .pure (ho s rfl).more

theorem leaves_consOnto (h : v.Resting) (x : Value) : Act.Leaves (Seq.consOnto x v) Seq.Resting := by
  have hlist (l : Linked Value) : Act.Leaves (do return Seq.list (← l.push x)) Seq.Resting :=
    (l.leaves_push x).bind fun _ hl => .pure hl
  cases v with
  | nil => exact hlist .nil
  | list l => exact hlist l
  | seq s =>
    cases s with
    | list l => exact hlist l
    | _ => exact .pure (.cons h)
  | lazy l => exact .pure (.lazyCons x l)
  | _ =>
    refine h.leaves_seq?.bind fun o ho => ?_
    cases o with
    | none => exact hlist .nil
    | some s => exact .pure (.cons (ho s rfl))

theorem leaves_consAll : ∀ (xs : List Value) {v : Value}, v.Resting →
    Act.Leaves (Value.consAll xs v) Value.Resting
  | [], _, h => .pure h
  | x :: xs, _, h => (h.leaves_consOnto x).bind fun s hs => leaves_consAll xs (v := .seq s) hs

theorem leaves_listStar (h : v.Resting) (leading : List Value) :
    Act.Leaves (Value.listStar leading v) Value.Resting := by
  cases leading with
  | nil => exact h.leaves_seq?.ofSeq?
  | cons x xs => exact leaves_consAll _ h

/-- The cursors of a map rest on entries, whatever they show of these. -/
theorem allResting_map {m : Map Value Value} (h : (Value.map m).Resting) {f : Cursor Value Value → Seq}
    (hf : ∀ c, (f c).Formed 0 = c.Formed) (hn : ∀ c, (f c).knownCount? = some c.remaining) :
    Seq.AllResting (m.cursor?.map f) :=
  fun _ => (Seq.counts_map (Map.Formed.cursor? h) hf hn).resting

theorem leaves_ofEntries? (h : v.Resting) (op : String) {f : Cursor Value Value → Seq}
    (hf : ∀ c, (f c).Formed 0 = c.Formed) (hn : ∀ c, (f c).knownCount? = some c.remaining) :
    Act.Leaves (v.ofEntries? op f) Seq.AllResting := by
  cases v with
  | nil => exact .pure fun _ hs => by cases hs
  | map m => exact .pure (h.allResting_map hf hn)
  | _ => exact fun _ _ hw => .inr hw

end Value.Resting

/-- A call on what rests on elements leaves all that there is resting on them. -/
theorem SeqOp.leaves_run (op : SeqOp) (h : ∀ v, op.source? = some v → v.Resting) :
    Act.Leaves op.run Value.Resting := by
  cases op with
  | seq v => exact (h v rfl).leaves_seq?.ofSeq?
  | next v => exact (h v rfl).leaves_next?.ofSeq?
  | more v => exact (h v rfl).leaves_more
  | cons x v => exact ((h v rfl).leaves_consOnto x).bind fun _ hs => .pure hs
  | list xs =>
    refine Act.Leaves.bind (P := fun _ => True) ?_ fun _ _ => .pure trivial
    exact (Act.Leaves.freshStamps _).bind fun _ _ => .pure trivial
  | listStar leading tail => exact (h tail rfl).leaves_listStar leading
  | keys v | vals v =>
    exact ((h v rfl).leaves_ofEntries? _ (fun _ => rfl) fun _ => rfl).ofSeq?

/-- A run of a producer leaves it so. -/
theorem Producer.Gives.leaves_run {p : Producer} (h : p.Gives Value.Resting) :
    Act.Leaves p.run Value.Resting := by
  intro n w hw
  rw [p.run_eq]
  cases ho : p.outcome w.nextLazy with
  | ok v => exact ⟨hw.produce h, h.resting ho⟩
  | error f => exact .inr (hw.produce h)

/-! ### Use -/

/-- The value is a collection, however it was made, or holds no elements of its own. -/
inductive Value.Collected : Value → Prop
  | nil : Collected .nil
  | list (l : Linked Value) : Collected (.list l)
  | str (s : String) : Collected (.str s)
  /-- A vector or a view. -/
  | sliced {v : Value} (h : v.Sliced) : Collected v
  | small (entries : Array (Value × Value)) : Collected (.map (.small entries))
  /-- Any additions to a hashed map and removals from it; keys may be compared and hashed in any way. -/
  | hashed (K : Keying Value) (history : List (HashMap.Change Value Value)) :
      Collected (.map (.hashed (.after K history)))
  | other {v : Value} {e : Error} (h : v.directSeq = .error e) : Collected v

/-- What a caller may have in hand in which world. -/
inductive InHand : World → List Value → Prop
  | start {w : World} (h : w.lazies = #[]) : InHand w []
  | collected {w : World} {vs : List Value} {v : Value} (h : InHand w vs) (hv : v.Collected) :
      InHand w (v :: vs)
  /-- A lazy sequence is made, whose producer gives what is in hand. -/
  | lazy {n : Nat} {w w' : World} {vs : List Value} {v : Value} {p : Producer} (h : InHand w vs)
      (hp : p.Gives (· ∈ vs)) (hrun : Value.ofProducer p n w = .ok v w') : InHand w' (v :: vs)
  | called {n : Nat} {w w' : World} {vs : List Value} {v : Value} (op : SeqOp) (h : InHand w vs)
      (hop : ∀ u, op.source? = some u → u ∈ vs) (hrun : op.run n w = .ok v w') : InHand w' (v :: vs)
  /-- A call fails, but not for want of budget. -/
  | failed {n : Nat} {w w' : World} {vs : List Value} {f : Fault} (op : SeqOp) (h : InHand w vs)
      (hop : ∀ u, op.source? = some u → u ∈ vs) (hrun : op.run n w = .error f w')
      (hf : f ≠ .exhausted) : InHand w' vs
  /-- Some lazy sequence is realized by other means. -/
  | realized {n : Nat} {w w' : World} {vs : List Value} {l : Lazy} {a : Except Fault (Option Seq)}
      (h : InHand w vs) (hrun : l.seq? n w = Act.ended a w') (ha : a ≠ .error .exhausted) :
      InHand w' vs
  /-- Something changes that is no lazy sequence. -/
  | elsewhere {w w' : World} {vs : List Value} (h : InHand w vs) (hl : w'.lazies = w.lazies) :
      InHand w' vs

theorem Value.Collected.resting {v : Value} (h : v.Collected) : v.Resting := by
  cases h with
  | sliced h =>
    obtain ⟨xs, hv⟩ := h.shows
    cases hv with
    | vector => trivial
    | view hv => exact hv
  | hashed K history => exact (HashMap.counted_after K history).count_eq
  | other h =>
    cases v with
    | seq | view | map => cases h
    | _ => trivial
  | nil | list | str | small => trivial

/-- All that is in hand rests on elements, and so do the sequences that are kept. -/
theorem InHand.resting {w : World} {vs : List Value} (h : InHand w vs) :
    w.Resting ∧ ∀ v ∈ vs, v.Resting := by
  induction h with
  | start h => exact ⟨.of_empty h, fun _ hv => by cases hv⟩
  | collected _ hv ih => exact ⟨ih.1, List.forall_mem_cons.mpr ⟨hv.resting, ih.2⟩⟩
  | @lazy n w w' vs v p _ hp hrun ih =>
    -- making a sequence is what a producer does that defers to its producer
    have hrun : (Producer.defer p).run n w = .ok v w' := hrun
    have hp : (Producer.defer p).Gives Value.Resting := Producer.Gives.imp ih.2 (p := p) hp
    have hend := hp.leaves_run n w ih.1
    rw [hrun] at hend
    exact ⟨hend.1, List.forall_mem_cons.mpr ⟨hend.2, ih.2⟩⟩
  | @called n w _ _ _ op _ hop hrun ih =>
    have hend := op.leaves_run (fun u hu => ih.2 u (hop u hu)) n w ih.1
    rw [hrun] at hend
    exact ⟨hend.1, List.forall_mem_cons.mpr ⟨hend.2, ih.2⟩⟩
  | @failed n w _ _ _ op _ hop hrun hf ih =>
    have hend := op.leaves_run (fun u hu => ih.2 u (hop u hu)) n w ih.1
    rw [hrun] at hend
    exact ⟨hend.resolve_left hf, ih.2⟩
  | @realized n w w' _ l a _ hrun ha ih =>
    have hend := l.leaves_seq? n w ih.1
    rw [hrun] at hend
    cases a with
    | ok o => exact ⟨hend.1, ih.2⟩
    | error f => exact ⟨hend.resolve_left fun hf => ha (congrArg Except.error hf), ih.2⟩
  | elsewhere _ hl ih => exact ⟨ih.1.of_lazies hl, ih.2⟩

/-! ### Sequences in hand -/

/-- Wherever the sequence is in a collection, it is in order there: the first element is what is at the place
and never nil in its stead, the counts are the same, and behind both there are places and sequences that
belong together. As long as a number of elements is known it goes down by one, until there is nothing left.
Only behind a cell with a lazy sequence can anything fail, when that sequence does. -/
structure Seq.OnElement (s : Seq) : Prop where
  placed : ∃ p : SeqPlace, p.Marks s
  sound : ∀ p : SeqPlace, p.Marks s → p.Sound
  first : ∀ p : SeqPlace, p.Marks s → p.element? = some s.first
  count : ∀ p : SeqPlace, p.Marks s → p.count? = s.knownCount?
  next : ∀ p : SeqPlace, p.Marks s → Option.Rel SeqPlace.Marks p.next? s.step?
  counts : ∀ k, s.knownCount? = some k →
    0 < k ∧ s.step?.elim (k = 1) fun t => t.knownCount? = some (k - 1)
  fails : ∀ n w f w', s.next? n w = .error f w' →
    ∃ x l, s = .cons x (.lazy l) ∧ l.seq? n w = .error f w'

namespace Seq.Resting

variable {s : Seq}

theorem sound {p : SeqPlace} (h : s.Resting) (hp : p.Marks s) : p.Sound := by
  cases h with
  | counted hn hf => exact hp.sound hn hf
  | @cons x t =>
    cases hp
    exact .inl ⟨t, rfl⟩
  | lazyCons x l =>
    cases hp
    exact .inr ⟨l, rfl⟩

theorem counts {k : Nat} (h : s.Resting) (hk : s.knownCount? = some k) :
    0 < k ∧ s.step?.elim (k = 1) fun t => t.knownCount? = some (k - 1) := by
  cases h with
  | counted hn hf =>
    obtain ⟨hpos, hrest⟩ := hf.counts_step? hk
    refine ⟨hpos, ?_⟩
    cases ht : s.step? with
    | none =>
      rw [ht] at hrest
      exact Nat.le_antisymm (Nat.le_of_sub_eq_zero hrest) hpos
    | some t =>
      rw [ht] at hrest
      exact hrest.2
  | cons | lazyCons => cases hk

theorem fails {n : Nat} {w w' : World} {f : Fault} (h : s.Resting) (hnext : s.next? n w = .error f w') :
    ∃ x l, s = .cons x (.lazy l) ∧ l.seq? n w = .error f w' := by
  cases h with
  | counted hn =>
    rw [next?_of_known hn] at hnext
    cases hnext
  | cons => cases hnext
  | lazyCons x l => exact ⟨x, l, rfl, hnext⟩

theorem onElement (h : s.Resting) : s.OnElement where
  placed := SeqPlace.exists_marks s
  sound _ hp := h.sound hp
  first _ hp := hp.element? (h.sound hp)
  count _ hp := hp.count?
  next _ hp := hp.next?
  counts _ := h.counts
  fails _ _ _ _ := h.fails

end Seq.Resting

open SeqPlace

/-- Every sequence in hand is on an element of its collection. Its place is the one that going on from the
first place of the collection leads to, also for keys and values. Going on over a string so gives just its
characters in order. -/
theorem Seq.rests_on_element :
    (∀ w vs, InHand w vs → ∀ s, Value.seq s ∈ vs → s.OnElement) ∧
    (∀ v : Value, (∀ s, v ≠ .seq s) → ∀ o, v.directSeq = .ok o → Option.Rel Marks v.place? o) ∧
    (∀ m : Map Value Value,
      (∃ o, (Value.map m).keys? = pure o ∧ Option.Rel Marks (m.place?.map .keys) o) ∧
      ∃ o, (Value.map m).vals? = pure o ∧ Option.Rel Marks (m.place?.map .vals) o) ∧
    ∀ t : String, (Value.str t).Holds (t.toList.map .char) ∧
      SeqPlace.Yields (Value.str t).place? (t.toList.map .char) := by
  refine ⟨fun w vs h s hs => ?_, fun v hv o ho => Value.marks_place? hv ho, fun m => ?_, fun t => ?_⟩
  · exact Seq.Resting.onElement (h.resting.2 _ hs)
  · have hcursor := m.onCursor_place?
    exact ⟨⟨_, rfl, rel_map hcursor fun _ _ => .keys⟩, _, rfl, rel_map hcursor fun _ _ => .vals⟩
  · exact ⟨⟨_, rfl, traverses_ofChars t.toList⟩, yields_text ⟨[], rfl, rfl⟩⟩

/-- One lazy sequence, which will fail. -/
def oneFailing : World := { lazies := #[⟨.ready (.fail .producerPanicked), none⟩] }

/-- A text is traversed up to its second character, and an element is put in front of a lazy sequence. -/
theorem inHand_oneFailing : InHand oneFailing
    [.seq (.cons .nil (.lazy ⟨0⟩)), .lazy ⟨0⟩, .seq (.chars ['λ']), .seq (.chars ['a', 'λ']),
      .str "aλ"] := by
  have htext : InHand {} [.str "aλ"] := .collected (.start rfl) (.str "aλ")
  have hseq : InHand {} [.seq (.chars ['a', 'λ']), .str "aλ"] :=
    .called (n := 0) (.seq (.str "aλ")) htext (by rintro _ ⟨⟩; simp) rfl
  have hnext : InHand {} [.seq (.chars ['λ']), .seq (.chars ['a', 'λ']), .str "aλ"] :=
    .called (n := 0) (.next (.seq (.chars ['a', 'λ']))) hseq (by rintro _ ⟨⟩; simp) rfl
  have hlazy : InHand oneFailing
      [.lazy ⟨0⟩, .seq (.chars ['λ']), .seq (.chars ['a', 'λ']), .str "aλ"] :=
    .lazy (n := 0) (p := .fail .producerPanicked) hnext trivial rfl
  exact .called (n := 0) (.cons .nil (.lazy ⟨0⟩)) hlazy (by rintro _ ⟨⟩; simp) rfl

/-- The second character of the text is the one byte behind the first, and the cell goes on with the error of
the lazy sequence. -/
theorem Seq.rests_on_element_oneFailing :
    InHand oneFailing [.seq (.cons .nil (.lazy ⟨0⟩)), .lazy ⟨0⟩, .seq (.chars ['λ']),
      .seq (.chars ['a', 'λ']), .str "aλ"] ∧
    (SeqPlace.text ⟨"aλ", 1⟩).Marks (.chars ['λ']) ∧ (SeqPlace.text ⟨"aλ", 1⟩).Sound ∧
    (SeqPlace.text ⟨"aλ", 1⟩).element? = some (.char 'λ') ∧
    (Seq.cons .nil (.lazy ⟨0⟩)).OnElement ∧
    (∃ w, Seq.next? (.cons .nil (.lazy ⟨0⟩)) 1 oneFailing = .error (.error .producerPanicked) w) ∧
    (∀ s, Value.str "aλ" ≠ .seq s) ∧ (Value.str "aλ").directSeq = .ok (some (.chars ['a', 'λ'])) ∧
    Option.Rel Marks (Value.str "aλ").place? (some (.chars ['a', 'λ'])) := by
  have hplace : (SeqPlace.text ⟨"aλ", 1⟩).Marks (.chars ['λ']) := .chars ⟨['a'], rfl, rfl⟩
  have hchars := Seq.rests_on_element.1 _ _ inHand_oneFailing (.chars ['λ']) (by simp)
  have hcell := Seq.rests_on_element.1 _ _ inHand_oneFailing (.cons .nil (.lazy ⟨0⟩)) (by simp)
  have hstr : ∀ s, Value.str "aλ" ≠ .seq s := fun s h => by cases h
  exact ⟨inHand_oneFailing, hplace, hchars.sound _ hplace, hchars.first _ hplace, hcell, ⟨_, rfl⟩,
    hstr, rfl, Seq.rests_on_element.2.1 _ hstr _ rfl⟩

end LispCore
