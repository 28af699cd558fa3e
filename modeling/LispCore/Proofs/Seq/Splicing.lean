import LispCore.Collection.Basic
import LispCore.Proofs.Seq.Agreement
/-!
Putting elements in front of a tail. `cons` makes a list node or a cell, as the tail has it, but in each
case going on from it is asking the tail for its sequence (`Seq.consOnto_spec`). So what is put in front
one by one is handed out first, in order and without an effect, and then the tail is asked, once and for
all that it does (`Value.InFront`): a walk goes on as over the tail, lazy or failing, and every reading
tells so (`Value.Concatenates`).
-/

namespace LispCore

variable {n made : Nat} {w w' : World} {t v r x : Value} {xs : List Value} {s : Seq} {ss : List Seq}
  {err : Option Error} {o : Option Seq}

/-- The world in which as many more numbers have been given out. -/
def World.stamped (w : World) (k : Nat) : World := { w with nextStamp := w.nextStamp + k }

theorem World.stamped_stamped (w : World) (i j : Nat) :
    (w.stamped i).stamped j = w.stamped (i + j) := by
  rw [stamped, stamped, stamped, Nat.add_assoc]

/-! ### One element -/

/-- A collection that is neither lazy nor a sequence is turned into its sequence first. -/
theorem Seq.consOnto_direct (x : Value) (ht : t.Formed made) (ho : t.directSeq = .ok o)
    (hseq : t.seq? = pure o) (hcons : consOnto x t = t.seq? >>= fun o => match o with
      | none => do return .list (← Linked.push .nil x)
      | some s => return .cons x (.seq s)) (n : Nat) (w : World) :
    ∃ s k, consOnto x t n w = .ok s (w.stamped k) ∧ s.first = x ∧ s.next? = t.seq? ∧
      s.Formed made := by
  rw [hcons, hseq, pure_bind]
  cases o with
  | none => exact ⟨.list (.cons w.nextStamp x .nil), 1, rfl, rfl, rfl, rfl⟩
  | some s => exact ⟨.cons x (.seq s), 0, rfl, rfl, rfl, ht.directSeq ho s rfl⟩

/-- An element is put in front without running a producer, and going on from it is asking the tail. -/
theorem Seq.consOnto_spec (x : Value) (hs : t.isSeqable = true) (ht : t.Formed made) (n : Nat)
    (w : World) : ∃ s k, consOnto x t n w = .ok s (w.stamped k) ∧ s.first = x ∧
      s.next? = t.seq? ∧ s.Formed made := by
  cases t with
  | nil => exact ⟨.list (.cons w.nextStamp x .nil), 1, rfl, rfl, rfl, rfl⟩
  | list l => exact ⟨.list (.cons w.nextStamp x l), 1, rfl, rfl, rfl, rfl⟩
  | lazy l => exact ⟨.cons x (.lazy l), 0, rfl, rfl, rfl, ht⟩
  | seq s =>
    cases s with
    | list l =>
      -- A sequence over a list is never empty, so the list that is left gives it back.
      have hne : l.isEmpty = false := ht
      refine ⟨.list (.cons w.nextStamp x l), 1, rfl, rfl, ?_, rfl⟩
      show (pure (Seq.ofLinked l) : Act (Option Seq)) = pure (some (.list l))
      rw [Seq.ofLinked, hne, if_neg Bool.false_ne_true]
    | _ => exact ⟨.cons x (.seq _), 0, rfl, rfl, rfl, ht⟩
  | vector | view | map | str => exact consOnto_direct x ht rfl rfl rfl n w
  | _ => cases hs

theorem Value.refused_of_not_seqable (hs : t.isSeqable = false) (n : Nat) (w : World) :
    t.seq? n w = .error (.error (.notSeqable t.kind)) w ∧
      ∀ x, Seq.consOnto x t n w = .error (.error (.notSeqable t.kind)) w := by
  cases t with
  | nil | list | vector | view | map | seq | lazy | str => cases hs
  | _ => exact ⟨rfl, fun _ => rfl⟩

/-! ### Elements in front of a tail -/

namespace Value

/-- The value hands out these sequences at once, and going on from each is asking the value behind it;
behind the last one that is the tail. -/
inductive InFront (t : Value) : Value → List Seq → Prop
  | tail : InFront t t []
  | put {v r : Value} {s : Seq} {ss : List Seq} (h : InFront t v ss) (hn : s.next? = v.seq?)
      (hr : r.seq? = pure (some s)) : InFront t r (s :: ss)

/-- Walking over a value with one sequence in front meets that one first. -/
theorem walks_put_iff (hn : s.next? = v.seq?) (hr : r.seq? = pure (some s)) :
    r.Walks n w ss err w' ↔ ∃ rest, ss = s :: rest ∧ v.Walks n w rest err w' := by
  constructor
  · intro h
    cases h.of_seq?_pure hr with
    | failed hf => exact ⟨[], rfl, .failed (hn ▸ hf)⟩
    | next ho hrest => exact ⟨_, rfl, .seq (hn ▸ ho) hrest⟩
  · have hr : r.seq? n w = .ok (some s) w := by
      rw [hr]
      rfl
    rintro ⟨rest, rfl, h⟩
    cases h with
    | failed hf => exact .seq hr (.failed (hn ▸ hf))
    | seq ho hrest => exact .seq hr (.next (hn ▸ ho) hrest)

/-- Walking over a value meets what is in front, and then what a walk over the tail meets. -/
theorem InFront.walks_iff {front : List Seq} (h : t.InFront r front) :
    ∀ {ss : List Seq}, r.Walks n w ss err w' ↔
      ∃ rest, ss = front ++ rest ∧ t.Walks n w rest err w' := by
  induction h with
  | tail => exact fun {ss} => ⟨fun h => ⟨ss, rfl, h⟩, fun ⟨_, hss, h⟩ => hss ▸ h⟩
  | @put v r s front _ hn hr ih =>
    intro ss
    rw [walks_put_iff hn hr]
    constructor
    · rintro ⟨behind, rfl, hv⟩
      obtain ⟨rest, rfl, ht⟩ := ih.mp hv
      exact ⟨rest, rfl, ht⟩
    · rintro ⟨rest, rfl, h⟩
      exact ⟨_, rfl, ih.mpr ⟨rest, rfl, h⟩⟩

/-- A proper value with these elements in front of the tail. -/
structure Spliced (made : Nat) (xs : List Value) (t r : Value) : Prop where
  seqable : r.isSeqable = true
  formed : r.Formed made
  inFront : ∃ front, front.map Seq.first = xs ∧ t.InFront r front ∧ ∀ s ∈ front, s.Formed made

theorem Spliced.refl (hs : t.isSeqable = true) (ht : t.Formed made) : Spliced made [] t t :=
  ⟨hs, ht, [], rfl, .tail, nofun⟩

/-- One more sequence in front of a value goes in front of what is there. -/
theorem Spliced.put (h : Spliced made xs t v) (hn : s.next? = v.seq?) (hs : s.Formed made)
    (hseqable : r.isSeqable = true) (hformed : r.Formed made) (hr : r.seq? = pure (some s)) :
    Spliced made (s.first :: xs) t r := by
  obtain ⟨front, rfl, hfront, hall⟩ := h.inFront
  exact ⟨hseqable, hformed, s :: front, rfl, hfront.put hn hr,
    List.forall_mem_cons.mpr ⟨hs, hall⟩⟩

theorem Spliced.consOnto (h : Spliced made xs t v) (x : Value) (n : Nat) (w : World) :
    ∃ s k, Seq.consOnto x v n w = .ok s (w.stamped k) ∧ Spliced made (x :: xs) t (.seq s) := by
  obtain ⟨s, k, hok, rfl, hn, hs⟩ := Seq.consOnto_spec x h.seqable h.formed n w
  exact ⟨s, k, hok, h.put hn hs rfl hs rfl⟩

/-- Elements that are put in front one by one, the last one first. -/
theorem Spliced.consAll (n : Nat) : ∀ (ys : List Value) (w : World) {v : Value} {xs : List Value},
    Spliced made xs t v →
      ∃ r k, Value.consAll ys v n w = .ok r (w.stamped k) ∧ Spliced made (ys.reverse ++ xs) t r
  | [], _, v, _, h => ⟨v, 0, rfl, h⟩
  | y :: ys, w, _, _, h => by
    obtain ⟨s, i, hcons, h⟩ := h.consOnto y n w
    obtain ⟨r, j, hall, h⟩ := h.consAll n ys (w.stamped i)
    refine ⟨r, i + j, ?_, by rwa [List.reverse_cons, List.append_assoc]⟩
    rw [Value.consAll, Act.bind_of_ok hcons, hall, World.stamped_stamped]

/-! ### Readings -/

/-- The value is the concatenation of the elements and the tail. It hands out the elements and then asks
the tail, so walks meet the elements and then just what walks over the tail meet, and end or fail like
these; and where the tail is read as some elements, the value is read as all of them. -/
structure Concatenates (made : Nat) (xs : List Value) (t r : Value) : Prop where
  walks : ∃ front, front.map Seq.first = xs ∧ t.InFront r front ∧ ∀ n w ss err w',
    r.Walks n w ss err w' ↔ ∃ rest, ss = front ++ rest ∧ t.Walks n w rest err w'
  readAs {n : Nat} {w w' : World} {rest : List Seq} {err : Option Error} (hw : Reached w)
    (hf : w.Formed) (hm : made ≤ w.lazies.size) (h : t.Walks n w rest err w')
    (hn : xs.length + rest.length + 1 < n) :
    t.ReadAs n w (rest.map Seq.first) err ∧ r.ReadAs n w (xs ++ rest.map Seq.first) err

theorem Spliced.concatenates (h : Spliced made xs t r) (hs : t.isSeqable = true)
    (ht : t.Formed made) : Concatenates made xs t r := by
  obtain ⟨front, rfl, hfront, hall⟩ := h.inFront
  refine ⟨⟨front, rfl, hfront, fun _ _ _ _ _ => hfront.walks_iff⟩, ?_⟩
  intro n w w' rest err hw hf hm hwalks hn
  rw [List.length_map] at hn
  obtain ⟨hsize, hrest, -⟩ := hwalks.again hw.orderly hf (ht.mono hm)
  have hm' := Nat.le_trans hm hsize
  have hmet : ∀ s ∈ front ++ rest, s.Formed w'.lazies.size := by
    intro s hs
    rcases List.mem_append.mp hs with hs | hs
    · exact (hall s hs).mono hm'
    · exact hrest s hs
  have hall' : r.Walks n w (front ++ rest) err w' := hfront.walks_iff.mpr ⟨rest, rfl, hwalks⟩
  have hread := hall'.readAs h.seqable (h.formed.mono hm') hmet (by rwa [List.length_append])
  rw [List.map_append] at hread
  exact ⟨hwalks.readAs hs (ht.mono hm') hrest (by omega), hread⟩

/-! ### The operations -/

theorem listStar_ne_nil (hxs : xs ≠ []) (t : Value) : listStar xs t = consAll xs.reverse t := by
  cases xs with
  | nil => exact absurd rfl hxs
  | cons => rfl

theorem listStar_not_seqable (hs : t.isSeqable = false) (xs : List Value) (n : Nat) (w : World) :
    listStar xs t n w = .error (.error (.notSeqable t.kind)) w := by
  rcases xs.eq_nil_or_concat' with rfl | ⟨xs, x, rfl⟩
  · exact Act.bind_of_error (refused_of_not_seqable hs n w).1
  · rw [listStar_ne_nil (by simp), List.reverse_concat, consAll]
    exact Act.bind_of_error ((refused_of_not_seqable hs n w).2 x)

/-- The collections that grow in front. -/
def growsInFront : Value → Bool
  | nil | list _ | seq _ | lazy _ => true
  | _ => false

theorem Spliced.conj (h : Spliced made xs t v) (hg : v.growsInFront = true) (x : Value) (n : Nat)
    (w : World) : ∃ r k, v.conj x n w = .ok r (w.stamped k) ∧ Spliced made (x :: xs) t r := by
  cases v with
  | nil =>
    exact ⟨.list (.cons w.nextStamp x .nil), 1, rfl,
      h.put (s := .list (.cons w.nextStamp x .nil)) rfl rfl rfl trivial rfl⟩
  | list l =>
    exact ⟨.list (.cons w.nextStamp x l), 1, rfl,
      h.put (s := .list (.cons w.nextStamp x l)) rfl rfl rfl trivial rfl⟩
  | seq | lazy =>
    obtain ⟨s, k, hcons, h⟩ := h.consOnto x n w
    exact ⟨.seq s, k, Act.bind_of_ok hcons, h⟩
  | _ => cases hg

end Value

/-- Elements in front of any value with a sequence view make the concatenation, and no producer runs for
that: the world only counts new list nodes. Without elements the tail gives its sequence. `cons` is the
case of one element, and so is adding an element to nil, a list, a sequence or a lazy sequence. In front
of any other value nothing is put. -/
theorem listStar_concatenates (ht : t.Formed made) :
    (t.isSeqable = true →
      (∀ xs n w, xs ≠ [] → ∃ r k, Value.listStar xs t n w = .ok r (w.stamped k) ∧
        Value.Concatenates made xs t r) ∧
      (∀ x n w, ∃ s k, Seq.consOnto x t n w = .ok s (w.stamped k) ∧
        Value.Concatenates made [x] t (.seq s)) ∧
      (t.growsInFront = true → ∀ x n w, ∃ r k, t.conj x n w = .ok r (w.stamped k) ∧
        Value.Concatenates made [x] t r)) ∧
    (∀ x, Value.listStar [x] t = do return .seq (← Seq.consOnto x t)) ∧
    (Value.listStar [] t = do return .ofSeq? (← t.seq?)) ∧
    (t.isSeqable = false → ∀ xs n w,
      Value.listStar xs t n w = .error (.error (.notSeqable t.kind)) w) := by
  refine ⟨fun hs => ⟨fun xs n w hxs => ?_, fun x n w => ?_, fun hg x n w => ?_⟩, fun x => rfl,
    rfl, fun hs => Value.listStar_not_seqable hs⟩
  · obtain ⟨r, k, hok, h⟩ := (Value.Spliced.refl hs ht).consAll n xs.reverse w
    rw [List.reverse_reverse, List.append_nil] at h
    exact ⟨r, k, by rwa [Value.listStar_ne_nil hxs], h.concatenates hs ht⟩
  · obtain ⟨s, k, hok, h⟩ := (Value.Spliced.refl hs ht).consOnto x n w
    exact ⟨s, k, hok, h.concatenates hs ht⟩
  · obtain ⟨r, k, hok, h⟩ := (Value.Spliced.refl hs ht).conj hg x n w
    exact ⟨r, k, hok, h.concatenates hs ht⟩

/-- In front of a lazy sequence that gives one element and then fails, two elements are put without
running it. The third element is the one it gives, and counting fails as the sequence does. -/
theorem listStar_concatenates_brokenOff :
    ∃ r, Value.listStar [.nil, .int 1] (.lazy ⟨0⟩) 5 brokenOff = .ok r brokenOff ∧
      r.third.Ends 5 brokenOff (.ok (.int 2)) ∧ r.count.Ends 5 brokenOff (.error (.error .format)) := by
  have hwalk : ∃ w', (Value.lazy ⟨0⟩).Walks 5 brokenOff [.cons (.int 2) (.lazy ⟨1⟩)]
      (some .format) w' := ⟨_, .seq rfl (.failed rfl)⟩
  obtain ⟨w', hwalk⟩ := hwalk
  have ht : (Value.lazy ⟨0⟩).Formed brokenOff.lazies.size := Nat.zero_lt_one
  obtain ⟨hstar, -, -⟩ := (listStar_concatenates ht).1 rfl
  obtain ⟨r, k, hok, h⟩ := hstar [.nil, .int 1] 5 brokenOff nofun
  have hr : (.ok (.seq (.cons .nil (.seq (.cons (.int 1) (.lazy ⟨0⟩))))) brokenOff :
      EStateM.Result Fault World Value) = .ok r (brokenOff.stamped k) := hok
  obtain ⟨-, hk⟩ := EStateM.Result.ok.inj hr
  obtain ⟨-, hread⟩ := h.readAs reached_brokenOff formed_brokenOff (Nat.le_refl _) hwalk (by decide)
  exact ⟨r, by rw [hok, ← hk], hread.third, hread.count⟩

end LispCore
