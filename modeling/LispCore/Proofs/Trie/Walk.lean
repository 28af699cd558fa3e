import LispCore.Proofs.Seq.Traversal
import LispCore.Proofs.Trie.Counting
/-!
Walks of a cursor. A cursor `Visits` the entries that going on from it stands on, when at each of them
it knows how many are left. The cursor of a map visits its entries, that of a hash map what an
iteration hands out, and the sequences of entries, keys and values go along (`HashMap.cursor_agrees`).
-/

namespace LispCore

namespace Cursor

variable {κ ν : Type}

/-- Going on from a cursor stands on these entries and then ends; on each of them the cursor counts it
and those after it. -/
inductive Visits : Option (Cursor κ ν) → List (κ × ν) → Prop
  | ended : Visits none []
  | next {c : Cursor κ ν} {e : κ × ν} {es : List (κ × ν)} (entry : c.entry? = some e)
      (left : c.remaining = es.length + 1) (rest : Visits c.next? es) : Visits (some c) (e :: es)

theorem Visits.eq_none_iff {o : Option (Cursor κ ν)} {es : List (κ × ν)} (h : Visits o es) :
    o = none ↔ es = [] := by
  cases h <;> simp

theorem visits_smallAt (entries : Array (κ × ν)) : ∀ {es : List (κ × ν)} (index : Nat),
    entries.toList.drop index = es → Visits (smallAt entries index) es
  | [], index, h => by
    have hle : entries.size ≤ index := by simpa using h
    rw [smallAt, if_neg (Nat.not_lt.mpr hle)]
    exact .ended
  | e :: es, index, h => by
    have hlt : index < entries.size := by
      by_contra hge
      have : entries.toList.drop index = [] := List.drop_eq_nil_of_le (Nat.not_lt.mp hge)
      rw [this] at h
      contradiction
    rw [List.drop_eq_getElem_cons hlt] at h
    obtain ⟨rfl, hes⟩ := List.cons.inj h
    rw [smallAt, if_pos hlt]
    refine .next (by simp [hlt, entry?]) ?_ (visits_smallAt entries (index + 1) hes)
    rw [remaining, ← hes, List.length_drop, Array.length_toList]
    omega

/-- A path that has these entries left makes a cursor that visits them. -/
theorem visits_of_leads : ∀ {es : List (κ × ν)} {o : Option (Path κ ν)}, Path.Leads o es →
    Visits (o.map (hashed · es.length)) es
  | [], none, _ => .ended
  | [], some path, ⟨hentry, hes⟩ => by
    have := Path.length_entriesFrom hentry
    rw [hes] at this
    contradiction
  | e :: es, some path, ⟨hentry, hes⟩ => by
    obtain ⟨f, hf⟩ := Option.isSome_iff_exists.mp hentry
    rw [Path.entriesFrom, hf] at hes
    obtain ⟨rfl, hlater⟩ := List.cons.inj hes
    have hleads : Path.Leads path.next? es := hlater ▸ Path.leads_next? path
    refine .next hf rfl ?_
    cases es with
    | nil => exact .ended
    | cons e' es => exact visits_of_leads hleads

end Cursor

/-- An optional sequence has just these elements, and counts them without a walk. -/
def Seq.Shows (o : Option Seq) (xs : List Value) : Prop :=
  Traverses o xs ∧ ∀ s ∈ o, s.knownCount? = some xs.length

section Shown

variable {seq : Cursor Value Value → Seq} {shown : Value × Value → Value}
  (hfirst : ∀ c, (seq c).first = (c.entry?.map shown).getD .nil)
  (hnext : ∀ c, (seq c).next? = pure (c.next?.map seq))
  (hcount : ∀ c, (seq c).knownCount? = some c.remaining)

include hfirst hnext in
theorem Cursor.Visits.traverses : ∀ {es : List (Value × Value)} {o : Option (Cursor Value Value)},
    Cursor.Visits o es → Traverses (o.map seq) (es.map shown)
  | _, _, .ended => .done
  | _, _, .next (c := c) (e := e) entry _ rest => by
    have hshown : shown e = (seq c).first := by
      rw [hfirst, entry]
      rfl
    rw [List.map_cons, hshown]
    exact .next (hnext c) rest.traverses

include hfirst hnext hcount in
/-- A sequence that shows one thing of each entry and goes on with the cursor has those elements. -/
theorem Cursor.Visits.shows {es : List (Value × Value)} {o : Option (Cursor Value Value)}
    (h : Cursor.Visits o es) : Seq.Shows (o.map seq) (es.map shown) := by
  refine ⟨h.traverses hfirst hnext, fun s hs => ?_⟩
  obtain ⟨c, hc, rfl⟩ := Option.map_eq_some_iff.mp hs
  subst hc
  cases h with
  | next _ left _ => rw [hcount, left, List.length_map, List.length_cons]

end Shown

/-- The cursor of a map that counts its entries visits them. -/
theorem Map.Formed.visits {κ ν : Type} {m : Map κ ν} (h : m.Formed) :
    Cursor.Visits m.cursor? m.toList := by
  cases m with
  | small entries => exact Cursor.visits_smallAt entries 0 rfl
  | hashed m =>
    have hleads := Path.leads_firstIn m.root.children
    rw [Node.listAll_children] at hleads
    have hcount : m.count = m.root.toList.length := h
    rw [Map.cursor?, Cursor.ofHashMap]
    split
    · have hnil : m.root.toList = [] := List.eq_nil_of_length_eq_zero (by omega)
      rw [toList, HashMap.toList, hnil]
      exact .ended
    · rw [hcount]
      exact Cursor.visits_of_leads hleads

/-- The sequences of the entries, the keys and the values of a map are as long as the map counts, and
each shows an entry in its place. -/
structure Map.Aligned (m : Map Value Value) : Prop where
  visits : Cursor.Visits m.cursor? m.toList
  count : m.count = m.toList.length
  entries : ∃ o, (Value.map m).seq? = pure o ∧ Seq.Shows o (m.toList.map Value.pair)
  keys : ∃ o, (Value.map m).keys? = pure o ∧ Seq.Shows o (m.toList.map (·.1))
  vals : ∃ o, (Value.map m).vals? = pure o ∧ Seq.Shows o (m.toList.map (·.2))

theorem Map.Formed.aligned {m : Map Value Value} (h : m.Formed) : m.Aligned where
  visits := h.visits
  count := by
    cases m with
    | small entries => rfl
    | hashed m => exact h
  entries := ⟨_, rfl, h.visits.shows (fun _ => rfl) (fun _ => rfl) fun _ => rfl⟩
  keys := ⟨_, rfl, h.visits.shows (fun _ => rfl) (fun _ => rfl) fun _ => rfl⟩
  vals := ⟨_, rfl, h.visits.shows (fun _ => rfl) (fun _ => rfl) fun _ => rfl⟩

namespace HashMap

variable {κ ν : Type}

/-- The cursor of a hash map that counts its entries visits what an iteration hands out. -/
theorem visits_drain {m : HashMap κ ν} (h : m.count = m.toList.length) :
    Cursor.Visits (Cursor.ofHashMap m) m.iter.drain := by
  rw [drain_iter]
  exact Map.Formed.visits (m := .hashed m) h

/-- The cursor of a hash map agrees with the iteration over it: after every history, whatever keys are
equal and whatever they hash to, it visits the entries that are handed out, in their order and each
once, and there is none exactly when there are no entries. The entries, keys and values of a map in
either representation are as many as its cursor visits, and stand beside each other. -/
theorem cursor_agrees (K : Keying Value) (history : List (Change Value Value)) :
    Cursor.Visits (Cursor.ofHashMap (after K history)) (after K history).iter.drain ∧
    (Cursor.ofHashMap (after K history) = none ↔ (after K history).iter.drain = []) ∧
    (Map.hashed (after K history)).Aligned ∧
    ∀ entries : Array (Value × Value), (Map.small entries).Aligned := by
  have hm := counted_after K history
  have hvisits := visits_drain hm.count_eq
  have hformed : (Map.hashed (after K history)).Formed := hm.count_eq
  exact ⟨hvisits, hvisits.eq_none_iff, hformed.aligned,
    fun entries => Map.Formed.aligned (m := .small entries) trivial⟩

end HashMap

end LispCore
