import LispCore.Proofs.Map.Slots
import LispCore.Proofs.Seq.Formed
import Mathlib.Data.String.Basic
/-!
Places. A sequence is kept as a place in its collection: an index, a slot, a path, or an offset in bytes
into a text. A place may be off, and then there is nothing to read (`SeqPlace.element?`). A place that
stands for a sequence moves on as the sequence does (`SeqPlace.Marks.next?`), and one that is in order has
an element (`SeqPlace.Sound.exists_element`).
-/

namespace LispCore

/-! ### Texts -/

/-- A place in a text, counted in bytes. -/
structure TextPlace where
  text : String
  offset : Nat

namespace TextPlace

/-- The characters behind as many bytes; none inside a character and after the end. -/
def dropBytes : Nat → List Char → Option (List Char)
  | 0, cs => some cs
  | _ + 1, [] => none
  | n + 1, c :: cs => if c.utf8Size ≤ n + 1 then dropBytes (n + 1 - c.utf8Size) cs else none

/-- The place at an offset, if it is before the end. -/
def at? (text : String) (offset : Nat) : Option TextPlace :=
  if offset < text.utf8ByteSize then some ⟨text, offset⟩ else none

/-- The characters from here on. -/
def left? (p : TextPlace) : Option (List Char) := dropBytes p.offset p.text.toList

/-- The character at the place. -/
def current? (p : TextPlace) : Option Char := p.left?.bind List.head?

/-- The place as many bytes further as the character has; one byte where there is none. -/
def next? (p : TextPlace) : Option TextPlace :=
  at? p.text (p.offset + p.current?.elim 1 Char.utf8Size)

/-- The number of characters from here on; none where no character begins. -/
def remaining (p : TextPlace) : Nat := p.left?.elim 0 List.length

/-- A character begins at the place. -/
structure Sound (p : TextPlace) : Prop where
  boundary : String.Pos.Raw.IsValid p.text ⟨p.offset⟩
  lt : p.offset < p.text.utf8ByteSize

/-- The place is where these characters begin. -/
def Before (p : TextPlace) (left : List Char) : Prop :=
  ∃ front, p.text.toList = front ++ left ∧ p.offset = String.utf8Len front

theorem dropBytes_append (front left : List Char) :
    dropBytes (String.utf8Len front) (front ++ left) = some left := by
  induction front with
  | nil => simp [dropBytes]
  | cons c front ih =>
    have hpos := c.utf8Size_pos
    obtain ⟨n, hn⟩ : ∃ n, String.utf8Len (c :: front) = n + 1 :=
      Nat.exists_eq_add_one.mpr (by rw [String.utf8Len_cons]; omega)
    rw [String.utf8Len_cons] at hn
    rw [String.utf8Len_cons, hn, List.cons_append, dropBytes, if_pos (by omega), ← ih]
    exact congrArg (dropBytes · _) (by omega)

variable {p : TextPlace} {left : List Char}

/-- On a boundary there are characters from there on. -/
theorem exists_before_iff : String.Pos.Raw.IsValid p.text ⟨p.offset⟩ ↔ ∃ left, p.Before left := by
  rw [String.Pos.Raw.isValid_iff_exists_append]
  constructor
  · rintro ⟨front, back, htext, hoff⟩
    refine ⟨back.toList, front.toList, ?_, ?_⟩
    · rw [htext, String.toList_append]
    · rw [String.utf8Len_toList]
      exact congrArg String.Pos.Raw.byteIdx hoff
  · rintro ⟨left, front, htext, hoff⟩
    refine ⟨String.ofList front, String.ofList left, ?_, ?_⟩
    · rw [← String.ofList_append, ← htext, String.ofList_toList]
    · rw [hoff, ← String.utf8ByteSize_ofList]
      rfl

namespace Before

theorem left? (h : p.Before left) : p.left? = some left := by
  obtain ⟨front, htext, hoff⟩ := h
  rw [TextPlace.left?, htext, hoff, dropBytes_append]

theorem current? (h : p.Before left) : p.current? = left.head? := by
  rw [TextPlace.current?, h.left?, Option.bind_some]

theorem remaining (h : p.Before left) : p.remaining = left.length := by
  rw [TextPlace.remaining, h.left?, Option.elim_some]

theorem size_eq (h : p.Before left) :
    p.text.utf8ByteSize = p.offset + String.utf8Len left := by
  obtain ⟨front, htext, hoff⟩ := h
  rw [← String.utf8Len_toList, htext, String.utf8Len_append, hoff]

/-- It is before the end where there are characters left. -/
theorem lt_iff (h : p.Before left) : p.offset < p.text.utf8ByteSize ↔ left ≠ [] := by
  rw [h.size_eq, ← not_iff_not, not_not, ← String.utf8Len_eq_zero]
  omega

/-- Behind the first character the others begin. -/
theorem after {c : Char} (h : p.Before (c :: left)) :
    Before ⟨p.text, p.offset + c.utf8Size⟩ left := by
  obtain ⟨front, htext, hoff⟩ := h
  refine ⟨front ++ [c], ?_, ?_⟩
  · rw [htext, List.append_assoc, List.singleton_append]
  · rw [String.utf8Len_append, ← hoff, String.utf8Len_cons, String.utf8Len_nil, Nat.zero_add]

end Before

/-- A character begins at a place with characters left. -/
theorem sound_iff : p.Sound ↔ ∃ left, p.Before left ∧ left ≠ [] := by
  constructor
  · rintro ⟨hb, hlt⟩
    obtain ⟨left, h⟩ := exists_before_iff.mp hb
    exact ⟨left, h, h.lt_iff.mp hlt⟩
  · rintro ⟨left, h, hne⟩
    exact ⟨exists_before_iff.mpr ⟨left, h⟩, h.lt_iff.mpr hne⟩

end TextPlace

/-! ### Places in collections -/

/-- The path leads to a leaf or to a pair of colliding keys. -/
def Path.AtEntry : Path Value Value → Prop
  | .nodes (.leaf _ _ :: _) :: _ | .pairs (_ :: _) :: _ => True
  | _ => False

theorem Path.atEntry_iff {path : Path Value Value} : path.AtEntry ↔ path.entry?.isSome = true := by
  fun_cases Path.entry? path <;> simp_all [AtEntry]

/-- Where a sequence is in its collection. -/
inductive SeqPlace where
  | list (l : Linked Value)
  | cons (first rest : Value)
  | slice (items : Array Value) (index stop : Nat)
  | slots (p : SlotPlace)
  | trie (path : Path Value Value) (remaining : Nat)
  | text (p : TextPlace)
  /-- Shows the keys of the entries that another place shows. -/
  | keys (inner : SeqPlace)
  /-- Shows the values of these. -/
  | vals (inner : SeqPlace)

namespace SeqPlace

/-- The key and the value at a place in a map. -/
def entry? : SeqPlace → Option (Value × Value)
  | slots p => p.entry?
  | trie path _ => Path.entry? path
  | _ => none

/-- The element at the place, none where the place is off. -/
def element? : SeqPlace → Option Value
  | list l => l.first?
  | cons x _ => some x
  | slice items index _ => items[index]?
  | text p => p.current?.map .char
  | keys inner => inner.entry?.map (·.1)
  | vals inner => inner.entry?.map (·.2)
  | p => p.entry?.map Value.pair

/-- The place at a list that is not empty. -/
def listAt (l : Linked Value) : Option SeqPlace := if l.isEmpty then none else some (list l)

/-- The place at an index before the end, which must be within the items. -/
def sliceAt (items : Array Value) (index stop : Nat) : Option SeqPlace :=
  if index < stop ∧ stop ≤ items.size then some (slice items index stop) else none

/-- The place behind; nothing is said of a cell. -/
def next? : SeqPlace → Option SeqPlace
  | list l => listAt l.rest
  | cons _ _ => none
  | slice items index stop => sliceAt items (index + 1) stop
  | slots p => p.next?.map slots
  | trie path remaining =>
    if remaining ≤ 1 then none else (Path.next? path).map (trie · (remaining - 1))
  | text p => p.next?.map text
  | keys inner => inner.next?.map keys
  | vals inner => inner.next?.map vals

/-- How many elements there are from here on, when the place tells. -/
def count? : SeqPlace → Option Nat
  | list l => some l.count
  | cons _ _ => none
  | slice _ index stop => some (stop - index)
  | slots p => some p.remaining
  | trie _ remaining => some remaining
  | text p => some p.remaining
  | keys inner | vals inner => inner.count?

/-- The place is in a map. -/
def InMap : SeqPlace → Prop
  | slots _ | trie _ _ => True
  | _ => False

/-- The place is in order: a list is not empty, what is behind a cell is a sequence or a lazy one, an index
is before an end within the items, a slot is that of a key, a path leads to a leaf or to a pair and as many
entries are left as are counted, an offset is where a character begins, and keys and values are those of a
place in a map. -/
def Sound : SeqPlace → Prop
  | list l => l.isEmpty = false
  | cons _ rest => (∃ s, rest = .seq s) ∨ ∃ l, rest = .lazy l
  | slice items index stop => index < stop ∧ stop ≤ items.size
  | slots p => p.index % 2 = 0 ∧ p.cells.size % 2 = 0 ∧ p.index < p.cells.size
  | trie path remaining =>
    Path.AtEntry path ∧ 0 < remaining ∧ (Path.entriesFrom path).length = remaining
  | text p => p.Sound
  | keys inner | vals inner => inner.InMap ∧ inner.Sound

end SeqPlace

/-- The place of the first entry of a map, if it has one. -/
def Map.place? : Map Value Value → Option SeqPlace
  | small entries => (SlotPlace.at? (inSlots entries) 0).map .slots
  | hashed m =>
    if m.count = 0 then none else (Path.firstIn m.root.children).map (SeqPlace.trie · m.count)

/-- The place of the first element of a collection, if it has one. -/
def Value.place? : Value → Option SeqPlace
  | list l => SeqPlace.listAt l
  | vector items => SeqPlace.sliceAt items 0 items.size
  | view v => SeqPlace.sliceAt v.backing v.start v.stop
  | map m => m.place?
  | str s => (TextPlace.at? s 0).map .text
  | _ => none

namespace SeqPlace

/-! ### Places that stand for sequences -/

/-- The place in a map stands for the cursor. -/
inductive OnCursor : SeqPlace → Cursor Value Value → Prop
  | slots {p : SlotPlace} {c : Cursor Value Value} (h : p.OnEntry c) : OnCursor (.slots p) c
  | trie (path : Path Value Value) (remaining : Nat) :
      OnCursor (.trie path remaining) (.hashed path remaining)

/-- The place stands for the sequence. -/
inductive Marks : SeqPlace → Seq → Prop
  | list (l : Linked Value) : Marks (.list l) (.list l)
  | cons (x rest : Value) : Marks (.cons x rest) (.cons x rest)
  | slice (items : Array Value) (index stop : Nat) :
      Marks (.slice items index stop) (.slice items index stop)
  | chars {p : TextPlace} {left : List Char} (h : p.Before left) : Marks (.text p) (.chars left)
  | entries {p : SeqPlace} {c : Cursor Value Value} (h : p.OnCursor c) : Marks p (.entries c)
  | keys {p : SeqPlace} {c : Cursor Value Value} (h : p.OnCursor c) : Marks (.keys p) (.keys c)
  | vals {p : SeqPlace} {c : Cursor Value Value} (h : p.OnCursor c) : Marks (.vals p) (.vals c)

/-- What belongs together does so after each is turned into something else that belongs together. -/
theorem rel_map {α β γ δ : Type} {R : α → β → Prop} {S : γ → δ → Prop} {a : Option α} {b : Option β}
    (h : Option.Rel R a b) {f : α → γ} {g : β → δ} (hf : ∀ x y, R x y → S (f x) (g y)) :
    Option.Rel S (a.map f) (b.map g) := by
  cases h with
  | none => exact .none
  | some h => exact .some (hf _ _ h)

theorem onCursor_slots {o : Option SlotPlace} {o' : Option (Cursor Value Value)}
    (h : Option.Rel SlotPlace.OnEntry o o') : Option.Rel OnCursor (o.map .slots) o' := by
  rw [← Option.map_id_apply (x := o')]
  exact rel_map h fun _ _ => .slots

namespace OnCursor

variable {p : SeqPlace} {c : Cursor Value Value}

theorem inMap (h : p.OnCursor c) : p.InMap := by
  cases h <;> trivial

theorem entry? (h : p.OnCursor c) : p.entry? = c.entry? := by
  cases h with
  | slots h => exact h.entry?
  | trie => rfl

theorem element? (h : p.OnCursor c) : p.element? = c.entry?.map Value.pair := by
  rw [← h.entry?]
  cases h <;> rfl

theorem count? (h : p.OnCursor c) : p.count? = some c.remaining := by
  cases h with
  | slots h => exact congrArg some h.remaining
  | trie => rfl

theorem next? (h : p.OnCursor c) : Option.Rel OnCursor p.next? c.next? := by
  cases h with
  | slots h => exact onCursor_slots h.next?
  | trie path remaining =>
    rw [SeqPlace.next?, Cursor.next?]
    split
    · exact .none
    · cases Path.next? path with
      | none => exact .none
      | some path => exact .some (.trie path _)

/-- The place of a cursor on an entry is in order. -/
theorem sound (h : p.OnCursor c) (hc : c.Formed) : p.Sound := by
  cases h with
  | slots h =>
    cases h with
    | intro entries i =>
      have hlt : i < entries.size := hc
      simp only [Sound, size_inSlots]
      omega
  | trie path remaining =>
    exact ⟨Path.atEntry_iff.mpr hc.1, Cursor.Formed.remaining_pos hc, hc.2⟩

end OnCursor

/-- The places of cursors stand for the sequences over them. -/
theorem marks_entries {o : Option SeqPlace} {o' : Option (Cursor Value Value)}
    (h : Option.Rel OnCursor o o') : Option.Rel Marks o (o'.map .entries) := by
  rw [← Option.map_id_apply (x := o)]
  exact rel_map h fun _ _ => .entries

theorem marks_listAt (l : Linked Value) : Option.Rel Marks (listAt l) (Seq.ofLinked l) := by
  rw [listAt, Seq.ofLinked]
  split
  · exact .none
  · exact .some (.list l)

theorem marks_sliceAt (items : Array Value) (index stop : Nat) :
    Option.Rel Marks (sliceAt items index stop) (Seq.ofSlice items index stop) := by
  rw [sliceAt, Seq.ofSlice]
  split
  · exact .some (.slice items index stop)
  · exact .none

/-- The place at an offset stands for the characters that begin there, if there are any. -/
theorem marks_textAt {text : String} {offset : Nat} {left : List Char}
    (h : TextPlace.Before ⟨text, offset⟩ left) :
    Option.Rel Marks ((TextPlace.at? text offset).map .text) (Seq.ofChars left) := by
  rw [TextPlace.at?]
  cases left with
  | nil =>
    rw [if_neg fun hlt => h.lt_iff.mp hlt rfl]
    exact .none
  | cons c left =>
    rw [if_pos (h.lt_iff.mpr (List.cons_ne_nil c left))]
    exact .some (.chars h)

namespace Marks

variable {p : SeqPlace} {s : Seq}

/-- What is read at the place is the first element; nil is read where the place is off. -/
theorem getD_element? (h : p.Marks s) : p.element?.getD .nil = s.first := by
  cases h with
  | list | cons | slice => rfl
  | chars h => rw [element?, h.current?, Seq.first]
  | entries h => rw [h.element?, Seq.first]
  | keys h | vals h => rw [element?, h.entry?, Seq.first]

theorem count? (h : p.Marks s) : p.count? = s.knownCount? := by
  cases h with
  | list | cons | slice => rfl
  | chars h => exact congrArg some h.remaining
  | entries h | keys h | vals h => exact h.count?

/-- The place moves on as the sequence does. -/
theorem next? (h : p.Marks s) : Option.Rel Marks p.next? s.step? := by
  cases h with
  | list l => exact marks_listAt l.rest
  | cons => exact .none
  | slice items index stop => exact marks_sliceAt items (index + 1) stop
  | @chars p left h =>
    rw [SeqPlace.next?, TextPlace.next?, h.current?, Seq.step?]
    cases left with
    | nil =>
      -- behind the end there is nothing either
      have hend := mt h.lt_iff.mp (not_not.mpr rfl)
      rw [TextPlace.at?, if_neg (by simp only [List.head?_nil, Option.elim_none]; omega)]
      exact .none
    | cons c left => exact marks_textAt h.after
  | entries h => exact marks_entries h.next?
  | keys h => exact rel_map h.next? fun _ _ => .keys
  | vals h => exact rel_map h.next? fun _ _ => .vals

/-- The place of a proper sequence is in order. -/
theorem sound {n : Nat} (h : p.Marks s) (hn : s.knownCount? = some n) (hs : s.Formed 0) : p.Sound := by
  cases h with
  | cons => cases hn
  | list | slice => exact hs
  | chars h => exact TextPlace.sound_iff.mpr ⟨_, h, hs⟩
  | entries h => exact h.sound hs
  | keys h | vals h => exact ⟨h.inMap, h.sound hs⟩

end Marks

/-- Every sequence has a place. -/
theorem exists_marks (s : Seq) : ∃ p : SeqPlace, p.Marks s := by
  have hcursor : ∀ c : Cursor Value Value, ∃ p, OnCursor p c
    | .small entries i => ⟨_, .slots (.intro entries i)⟩
    | .hashed path n => ⟨_, .trie path n⟩
  cases s with
  | list l => exact ⟨_, .list l⟩
  | cons x rest => exact ⟨_, .cons x rest⟩
  | slice items index stop => exact ⟨_, .slice items index stop⟩
  | chars left => exact ⟨.text ⟨String.ofList left, 0⟩, .chars ⟨[], String.toList_ofList, rfl⟩⟩
  | entries c => exact (hcursor c).imp fun _ => .entries
  | keys c =>
    obtain ⟨p, h⟩ := hcursor c
    exact ⟨_, .keys h⟩
  | vals c =>
    obtain ⟨p, h⟩ := hcursor c
    exact ⟨_, .vals h⟩

/-! ### Places in order -/

/-- In a map there is an entry at a place that is in order. -/
theorem Sound.exists_entry {p : SeqPlace} (h : p.Sound) (hmap : p.InMap) : ∃ e, p.entry? = some e := by
  cases p with
  | slots p =>
    obtain ⟨hindex, hsize, hlt⟩ := h
    have hlt' : p.index + 1 < p.cells.size := by omega
    refine ⟨(p.cells[p.index], p.cells[p.index + 1]), ?_⟩
    rw [SeqPlace.entry?, SlotPlace.entry?, Array.getElem?_eq_getElem hlt, Array.getElem?_eq_getElem hlt']
    rfl
  | trie path remaining => exact Option.isSome_iff_exists.mp (Path.atEntry_iff.mp h.1)
  | _ => cases hmap

/-- There is an element at a place that is in order, so nothing is read in its stead. -/
theorem Sound.exists_element {p : SeqPlace} (h : p.Sound) : ∃ x, p.element? = some x := by
  cases p with
  | list l =>
    cases l with
    | nil => cases h
    | cons stamp x l => exact ⟨x, rfl⟩
  | cons x rest => exact ⟨x, rfl⟩
  | slice items index stop => exact ⟨_, Array.getElem?_eq_getElem (h.1.trans_le h.2)⟩
  | slots | trie =>
    obtain ⟨e, he⟩ := h.exists_entry trivial
    exact ⟨Value.pair e, congrArg (Option.map Value.pair) he⟩
  | text p =>
    obtain ⟨left, hleft, hne⟩ := TextPlace.sound_iff.mp h
    cases left with
    | nil => exact absurd rfl hne
    | cons c left => exact ⟨.char c, congrArg (Option.map Value.char) hleft.current?⟩
  | keys inner =>
    obtain ⟨e, he⟩ := h.2.exists_entry h.1
    exact ⟨e.1, by rw [element?, he, Option.map_some]⟩
  | vals inner =>
    obtain ⟨e, he⟩ := h.2.exists_entry h.1
    exact ⟨e.2, by rw [element?, he, Option.map_some]⟩

/-- The element at a place that is in order is the first one. -/
theorem Marks.element? {p : SeqPlace} {s : Seq} (h : p.Marks s) (hp : p.Sound) :
    p.element? = some s.first := by
  obtain ⟨x, hx⟩ := hp.exists_element
  rw [← h.getD_element?, hx, Option.getD_some]

/-! ### Walks -/

/-- Going on from a place and reading an element at each gives these elements, and then there is no place. -/
inductive Yields : Option SeqPlace → List Value → Prop
  | done : Yields none []
  | next {p : SeqPlace} {x : Value} {xs : List Value} (hx : p.element? = some x)
      (h : Yields p.next? xs) : Yields (some p) (x :: xs)

/-- From an offset on the characters that begin there are read. -/
theorem yields_text {text : String} : ∀ {left : List Char} {offset : Nat},
    TextPlace.Before ⟨text, offset⟩ left →
    Yields ((TextPlace.at? text offset).map .text) (left.map .char)
  | [], offset, h => by
    rw [TextPlace.at?, if_neg fun hlt => h.lt_iff.mp hlt rfl]
    exact .done
  | c :: left, offset, h => by
    rw [TextPlace.at?, if_pos (h.lt_iff.mpr (List.cons_ne_nil c left))]
    refine .next (congrArg (Option.map Value.char) h.current?) ?_
    rw [SeqPlace.next?, TextPlace.next?, h.current?]
    exact yields_text h.after

end SeqPlace

/-! ### First places -/

open SeqPlace

theorem Map.onCursor_place? (m : Map Value Value) : Option.Rel OnCursor m.place? m.cursor? := by
  cases m with
  | small entries => exact onCursor_slots (SlotPlace.at?_inSlots entries 0)
  | hashed m =>
    rw [Map.place?, Map.cursor?, Cursor.ofHashMap]
    split
    · exact .none
    · cases Path.firstIn m.root.children with
      | none => exact .none
      | some path => exact .some (.trie path _)

/-- The first place of a collection stands for its sequence. -/
theorem Value.marks_place? {v : Value} {o : Option Seq} (hseq : ∀ s, v ≠ .seq s)
    (h : v.directSeq = .ok o) : Option.Rel Marks v.place? o := by
  cases v with
  | nil =>
    cases h
    exact .none
  | list l =>
    cases h
    exact marks_listAt l
  | vector items =>
    cases h
    exact marks_sliceAt items 0 items.size
  | view v =>
    cases h
    exact marks_sliceAt v.backing v.start v.stop
  | map m =>
    cases h
    exact marks_entries m.onCursor_place?
  | str s =>
    cases h
    exact marks_textAt ⟨[], rfl, rfl⟩
  | seq s => exact absurd rfl (hseq s)
  | _ => cases h

end LispCore
