import LispCore.Map.Basic
import LispCore.Proofs.Trie.Iteration
/-!
Cursors and the entries that they have left. The first path into some nodes has all their entries
left (`Path.leads_firstIn`), and the next path all but the current one (`Path.leads_next?`). A proper
cursor stands on an entry and knows how many are left; going on keeps it proper, and it ends when one
was left (`Cursor.Formed.next?`).
-/

namespace LispCore

variable {κ ν : Type}

namespace Path

/-- A path to the first of these entries that has the others left, none when there are none. -/
def Leads : Option (Path κ ν) → List (κ × ν) → Prop
  | none, es => es = []
  | some path, es => path.entry?.isSome = true ∧ path.entriesFrom = es

theorem entry?_append {inner : Path κ ν} (h : inner.entry?.isSome = true) (path : Path κ ν) :
    entry? (inner ++ path) = inner.entry? := by
  match inner, h with
  | .nodes (.leaf _ _ :: _) :: _, _ => rfl
  | .pairs (_ :: _) :: _, _ => rfl

/-- Below a path into some nodes, what comes after them is left too. -/
theorem leads_append {inner : Path κ ν} {es : List (κ × ν)} (h : Leads (some inner) es)
    (path : Path κ ν) : Leads (some (inner ++ path)) (es ++ path.later) := by
  obtain ⟨hentry, rfl⟩ := h
  refine ⟨by rw [entry?_append hentry]; exact hentry, ?_⟩
  rw [entriesFrom, entry?_append hentry, later, List.flatMap_append, ← List.append_assoc]
  rfl

theorem leads_firstIn (ns : List (Node κ ν)) : Leads (firstIn ns) (Node.listAll ns) := by
  fun_induction firstIn ns with
  | case1 => rfl
  | case2 k v left => exact ⟨rfl, by simp [entriesFrom, entry?, later, laterIn]⟩
  | case3 h left ih => simpa using ih
  | case4 h e es left => exact ⟨rfl, by simp [entriesFrom, entry?, later, laterIn]⟩
  | case5 bitmap entries left path h ih =>
    rw [h] at ih
    simpa [later, laterIn] using leads_append ih [.nodes (.branch bitmap entries :: left)]
  | case6 bitmap entries left h ih ih' =>
    rw [h] at ih
    have hnil : Node.listAll entries = [] := ih
    simpa [hnil] using ih'

/-- The next path has left what comes after the current entry. -/
theorem leads_next? (path : Path κ ν) : Leads path.next? path.later := by
  fun_induction next? path with
  | case1 => rfl
  | case2 left path h ih => simpa [later, laterIn, h] using ih
  | case3 left path e es h => exact ⟨rfl, by simp [entriesFrom, entry?, later, laterIn, h]⟩
  | case4 left path inner h =>
    have hin := leads_firstIn left.tail
    rw [h] at hin
    simpa [later, laterIn] using leads_append hin path
  | case5 left path h ih =>
    have hin := leads_firstIn left.tail
    rw [h] at hin
    have hnil : Node.listAll left.tail = [] := hin
    simpa [later, laterIn, hnil] using ih

/-- A path to an entry has that one left and those after it. -/
theorem length_entriesFrom {path : Path κ ν} (h : path.entry?.isSome = true) :
    path.entriesFrom.length = path.later.length + 1 := by
  obtain ⟨e, he⟩ := Option.isSome_iff_exists.mp h
  rw [entriesFrom, he]
  rfl

end Path

/-- A hashed map counts its entries. -/
def Map.Formed : Map κ ν → Prop
  | .small _ => True
  | .hashed m => m.count = m.toList.length

/-- A cursor stands on an entry, and knows how many are left. -/
def Cursor.Formed : Cursor κ ν → Prop
  | .small entries index => index < entries.size
  | .hashed path remaining =>
    (Path.entry? path).isSome = true ∧ (Path.entriesFrom path).length = remaining

namespace Cursor

variable {c : Cursor κ ν}

/-- A proper cursor on as many entries, none when there are none. -/
def Counts : Option (Cursor κ ν) → Nat → Prop
  | none, n => n = 0
  | some c, n => c.Formed ∧ c.remaining = n

theorem counts_smallAt (entries : Array (κ × ν)) (index : Nat) :
    Counts (smallAt entries index) (entries.size - index) := by
  rw [smallAt]
  split
  · exact ⟨‹_›, rfl⟩
  · exact Nat.sub_eq_zero_of_le (Nat.le_of_not_lt ‹_›)

/-- A path with as many entries left makes a cursor on them. -/
theorem counts_of_leads {o : Option (Path κ ν)} {es : List (κ × ν)} {n : Nat} (h : Path.Leads o es)
    (hn : es.length = n) : Counts (o.map (hashed · n)) n := by
  subst hn
  cases o with
  | none => exact congrArg List.length h
  | some path => exact ⟨⟨h.1, congrArg List.length h.2⟩, rfl⟩

theorem Formed.remaining_pos (h : c.Formed) : 0 < c.remaining := by
  cases c with
  | small entries index => exact Nat.sub_pos_of_lt h
  | hashed path n =>
    obtain ⟨hentry, rfl⟩ := h
    rw [remaining, Path.length_entriesFrom hentry]
    exact Nat.succ_pos _

/-- Going on leaves one entry less. -/
theorem Formed.next? (h : c.Formed) : Counts c.next? (c.remaining - 1) := by
  cases c with
  | small entries index => exact counts_smallAt entries (index + 1)
  | hashed path n =>
    obtain ⟨hentry, rfl⟩ := h
    rw [Cursor.next?, remaining, Path.length_entriesFrom hentry]
    split
    · exact Nat.sub_eq_zero_of_le ‹_›
    · exact counts_of_leads (Path.leads_next? path) rfl

end Cursor

/-- The first cursor of a map is on all its entries. -/
theorem Map.Formed.cursor? {m : Map κ ν} (h : m.Formed) : Cursor.Counts m.cursor? m.count := by
  cases m with
  | small entries => exact Cursor.counts_smallAt entries 0
  | hashed m =>
    rw [Map.cursor?, Cursor.ofHashMap]
    split
    · exact ‹_›
    · have hfirst := Path.leads_firstIn m.root.children
      rw [Node.listAll_children] at hfirst
      exact Cursor.counts_of_leads hfirst h.symm

end LispCore
