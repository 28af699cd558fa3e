import LispCore.Map.Basic
import LispCore.Proofs.Trie.Checked
/-!
What a hash map looks like, and what follows for its operations and cursors. `HashMap.Represented` says it
node by node, for all that is reached from the root; a cursor's path goes down through the branches, so it
has a level of nodes for each of them and ends in at most one level of pairs (`Path.Framed`).
-/

namespace LispCore

variable {κ ν : Type}

/-! ### Nodes -/

namespace HashMap

variable {K : Keying κ} {m : HashMap κ ν}

/-- The shape of a hash map: nodes stand at the set bits of their branch's bitmap, keys where the groups of
their hashes lead, keys that share a hash together, and nothing is left over below the root. -/
structure Represented (K : Keying κ) (m : HashMap κ ν) : Prop where
  root : m.root.isTerminal = false
  branch : ∀ slots bitmap entries, m.root.At slots (.branch bitmap entries) →
    slots.length < Trie.levels ∧ entries.length = bitmap.cpop.toNat ∧
      ∀ n ∈ entries, ∃ slot, m.root.At (slots ++ [slot]) n
  leaf : ∀ slots k v, m.root.At slots (.leaf k v) →
    slots.length ≤ Trie.levels ∧ slots = Trie.groups (K.hash k) slots.length
  collision : ∀ slots h pairs, m.root.At slots (.collision h pairs) →
    slots.length ≤ Trie.levels ∧ slots = Trie.groups h slots.length ∧
      2 ≤ pairs.length ∧ K.Distinct pairs ∧ ∀ e ∈ pairs, K.hash e.1 = h
  stands : ∀ slots n, m.root.At slots n → slots ≠ [] → n.Stands

theorem Sound.represented (hm : m.Sound K) (ht : m.Tidy) : m.Represented K where
  root := ht.root
  branch slots bitmap entries h := by
    obtain ⟨hr, -⟩ := hm.routed.groups_eq h
    have hlen : entries.length = bitmap.cpop.toNat := hr.2.length_eq.trans (Trie.length_slots bitmap)
    exact ⟨hr.1, hlen, fun n hn => h.exists_concat hlen hn⟩
  leaf slots k v h := by
    have hlen := h.length_le hm.routed (Nat.zero_le _)
    rw [Nat.zero_add] at hlen
    exact ⟨hlen, (hm.routed.groups_eq h).2 (k, v) (by simp)⟩
  collision slots h pairs hat := by
    have hlen := hat.length_le hm.routed (Nat.zero_le _)
    rw [Nat.zero_add] at hlen
    obtain ⟨⟨htwo, hall⟩, hslots⟩ := hm.routed.groups_eq hat
    obtain ⟨e, he⟩ := List.exists_mem_of_length_pos (l := pairs) (by omega)
    exact ⟨hlen, hall e he ▸ hslots e he, htwo, hm.distinct.sublist hat.sublist, hall⟩
  stands slots n h := (h.tidy ht.below).2

end HashMap

/-! ### Cursors -/

namespace Level

/-- Whether a level is in a collision node. -/
def isPairs : Level κ ν → Bool
  | nodes _ => false
  | pairs _ => true

@[simp] theorem isPairs_nodes (left : List (Node κ ν)) : (nodes left).isPairs = false := rfl

@[simp] theorem isPairs_pairs (left : List (κ × ν)) : (pairs left).isPairs = true := rfl

end Level

namespace Path

variable {hash : κ → UInt64}

/-- Levels of nodes down to a depth, each with what is left of a branch at its depth. -/
inductive Branches (hash : κ → UInt64) : Nat → Path κ ν → Prop
  | root : Branches hash 0 []
  | deeper {depth : Nat} {left : List (Node κ ν)} {outer : Path κ ν} (hd : depth < Trie.levels)
      (hl : ∀ n ∈ left, n.Routed hash (depth + 1)) (h : Branches hash depth outer) :
      Branches hash (depth + 1) (.nodes left :: outer)

/-- Levels of nodes down to some depth, perhaps with a level of pairs below them. -/
inductive Framed (hash : κ → UInt64) : Path κ ν → Prop
  | branches {depth : Nat} {path : Path κ ν} (h : Branches hash depth path) : Framed hash path
  | pairs {depth : Nat} {outer : Path κ ν} (left : List (κ × ν)) (h : Branches hash depth outer) :
      Framed hash (.pairs left :: outer)

/-- The path to the first entry below some nodes goes down through branches. -/
theorem framed_firstIn {ns : List (Node κ ν)} : ∀ {inner outer : Path κ ν} {depth : Nat},
    firstIn ns = some inner → Branches hash depth outer → depth < Trie.levels →
      (∀ n ∈ ns, n.Routed hash (depth + 1)) → Framed hash (inner ++ outer) := by
  fun_induction firstIn ns with
  | case1 =>
    rintro inner outer depth ⟨⟩
  | case2 k v left =>
    rintro _ outer depth ⟨⟩ ho hd hns
    exact .branches (.deeper hd hns ho)
  | case3 h left ih =>
    intro inner outer depth hi ho hd hns
    exact ih hi ho hd fun n hn => hns n (List.mem_cons_of_mem _ hn)
  | case4 h e es left =>
    rintro _ outer depth ⟨⟩ ho hd hns
    exact .pairs _ (.deeper hd hns ho)
  | case5 bitmap entries left path hpath ih =>
    rintro _ outer depth ⟨⟩ ho hd hns
    obtain ⟨hdeep, hentries⟩ := hns (.branch bitmap entries) List.mem_cons_self
    rw [List.append_assoc, List.singleton_append]
    exact ih hpath (.deeper hd hns ho) hdeep fun n hn => hentries.routed n hn
  | case6 bitmap entries left hnone ih ih' =>
    intro inner outer depth hi ho hd hns
    exact ih' hi ho hd fun n hn => hns n (List.mem_cons_of_mem _ hn)

/-- Going on from levels of nodes stays within branches. -/
theorem Branches.next? {path : Path κ ν} {depth : Nat} (h : Branches hash depth path) :
    ∀ after, path.next? = some after → Framed hash after := by
  induction h with
  | root => exact nofun
  | @deeper depth left outer hd hl ho ih =>
    intro after hnext
    rw [Path.next?] at hnext
    cases hfirst : firstIn left.tail with
    | none =>
      rw [hfirst] at hnext
      exact ih after hnext
    | some inner =>
      rw [hfirst] at hnext
      obtain rfl := Option.some.inj hnext
      exact framed_firstIn hfirst ho hd fun n hn => hl n (List.mem_of_mem_tail hn)

theorem Framed.next? {path after : Path κ ν} (h : Framed hash path) (hnext : path.next? = some after) :
    Framed hash after := by
  cases h with
  | branches h => exact h.next? after hnext
  | pairs left h =>
    rw [Path.next?] at hnext
    cases htail : left.tail with
    | nil =>
      rw [htail] at hnext
      exact h.next? after hnext
    | cons e es =>
      rw [htail] at hnext
      obtain rfl := Option.some.inj hnext
      exact .pairs _ h

/-- There are as many levels of nodes as the depth, and no other. -/
theorem Branches.countP {path : Path κ ν} {depth : Nat} (h : Branches hash depth path) :
    path.countP (!·.isPairs) = depth ∧ path.countP (·.isPairs) = 0 ∧ depth ≤ Trie.levels := by
  induction h with
  | root => exact ⟨rfl, rfl, Nat.zero_le _⟩
  | deeper hd _ _ ih =>
    obtain ⟨hnodes, hpairs, -⟩ := ih
    exact ⟨by simp [hnodes], by simpa using hpairs, hd⟩

/-- A path has at most one level of nodes for each group of a hash, and at most one of pairs. -/
theorem Framed.countP_le {path : Path κ ν} (h : Framed hash path) :
    path.countP (!·.isPairs) ≤ Trie.levels ∧ path.countP (·.isPairs) ≤ 1 := by
  cases h with
  | branches h =>
    obtain ⟨hnodes, hpairs, hle⟩ := h.countP
    exact ⟨hnodes.trans_le hle, hpairs.trans_le (Nat.zero_le 1)⟩
  | pairs left h =>
    obtain ⟨hnodes, hpairs, hle⟩ := h.countP
    refine ⟨?_, ?_⟩
    · rw [List.countP_cons, hnodes]
      exact hle
    · rw [List.countP_cons, hpairs]
      exact le_rfl

end Path

/-- The cursors of a hash map: the first one, and those that going on gives. -/
inductive Cursor.Of (m : HashMap κ ν) : Cursor κ ν → Prop
  | first {c : Cursor κ ν} (h : Cursor.ofHashMap m = some c) : Of m c
  | next {c c' : Cursor κ ν} (hc : Of m c) (h : c.next? = some c') : Of m c'

/-- A cursor whose path has one level of nodes for a group of a hash at most, and one of pairs at most. -/
def Cursor.Bounded : Cursor κ ν → Prop
  | .small _ _ => False
  | .hashed path _ => path.countP (!·.isPairs) ≤ Trie.levels ∧ path.countP (·.isPairs) ≤ 1

/-- Every cursor of a routed map has a path down through its branches. -/
theorem Cursor.Of.framed {hash : κ → UInt64} {m : HashMap κ ν} {c : Cursor κ ν} (h : Cursor.Of m c)
    (hm : m.root.Routed hash 0) (hroot : m.root.isTerminal = false) :
    ∃ path left, c = .hashed path left ∧ Path.Framed hash path := by
  induction h with
  | first h =>
    rw [Cursor.ofHashMap] at h
    split_ifs at h
    obtain ⟨path, hpath, rfl⟩ := Option.map_eq_some_iff.mp h
    refine ⟨path, _, rfl, ?_⟩
    cases hr : m.root with
    | leaf | collision =>
      rw [hr] at hroot
      cases hroot
    | branch bitmap entries =>
      rw [hr] at hm hpath
      rw [← List.append_nil path]
      exact Path.framed_firstIn hpath .root hm.1 fun n hn => hm.2.routed n hn
  | next _ h ih =>
    obtain ⟨path, left, rfl, hframed⟩ := ih
    rw [Cursor.next?] at h
    split_ifs at h
    obtain ⟨after, hafter, rfl⟩ := Option.map_eq_some_iff.mp h
    exact ⟨after, _, rfl, hframed.next? hafter⟩

/-! ### Every history -/

namespace HashMap

/-- Whatever is added to a hash map and removed from it, and whatever equal keys hash to: each branch has a
node for every set bit, the groups of a key's hash are the slots that lead to it, keys that share a hash are
two or more, and no branch below the root is empty or over a lone leaf or collision node. So a lookup, an
addition and a removal of any key shift a hash by less than its width and read and write only where there
is a node, a split ends, and the path of a cursor has thirteen levels of nodes and one of pairs at most. -/
theorem represented_after {K : Keying κ} (hK : K.Coherent) (history : List (Change κ ν)) :
    (after K history).Represented K ∧ (after K history).Checked K ∧
      ∀ c, Cursor.Of (after K history) c → c.Bounded := by
  have hm := sound_after_of_coherent hK history
  have ht := tidy_after K history
  refine ⟨hm.represented ht, hm.checked hK, fun c hc => ?_⟩
  obtain ⟨path, left, rfl, hframed⟩ := hc.framed hm.routed ht.root
  exact hframed.countP_le

/-- Two keys that share a hash are thirteen slots below the root, as far down as a hash leads. -/
theorem represented_after_lastDigit :
    lastDigit.Coherent ∧
      (after lastDigit [.assoc 0 'a', .assoc 1 'b', .assoc 2 'c']).root.At (List.replicate 13 0)
        (.collision 0 [(0, 'a'), (1, 'b')]) ∧
      List.replicate 13 0 = Trie.groups 0 13 ∧
      (after lastDigit [.assoc 0 'a', .assoc 1 'b', .assoc 2 'c']).findChecked lastDigit 21 =
        some (some 'b') := by
  have hat : (after lastDigit [.assoc 0 'a', .assoc 1 'b', .assoc 2 'c']).root.At
      (List.replicate 13 0) (.collision 0 [(0, 'a'), (1, 'b')]) := by
    repeat' constructor
  obtain ⟨hrep, hchecked, -⟩ :=
    represented_after lawful_lastDigit.coherent [.assoc 0 'a', .assoc 1 'b', .assoc 2 'c']
  exact ⟨lawful_lastDigit, hat, (hrep.collision _ _ _ hat).2.1, (hchecked.find 21).trans rfl⟩

end HashMap

end LispCore
