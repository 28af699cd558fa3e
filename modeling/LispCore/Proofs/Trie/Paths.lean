import LispCore.Proofs.Trie.Tidy
import Mathlib.Data.List.Nodup
/-!
Nodes by the slots that lead to them. A node of a trie is `At` the slots through which it is reached from
the root; below a branch it stands at the position of its slot. In a routed trie these slots are the first
groups of the hash of every key below the node (`Node.Routed.groups_eq`), a branch has as many nodes as its
bitmap has bits set, and there is a group left to go by wherever there is a branch.
-/

namespace LispCore

namespace Trie

/-- The first so many groups of a hash, from the low end. -/
def groups (hash : UInt64) (count : Nat) : List Nat := (List.range count).map (slotAt hash)

@[simp] theorem length_groups (hash : UInt64) (count : Nat) : (groups hash count).length = count := by
  simp [groups]

/-- The position of a slot is the number of bits set below it. -/
theorem cpopNatRec_eq_position (bitmap : BitVec 32) (slot : Nat) :
    bitmap.cpopNatRec slot 0 = position bitmap slot := by
  induction slot with
  | zero => rfl
  | succ slot ih =>
    rw [BitVec.cpopNatRec_succ, BitVec.cpopNatRec_add, ih, position, position, List.range_succ,
      List.countP_append, List.countP_singleton, occupied]
    cases bitmap.getLsbD slot <;> simp

/-- A bitmap has as many slots as bits set. -/
theorem length_slots (bitmap : BitVec 32) : (slots bitmap).length = bitmap.cpop.toNat := by
  rw [BitVec.toNat_cpop, cpopNatRec_eq_position, position, List.countP_eq_length_filter, slots]

/-- Every position among the bits set is that of an occupied slot. -/
theorem exists_slot {bitmap : BitVec 32} {i : Nat} (hi : i < bitmap.cpop.toNat) :
    ∃ slot, occupied bitmap slot = true ∧ position bitmap slot = i := by
  rw [← length_slots] at hi
  have ho : occupied bitmap (slots bitmap)[i] = true :=
    (List.mem_filter.mp (List.getElem_mem hi)).2
  refine ⟨(slots bitmap)[i], ho, ?_⟩
  have hnodup : (slots bitmap).Nodup := List.nodup_range.filter _
  have hsplit := slots_of_occupied ho
  have hlt : (slotsBelow bitmap (slots bitmap)[i]).length < (slots bitmap).length := by
    conv_rhs => rw [hsplit]
    simp
  have hat : (slots bitmap)[(slotsBelow bitmap (slots bitmap)[i]).length] = (slots bitmap)[i] := by
    rw [List.getElem_of_eq hsplit]
    simp
  rw [← length_slotsBelow]
  exact (List.Nodup.getElem_inj_iff hnodup).mp hat

end Trie

namespace Node

variable {κ ν : Type}

/-- A node is reached from another one through these slots. -/
inductive At : Node κ ν → List Nat → Node κ ν → Prop
  | here (n : Node κ ν) : At n [] n
  | through {bitmap : BitVec 32} {entries : List (Node κ ν)} {slot : Nat} {slots : List Nat}
      {n m : Node κ ν} (ho : Trie.occupied bitmap slot = true)
      (hn : entries[Trie.position bitmap slot]? = some n) (h : At n slots m) :
      At (branch bitmap entries) (slot :: slots) m

variable {hash : κ → UInt64} {depth : Nat} {n m : Node κ ν} {slots : List Nat}

/-- Nodes stand at as many slots as there are nodes. -/
theorem RoutedAll.length_eq : ∀ {slots : List Nat} {ns : List (Node κ ν)},
    RoutedAll hash depth slots ns → ns.length = slots.length
  | [], [], _ => rfl
  | _ :: _, _ :: _, ⟨_, _, h⟩ => congrArg (· + 1) h.length_eq

theorem RoutedAll.routed : ∀ {slots : List Nat} {ns : List (Node κ ν)},
    RoutedAll hash depth slots ns → ∀ n ∈ ns, n.Routed hash (depth + 1)
  | [], [], _ => nofun
  | _ :: _, _ :: _, ⟨hn, _, h⟩ => List.forall_mem_cons.mpr ⟨hn, h.routed⟩

/-- In a routed branch the position of an occupied slot is that of a node. -/
theorem Routed.exists_entry {bitmap : BitVec 32} {entries : List (Node κ ν)} {slot : Nat}
    (hr : (branch bitmap entries).Routed hash depth) (ho : Trie.occupied bitmap slot = true) :
    ∃ n, entries[Trie.position bitmap slot]? = some n ∧ n.Routed hash (depth + 1) ∧
      ∀ e ∈ n.toList, Trie.slotAt (hash e.1) depth = slot := by
  obtain ⟨front, n, back, rfl, hl, -, hn, hs, -⟩ := hr.2.split ho
  exact ⟨n, by simp [← hl], hn, hs⟩

/-- The position of a free slot is not behind the last node. -/
theorem Routed.position_le {bitmap : BitVec 32} {entries : List (Node κ ν)} {slot : Nat}
    (hr : (branch bitmap entries).Routed hash depth) (hs : slot < 32)
    (ho : Trie.occupied bitmap slot = false) : Trie.position bitmap slot ≤ entries.length := by
  obtain ⟨front, back, rfl, hl, -, -⟩ := hr.2.split_free hs ho
  simp [← hl]

namespace At

/-- What is below a node that is reached is below the node it is reached from, in the same order. -/
theorem sublist (h : n.At slots m) : m.toList.Sublist n.toList := by
  induction h with
  | here => exact .refl _
  | @through _ entries _ _ n _ _ hn _ ih =>
    obtain ⟨front, back, rfl⟩ := List.append_of_mem (List.mem_of_getElem? hn)
    rw [toList_branch, listAll_append, listAll_cons]
    exact ih.trans ((List.sublist_append_left ..).trans (List.sublist_append_right ..))

/-- A routed trie is routed from every node on, and the keys below a node have hashes that lead through
its slots. -/
theorem routed (h : n.At slots m) : ∀ {depth : Nat}, n.Routed hash depth →
    m.Routed hash (depth + slots.length) ∧
      ∀ e ∈ m.toList, slots = (List.range' depth slots.length).map (Trie.slotAt (hash e.1)) := by
  induction h with
  | here => exact fun hr => ⟨hr, fun _ _ => rfl⟩
  | @through bitmap entries slot slots n m ho hn h ih =>
    intro depth hr
    obtain ⟨n', hn', hrn, hslot⟩ := hr.exists_entry ho
    obtain rfl : n = n' := Option.some.inj (hn.symm.trans hn')
    obtain ⟨hm, hslots⟩ := ih hrn
    refine ⟨?_, fun e he => ?_⟩
    · rw [List.length_cons, Nat.add_comm slots.length, ← Nat.add_assoc]
      exact hm
    · rw [List.length_cons, List.range'_succ, List.map_cons, ← hslots e he,
        hslot e (h.sublist.subset he)]

/-- No node of a routed trie is further down than there are groups to go by. -/
theorem length_le (h : n.At slots m) : ∀ {depth : Nat}, n.Routed hash depth → depth ≤ Trie.levels →
    depth + slots.length ≤ Trie.levels := by
  induction h with
  | here => exact fun _ hd => hd
  | @through bitmap entries slot slots n m ho hn h ih =>
    intro depth hr _
    obtain ⟨n', hn', hrn, -⟩ := hr.exists_entry ho
    obtain rfl : n = n' := Option.some.inj (hn.symm.trans hn')
    have := ih hrn hr.1
    rw [List.length_cons]
    omega

/-- One slot further. -/
theorem concat {bitmap : BitVec 32} {entries : List (Node κ ν)} {slot : Nat}
    (h : n.At slots (branch bitmap entries)) (ho : Trie.occupied bitmap slot = true)
    (hm : entries[Trie.position bitmap slot]? = some m) : n.At (slots ++ [slot]) m := by
  generalize hb : branch bitmap entries = b at h
  induction h with
  | here =>
    subst hb
    exact .through ho hm (.here m)
  | through ho' hn _ ih => exact .through ho' hn (ih hb)

/-- Every node below a tidy one stands. -/
theorem tidy (h : n.At slots m) (ht : n.Tidy) : m.Tidy ∧ (slots ≠ [] → m.Stands) := by
  induction h with
  | here => exact ⟨ht, fun hne => absurd rfl hne⟩
  | @through _ _ _ slots n m _ hn h ih =>
    obtain ⟨hstands, htidy⟩ := tidyAll_iff.mp ht n (List.mem_of_getElem? hn)
    refine ⟨(ih htidy).1, fun _ => ?_⟩
    cases h with
    | here => exact hstands
    | through => exact (ih htidy).2 nofun

/-- Every node of a branch that is reached is reached. -/
theorem exists_concat {bitmap : BitVec 32} {entries : List (Node κ ν)}
    (h : n.At slots (branch bitmap entries)) (hlen : entries.length = bitmap.cpop.toNat)
    (hm : m ∈ entries) : ∃ slot, n.At (slots ++ [slot]) m := by
  obtain ⟨i, hi, rfl⟩ := List.getElem_of_mem hm
  obtain ⟨slot, ho, rfl⟩ := Trie.exists_slot (hlen ▸ hi)
  exact ⟨slot, h.concat ho (List.getElem?_eq_getElem hi)⟩

end At

/-- From the root on, the slots of a node are the first groups of the hash of each key below it. -/
theorem Routed.groups_eq (hr : n.Routed hash 0) (h : n.At slots m) :
    m.Routed hash slots.length ∧ ∀ e ∈ m.toList, slots = Trie.groups (hash e.1) slots.length := by
  obtain ⟨hm, hslots⟩ := h.routed hr
  rw [Nat.zero_add] at hm
  refine ⟨hm, fun e he => ?_⟩
  rw [Trie.groups, List.range_eq_range']
  exact hslots e he

end Node

end LispCore
