import LispCore.Proofs.Trie.FiniteMap
import LispCore.Proofs.Trie.Paths
/-!
Lookups, additions and removals that check what they rely on. Here a hash is shifted only by less than
its width, the node at a position is read, replaced and removed only if there is one, a new node goes no
further back than behind the last one, a split goes on for as long as two hashes have one group, and an
entry is subtracted only from a count that has one; where one of these fails there is no result. In a
routed trie none fails, and the results are those of the plain operations (`HashMap.Sound.checked`).
-/

namespace LispCore

namespace Trie

/-- The group of a hash at a depth, if the shift down to it is less than the width of a hash. -/
def group? (hash : UInt64) (depth : Nat) : Option Nat :=
  if 5 * depth < 64 then some (slotAt hash depth) else none

/-- The position of a slot, counted in the bits of the bitmap below it. -/
def maskedCount (bitmap : BitVec 32) (slot : Nat) : Nat :=
  (bitmap &&& (only slot - 1)).cpop.toNat

theorem group?_eq (hash : UInt64) {depth : Nat} (hd : depth < levels) :
    group? hash depth = some (slotAt hash depth) := by
  rw [levels] at hd
  exact if_pos (by omega)

/-- One less than the bit of a slot are the bits below it. -/
theorem getLsbD_only_sub_one {slot : Nat} (hs : slot < 32) (i : Nat) :
    (only slot - 1).getLsbD i = decide (i < slot) := by
  have hpow : 2 ^ slot < 2 ^ 32 := Nat.pow_lt_pow_right (by omega) hs
  have hpos : 0 < 2 ^ slot := Nat.two_pow_pos slot
  have hnat : (only slot - 1).toNat = 2 ^ slot - 1 := by
    rw [BitVec.toNat_sub, only, BitVec.toNat_twoPow, Nat.mod_eq_of_lt hpow]
    show (2 ^ 32 - 1 + 2 ^ slot) % 2 ^ 32 = _
    omega
  rw [← BitVec.testBit_toNat, hnat, Nat.testBit_two_pow_sub_one]

theorem maskedCount_eq (bitmap : BitVec 32) {slot : Nat} (hs : slot < 32) :
    maskedCount bitmap slot = position bitmap slot := by
  have ho : ∀ i, occupied (bitmap &&& (only slot - 1)) i = (occupied bitmap i && decide (i < slot)) := by
    intro i
    rw [occupied, BitVec.getLsbD_and, getLsbD_only_sub_one hs, occupied]
  have hslots : slots (bitmap &&& (only slot - 1)) = slotsBelow bitmap slot := by
    have hfree : occupied (bitmap &&& (only slot - 1)) slot = false := by
      rw [ho, decide_eq_false (lt_irrefl slot), Bool.and_false]
    have habove : slotsAbove (bitmap &&& (only slot - 1)) slot = [] := by
      refine List.filter_eq_nil_iff.mpr fun s h => ?_
      have := List.mem_range'_1.mp h
      rw [ho, decide_eq_false (by omega), Bool.and_false]
      exact Bool.false_ne_true
    rw [slots_of_free hs hfree, habove, List.append_nil]
    refine List.filter_congr fun s h => ?_
    rw [ho, decide_eq_true (List.mem_range.mp h), Bool.and_true]
  rw [maskedCount, ← length_slots, hslots, length_slotsBelow]

end Trie

namespace Node

variable {κ ν : Type}

def findChecked (K : Keying κ) (hash : UInt64) (key : κ) (depth : Nat) : Node κ ν → Option (Option ν)
  | leaf k v => some (if K.same k key then some v else none)
  | collision h pairs =>
    some (if h = hash then (pairs.find? fun e => K.same e.1 key).map (·.2) else none)
  | branch bitmap entries => do
    let slot ← Trie.group? hash depth
    if Trie.occupied bitmap slot then
      match _hn : entries[Trie.maskedCount bitmap slot]? with
      | none => none
      | some n => n.findChecked K hash key (depth + 1)
    else some none
decreasing_by
  have := List.sizeOf_lt_of_mem (List.mem_of_getElem? _hn)
  simp only [branch.sizeOf_spec]
  omega

/-- Puts two nodes below as many branches as it takes for their hashes to part. -/
def splitChecked (a : Node κ ν) (aHash : UInt64) (b : Node κ ν) (bHash : UInt64) (depth : Nat) :
    Option (Node κ ν) :=
  if _hd : 5 * depth < 64 then
    let aSlot := Trie.slotAt aHash depth
    let bSlot := Trie.slotAt bHash depth
    if aSlot = bSlot then
      (splitChecked a aHash b bHash (depth + 1)).map fun n => branch (Trie.only aSlot) [n]
    else
      some (branch (Trie.only aSlot ||| Trie.only bSlot) (if aSlot < bSlot then [a, b] else [b, a]))
  else none
termination_by 64 - 5 * depth

def insertChecked (K : Keying κ) (hash : UInt64) (key : κ) (val : ν) (depth : Nat) :
    Node κ ν → Option (Node κ ν × Bool)
  | leaf k v =>
    if K.same k key then some (leaf key val, false)
    else if K.hash k = hash then some (collision hash [(k, v), (key, val)], true)
    else (splitChecked (leaf k v) (K.hash k) (leaf key val) hash depth).map (·, true)
  | collision h pairs =>
    if h = hash then
      let (pairs, added) := insertPair K key val pairs
      some (collision h pairs, added)
    else (splitChecked (collision h pairs) h (leaf key val) hash depth).map (·, true)
  | branch bitmap entries => do
    let slot ← Trie.group? hash depth
    let i := Trie.maskedCount bitmap slot
    if Trie.occupied bitmap slot then
      match _hn : entries[i]? with
      | none => none
      | some n =>
        let (n, added) ← n.insertChecked K hash key val (depth + 1)
        return (branch bitmap (entries.set i n), added)
    else if i ≤ entries.length then
      some (branch (bitmap ||| Trie.only slot) (entries.insertIdx i (leaf key val)), true)
    else none
decreasing_by
  have := List.sizeOf_lt_of_mem (List.mem_of_getElem? _hn)
  simp only [branch.sizeOf_spec]
  omega

def eraseChecked (K : Keying κ) (hash : UInt64) (key : κ) (depth : Nat) :
    Node κ ν → Option (Removal κ ν)
  | leaf k _ => some (if K.same k key then .gone else .absent)
  | collision h pairs =>
    if h = hash then
      match erasePair K key pairs with
      | none => some .absent
      | some [(k, v)] => some (.kept (leaf k v))
      | some pairs => some (.kept (collision h pairs))
    else some .absent
  | branch bitmap entries => do
    let slot ← Trie.group? hash depth
    let i := Trie.maskedCount bitmap slot
    if Trie.occupied bitmap slot then
      match _hn : entries[i]? with
      | none => none
      | some n =>
        match ← n.eraseChecked K hash key (depth + 1) with
        | .absent => return .absent
        | .gone => return .kept (branch (bitmap &&& ~~~ Trie.only slot) (entries.eraseIdx i))
        | .kept n =>
          match n.pullUp with
          | none => return .kept (branch (bitmap &&& ~~~ Trie.only slot) (entries.eraseIdx i))
          | some n => return .kept (branch bitmap (entries.set i n))
    else some .absent
decreasing_by
  have := List.sizeOf_lt_of_mem (List.mem_of_getElem? _hn)
  simp only [branch.sizeOf_spec]
  omega

/-! ### Nothing fails -/

section Results

variable {K : Keying κ} {hash : κ → UInt64} {bitmap : BitVec 32} {entries : List (Node κ ν)}

/-- The node of a routed branch at the slot of a hash is the one that is read there. -/
theorem Routed.read_entry {depth : Nat} (hr : (branch bitmap entries).Routed hash depth) (h : UInt64)
    (ho : Trie.occupied bitmap (Trie.slotAt h depth) = true) :
    ∃ front n back, entries = front ++ n :: back ∧ n.Routed hash (depth + 1) ∧
      (∀ e ∈ n.toList, Trie.slotAt (hash e.1) depth = Trie.slotAt h depth) ∧
      front.length = Trie.position bitmap (Trie.slotAt h depth) ∧
      entries[Trie.maskedCount bitmap (Trie.slotAt h depth)]? = some n := by
  obtain ⟨front, n, back, rfl, hl, -, hn, hs, -⟩ := hr.2.split ho
  refine ⟨front, n, back, rfl, hn, hs, hl, ?_⟩
  rw [Trie.maskedCount_eq _ (Trie.slotAt_lt ..), ← hl]
  simp

/-- A lookup for any hash reads only what is there. -/
theorem findChecked_eq (h : UInt64) (key : κ) (n : Node κ ν) : ∀ {depth : Nat}, n.Routed hash depth →
    n.findChecked K h key depth = some (n.find? K h key depth) := by
  induction n using Node.induct with
  | leaf k v => exact fun _ => by rw [findChecked, find?]
  | collision h' pairs => exact fun _ => by rw [findChecked, find?]
  | branch bitmap entries ih =>
    intro depth hr
    rw [findChecked, Trie.group?_eq h hr.1, find?, Option.bind_eq_bind, Option.bind_some]
    by_cases ho : Trie.occupied bitmap (Trie.slotAt h depth) = true
    · obtain ⟨front, n, back, rfl, hn, -, hl, hread⟩ := hr.read_entry h ho
      simp only [if_pos ho, ← hl, findAt_append]
      split
      next hnone =>
        rw [hread] at hnone
        cases hnone
      next n' hsome =>
        obtain rfl := Option.some.inj (hread.symm.trans hsome)
        exact ih n (by simp) hn
    · simp only [if_neg ho]

/-- A split of two nodes whose hashes agree down to its depth ends where they part. -/
theorem splitChecked_eq (a b : Node κ ν) {aHash bHash : UInt64} (hne : aHash ≠ bHash) :
    ∀ left depth, left + depth = Trie.levels → Trie.Agree depth aHash bHash →
      splitChecked a aHash b bHash depth = some (split a aHash b bHash left depth)
  | 0, depth, hl, h => by
    obtain rfl : depth = Trie.levels := by omega
    exact absurd (Trie.eq_of_agree h) hne
  | left + 1, depth, hl, h => by
    have hshift : 5 * depth < 64 := by
      rw [Trie.levels] at hl
      omega
    rw [splitChecked, dif_pos hshift, split]
    by_cases hs : Trie.slotAt aHash depth = Trie.slotAt bHash depth
    · simp only [if_pos hs, splitChecked_eq a b hne left (depth + 1) (by omega) (h.succ hs),
        Option.map_some]
    · simp only [if_neg hs]

theorem splitChecked_eq_splitFrom (a b : Node κ ν) {aHash bHash : UInt64} (hne : aHash ≠ bHash)
    {depth : Nat} (hag : Trie.Agree depth aHash bHash) (hd : depth ≤ Trie.levels) :
    splitChecked a aHash b bHash depth = some (splitFrom depth a aHash b bHash) :=
  splitChecked_eq a b hne _ depth (by omega) hag

/-- An insertion fails nowhere, when all hashes agree with that of the key down to the depth. -/
theorem insertChecked_eq (key : κ) (val : ν) (n : Node κ ν) : ∀ {depth : Nat},
    n.Routed K.hash depth → (∀ e ∈ n.toList, Trie.Agree depth (K.hash e.1) (K.hash key)) →
    depth ≤ Trie.levels →
    n.insertChecked K (K.hash key) key val depth = some (n.insert K (K.hash key) key val depth) := by
  induction n using Node.induct with
  | leaf k v =>
    intro depth _ hag hd
    simp only [insertChecked, insert]
    split_ifs with hs hh
    · rfl
    · rfl
    · rw [splitChecked_eq_splitFrom _ _ hh (hag (k, v) (by simp)) hd, Option.map_some]
  | collision h pairs =>
    intro depth hr hag hd
    simp only [insertChecked, insert]
    split_ifs with hh
    · rfl
    · rw [splitChecked_eq_splitFrom _ _ hh (agree_of_collision hr hag) hd, Option.map_some]
  | branch bitmap entries ih =>
    intro depth hr hag _
    rw [insertChecked, Trie.group?_eq _ hr.1, insert, Option.bind_eq_bind, Option.bind_some]
    by_cases ho : Trie.occupied bitmap (Trie.slotAt (K.hash key) depth) = true
    · obtain ⟨front, n, back, rfl, hn, hs, hl, hread⟩ := hr.read_entry (K.hash key) ho
      simp only [if_pos ho, ← hl, insertAt_append]
      split
      next hnone =>
        rw [hread] at hnone
        cases hnone
      next n' hsome =>
        obtain rfl := Option.some.inj (hread.symm.trans hsome)
        rw [ih n (by simp) hn (fun e he => (hag e (by simp [he])).succ (hs e he)) hr.1,
          Trie.maskedCount_eq _ (Trie.slotAt_lt ..), ← hl]
        simp
    · have ho' := eq_false_of_ne_true ho
      simp only [if_neg ho, Trie.maskedCount_eq _ (Trie.slotAt_lt ..),
        if_pos (hr.position_le (Trie.slotAt_lt ..) ho')]

/-- A removal for any hash fails nowhere. -/
theorem eraseChecked_eq (h : UInt64) (key : κ) (n : Node κ ν) : ∀ {depth : Nat}, n.Routed hash depth →
    n.eraseChecked K h key depth = some (n.erase K h key depth) := by
  induction n using Node.induct with
  | leaf k v => exact fun _ => by rw [eraseChecked, erase]
  | collision h' pairs =>
    intro depth _
    rw [eraseChecked, erase]
    split_ifs
    · split <;> simp_all
    · rfl
  | branch bitmap entries ih =>
    intro depth hr
    rw [eraseChecked, Trie.group?_eq h hr.1, erase, Option.bind_eq_bind, Option.bind_some]
    by_cases ho : Trie.occupied bitmap (Trie.slotAt h depth) = true
    · obtain ⟨front, n, back, rfl, hn, -, hl, hread⟩ := hr.read_entry h ho
      simp only [if_pos ho, ← hl, eraseAt_append]
      split
      next hnone =>
        rw [hread] at hnone
        cases hnone
      next n' hsome =>
        obtain rfl := Option.some.inj (hread.symm.trans hsome)
        rw [ih n (by simp) hn, Trie.maskedCount_eq _ (Trie.slotAt_lt ..), ← hl]
        cases n.erase K h key (depth + 1) with
        | absent | gone => rfl
        | kept m =>
          cases hpull : m.pullUp <;> simp [hpull]
    · simp only [if_neg ho]

end Results

end Node

namespace HashMap

variable {κ ν : Type} {K : Keying κ} {m : HashMap κ ν}

def findChecked (K : Keying κ) (m : HashMap κ ν) (key : κ) : Option (Option ν) :=
  m.root.findChecked K (K.hash key) key 0

def assocChecked (K : Keying κ) (m : HashMap κ ν) (key : κ) (val : ν) : Option (HashMap κ ν) := do
  let (root, added) ← m.root.insertChecked K (K.hash key) key val 0
  return ⟨root, if added then m.count + 1 else m.count⟩

def dissocChecked (K : Keying κ) (m : HashMap κ ν) (key : κ) : Option (HashMap κ ν) := do
  match ← m.root.eraseChecked K (K.hash key) key 0 with
  | .absent => return m
  | .gone => return empty
  | .kept root => if 0 < m.count then some ⟨root, m.count - 1⟩ else none

/-- Nothing that is checked fails. -/
structure Checked (K : Keying κ) (m : HashMap κ ν) : Prop where
  find : ∀ key, m.findChecked K key = some (m.find? K key)
  assoc : ∀ key val, m.assocChecked K key val = some (m.assoc K key val)
  dissoc : ∀ key, m.dissocChecked K key = some (m.dissoc K key)

theorem Sound.checked (hm : m.Sound K) (hK : K.Coherent) : m.Checked K where
  find key := m.root.findChecked_eq (K.hash key) key hm.routed
  assoc key val := by
    rw [assocChecked, m.root.insertChecked_eq key val hm.routed
      (fun _ _ d hd => absurd hd (Nat.not_lt_zero d)) (Nat.zero_le _)]
    rfl
  dissoc key := by
    have hd := m.root.erase_spec hK key hm.routed hm.distinct
    rw [dissocChecked, m.root.eraseChecked_eq (K.hash key) key hm.routed, HashMap.dissoc]
    cases h : m.root.erase K (K.hash key) key 0 with
    | absent | gone => rfl
    | kept root =>
      rw [h] at hd
      have hpos : 0 < m.count := by
        rw [hm.count_eq, ← hK.length_without hm.distinct hd.1]
        exact Nat.succ_pos _
      exact if_pos hpos

end HashMap

end LispCore
