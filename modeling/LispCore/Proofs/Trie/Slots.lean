import LispCore.Trie.Basic
import Mathlib.Data.List.Basic
import Mathlib.Data.List.Range
/-!
The slots of a branch and the groups of a hash. `slots` lists the occupied slots in ascending order,
so that the dense entries of a branch stand beside them; seen from one slot they are those below it,
possibly the slot, and those above it, and setting or clearing its bit changes only the middle. Two
hashes that agree in all thirteen groups are the same hash.
-/

namespace LispCore.Trie

/-- The occupied slots in ascending order. -/
def slots (bitmap : BitVec 32) : List Nat := (List.range 32).filter (occupied bitmap)

def slotsBelow (bitmap : BitVec 32) (slot : Nat) : List Nat :=
  (List.range slot).filter (occupied bitmap)

def slotsAbove (bitmap : BitVec 32) (slot : Nat) : List Nat :=
  (List.range' (slot + 1) (31 - slot)).filter (occupied bitmap)

/-- Two hashes have the same groups below a depth. -/
def Agree (depth : Nat) (a b : UInt64) : Prop := ∀ d < depth, slotAt a d = slotAt b d

/-! ### Groups of a hash -/

theorem slotAt_lt (hash : UInt64) (depth : Nat) : slotAt hash depth < 32 := by
  have h : ((hash >>> UInt64.ofNat (5 * depth)) &&& 31).toNat ≤ 31 := by
    rw [UInt64.toNat_and]
    exact Nat.and_le_right
  exact Nat.lt_succ_of_le h

/-- A group holds the bits of the hash from its place on. -/
theorem testBit_slotAt (hash : UInt64) {depth j : Nat} (hd : depth < 13) (hj : j < 5) :
    (slotAt hash depth).testBit j = hash.toNat.testBit (5 * depth + j) := by
  have hs : (UInt64.ofNat (5 * depth)).toNat = 5 * depth := by
    rw [UInt64.toNat_ofNat']
    omega
  have h31 : (31 : Nat).testBit j = true :=
    (Nat.testBit_two_pow_sub_one 5 j).trans (decide_eq_true hj)
  have hm : 5 * depth % 64 = 5 * depth := by omega
  rw [slotAt, UInt64.toNat_and, UInt64.toNat_shiftRight, hs, hm]
  show (hash.toNat >>> (5 * depth) &&& 31).testBit j = _
  rw [Nat.testBit_and, Nat.testBit_shiftRight, h31, Bool.and_true]

/-- Hashes that agree in every group are equal. -/
theorem eq_of_agree {a b : UInt64} (h : Agree levels a b) : a = b := by
  apply UInt64.toNat_inj.mp
  apply Nat.eq_of_testBit_eq
  intro i
  by_cases hi : i < 64
  · have hd : i / 5 < 13 := by omega
    have hj : i % 5 < 5 := Nat.mod_lt _ (by omega)
    have he : 5 * (i / 5) + i % 5 = i := Nat.div_add_mod i 5
    rw [← he, ← testBit_slotAt a hd hj, ← testBit_slotAt b hd hj, h (i / 5) hd]
  · have hp : 2 ^ 64 ≤ 2 ^ i := Nat.pow_le_pow_right (by omega) (by omega)
    rw [Nat.testBit_lt_two_pow (lt_of_lt_of_le a.toNat_lt hp),
      Nat.testBit_lt_two_pow (lt_of_lt_of_le b.toNat_lt hp)]

theorem Agree.succ {depth : Nat} {a b : UInt64} (h : Agree depth a b)
    (hs : slotAt a depth = slotAt b depth) : Agree (depth + 1) a b := by
  intro d hd
  rcases Nat.lt_succ_iff_lt_or_eq.mp hd with hd | rfl
  · exact h d hd
  · exact hs

/-! ### Slots seen from one of them -/

theorem length_slotsBelow (bitmap : BitVec 32) (slot : Nat) :
    (slotsBelow bitmap slot).length = position bitmap slot := by
  rw [slotsBelow, position, List.countP_eq_length_filter]

theorem slots_eq (bitmap : BitVec 32) {slot : Nat} (hs : slot < 32) :
    slots bitmap = slotsBelow bitmap slot ++
      ((if occupied bitmap slot then [slot] else []) ++ slotsAbove bitmap slot) := by
  have hr : List.range 32 = List.range slot ++ (slot :: List.range' (slot + 1) (31 - slot)) := by
    have h32 : 32 = slot + (31 - slot + 1) := by omega
    conv_lhs => rw [h32, List.range_eq_range', List.range'_append_1.symm]
    rw [Nat.zero_add, List.range'_succ, List.range_eq_range']
  rw [slots, hr, List.filter_append, List.filter_cons, slotsBelow, slotsAbove]
  split <;> simp

theorem slots_of_occupied {bitmap : BitVec 32} {slot : Nat} (h : occupied bitmap slot = true) :
    slots bitmap = slotsBelow bitmap slot ++ slot :: slotsAbove bitmap slot := by
  have hs : slot < 32 := BitVec.lt_of_getLsbD h
  rw [slots_eq bitmap hs, if_pos h, List.singleton_append]

theorem slots_of_free {bitmap : BitVec 32} {slot : Nat} (hs : slot < 32)
    (h : occupied bitmap slot = false) :
    slots bitmap = slotsBelow bitmap slot ++ slotsAbove bitmap slot := by
  rw [slots_eq bitmap hs, h, if_neg (by decide), List.nil_append]

theorem lt_of_mem_slotsBelow {bitmap : BitVec 32} {slot s : Nat} (h : s ∈ slotsBelow bitmap slot) :
    s < slot :=
  List.mem_range.mp (List.mem_filter.mp h).1

theorem lt_of_mem_slotsAbove {bitmap : BitVec 32} {slot s : Nat} (h : s ∈ slotsAbove bitmap slot) :
    slot < s := by
  have := List.mem_range'_1.mp (List.mem_filter.mp h).1
  omega

/-- Bitmaps that differ at most at one slot have the same slots below it. -/
theorem slotsBelow_congr {a b : BitVec 32} {slot : Nat}
    (h : ∀ s, s ≠ slot → occupied a s = occupied b s) : slotsBelow a slot = slotsBelow b slot := by
  refine List.filter_congr fun s hs => h s ?_
  have := List.mem_range.mp hs
  omega

/-- Bitmaps that differ at most at one slot have the same slots above it. -/
theorem slotsAbove_congr {a b : BitVec 32} {slot : Nat}
    (h : ∀ s, s ≠ slot → s < 32 → occupied a s = occupied b s) :
    slotsAbove a slot = slotsAbove b slot := by
  refine List.filter_congr fun s hs => ?_
  have := List.mem_range'_1.mp hs
  exact h s (by omega) (by omega)

theorem occupied_only {slot s : Nat} (hs : s < 32) : occupied (only slot) s = decide (s = slot) := by
  rw [occupied, only, BitVec.getLsbD_twoPow]
  by_cases h : s = slot
  · subst h
    simp [hs]
  · have : slot ≠ s := fun h' => h h'.symm
    simp [h, this]

/-- Setting the bit of a slot puts it between those below and those above. -/
theorem slots_set (bitmap : BitVec 32) {slot : Nat} (hs : slot < 32) :
    slots (bitmap ||| only slot) = slotsBelow bitmap slot ++ slot :: slotsAbove bitmap slot := by
  have hne : ∀ s, s ≠ slot → occupied (bitmap ||| only slot) s = occupied bitmap s := by
    intro s hne
    have : slot ≠ s := fun h => hne h.symm
    simp [occupied, only, BitVec.getLsbD_twoPow, this]
  have ho : occupied (bitmap ||| only slot) slot = true := by
    simp [occupied, only, hs]
  rw [slots_of_occupied ho, slotsBelow_congr hne, slotsAbove_congr fun s h _ => hne s h]

/-- Clearing the bit of a slot leaves those below and those above. -/
theorem slots_clear (bitmap : BitVec 32) {slot : Nat} (hs : slot < 32) :
    slots (bitmap &&& ~~~ only slot) = slotsBelow bitmap slot ++ slotsAbove bitmap slot := by
  have hne : ∀ s, s ≠ slot → occupied (bitmap &&& ~~~ only slot) s = occupied bitmap s := by
    intro s hne
    by_cases hs : s < 32
    · simp [occupied, only, hs, hne]
    · have : 32 ≤ s := by omega
      simp [occupied, BitVec.getLsbD_of_ge _ _ this]
  have ho : occupied (bitmap &&& ~~~ only slot) slot = false := by
    simp [occupied, only, hs]
  rw [slots_of_free hs ho, slotsBelow_congr hne, slotsAbove_congr fun s h _ => hne s h]

theorem slotsAbove_only {slot other : Nat} (h : slot ≤ other) :
    slotsAbove (only slot) other = [] := by
  refine List.filter_eq_nil_iff.mpr fun s hs => ?_
  have := List.mem_range'_1.mp hs
  rw [occupied_only (by omega), decide_eq_true_iff]
  omega

theorem slots_only {slot : Nat} (hs : slot < 32) : slots (only slot) = [slot] := by
  have hb : slotsBelow (only slot) slot = [] := by
    refine List.filter_eq_nil_iff.mpr fun s h => ?_
    have := List.mem_range.mp h
    rw [occupied_only (by omega), decide_eq_true_iff]
    omega
  have ho : occupied (only slot) slot = true := by
    rw [occupied_only hs, decide_eq_true_iff]
  rw [slots_of_occupied ho, hb, slotsAbove_only le_rfl, List.nil_append]

theorem slots_two {low high : Nat} (hlt : low < high) (hh : high < 32) :
    slots (only low ||| only high) = [low, high] := by
  have hl : low < 32 := hlt.trans hh
  have hf : occupied (only low) high = false := by
    rw [occupied_only hh, decide_eq_false_iff_not]
    omega
  have hb : slotsBelow (only low) high = [low] := by
    have := slots_of_free hh hf
    rwa [slots_only hl, slotsAbove_only hlt.le, List.append_nil, eq_comm] at this
  rw [slots_set _ hh, hb, slotsAbove_only hlt.le, List.singleton_append]

end LispCore.Trie
