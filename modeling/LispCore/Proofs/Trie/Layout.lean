import LispCore.Proofs.Trie.Slots
import LispCore.Trie.Update
/-!
Where the entries of a trie are. `Routed` says that every branch has one node for each occupied slot
and that the hash of every key below a node leads through its slot. A branch of a routed trie falls
apart at the slot of a hash (`RoutedAll.split`), and no key outside that slot has the hash; lookup
below the node is then lookup in the list of its entries.
-/

namespace LispCore

/-- The test for equal keys is an equivalence, and equal keys have one hash. -/
structure Keying.Lawful {κ : Type} (K : Keying κ) : Prop where
  refl : ∀ a, K.same a a = true
  symm : ∀ {a b}, K.same a b = true → K.same b a = true
  trans : ∀ {a b c}, K.same a b = true → K.same b c = true → K.same a c = true
  hash_eq : ∀ {a b}, K.same a b = true → K.hash a = K.hash b

/-- Equality is symmetric and transitive, and equal keys have one hash, but a key need not be equal to
itself. -/
structure Keying.Coherent {κ : Type} (K : Keying κ) : Prop where
  symm : ∀ {a b}, K.same a b = true → K.same b a = true
  trans : ∀ {a b c}, K.same a b = true → K.same b c = true → K.same a c = true
  hash_eq : ∀ {a b}, K.same a b = true → K.hash a = K.hash b

theorem Keying.Lawful.coherent {κ : Type} {K : Keying κ} (hK : K.Lawful) : K.Coherent :=
  ⟨hK.symm, hK.trans, hK.hash_eq⟩

instance {κ : Type} {K : Keying κ} : Coe K.Lawful K.Coherent := ⟨Keying.Lawful.coherent⟩

/-- No two entries have equal keys. -/
def Keying.Distinct {κ ν : Type} (K : Keying κ) (es : List (κ × ν)) : Prop :=
  es.Pairwise fun e f => K.same e.1 f.1 = false

namespace Node

variable {κ ν : Type}

/-- What holds of leaves and collision nodes, and of a branch when it holds of its nodes, holds. -/
@[elab_as_elim]
theorem induct {motive : Node κ ν → Prop} (leaf : ∀ k v, motive (.leaf k v))
    (collision : ∀ h pairs, motive (.collision h pairs))
    (branch : ∀ bitmap entries, (∀ n ∈ entries, motive n) → motive (.branch bitmap entries)) :
    ∀ n, motive n
  | .leaf k v => leaf k v
  | .collision h pairs => collision h pairs
  | .branch bitmap entries => branch bitmap entries fun n _ => induct leaf collision branch n

mutual

/-- Every branch below has a group of the hash to go by and its nodes at its occupied slots, every
key is where its hash leads, and a collision node holds two or more keys of its hash. -/
def Routed (hash : κ → UInt64) : (depth : Nat) → Node κ ν → Prop
  | _, leaf _ _ => True
  | _, collision h pairs => 2 ≤ pairs.length ∧ ∀ e ∈ pairs, hash e.1 = h
  | depth, branch bitmap entries =>
    depth < Trie.levels ∧ RoutedAll hash depth (Trie.slots bitmap) entries

/-- The nodes of a branch at a depth stand at these slots. -/
def RoutedAll (hash : κ → UInt64) (depth : Nat) : List Nat → List (Node κ ν) → Prop
  | [], [] => True
  | s :: ss, n :: ns => n.Routed hash (depth + 1) ∧
      (∀ e ∈ n.toList, Trie.slotAt (hash e.1) depth = s) ∧ RoutedAll hash depth ss ns
  | _, _ => False

end

/-! ### Entries of several nodes -/

@[simp] theorem listAll_append : ∀ ms ns : List (Node κ ν),
    listAll (ms ++ ns) = listAll ms ++ listAll ns
  | [], _ => rfl
  | m :: ms, ns => by rw [List.cons_append, listAll, listAll, listAll_append ms ns, List.append_assoc]

@[simp] theorem listAll_cons (n : Node κ ν) (ns : List (Node κ ν)) :
    listAll (n :: ns) = n.toList ++ listAll ns := rfl

@[simp] theorem listAll_nil : listAll ([] : List (Node κ ν)) = [] := rfl

@[simp] theorem toList_leaf (k : κ) (v : ν) : (leaf k v).toList = [(k, v)] := rfl

@[simp] theorem toList_collision (h : UInt64) (pairs : List (κ × ν)) :
    (collision h pairs).toList = pairs := rfl

@[simp] theorem toList_branch (bitmap : BitVec 32) (entries : List (Node κ ν)) :
    (branch bitmap entries).toList = listAll entries := rfl

/-! ### Branches at a slot -/

section Slots

variable {hash : κ → UInt64} {depth : Nat}

/-- Nodes at some slots followed by others are nodes at the former followed by the others. -/
theorem RoutedAll.append : ∀ {ss : List Nat} {ms : List (Node κ ν)} {ts : List Nat}
    {ns : List (Node κ ν)}, RoutedAll hash depth ss ms → RoutedAll hash depth ts ns →
    RoutedAll hash depth (ss ++ ts) (ms ++ ns)
  | [], [], _, _, _, h => h
  | _ :: _, _ :: _, _, _, ⟨hm, hs, hr⟩, h => ⟨hm, hs, hr.append h⟩

/-- Nodes at slots split where the slots do. -/
theorem RoutedAll.exists_append : ∀ {ss : List Nat} {ts : List Nat} {ns : List (Node κ ν)},
    RoutedAll hash depth (ss ++ ts) ns → ∃ front back, ns = front ++ back ∧
      front.length = ss.length ∧ RoutedAll hash depth ss front ∧ RoutedAll hash depth ts back
  | [], _, ns, h => ⟨[], ns, rfl, rfl, trivial, h⟩
  | _ :: _, _, n :: _, ⟨hn, hs, hr⟩ => by
    obtain ⟨front, back, rfl, hl, hf, hb⟩ := hr.exists_append
    exact ⟨n :: front, back, rfl, congrArg (· + 1) hl, ⟨hn, hs, hf⟩, hb⟩

/-- The hash of a key below some nodes leads to one of their slots. -/
theorem RoutedAll.slot_mem : ∀ {ss : List Nat} {ns : List (Node κ ν)}, RoutedAll hash depth ss ns →
    ∀ e ∈ listAll ns, Trie.slotAt (hash e.1) depth ∈ ss
  | [], [], _, _, he => by simp at he
  | _ :: _, n :: _, ⟨_, hs, hr⟩, e, he => by
    rw [listAll_cons, List.mem_append] at he
    rcases he with he | he
    · rw [hs e he]
      exact List.mem_cons_self
    · exact List.mem_cons_of_mem _ (hr.slot_mem e he)

/-- A branch at an occupied slot: the node there, and nodes whose keys go elsewhere. -/
theorem RoutedAll.split {bitmap : BitVec 32} {entries : List (Node κ ν)} {slot : Nat}
    (h : RoutedAll hash depth (Trie.slots bitmap) entries)
    (ho : Trie.occupied bitmap slot = true) :
    ∃ front n back, entries = front ++ n :: back ∧ front.length = Trie.position bitmap slot ∧
      RoutedAll hash depth (Trie.slotsBelow bitmap slot) front ∧ n.Routed hash (depth + 1) ∧
      (∀ e ∈ n.toList, Trie.slotAt (hash e.1) depth = slot) ∧
      RoutedAll hash depth (Trie.slotsAbove bitmap slot) back := by
  rw [Trie.slots_of_occupied ho] at h
  obtain ⟨front, rest, rfl, hl, hf, hr⟩ := h.exists_append
  obtain - | ⟨n, back⟩ := rest
  · exact hr.elim
  · exact ⟨front, n, back, rfl, hl.trans (Trie.length_slotsBelow ..), hf, hr.1, hr.2.1, hr.2.2⟩

/-- A branch at a free slot: every key goes elsewhere. -/
theorem RoutedAll.split_free {bitmap : BitVec 32} {entries : List (Node κ ν)} {slot : Nat}
    (h : RoutedAll hash depth (Trie.slots bitmap) entries) (hs : slot < 32)
    (ho : Trie.occupied bitmap slot = false) :
    ∃ front back, entries = front ++ back ∧ front.length = Trie.position bitmap slot ∧
      RoutedAll hash depth (Trie.slotsBelow bitmap slot) front ∧
      RoutedAll hash depth (Trie.slotsAbove bitmap slot) back := by
  rw [Trie.slots_of_free hs ho] at h
  obtain ⟨front, back, rfl, hl, hf, hb⟩ := h.exists_append
  exact ⟨front, back, rfl, hl.trans (Trie.length_slotsBelow ..), hf, hb⟩

/-- No key below the slots under a slot has a hash that leads there. -/
theorem RoutedAll.slot_ne_below {bitmap : BitVec 32} {front : List (Node κ ν)} {slot : Nat}
    (h : RoutedAll hash depth (Trie.slotsBelow bitmap slot) front) :
    ∀ e ∈ listAll front, Trie.slotAt (hash e.1) depth ≠ slot :=
  fun e he => (Trie.lt_of_mem_slotsBelow (h.slot_mem e he)).ne

/-- No key below the slots over a slot has a hash that leads there. -/
theorem RoutedAll.slot_ne_above {bitmap : BitVec 32} {back : List (Node κ ν)} {slot : Nat}
    (h : RoutedAll hash depth (Trie.slotsAbove bitmap slot) back) :
    ∀ e ∈ listAll back, Trie.slotAt (hash e.1) depth ≠ slot :=
  fun e he => (Trie.lt_of_mem_slotsAbove (h.slot_mem e he)).ne'

end Slots

/-! ### Lookup -/

section Lookup

variable (K : Keying κ)

theorem findAt_append (h : UInt64) (key : κ) (depth : Nat) (n : Node κ ν) :
    ∀ (front back : List (Node κ ν)),
      findAt K h key depth (front ++ n :: back) front.length = n.find? K h key depth
  | [], _ => rfl
  | _ :: front, back => findAt_append h key depth n front back

/-- Lookup finds the first entry with an equal key, whatever the trie looks like, as long as the
stored keys that are equal to the one sought have its hash. -/
theorem find?_eq {hash : κ → UInt64} {h : UInt64} {key : κ} (n : Node κ ν) :
    ∀ {depth : Nat}, n.Routed hash depth →
      (∀ e ∈ n.toList, K.same e.1 key = true → hash e.1 = h) →
      n.find? K h key depth = (n.toList.find? fun e => K.same e.1 key).map (·.2) := by
  induction n using Node.induct with
  | leaf k v =>
    intro depth _ _
    by_cases hs : K.same k key = true <;> simp [find?, hs]
  | collision h' pairs =>
    intro depth hr hk
    by_cases hh : h' = h
    · simp [find?, hh]
    · have : pairs.find? (fun e => K.same e.1 key) = none := by
        refine List.find?_eq_none.mpr fun e he hs => hh ?_
        rw [← hr.2 e he]
        exact hk e he hs
      simp [find?, hh, this]
  | branch bitmap entries ih =>
    intro depth hr hk
    have miss : ∀ es : List (κ × ν), (∀ e ∈ es, e ∈ listAll entries) →
        (∀ e ∈ es, Trie.slotAt (hash e.1) depth ≠ Trie.slotAt h depth) →
        es.find? (fun e => K.same e.1 key) = none := by
      intro es hes hne
      refine List.find?_eq_none.mpr fun e he hs => hne e he ?_
      rw [hk e (hes e he) hs]
    by_cases ho : Trie.occupied bitmap (Trie.slotAt h depth) = true
    · obtain ⟨front, n, back, rfl, hl, hf, hn, hs, hb⟩ := hr.2.split ho
      have hmem : ∀ e ∈ n.toList, e ∈ listAll (front ++ n :: back) := by
        intro e he
        simp [he]
      have hn' := ih n (by simp) hn fun e he => hk e (hmem e he)
      have hf' := miss (listAll front) (by simp +contextual) hf.slot_ne_below
      have hb' := miss (listAll back) (by simp +contextual) hb.slot_ne_above
      rw [find?, if_pos ho, ← hl, findAt_append, hn', toList_branch, listAll_append, listAll_cons,
        List.find?_append, List.find?_append, hf', hb', Option.none_or, Option.or_none]
    · have ho' : Trie.occupied bitmap (Trie.slotAt h depth) = false := by simpa using ho
      obtain ⟨front, back, rfl, -, hf, hb⟩ := hr.2.split_free (Trie.slotAt_lt ..) ho'
      have hf' := miss (listAll front) (by simp +contextual) hf.slot_ne_below
      have hb' := miss (listAll back) (by simp +contextual) hb.slot_ne_above
      rw [find?, if_neg ho, toList_branch, listAll_append, List.find?_append, hf', hb']
      rfl

end Lookup

end Node

end LispCore
