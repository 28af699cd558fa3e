import LispCore.Proofs.Trie.Layout
/-!
What insertion and removal do to the entries of a trie. Seen as a list, insertion drops the entries
with an equal key and adds the new one (`insert_spec`, up to order), and removal drops them
(`erase_spec`, order kept); both keep the trie routed. Insertion goes through `split`, which separates
two nodes whose hashes agree down to their depth, and removal through `pullUp`, which keeps entries. What
the two do to a branch, given what they do to the node at its slot, is said once (`insert_branch`,
`erase_branch`).
-/

namespace LispCore

namespace Keying

variable {κ ν : Type} (K : Keying κ)

/-- The entries whose keys are not equal to a key. -/
def without (key : κ) (es : List (κ × ν)) : List (κ × ν) := es.filter fun e => !K.same e.1 key

/-- Whether one of the entries has an equal key. -/
def hasKey (key : κ) (es : List (κ × ν)) : Bool := es.any fun e => K.same e.1 key

variable {K}

@[simp] theorem without_append (key : κ) (es fs : List (κ × ν)) :
    K.without key (es ++ fs) = K.without key es ++ K.without key fs :=
  List.filter_append ..

@[simp] theorem hasKey_append (key : κ) (es fs : List (κ × ν)) :
    K.hasKey key (es ++ fs) = (K.hasKey key es || K.hasKey key fs) :=
  List.any_append

@[simp] theorem hasKey_cons (key : κ) (e : κ × ν) (es : List (κ × ν)) :
    K.hasKey key (e :: es) = (K.same e.1 key || K.hasKey key es) := rfl

theorem hasKey_eq_false {key : κ} {es : List (κ × ν)} :
    K.hasKey key es = false ↔ ∀ e ∈ es, K.same e.1 key = false := by
  simp [hasKey]

theorem without_of_not_hasKey {key : κ} {es : List (κ × ν)} (h : K.hasKey key es = false) :
    K.without key es = es := by
  rw [hasKey_eq_false] at h
  refine List.filter_eq_self.mpr fun e he => ?_
  rw [h e he]
  rfl

theorem without_cons_of_ne {key : κ} {e : κ × ν} (es : List (κ × ν)) (h : K.same e.1 key = false) :
    K.without key (e :: es) = e :: K.without key es := by
  simp [without, h]

theorem mem_of_mem_without {key : κ} {es : List (κ × ν)} {e : κ × ν} (h : e ∈ K.without key es) :
    e ∈ es :=
  (List.mem_filter.mp h).1

/-- Entries whose hashes differ from that of the key do not have it. -/
theorem Coherent.hasKey_of_hash_ne (hK : K.Coherent) {key : κ} {es : List (κ × ν)}
    (h : ∀ e ∈ es, K.hash e.1 ≠ K.hash key) : K.hasKey key es = false := by
  refine hasKey_eq_false.mpr fun e he => ?_
  by_contra hs
  exact h e he (hK.hash_eq (by simpa using hs))

/-- Entries whose hashes lead to another slot do not have the key. -/
theorem Coherent.not_hasKey_elsewhere (hK : K.Coherent) {key : κ} {es : List (κ × ν)} {depth : Nat}
    (h : ∀ e ∈ es, Trie.slotAt (K.hash e.1) depth ≠ Trie.slotAt (K.hash key) depth) :
    K.hasKey key es = false :=
  hK.hasKey_of_hash_ne fun e he hh => h e he (by rw [hh])

theorem Distinct.middle {es fs gs : List (κ × ν)} (h : K.Distinct (es ++ (fs ++ gs))) :
    K.Distinct fs :=
  (List.pairwise_append.mp (List.pairwise_append.mp h).2.1).1

/-- Once an entry has a key, no other distinct entry has it. -/
theorem Coherent.hasKey_tail (hK : K.Coherent) {key : κ} {e : κ × ν} {es : List (κ × ν)}
    (hd : K.Distinct (e :: es)) (hs : K.same e.1 key = true) : K.hasKey key es = false := by
  refine hasKey_eq_false.mpr fun f hf => ?_
  have hef := (List.pairwise_cons.mp hd).1 f hf
  by_contra hs'
  have := hK.trans hs (hK.symm (by simpa using hs'))
  rw [hef] at this
  contradiction

/-- Without the key of the first of distinct entries the others are left. -/
theorem Coherent.without_cons (hK : K.Coherent) {key : κ} {e : κ × ν} {es : List (κ × ν)}
    (hd : K.Distinct (e :: es)) (hs : K.same e.1 key = true) : K.without key (e :: es) = es := by
  have ht := without_of_not_hasKey (hK.hasKey_tail hd hs)
  rw [without] at ht
  simp [without, hs, ht]

/-- Of distinct entries at most one has a key. -/
theorem Coherent.length_without (hK : K.Coherent) {key : κ} : ∀ {es : List (κ × ν)}, K.Distinct es →
    K.hasKey key es = true → (K.without key es).length + 1 = es.length
  | [], _, hk => by simp [hasKey] at hk
  | e :: es, hd, hk => by
    by_cases hs : K.same e.1 key = true
    · rw [hK.without_cons hd hs, List.length_cons]
    · have hs' : K.same e.1 key = false := by simpa using hs
      have hk' : K.hasKey key es = true := by simpa [hs'] using hk
      have ih := hK.length_without (List.pairwise_cons.mp hd).2 hk'
      rw [without_cons_of_ne es hs', List.length_cons, List.length_cons, ih]

end Keying

namespace Node

variable {κ ν : Type} {K : Keying κ}

/-! ### Splitting -/

/-- Two nodes that belong at every depth are separated where their hashes part. -/
theorem split_spec {hash : κ → UInt64} {a b : Node κ ν} {aHash bHash : UInt64}
    (ha : ∀ depth, a.Routed hash depth) (hb : ∀ depth, b.Routed hash depth)
    (hah : ∀ e ∈ a.toList, hash e.1 = aHash) (hbh : ∀ e ∈ b.toList, hash e.1 = bHash)
    (hne : aHash ≠ bHash) : ∀ left depth, left + depth = Trie.levels →
      Trie.Agree depth aHash bHash → (split a aHash b bHash left depth).Routed hash depth ∧
        (split a aHash b bHash left depth).toList.Perm (a.toList ++ b.toList)
  | 0, depth, hl, h => by
    obtain rfl : depth = Trie.levels := by omega
    exact absurd (Trie.eq_of_agree h) hne
  | left + 1, depth, hl, h => by
    have hd : depth < Trie.levels := by omega
    have hsa : ∀ e ∈ a.toList, Trie.slotAt (hash e.1) depth = Trie.slotAt aHash depth := by
      intro e he
      rw [hah e he]
    have hsb : ∀ e ∈ b.toList, Trie.slotAt (hash e.1) depth = Trie.slotAt bHash depth := by
      intro e he
      rw [hbh e he]
    rw [split]
    split_ifs with hs hlt
    · obtain ⟨hr, hp⟩ := split_spec ha hb hah hbh hne left (depth + 1) (by omega) (h.succ hs)
      refine ⟨⟨hd, ?_⟩, by simpa using hp⟩
      rw [Trie.slots_only (Trie.slotAt_lt ..)]
      refine ⟨hr, fun e he => ?_, trivial⟩
      rcases List.mem_append.mp (hp.subset he) with he | he
      · exact hsa e he
      · rw [hsb e he, hs]
    · refine ⟨⟨hd, ?_⟩, by simp⟩
      rw [Trie.slots_two hlt (Trie.slotAt_lt ..)]
      exact ⟨ha _, hsa, hb _, hsb, trivial⟩
    · have hgt : Trie.slotAt bHash depth < Trie.slotAt aHash depth := by omega
      refine ⟨⟨hd, ?_⟩, by simpa using List.perm_append_comm⟩
      rw [BitVec.or_comm, Trie.slots_two hgt (Trie.slotAt_lt ..)]
      exact ⟨hb _, hsb, ha _, hsa, trivial⟩

/-! ### Insertion -/

/-- Among distinct entries the one with an equal key is replaced, else the entry is new. -/
theorem insertPair_spec (hK : K.Coherent) (key : κ) (val : ν) : ∀ {pairs : List (κ × ν)},
    K.Distinct pairs →
      (insertPair K key val pairs).1.Perm ((key, val) :: K.without key pairs) ∧
      (insertPair K key val pairs).2 = !K.hasKey key pairs ∧
      pairs.length ≤ (insertPair K key val pairs).1.length
  | [], _ => ⟨.refl _, rfl, Nat.zero_le _⟩
  | e :: es, hd => by
    by_cases hs : K.same e.1 key = true
    · rw [hK.without_cons hd hs]
      simp [insertPair, hs]
    · obtain ⟨hp, ha, hl⟩ := insertPair_spec hK key val (List.pairwise_cons.mp hd).2
      have hs' : K.same e.1 key = false := by simpa using hs
      refine ⟨?_, by simp [insertPair, hs', ha], by simpa [insertPair, hs'] using hl⟩
      rw [Keying.without_cons_of_ne es hs']
      simpa [insertPair, hs'] using (hp.cons e).trans (.swap ..)

theorem insertAt_append (h : UInt64) (key : κ) (val : ν) (depth : Nat) (n : Node κ ν) :
    ∀ front back : List (Node κ ν),
      insertAt K h key val depth (front ++ n :: back) front.length =
        (front ++ (n.insert K h key val depth).1 :: back, (n.insert K h key val depth).2)
  | [], _ => rfl
  | m :: front, back => by
    simp only [List.cons_append, List.length_cons, insertAt, insertAt_append h key val depth n]

theorem insertIdx_length {α : Type} (x : α) : ∀ front back : List α,
    (front ++ back).insertIdx front.length x = front ++ x :: back
  | [], _ => rfl
  | _ :: front, back => congrArg (_ :: ·) (insertIdx_length x front back)

/-- An insertion into a branch goes on below the node at its slot, or puts a leaf at a free slot. -/
theorem insert_branch {hash : κ → UInt64} {bitmap : BitVec 32} {entries : List (Node κ ν)} {depth : Nat}
    (h : UInt64) (key : κ) (val : ν) (hr : (branch bitmap entries).Routed hash depth) :
    (∃ front n back, entries = front ++ n :: back ∧
      Trie.occupied bitmap (Trie.slotAt h depth) = true ∧
      RoutedAll hash depth (Trie.slotsBelow bitmap (Trie.slotAt h depth)) front ∧
      n.Routed hash (depth + 1) ∧
      (∀ e ∈ n.toList, Trie.slotAt (hash e.1) depth = Trie.slotAt h depth) ∧
      RoutedAll hash depth (Trie.slotsAbove bitmap (Trie.slotAt h depth)) back ∧
      (branch bitmap entries).insert K h key val depth =
        (branch bitmap (front ++ (n.insert K h key val (depth + 1)).1 :: back),
          (n.insert K h key val (depth + 1)).2)) ∨
    ∃ front back, entries = front ++ back ∧
      RoutedAll hash depth (Trie.slotsBelow bitmap (Trie.slotAt h depth)) front ∧
      RoutedAll hash depth (Trie.slotsAbove bitmap (Trie.slotAt h depth)) back ∧
      (branch bitmap entries).insert K h key val depth =
        (branch (bitmap ||| Trie.only (Trie.slotAt h depth)) (front ++ leaf key val :: back), true) := by
  rw [insert]
  by_cases ho : Trie.occupied bitmap (Trie.slotAt h depth) = true
  · obtain ⟨front, n, back, rfl, hl, hf, hn, hs, hb⟩ := hr.2.split ho
    refine .inl ⟨front, n, back, rfl, ho, hf, hn, hs, hb, ?_⟩
    simp only [if_pos ho]
    rw [← hl, insertAt_append]
  · have ho' : Trie.occupied bitmap (Trie.slotAt h depth) = false := by simpa using ho
    obtain ⟨front, back, rfl, hl, hf, hb⟩ := hr.2.split_free (Trie.slotAt_lt ..) ho'
    refine .inr ⟨front, back, rfl, hf, hb, ?_⟩
    simp only [if_neg ho]
    rw [← hl, insertIdx_length]

/-- The hash of a collision node is that of its entries. -/
theorem agree_of_collision {hash : κ → UInt64} {h h' : UInt64} {pairs : List (κ × ν)} {depth : Nat}
    (hr : (collision h pairs).Routed hash depth)
    (hag : ∀ e ∈ pairs, Trie.Agree depth (hash e.1) h') : Trie.Agree depth h h' := by
  obtain - | ⟨e, es⟩ := pairs
  · exact absurd hr.1 (by simp)
  · rw [← hr.2 e (by simp)]
    exact hag e (by simp)

/-- That an insertion keeps a trie routed, drops the entry with an equal key, adds the new one, and tells
whether the key is new. -/
def Inserted (K : Keying κ) (key : κ) (val : ν) (depth : Nat) (n : Node κ ν)
    (r : Node κ ν × Bool) : Prop :=
  r.1.Routed K.hash depth ∧ r.1.toList.Perm ((key, val) :: K.without key n.toList) ∧
    r.2 = !K.hasKey key n.toList

/-- A node whose entries have another hash is split off. -/
theorem inserted_split (hK : K.Coherent) {key : κ} (val : ν) {depth : Nat} {a : Node κ ν} {h : UInt64}
    (ha : ∀ depth, a.Routed K.hash depth) (hah : ∀ e ∈ a.toList, K.hash e.1 = h)
    (hne : h ≠ K.hash key) (hag : Trie.Agree depth h (K.hash key)) (hd : depth ≤ Trie.levels) :
    Inserted K key val depth a (splitFrom depth a h (leaf key val) (K.hash key), true) := by
  have hk : K.hasKey key a.toList = false := by
    refine hK.hasKey_of_hash_ne fun e he => ?_
    rw [hah e he]
    exact hne
  obtain ⟨hr, hp⟩ := split_spec ha (b := leaf key val) (fun _ => trivial) hah (by simp) hne
    (Trie.levels - depth) depth (by omega) hag
  refine ⟨hr, ?_, by rw [hk]; rfl⟩
  rw [Keying.without_of_not_hasKey hk]
  exact hp.trans List.perm_append_comm

section Around

variable {bitmap : BitVec 32} {front back : List (Node κ ν)} {depth : Nat} {key : κ} (n : Node κ ν)
  (hK : K.Coherent)
  (hf : RoutedAll K.hash depth (Trie.slotsBelow bitmap (Trie.slotAt (K.hash key) depth)) front)
  (hb : RoutedAll K.hash depth (Trie.slotsAbove bitmap (Trie.slotAt (K.hash key) depth)) back)
include hK hf hb

/-- Only the node at the slot of a key can have it. -/
theorem hasKey_around : K.hasKey key (branch bitmap (front ++ n :: back)).toList =
    K.hasKey key n.toList := by
  simp [hK.not_hasKey_elsewhere hf.slot_ne_below, hK.not_hasKey_elsewhere hb.slot_ne_above]

theorem without_around : K.without key (branch bitmap (front ++ n :: back)).toList =
    listAll front ++ (K.without key n.toList ++ listAll back) := by
  simp [Keying.without_of_not_hasKey (hK.not_hasKey_elsewhere hf.slot_ne_below),
    Keying.without_of_not_hasKey (hK.not_hasKey_elsewhere hb.slot_ne_above)]

/-- An insertion into the node at the slot is one into the branch. -/
theorem inserted_below {val : ν} {r : Node κ ν × Bool} (hd : depth < Trie.levels)
    (ho : Trie.occupied bitmap (Trie.slotAt (K.hash key) depth) = true)
    (hs : ∀ e ∈ n.toList, Trie.slotAt (K.hash e.1) depth = Trie.slotAt (K.hash key) depth)
    (h : Inserted K key val (depth + 1) n r) :
    Inserted K key val depth (branch bitmap (front ++ n :: back))
      (branch bitmap (front ++ r.1 :: back), r.2) := by
  obtain ⟨hr, hp, ha⟩ := h
  refine ⟨⟨hd, ?_⟩, ?_, ha.trans (by rw [hasKey_around n hK hf hb])⟩
  · rw [Trie.slots_of_occupied ho]
    refine hf.append ⟨hr, fun e he => ?_, hb⟩
    rcases List.mem_cons.mp (hp.subset he) with rfl | he
    · rfl
    · exact hs e (Keying.mem_of_mem_without he)
  · rw [without_around n hK hf hb, toList_branch, listAll_append, listAll_cons]
    exact ((hp.append_right _).append_left _).trans List.perm_middle

/-- At a free slot a branch gets a leaf. -/
theorem inserted_beside (val : ν) (hd : depth < Trie.levels) :
    Inserted K key val depth (branch bitmap (front ++ back))
      (branch (bitmap ||| Trie.only (Trie.slotAt (K.hash key) depth))
        (front ++ leaf key val :: back), true) := by
  have hf' := hK.not_hasKey_elsewhere hf.slot_ne_below
  have hb' := hK.not_hasKey_elsewhere hb.slot_ne_above
  refine ⟨⟨hd, ?_⟩, ?_, by simp [hf', hb']⟩
  · rw [Trie.slots_set _ (Trie.slotAt_lt ..)]
    exact hf.append ⟨trivial, by simp, hb⟩
  · simp only [toList_branch, listAll_append, listAll_cons, toList_leaf, Keying.without_append,
      Keying.without_of_not_hasKey hf', Keying.without_of_not_hasKey hb']
    exact List.perm_middle

end Around

/-- What insertion does, when all hashes agree with that of the key down to the depth. -/
theorem insert_spec (hK : K.Coherent) (key : κ) (val : ν) (n : Node κ ν) : ∀ {depth : Nat},
    n.Routed K.hash depth → K.Distinct n.toList →
    (∀ e ∈ n.toList, Trie.Agree depth (K.hash e.1) (K.hash key)) → depth ≤ Trie.levels →
      Inserted K key val depth n (n.insert K (K.hash key) key val depth) := by
  induction n using Node.induct with
  | leaf k v =>
    intro depth _ _ hag hd
    simp only [insert]
    split_ifs with hs hh
    · exact ⟨trivial, by simp [Keying.without, hs], by simp [Keying.hasKey, hs]⟩
    · have hs' : K.same k key = false := by simpa using hs
      refine ⟨⟨le_rfl, by simp [hh]⟩, ?_, by simp [Keying.hasKey, hs']⟩
      rw [toList_leaf, Keying.without_cons_of_ne [] hs']
      exact .swap ..
    · exact inserted_split hK val (fun _ => trivial) (by simp) hh (hag (k, v) (by simp)) hd
  | collision h pairs =>
    intro depth hr hdist hag hd
    rw [insert]
    split_ifs with hh
    · obtain ⟨hp, ha, hl⟩ := insertPair_spec hK key val hdist
      refine ⟨⟨le_trans hr.1 hl, fun e he => ?_⟩, hp, ha⟩
      rcases List.mem_cons.mp (hp.subset he) with rfl | he
      · exact hh.symm
      · exact hr.2 e (Keying.mem_of_mem_without he)
    · exact inserted_split hK val (fun _ => hr) hr.2 hh (agree_of_collision hr hag) hd
  | branch bitmap entries ih =>
    intro depth hr hdist hag _
    obtain ⟨front, n, back, rfl, ho, hf, hn, hs, hb, hins⟩ | ⟨front, back, rfl, hf, hb, hins⟩ :=
      insert_branch (K := K) (K.hash key) key val hr
    · have hdn : K.Distinct n.toList := by
        rw [toList_branch, listAll_append, listAll_cons] at hdist
        exact hdist.middle
      have hi := ih n (by simp) hn hdn (fun e he => (hag e (by simp [he])).succ (hs e he)) hr.1
      rw [hins]
      exact inserted_below n hK hf hb hr.1 ho hs hi
    · rw [hins]
      exact inserted_beside hK hf hb val hr.1

/-! ### Removal -/

/-- That a removal tells whether a key was among the entries of a node, and leaves the others. -/
def Removal.Drops (K : Keying κ) (key : κ) (depth : Nat) (n : Node κ ν) : Removal κ ν → Prop
  | absent => K.hasKey key n.toList = false
  | gone => K.hasKey key n.toList = true ∧ K.without key n.toList = []
  | kept m => K.hasKey key n.toList = true ∧ m.Routed K.hash depth ∧
      m.toList = K.without key n.toList

/-- Among distinct entries the first with an equal key is the only one. -/
theorem erasePair_spec (hK : K.Coherent) (key : κ) : ∀ {pairs : List (κ × ν)}, K.Distinct pairs →
    erasePair K key pairs = if K.hasKey key pairs then some (K.without key pairs) else none
  | [], _ => rfl
  | e :: es, hd => by
    by_cases hs : K.same e.1 key = true
    · rw [hK.without_cons hd hs]
      simp [erasePair, hs]
    · have hs' : K.same e.1 key = false := by simpa using hs
      have ih := erasePair_spec hK key (List.pairwise_cons.mp hd).2
      rw [erasePair, if_neg hs, ih, Keying.hasKey_cons, hs', Bool.false_or,
        Keying.without_cons_of_ne es hs']
      split <;> rfl

/-- What is pulled up has the entries of the branch and belongs one level higher. -/
theorem pullUp_spec {hash : κ → UInt64} {depth : Nat} {n : Node κ ν}
    (hr : n.Routed hash (depth + 1)) :
    match n.pullUp with
    | none => n.toList = []
    | some m => m.Routed hash (depth + 1) ∧ m.toList = n.toList := by
  match n, hr with
  | leaf _ _, _ => exact ⟨trivial, rfl⟩
  | collision _ _, hr => exact ⟨hr, rfl⟩
  | branch _ [], _ => exact rfl
  | branch _ [leaf _ _], _ => exact ⟨trivial, rfl⟩
  | branch bitmap [collision h pairs], hr =>
    obtain ⟨-, hr⟩ := hr
    generalize Trie.slots bitmap = ss at hr
    obtain - | ⟨s, ss⟩ := ss
    · exact hr.elim
    · exact ⟨hr.1, by simp [toList_branch]⟩
  | branch _ [branch _ _], hr => exact ⟨hr, rfl⟩
  | branch _ (_ :: _ :: _), hr => exact ⟨hr, rfl⟩

theorem eraseAt_append (h : UInt64) (key : κ) (depth : Nat) (n : Node κ ν) :
    ∀ front back : List (Node κ ν),
      eraseAt K h key depth (front ++ n :: back) front.length = n.erase K h key depth
  | [], _ => rfl
  | _ :: front, back => eraseAt_append h key depth n front back

/-- What a removal leaves of a node, with the entries of a branch that are alone pulled up. -/
def Removal.pulled : Removal κ ν → Removal κ ν
  | absent => absent
  | gone => gone
  | kept m => m.pullUp.elim gone kept

/-- What a removal from the node at a slot does to the branch around it. -/
def Removal.around (bitmap : BitVec 32) (slot : Nat) (front back : List (Node κ ν)) :
    Removal κ ν → Removal κ ν
  | absent => absent
  | gone => kept (branch (bitmap &&& ~~~ Trie.only slot) (front ++ back))
  | kept m => kept (branch bitmap (front ++ m :: back))

/-- A removal from a branch is one from the node at its slot, or nothing. -/
theorem erase_branch {hash : κ → UInt64} {bitmap : BitVec 32} {entries : List (Node κ ν)} {depth : Nat}
    (h : UInt64) (key : κ) (hr : (branch bitmap entries).Routed hash depth) :
    (∃ front n back, entries = front ++ n :: back ∧
      Trie.occupied bitmap (Trie.slotAt h depth) = true ∧
      RoutedAll hash depth (Trie.slotsBelow bitmap (Trie.slotAt h depth)) front ∧
      n.Routed hash (depth + 1) ∧
      (∀ e ∈ n.toList, Trie.slotAt (hash e.1) depth = Trie.slotAt h depth) ∧
      RoutedAll hash depth (Trie.slotsAbove bitmap (Trie.slotAt h depth)) back ∧
      (branch bitmap entries).erase K h key depth =
        (n.erase K h key (depth + 1)).pulled.around bitmap (Trie.slotAt h depth) front back) ∨
    ∃ front back, entries = front ++ back ∧
      RoutedAll hash depth (Trie.slotsBelow bitmap (Trie.slotAt h depth)) front ∧
      RoutedAll hash depth (Trie.slotsAbove bitmap (Trie.slotAt h depth)) back ∧
      (branch bitmap entries).erase K h key depth = .absent := by
  rw [erase]
  by_cases ho : Trie.occupied bitmap (Trie.slotAt h depth) = true
  · obtain ⟨front, n, back, rfl, hl, hf, hn, hs, hb⟩ := hr.2.split ho
    refine .inl ⟨front, n, back, rfl, ho, hf, hn, hs, hb, ?_⟩
    have hidx : (front ++ n :: back).eraseIdx front.length = front ++ back := by
      simp [List.eraseIdx_append_of_length_le]
    simp only [if_pos ho]
    rw [← hl, eraseAt_append, hidx]
    cases n.erase K h key (depth + 1) with
    | absent | gone => rfl
    | kept m =>
      rw [Removal.pulled]
      cases hpull : m.pullUp with
      | none => simp only [hpull, Option.elim_none, Removal.around]
      | some m' => simp [hpull, Removal.around]
  · have ho' : Trie.occupied bitmap (Trie.slotAt h depth) = false := by simpa using ho
    obtain ⟨front, back, rfl, -, hf, hb⟩ := hr.2.split_free (Trie.slotAt_lt ..) ho'
    refine .inr ⟨front, back, rfl, hf, hb, ?_⟩
    simp only [if_neg ho]

theorem Removal.Drops.pulled {key : κ} {depth : Nat} {n : Node κ ν} {r : Removal κ ν}
    (h : r.Drops K key (depth + 1) n) : r.pulled.Drops K key (depth + 1) n := by
  cases r with
  | absent | gone => exact h
  | kept m =>
    obtain ⟨hk, hr, hm⟩ := h
    have hp := pullUp_spec hr
    rw [Removal.pulled]
    cases hpull : m.pullUp with
    | none =>
      rw [hpull] at hp
      exact ⟨hk, hm.symm.trans hp⟩
    | some m' =>
      rw [hpull] at hp
      exact ⟨hk, hp.1, hp.2.trans hm⟩

/-- Removal from entries that share a hash. -/
theorem collision_drops (hK : K.Coherent) (key : κ) {depth : Nat} {h : UInt64} {pairs : List (κ × ν)}
    (hr : (collision h pairs).Routed K.hash depth) (hdist : K.Distinct pairs) :
    ((collision h pairs).erase K (K.hash key) key depth).Drops K key depth (collision h pairs) := by
  rw [erase]
  split_ifs with hh
  · rw [erasePair_spec hK key hdist]
    cases hk : K.hasKey key pairs with
    | false => exact hk
    | true =>
      have hash_eq : ∀ e ∈ K.without key pairs, K.hash e.1 = h :=
        fun e he => hr.2 e (Keying.mem_of_mem_without he)
      match hw : K.without key pairs with
      | [] =>
        have hl := hK.length_without hdist hk
        have h2 : 2 ≤ pairs.length := hr.1
        rw [hw, List.length_nil] at hl
        omega
      | [(k, v)] => exact ⟨hk, trivial, hw.symm⟩
      | e :: f :: es =>
        rw [hw] at hash_eq
        exact ⟨hk, ⟨by simp, hash_eq⟩, hw.symm⟩
  · refine hK.hasKey_of_hash_ne fun e he hh' => hh ?_
    rw [← hr.2 e he, hh']

/-- A removal from the node at a slot is one from the branch: a node with nothing left takes its slot
along, and what is left of it stays there. -/
theorem Removal.Drops.around (hK : K.Coherent) {bitmap : BitVec 32} {front back : List (Node κ ν)}
    {depth : Nat} {key : κ} {n : Node κ ν} {r : Removal κ ν} (hd : depth < Trie.levels)
    (hf : RoutedAll K.hash depth (Trie.slotsBelow bitmap (Trie.slotAt (K.hash key) depth)) front)
    (hb : RoutedAll K.hash depth (Trie.slotsAbove bitmap (Trie.slotAt (K.hash key) depth)) back)
    (ho : Trie.occupied bitmap (Trie.slotAt (K.hash key) depth) = true)
    (hs : ∀ e ∈ n.toList, Trie.slotAt (K.hash e.1) depth = Trie.slotAt (K.hash key) depth)
    (h : r.Drops K key (depth + 1) n) :
    (r.around bitmap (Trie.slotAt (K.hash key) depth) front back).Drops K key depth
      (branch bitmap (front ++ n :: back)) := by
  cases r with
  | absent => exact (hasKey_around n hK hf hb).trans h
  | gone =>
    obtain ⟨hk, hw⟩ := h
    refine ⟨(hasKey_around n hK hf hb).trans hk, ⟨hd, ?_⟩, ?_⟩
    · rw [Trie.slots_clear _ (Trie.slotAt_lt ..)]
      exact hf.append hb
    · rw [without_around n hK hf hb, hw]
      simp
  | kept m =>
    obtain ⟨hk, hr, hm⟩ := h
    refine ⟨(hasKey_around n hK hf hb).trans hk, ⟨hd, ?_⟩, ?_⟩
    · rw [Trie.slots_of_occupied ho]
      refine hf.append ⟨hr, fun e he => hs e ?_, hb⟩
      rw [hm] at he
      exact Keying.mem_of_mem_without he
    · rw [without_around n hK hf hb, ← hm]
      simp

/-- Removal keeps a trie routed, drops the entry with an equal key, and keeps the others in order. -/
theorem erase_spec (hK : K.Coherent) (key : κ) (n : Node κ ν) : ∀ {depth : Nat},
    n.Routed K.hash depth → K.Distinct n.toList →
      (n.erase K (K.hash key) key depth).Drops K key depth n := by
  induction n using Node.induct with
  | leaf k v =>
    intro depth _ _
    rw [erase]
    split_ifs with hs
    · exact ⟨by simp [Keying.hasKey, hs], by simp [Keying.without, hs]⟩
    · simpa [Removal.Drops, Keying.hasKey] using hs
  | collision h pairs => exact fun hr hdist => collision_drops hK key hr hdist
  | branch bitmap entries ih =>
    intro depth hr hdist
    obtain ⟨front, n, back, rfl, ho, hf, hn, hs, hb, her⟩ | ⟨front, back, rfl, hf, hb, her⟩ :=
      erase_branch (K := K) (K.hash key) key hr
    · have hdn : K.Distinct n.toList := by
        rw [toList_branch, listAll_append, listAll_cons] at hdist
        exact hdist.middle
      rw [her]
      exact (ih n (by simp) hn hdn).pulled.around hK hr.1 hf hb ho hs
    · rw [her]
      simp [Removal.Drops, hK.not_hasKey_elsewhere hf.slot_ne_below,
        hK.not_hasKey_elsewhere hb.slot_ne_above]

end Node

end LispCore
