import LispCore.Proofs.Trie.Cursor
import LispCore.Proofs.Trie.FiniteMap
/-!
Counting entries under any comparison of keys. Whatever the test for equal keys says, an insertion adds
one entry or puts one in the place of another, and tells which (`Node.insert_grows`); a removal takes
one away or nothing (`Node.erase_shrinks`). So a hash map counts its entries after every history
(`HashMap.counted_after`), also where keys are not equal to themselves.
-/

namespace LispCore

namespace Node

variable {κ ν : Type} {K : Keying κ}

/-! ### Insertion -/

/-- That an insertion keeps a trie routed, adds nothing but keys of one hash, and tells whether there is
one entry more. -/
def Grows (hash : κ → UInt64) (key : κ) (depth : Nat) (n : Node κ ν) (r : Node κ ν × Bool) : Prop :=
  r.1.Routed hash depth ∧ (∀ e ∈ r.1.toList, e ∈ n.toList ∨ hash e.1 = hash key) ∧
    r.1.toList.length = n.toList.length + r.2.toNat

theorem insertPair_grows (key : κ) (val : ν) : ∀ pairs : List (κ × ν),
    (∀ e ∈ (insertPair K key val pairs).1, e ∈ pairs ∨ e = (key, val)) ∧
      (insertPair K key val pairs).1.length = pairs.length + (insertPair K key val pairs).2.toNat
  | [] => by simp [insertPair]
  | e :: es => by
    obtain ⟨hmem, hlen⟩ := insertPair_grows key val es
    rw [insertPair]
    split_ifs with hs
    · exact ⟨fun f hf => (List.mem_cons.mp hf).elim .inr fun hf => .inl (List.mem_cons_of_mem _ hf), rfl⟩
    · refine ⟨fun f hf => ?_, ?_⟩
      · rcases List.mem_cons.mp hf with rfl | hf
        · exact .inl List.mem_cons_self
        · exact (hmem f hf).imp_left (List.mem_cons_of_mem _)
      · exact (congrArg (· + 1) hlen).trans (Nat.add_right_comm ..)

/-- A node whose entries have another hash is split off. -/
theorem grows_split {hash : κ → UInt64} {key : κ} (val : ν) {depth : Nat} {a : Node κ ν} {h : UInt64}
    (ha : ∀ depth, a.Routed hash depth) (hah : ∀ e ∈ a.toList, hash e.1 = h) (hne : h ≠ hash key)
    (hag : Trie.Agree depth h (hash key)) (hd : depth ≤ Trie.levels) :
    Grows hash key depth a (splitFrom depth a h (leaf key val) (hash key), true) := by
  obtain ⟨hr, hp⟩ := split_spec ha (b := leaf key val) (fun _ => trivial) hah (by simp) hne
    (Trie.levels - depth) depth (by omega) hag
  refine ⟨hr, fun e he => ?_, by rw [splitFrom, hp.length_eq, List.length_append]; rfl⟩
  rcases List.mem_append.mp (hp.subset he) with he | he
  · exact .inl he
  · rw [List.mem_singleton.mp he]
    exact .inr rfl

section Around

variable {hash : κ → UInt64} {bitmap : BitVec 32} {front back : List (Node κ ν)} {depth : Nat} {key : κ}
  (hd : depth < Trie.levels)
  (hf : RoutedAll hash depth (Trie.slotsBelow bitmap (Trie.slotAt (hash key) depth)) front)
  (hb : RoutedAll hash depth (Trie.slotsAbove bitmap (Trie.slotAt (hash key) depth)) back)
include hd hf hb

/-- An insertion into the node at the slot is one into the branch. -/
theorem grows_below {n : Node κ ν} {r : Node κ ν × Bool}
    (ho : Trie.occupied bitmap (Trie.slotAt (hash key) depth) = true)
    (hs : ∀ e ∈ n.toList, Trie.slotAt (hash e.1) depth = Trie.slotAt (hash key) depth)
    (h : Grows hash key (depth + 1) n r) :
    Grows hash key depth (branch bitmap (front ++ n :: back))
      (branch bitmap (front ++ r.1 :: back), r.2) := by
  obtain ⟨hr, hmem, hlen⟩ := h
  refine ⟨⟨hd, ?_⟩, fun e he => ?_, by simp [hlen]; omega⟩
  · rw [Trie.slots_of_occupied ho]
    refine hf.append ⟨hr, fun e he => ?_, hb⟩
    rcases hmem e he with he | he
    · exact hs e he
    · rw [he]
  · simp only [toList_branch, listAll_append, listAll_cons, List.mem_append] at he ⊢
    rcases he with he | he | he
    · exact .inl (.inl he)
    · exact (hmem e he).imp_left fun he => .inr (.inl he)
    · exact .inl (.inr (.inr he))

/-- At a free slot a branch gets a leaf. -/
theorem grows_beside (val : ν) :
    Grows hash key depth (branch bitmap (front ++ back))
      (branch (bitmap ||| Trie.only (Trie.slotAt (hash key) depth))
        (front ++ leaf key val :: back), true) := by
  refine ⟨⟨hd, ?_⟩, fun e he => ?_, by simp; omega⟩
  · rw [Trie.slots_set _ (Trie.slotAt_lt ..)]
    exact hf.append ⟨trivial, by simp, hb⟩
  · simp only [toList_branch, listAll_append, listAll_cons, toList_leaf, List.mem_append,
      List.mem_singleton] at he ⊢
    rcases he with he | rfl | he
    · exact .inl (.inl he)
    · exact .inr rfl
    · exact .inl (.inr he)

end Around

/-- What an insertion does to the number of entries, when all hashes agree with that of the key down to
the depth. -/
theorem insert_grows (key : κ) (val : ν) (n : Node κ ν) : ∀ {depth : Nat}, n.Routed K.hash depth →
    (∀ e ∈ n.toList, Trie.Agree depth (K.hash e.1) (K.hash key)) → depth ≤ Trie.levels →
      Grows K.hash key depth n (n.insert K (K.hash key) key val depth) := by
  induction n using Node.induct with
  | leaf k v =>
    intro depth _ hag hd
    simp only [insert]
    split_ifs with hs hh
    · exact ⟨trivial, by simp, rfl⟩
    · exact ⟨⟨le_rfl, by simp [hh]⟩, by simp, rfl⟩
    · exact grows_split val (fun _ => trivial) (by simp) hh (hag (k, v) (by simp)) hd
  | collision h pairs =>
    intro depth hr hag hd
    rw [insert]
    split_ifs with hh
    · obtain ⟨hmem, hlen⟩ := insertPair_grows (K := K) key val pairs
      refine ⟨⟨hr.1.trans (hlen ▸ Nat.le_add_right ..), fun e he => ?_⟩, fun e he => ?_, hlen⟩
      · rcases hmem e he with he | rfl
        · exact hr.2 e he
        · exact hh.symm
      · rcases hmem e he with he | rfl
        · exact .inl he
        · exact .inr rfl
    · exact grows_split val (fun _ => hr) hr.2 hh (agree_of_collision hr hag) hd
  | branch bitmap entries ih =>
    intro depth hr hag _
    obtain ⟨front, n, back, rfl, ho, hf, hn, hs, hb, hins⟩ | ⟨front, back, rfl, hf, hb, hins⟩ :=
      insert_branch (K := K) (K.hash key) key val hr
    · have hi := ih n (by simp) hn (fun e he => (hag e (by simp [he])).succ (hs e he)) hr.1
      rw [hins]
      exact grows_below hr.1 hf hb ho hs hi
    · rw [hins]
      exact grows_beside hr.1 hf hb val

/-! ### Removal -/

/-- That a removal keeps a trie routed, and takes one entry away where it does anything. -/
def Removal.Shrinks (hash : κ → UInt64) (depth : Nat) (n : Node κ ν) : Removal κ ν → Prop
  | absent => True
  | gone => n.toList.length = 1
  | kept m => m.Routed hash depth ∧ m.toList ⊆ n.toList ∧ m.toList.length + 1 = n.toList.length

theorem erasePair_shrinks (key : κ) : ∀ {pairs rest : List (κ × ν)},
    erasePair K key pairs = some rest → rest ⊆ pairs ∧ rest.length + 1 = pairs.length
  | [], _, h => by simp [erasePair] at h
  | e :: es, rest, h => by
    rw [erasePair] at h
    split_ifs at h with hs
    · obtain rfl := Option.some.inj h
      exact ⟨List.subset_cons_self _ _, rfl⟩
    · obtain ⟨rest, hrest, rfl⟩ := Option.map_eq_some_iff.mp h
      obtain ⟨hsub, hlen⟩ := erasePair_shrinks key hrest
      exact ⟨List.cons_subset_cons _ hsub, by rw [List.length_cons, List.length_cons, hlen]⟩

namespace Removal.Shrinks

variable {hash : κ → UInt64} {depth : Nat} {n : Node κ ν} {r : Removal κ ν}

theorem pulled (h : r.Shrinks hash (depth + 1) n) : r.pulled.Shrinks hash (depth + 1) n := by
  cases r with
  | absent | gone => exact h
  | kept m =>
    obtain ⟨hr, hsub, hlen⟩ := h
    have hp := pullUp_spec hr
    rw [Removal.pulled]
    cases hpull : m.pullUp with
    | none =>
      rw [hpull] at hp
      rw [show m.toList = [] from hp] at hlen
      exact hlen.symm
    | some m' =>
      rw [hpull] at hp
      exact ⟨hp.1, hp.2 ▸ hsub, hp.2 ▸ hlen⟩

/-- The only entry of a node takes the slot of the node along; what is left of more stays there. -/
theorem around {bitmap : BitVec 32} {front back : List (Node κ ν)} {slot : Nat}
    (hd : depth < Trie.levels) (hslot : slot < 32) (ho : Trie.occupied bitmap slot = true)
    (hf : RoutedAll hash depth (Trie.slotsBelow bitmap slot) front)
    (hs : ∀ e ∈ n.toList, Trie.slotAt (hash e.1) depth = slot)
    (hb : RoutedAll hash depth (Trie.slotsAbove bitmap slot) back)
    (h : r.Shrinks hash (depth + 1) n) :
    (r.around bitmap slot front back).Shrinks hash depth (branch bitmap (front ++ n :: back)) := by
  cases r with
  | absent => trivial
  | gone =>
    have hlen : n.toList.length = 1 := h
    refine ⟨⟨hd, ?_⟩, fun e he => ?_, by simp [hlen]; omega⟩
    · rw [Trie.slots_clear _ hslot]
      exact hf.append hb
    · rcases List.mem_append.mp (by simpa using he : e ∈ listAll front ++ listAll back) with he | he <;>
        simp [he]
  | kept m =>
    obtain ⟨hr, hsub, hlen⟩ := h
    refine ⟨⟨hd, ?_⟩, fun e he => ?_, by simp [← hlen]; omega⟩
    · rw [Trie.slots_of_occupied ho]
      exact hf.append ⟨hr, fun e he => hs e (hsub he), hb⟩
    · simp only [toList_branch, listAll_append, listAll_cons, List.mem_append] at he ⊢
      exact he.imp_right (Or.imp_left (@hsub e))

end Removal.Shrinks

theorem erase_shrinks (h : UInt64) (key : κ) (n : Node κ ν) : ∀ {depth : Nat},
    n.Routed K.hash depth → (n.erase K h key depth).Shrinks K.hash depth n := by
  induction n using Node.induct with
  | leaf k v =>
    intro depth _
    rw [erase]
    split_ifs
    · rfl
    · trivial
  | collision h' pairs =>
    intro depth hr
    rw [erase]
    split_ifs
    · cases hp : erasePair K key pairs with
      | none => trivial
      | some rest =>
        obtain ⟨hsub, hlen⟩ := erasePair_shrinks key hp
        have h2 : 2 ≤ pairs.length := hr.1
        obtain - | ⟨⟨k, v⟩, - | ⟨f, es⟩⟩ := rest
        · rw [List.length_nil] at hlen
          omega
        · exact ⟨trivial, hsub, hlen⟩
        · exact ⟨⟨by simp, fun g hg => hr.2 g (hsub hg)⟩, hsub, hlen⟩
    · trivial
  | branch bitmap entries ih =>
    intro depth hr
    obtain ⟨front, n, back, rfl, ho, hf, hn, hs, hb, her⟩ | ⟨front, back, rfl, hf, hb, her⟩ :=
      erase_branch (K := K) h key hr
    · rw [her]
      exact (ih n (by simp) hn).pulled.around hr.1 (Trie.slotAt_lt ..) ho hf hs hb
    · rw [her]
      trivial

end Node

namespace HashMap

variable {κ ν : Type} {K : Keying κ} {m : HashMap κ ν}

/-- What holds of a hash map under any comparison of keys: they are where their hashes lead, and the
count is the number of entries. -/
structure Counted (K : Keying κ) (m : HashMap κ ν) : Prop where
  routed : m.root.Routed K.hash 0
  count_eq : m.count = m.toList.length

theorem counted_empty : (empty : HashMap κ ν).Counted K :=
  ⟨sound_empty.routed, rfl⟩

theorem Counted.assoc (hm : m.Counted K) (key : κ) (val : ν) : (m.assoc K key val).Counted K := by
  obtain ⟨hr, -, hlen⟩ := m.root.insert_grows (K := K) key val hm.routed
    (fun _ _ d hd => absurd hd (Nat.not_lt_zero d)) (Nat.zero_le _)
  refine ⟨hr, ?_⟩
  show (if _ then m.count + 1 else m.count) = List.length _
  rw [hm.count_eq]
  refine Eq.trans ?_ hlen.symm
  cases (m.root.insert K (K.hash key) key val 0).2 <;> rfl

theorem Counted.dissoc (hm : m.Counted K) (key : κ) : (m.dissoc K key).Counted K := by
  have hd := m.root.erase_shrinks (K := K) (K.hash key) key hm.routed
  rw [HashMap.dissoc]
  cases h : m.root.erase K (K.hash key) key 0 with
  | absent => exact hm
  | gone => exact counted_empty
  | kept root =>
    rw [h] at hd
    have hcount := hm.count_eq
    rw [toList, ← hd.2.2] at hcount
    exact ⟨hd.1, by simp only [hcount, Nat.add_sub_cancel]; rfl⟩

theorem counted_after (K : Keying κ) (history : List (Change κ ν)) : (after K history).Counted K := by
  induction history using List.reverseRecOn with
  | nil => exact counted_empty
  | append_singleton history c ih =>
    rw [after_concat]
    cases c with
    | assoc key val => exact ih.assoc key val
    | dissoc key => exact ih.dissoc key

end HashMap

end LispCore
