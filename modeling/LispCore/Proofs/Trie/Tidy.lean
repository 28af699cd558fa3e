import LispCore.Proofs.Trie.Counting
/-!
Tries without leftovers. A node `Stands` in the branch above it unless it is an empty branch or a branch
over a lone leaf or collision node, which `pullUp` would put in its place; a trie is tidy when every
node below its root stands. Splitting makes long chains of branches but puts two nodes at their end,
and removal pulls up what is left, so every history leaves a tidy trie (`HashMap.tidy_after`).
-/

namespace LispCore

namespace Node

variable {κ ν : Type}

/-- A node that is neither an empty branch nor a branch over a lone leaf or collision node. -/
def Stands : Node κ ν → Prop
  | branch _ [] => False
  | branch _ [n] => n.isTerminal = false
  | _ => True

mutual

/-- Every node below stands. -/
def Tidy : Node κ ν → Prop
  | branch _ entries => TidyAll entries
  | _ => True

/-- These nodes and all below them stand. -/
def TidyAll : List (Node κ ν) → Prop
  | [] => True
  | n :: ns => n.Stands ∧ n.Tidy ∧ TidyAll ns

end

theorem tidyAll_iff : ∀ {ns : List (Node κ ν)}, TidyAll ns ↔ ∀ n ∈ ns, n.Stands ∧ n.Tidy
  | [] => by simp [TidyAll]
  | n :: ns => by simp [TidyAll, @tidyAll_iff ns, and_assoc]

/-- One of several nodes and the others. -/
theorem tidyAll_middle {n : Node κ ν} {front back : List (Node κ ν)} :
    TidyAll (front ++ n :: back) ↔ (n.Stands ∧ n.Tidy) ∧ TidyAll (front ++ back) := by
  simp only [tidyAll_iff, List.forall_mem_append, List.forall_mem_cons]
  exact and_left_comm

theorem tidy_of_terminal {n : Node κ ν} (h : n.isTerminal = true) : n.Stands ∧ n.Tidy := by
  cases n with
  | branch => contradiction
  | leaf | collision => exact ⟨trivial, trivial⟩

theorem stands_of_two {bitmap : BitVec 32} : ∀ {entries : List (Node κ ν)}, 2 ≤ entries.length →
    (branch bitmap entries).Stands
  | _ :: _ :: _, _ => trivial

/-- A branch with entries for two stands when one of them is replaced by one that is as good. -/
theorem Stands.replace {bitmap : BitVec 32} {n m : Node κ ν}
    (hm : n.isTerminal = false → m.isTerminal = false) : ∀ {front back : List (Node κ ν)},
    (branch bitmap (front ++ n :: back)).Stands → (branch bitmap (front ++ m :: back)).Stands
  | [], [], h => hm h
  | [], _ :: _, _ => trivial
  | _ :: front, back, _ => stands_of_two (by simp; omega)

/-! ### Insertion -/

/-- Where two nodes part, both are in one branch, and the branches above it stand over one another. -/
theorem split_tidy {a b : Node κ ν} {aHash bHash : UInt64} (ha : a.isTerminal = true)
    (hb : b.isTerminal = true) (hne : aHash ≠ bHash) : ∀ left depth, left + depth = Trie.levels →
      Trie.Agree depth aHash bHash → (split a aHash b bHash left depth).Stands ∧
        (split a aHash b bHash left depth).Tidy ∧
          (split a aHash b bHash left depth).isTerminal = false
  | 0, depth, hl, h => by
    obtain rfl : depth = Trie.levels := by omega
    exact absurd (Trie.eq_of_agree h) hne
  | left + 1, depth, hl, h => by
    obtain ⟨hsa, hta⟩ := tidy_of_terminal ha
    obtain ⟨hsb, htb⟩ := tidy_of_terminal hb
    rw [split]
    split_ifs with hs hlt
    · obtain ⟨hstands, htidy, hbranch⟩ :=
        split_tidy ha hb hne left (depth + 1) (by omega) (h.succ hs)
      exact ⟨hbranch, ⟨hstands, htidy, trivial⟩, rfl⟩
    · exact ⟨trivial, ⟨hsa, hta, hsb, htb, trivial⟩, rfl⟩
    · exact ⟨trivial, ⟨hsb, htb, hsa, hta, trivial⟩, rfl⟩

/-- That a node has been replaced by a tidy one that may stand in its place. -/
def Succeeds (n m : Node κ ν) : Prop :=
  m.Tidy ∧ (n.Stands → m.Stands) ∧ (n.isTerminal = false → m.isTerminal = false)

theorem succeeds_split {a : Node κ ν} {h : UInt64} {hash : UInt64} {depth : Nat} (key : κ) (val : ν)
    (ha : a.isTerminal = true) (hne : h ≠ hash) (hag : Trie.Agree depth h hash)
    (hd : depth ≤ Trie.levels) : a.Succeeds (splitFrom depth a h (leaf key val) hash) := by
  obtain ⟨hstands, htidy, hbranch⟩ :=
    split_tidy ha (b := leaf key val) rfl hne (Trie.levels - depth) depth (by omega) hag
  exact ⟨htidy, fun _ => hstands, fun _ => hbranch⟩

variable {K : Keying κ}

/-- What insertion makes of a tidy node may stand in its place, when all hashes agree with that of the
key down to the depth. -/
theorem insert_succeeds (key : κ) (val : ν) (n : Node κ ν) : ∀ {depth : Nat},
    n.Routed K.hash depth → (∀ e ∈ n.toList, Trie.Agree depth (K.hash e.1) (K.hash key)) →
    depth ≤ Trie.levels → n.Tidy → n.Succeeds (n.insert K (K.hash key) key val depth).1 := by
  induction n using Node.induct with
  | leaf k v =>
    intro depth _ hag hd _
    simp only [insert]
    split_ifs with hs hh
    · exact ⟨trivial, fun _ => trivial, by simp [isTerminal]⟩
    · exact ⟨trivial, fun _ => trivial, by simp [isTerminal]⟩
    · exact succeeds_split key val rfl hh (hag (k, v) (by simp)) hd
  | collision h pairs =>
    intro depth hr hag hd _
    rw [insert]
    split_ifs with hh
    · exact ⟨trivial, fun _ => trivial, by simp [isTerminal]⟩
    · exact succeeds_split key val rfl hh (agree_of_collision hr hag) hd
  | branch bitmap entries ih =>
    intro depth hr hag _ ht
    obtain ⟨front, n, back, rfl, -, -, hn, hs, -, hins⟩ | ⟨front, back, rfl, -, -, hins⟩ :=
      insert_branch (K := K) (K.hash key) key val hr
    · obtain ⟨⟨hstands, htidy⟩, hothers⟩ := tidyAll_middle.mp ht
      obtain ⟨htidy', hstands', hbranch⟩ :=
        ih n (by simp) hn (fun e he => (hag e (by simp [he])).succ (hs e he)) hr.1 htidy
      rw [hins]
      exact ⟨tidyAll_middle.mpr ⟨⟨hstands' hstands, htidy'⟩, hothers⟩, Stands.replace hbranch,
        fun _ => rfl⟩
    · rw [hins]
      refine ⟨tidyAll_middle.mpr ⟨⟨trivial, trivial⟩, ht⟩, fun hstands => stands_of_two ?_,
        fun _ => rfl⟩
      have hpos : 0 < (front ++ back).length := by
        refine List.length_pos_iff.mpr fun hnil => ?_
        rw [hnil] at hstands
        exact hstands
      simp only [List.length_append, List.length_cons] at hpos ⊢
      omega

/-! ### Removal -/

/-- What is pulled up stands. -/
theorem pullUp_stands : ∀ {n m : Node κ ν}, n.Tidy → n.pullUp = some m → m.Stands ∧ m.Tidy
  | leaf _ _, _, _, rfl => ⟨trivial, trivial⟩
  | collision _ _, _, _, rfl => ⟨trivial, trivial⟩
  | branch bitmap [n], m, ht, h => by
    rw [pullUp] at h
    split_ifs at h with hn
    · obtain rfl := Option.some.inj h
      exact ⟨ht.1, ht.2.1⟩
    · obtain rfl := Option.some.inj h
      exact ⟨eq_false_of_ne_true hn, ht⟩
  | branch _ (_ :: _ :: _), _, ht, rfl => ⟨trivial, ht⟩

/-- That what a removal leaves of a node is tidy, and a branch of a branch. -/
def Removal.Tidies (n : Node κ ν) : Removal κ ν → Prop
  | absent => True
  | gone => n.isTerminal = true
  | kept m => m.Tidy ∧ (n.isTerminal = false → m.isTerminal = false)

/-- What is left of a node stands once it has been pulled up. -/
theorem Removal.Tidies.stands {n m : Node κ ν} {r : Removal κ ν} (h : r.Tidies n)
    (hm : r.pulled = kept m) : m.Stands ∧ m.Tidy := by
  cases r with
  | absent | gone => cases hm
  | kept m' =>
    rw [pulled] at hm
    cases hpull : m'.pullUp with
    | none =>
      rw [hpull] at hm
      cases hm
    | some m'' =>
      rw [hpull] at hm
      cases hm
      exact pullUp_stands h.1 hpull

theorem erase_tidies (h : UInt64) (key : κ) (n : Node κ ν) : ∀ {depth : Nat},
    n.Routed K.hash depth → n.Tidy → (n.erase K h key depth).Tidies n := by
  induction n using Node.induct with
  | leaf k v =>
    intro depth _ _
    rw [erase]
    split_ifs
    · rfl
    · trivial
  | collision h' pairs =>
    intro depth _ _
    rw [erase]
    split_ifs
    · cases erasePair K key pairs with
      | none => trivial
      | some rest => obtain - | ⟨e, - | ⟨f, es⟩⟩ := rest <;> exact ⟨trivial, by simp [isTerminal]⟩
    · trivial
  | branch bitmap entries ih =>
    intro depth hr ht
    obtain ⟨front, n, back, rfl, -, -, hn, -, -, her⟩ | ⟨front, back, rfl, -, -, her⟩ :=
      erase_branch (K := K) h key hr
    · obtain ⟨⟨-, htidy⟩, hothers⟩ := tidyAll_middle.mp ht
      rw [her]
      cases hp : (n.erase K h key (depth + 1)).pulled with
      | absent => trivial
      | gone => exact ⟨hothers, fun _ => rfl⟩
      | kept m =>
        exact ⟨tidyAll_middle.mpr ⟨(ih n (by simp) hn htidy).stands hp, hothers⟩, fun _ => rfl⟩
    · rw [her]
      trivial

end Node

namespace HashMap

variable {κ ν : Type} {K : Keying κ} {m : HashMap κ ν}

/-- A hash map without leftovers: its root is a branch, and every node below the root stands. -/
structure Tidy (m : HashMap κ ν) : Prop where
  root : m.root.isTerminal = false
  below : m.root.Tidy

theorem tidy_empty : (empty : HashMap κ ν).Tidy := ⟨rfl, trivial⟩

theorem Tidy.assoc (ht : m.Tidy) (hm : m.Counted K) (key : κ) (val : ν) :
    (m.assoc K key val).Tidy := by
  obtain ⟨htidy, -, hbranch⟩ := m.root.insert_succeeds (K := K) key val hm.routed
    (fun _ _ d hd => absurd hd (Nat.not_lt_zero d)) (Nat.zero_le _) ht.below
  exact ⟨hbranch ht.root, htidy⟩

theorem Tidy.dissoc (ht : m.Tidy) (hm : m.Counted K) (key : κ) : (m.dissoc K key).Tidy := by
  have hd := m.root.erase_tidies (K := K) (K.hash key) key hm.routed ht.below
  rw [HashMap.dissoc]
  cases h : m.root.erase K (K.hash key) key 0 with
  | absent => exact ht
  | gone => exact tidy_empty
  | kept root =>
    rw [h] at hd
    exact ⟨hd.2 ht.root, hd.1⟩

/-- No history leaves an empty branch, or a branch over a lone leaf or collision node, below the root. -/
theorem tidy_after (K : Keying κ) (history : List (Change κ ν)) : (after K history).Tidy := by
  induction history using List.reverseRecOn with
  | nil => exact tidy_empty
  | append_singleton history c ih =>
    rw [after_concat]
    cases c with
    | assoc key val => exact ih.assoc (counted_after K history) key val
    | dissoc key => exact ih.dissoc (counted_after K history) key

end HashMap

end LispCore
