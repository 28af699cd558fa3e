import LispCore.Proofs.Trie.Congruence
import LispCore.Proofs.Trie.Tidy
import LispCore.Proofs.Trie.Walk
import Mathlib.Data.Multiset.Filter
/-!
The shape of a trie is said by its entries. In a tidy trie the entries below a node tell whether it is a
branch, and the slots of a branch are those that their hashes lead to, so two tidy tries of the same
entries have the same shape and at most collision nodes differ in order (`Node.sameTrie`). Hence
nothing of a history but what it leaves shows in a hash map (`HashMap.history_independent`).
-/

namespace LispCore

/-! ### Entries that match -/

section Matching

variable {α β : Type} {E : α → β → Prop} {s : Multiset α} {t : Multiset β}

/-- What is picked from matching collections by what a match preserves matches. -/
theorem rel_filter {p : α → Prop} {q : β → Prop} [DecidablePred p] [DecidablePred q]
    (hpq : ∀ a b, E a b → (p a ↔ q b)) (h : Multiset.Rel E s t) :
    Multiset.Rel E (s.filter p) (t.filter q) := by
  induction h with
  | zero => exact .zero
  | @cons a b s t hab _ ih =>
    by_cases hp : p a
    · rw [Multiset.filter_cons_of_pos s hp, Multiset.filter_cons_of_pos t ((hpq a b hab).mp hp)]
      exact .cons hab ih
    · have hq : ¬q b := fun hq => hp ((hpq a b hab).mpr hq)
      rw [Multiset.filter_cons_of_neg s hp, Multiset.filter_cons_of_neg t hq]
      exact ih

theorem exists_left_of_rel {b : β} (h : Multiset.Rel E s t) (hb : b ∈ t) : ∃ a ∈ s, E a b :=
  Multiset.exists_mem_of_rel_of_mem (Multiset.rel_flip.mpr h) hb

end Matching

/-! ### Slots of a bitmap -/

namespace Trie

theorem pairwise_slots (bitmap : BitVec 32) : (slots bitmap).Pairwise (· < ·) :=
  List.pairwise_lt_range.filter _

/-- A bitmap is known by its slots. -/
theorem slots_inj {a b : BitVec 32} (h : slots a = slots b) : a = b := by
  refine BitVec.eq_of_getLsbD_eq fun i hi => ?_
  have mem (c : BitVec 32) : i ∈ slots c ↔ c.getLsbD i = true := by
    simp [slots, occupied, hi]
  exact Bool.eq_iff_iff.mpr (by rw [← mem, ← mem, h])

end Trie

namespace Node

variable {κ ν : Type}

mutual

/-- Nodes of one shape with matching entries in the same places; the entries of a collision node may
stand in any order. -/
def SameShape (E : κ × ν → κ × ν → Prop) : Node κ ν → Node κ ν → Prop
  | leaf k v, leaf k' v' => E (k, v) (k', v')
  | collision h pairs, collision h' pairs' =>
    h = h' ∧ Multiset.Rel E (pairs : Multiset (κ × ν)) (pairs' : Multiset (κ × ν))
  | branch bitmap entries, branch bitmap' entries' =>
    bitmap = bitmap' ∧ SameShapeAll E entries entries'
  | _, _ => False

def SameShapeAll (E : κ × ν → κ × ν → Prop) : List (Node κ ν) → List (Node κ ν) → Prop
  | [], [] => True
  | n :: ns, m :: ms => n.SameShape E m ∧ SameShapeAll E ns ms
  | _, _ => False

end

/-! ### What the entries say of a node -/

section Known

variable {hash : κ → UInt64} {depth : Nat}

/-- A node that stands has entries. -/
theorem Stands.toList_ne_nil (n : Node κ ν) : ∀ {depth : Nat}, n.Stands → n.Tidy →
    n.Routed hash depth → n.toList ≠ [] := by
  induction n using Node.induct with
  | leaf k v => exact fun _ _ _ => List.cons_ne_nil _ _
  | collision h pairs =>
    intro depth _ _ hr hnil
    have : 2 ≤ pairs.length := hr.1
    rw [show pairs = [] from hnil] at this
    contradiction
  | branch bitmap entries ih =>
    intro depth hs ht ⟨_, hr⟩
    obtain - | ⟨n, ns⟩ := entries
    · exact hs.elim
    · generalize Trie.slots bitmap = ss at hr
      obtain - | ⟨s, ss⟩ := ss
      · exact hr.elim
      · simpa using fun hnil => absurd hnil (ih n (by simp) ht.1 ht.2.1 hr.1)

/-- Of nodes at ascending slots the first has the entries that lead to its slot, and the rest have the
others. -/
theorem RoutedAll.filter_head {s : Nat} {ss : List Nat} {n : Node κ ν} {ns : List (Node κ ν)}
    (hr : RoutedAll hash depth (s :: ss) (n :: ns)) (hs : (s :: ss).Pairwise (· < ·)) :
    (listAll (n :: ns)).filter (fun e => Trie.slotAt (hash e.1) depth = s) = n.toList ∧
      (listAll (n :: ns)).filter (fun e => ¬ Trie.slotAt (hash e.1) depth = s) = listAll ns := by
  obtain ⟨-, hhere, hr⟩ := hr
  have hother : ∀ e ∈ listAll ns, Trie.slotAt (hash e.1) depth ≠ s := fun e he =>
    ((List.pairwise_cons.mp hs).1 _ (hr.slot_mem e he)).ne'
  rw [listAll_cons, List.filter_append, List.filter_append]
  constructor
  · rw [List.filter_eq_self.mpr (by simpa using hhere),
      List.filter_eq_nil_iff.mpr (by simpa using hother), List.append_nil]
  · rw [List.filter_eq_nil_iff.mpr (by simpa using hhere),
      List.filter_eq_self.mpr (by simpa using hother), List.nil_append]

/-- The entries of a leaf or collision node have one hash. -/
theorem Routed.hash_eq {n : Node κ ν} (hr : n.Routed hash depth) (hn : n.isTerminal = true) :
    ∀ e ∈ n.toList, ∀ f ∈ n.toList, hash e.1 = hash f.1 := by
  cases n with
  | leaf k v => simp
  | collision h pairs => exact fun e he f hf => (hr.2 e he).trans (hr.2 f hf).symm
  | branch => contradiction

/-- Below a branch that stands there are keys of different hashes. -/
theorem Stands.exists_hash_ne (n : Node κ ν) : ∀ {depth : Nat}, n.Stands → n.Tidy →
    n.Routed hash depth → n.isTerminal = false →
      ∃ e ∈ n.toList, ∃ f ∈ n.toList, hash e.1 ≠ hash f.1 := by
  induction n using Node.induct with
  | leaf | collision => exact nofun
  | branch bitmap entries ih =>
    intro depth hs ht hr _
    have hslots := Trie.pairwise_slots bitmap
    obtain ⟨-, hr⟩ := hr
    match entries, Trie.slots bitmap, hr, hslots with
    | [], _, _, _ => exact hs.elim
    | [n], _ :: _, hr, _ => simpa using ih n (by simp) ht.1 ht.2.1 hr.1 hs
    | n :: m :: ns, s :: s' :: ss, ⟨hn, hsn, hm, hsm, _⟩, hslots =>
      obtain ⟨e, he⟩ := List.exists_mem_of_ne_nil _ (ht.1.toList_ne_nil n ht.2.1 hn)
      obtain ⟨f, hf⟩ := List.exists_mem_of_ne_nil _ (ht.2.2.1.toList_ne_nil m ht.2.2.2.1 hm)
      refine ⟨e, by simp [he], f, by simp [hf], fun h => ?_⟩
      have hlt : s < s' := (List.pairwise_cons.mp hslots).1 s' (by simp)
      rw [← hsn e he, ← hsm f hf, h] at hlt
      exact absurd hlt (Nat.lt_irrefl _)

/-- A node that stands is a leaf or collision node exactly when its entries have one hash. -/
theorem Stands.isTerminal_iff {n : Node κ ν} (hs : n.Stands) (ht : n.Tidy) (hr : n.Routed hash depth) :
    n.isTerminal = true ↔ ∀ e ∈ n.toList, ∀ f ∈ n.toList, hash e.1 = hash f.1 := by
  refine ⟨hr.hash_eq, fun h => ?_⟩
  by_contra hn
  obtain ⟨e, he, f, hf, hne⟩ := hs.exists_hash_ne n ht hr (eq_false_of_ne_true hn)
  exact hne (h e he f hf)

end Known

/-! ### Nodes of the same entries -/

section Same

variable {hash : κ → UInt64} {depth : Nat} {E : κ × ν → κ × ν → Prop}

/-- Two nodes of the same shape that list keys of the same hashes. -/
def SameTrie (hash : κ → UInt64) (E : κ × ν → κ × ν → Prop) (n m : Node κ ν) : Prop :=
  n.SameShape E m ∧ n.toList.map (fun e => hash e.1) = m.toList.map fun e => hash e.1

variable (hE : ∀ e f, E e f → hash e.1 = hash f.1)
include hE

/-- Matching entries have one hash together. -/
theorem hash_eq_of_rel {es fs : List (κ × ν)} (h : Multiset.Rel E es fs)
    (hes : ∀ e ∈ es, ∀ f ∈ es, hash e.1 = hash f.1) : ∀ e ∈ fs, ∀ f ∈ fs, hash e.1 = hash f.1 := by
  intro e he f hf
  obtain ⟨e', he', hee⟩ := exists_left_of_rel h (Multiset.mem_coe.mpr he)
  obtain ⟨f', hf', hff⟩ := exists_left_of_rel h (Multiset.mem_coe.mpr hf)
  rw [← hE e' e hee, ← hE f' f hff]
  exact hes e' (Multiset.mem_coe.mp he') f' (Multiset.mem_coe.mp hf')

/-- Of two nodes with matching entries both are leaf or collision nodes, or neither is. -/
theorem isTerminal_eq_of_rel {n m : Node κ ν} (hsn : n.Stands) (htn : n.Tidy)
    (hrn : n.Routed hash depth) (hsm : m.Stands) (htm : m.Tidy) (hrm : m.Routed hash depth)
    (h : Multiset.Rel E n.toList m.toList) : n.isTerminal = m.isTerminal := by
  rw [Bool.eq_iff_iff, hsn.isTerminal_iff htn hrn, hsm.isTerminal_iff htm hrm]
  refine ⟨hash_eq_of_rel hE h, ?_⟩
  exact hash_eq_of_rel (E := flip E) (fun e f hef => (hE f e hef).symm) (Multiset.rel_flip.mpr h)

/-- Leaf and collision nodes with matching entries are of the same kind. -/
theorem sameTrie_terminal {n m : Node κ ν} (hrn : n.Routed hash depth) (hrm : m.Routed hash depth)
    (hn : n.isTerminal = true) (hm : m.isTerminal = true) (h : Multiset.Rel E n.toList m.toList) :
    SameTrie hash E n m := by
  have hlen : n.toList.length = m.toList.length := Multiset.card_eq_card_of_rel h
  match n, m, hrn, hrm with
  | leaf k v, leaf k' v', _, _ =>
    obtain ⟨e, he, hE'⟩ := exists_left_of_rel h (b := (k', v')) (by simp)
    obtain rfl : e = (k, v) := by simpa using he
    exact ⟨hE', by simpa using hE _ _ hE'⟩
  | leaf _ _, collision _ pairs, _, hrm =>
    have : 2 ≤ pairs.length := hrm.1
    simp only [toList_leaf, toList_collision, List.length_singleton] at hlen
    omega
  | collision _ pairs, leaf _ _, hrn, _ =>
    have : 2 ≤ pairs.length := hrn.1
    simp only [toList_leaf, toList_collision, List.length_singleton] at hlen
    omega
  | collision a pairs, collision b pairs', hrn, hrm =>
    have hab : a = b := by
      obtain ⟨f, hf⟩ : ∃ f, f ∈ pairs' :=
        List.exists_mem_of_length_pos (Nat.lt_of_lt_of_le (by decide) hrm.1)
      obtain ⟨e, he, hef⟩ := exists_left_of_rel h (Multiset.mem_coe.mpr hf)
      rw [← hrn.2 e (Multiset.mem_coe.mp he), ← hrm.2 f hf, hE e f hef]
    refine ⟨⟨hab, h⟩, ?_⟩
    -- All keys on either side have the hash of the node.
    rw [toList_collision, toList_collision, List.map_congr_left hrn.2, List.map_congr_left hrm.2,
      List.map_const', List.map_const', hab, show pairs.length = pairs'.length from hlen]

/-- Tidy nodes at ascending slots with matching entries stand at the same slots and are of the same
shapes, once that is known of single nodes one level below. -/
theorem sameTrie_all : ∀ {ns ms : List (Node κ ν)} {ss ts : List Nat},
    RoutedAll hash depth ss ns → RoutedAll hash depth ts ms → ss.Pairwise (· < ·) →
    ts.Pairwise (· < ·) → TidyAll ns → TidyAll ms →
    (∀ n ∈ ns, ∀ m : Node κ ν, n.Stands → n.Tidy → n.Routed hash (depth + 1) → m.Stands → m.Tidy →
      m.Routed hash (depth + 1) → Multiset.Rel E n.toList m.toList → SameTrie hash E n m) →
    Multiset.Rel E (listAll ns) (listAll ms) →
      ss = ts ∧ SameShapeAll E ns ms ∧
        (listAll ns).map (fun e => hash e.1) = (listAll ms).map fun e => hash e.1
  | [], [], [], [], _, _, _, _, _, _, _, _ => ⟨rfl, trivial, rfl⟩
  | [], m :: ms, [], _ :: _, _, hrm, _, _, _, htm, _, h => by
    have hnil : listAll (m :: ms) = [] := by simpa using Multiset.rel_zero_left.mp h
    exact absurd (List.append_eq_nil_iff.mp hnil).1 (htm.1.toList_ne_nil m htm.2.1 hrm.1)
  | n :: ns, [], _ :: _, [], hrn, _, _, _, htn, _, _, h => by
    have hnil : listAll (n :: ns) = [] := by simpa using Multiset.rel_zero_right.mp h
    exact absurd (List.append_eq_nil_iff.mp hnil).1 (htn.1.toList_ne_nil n htn.2.1 hrn.1)
  | n :: ns, m :: ms, s :: ss, t :: ts, hrn, hrm, hss, hts, htn, htm, ih, h => by
    obtain ⟨hn, hns, hrns⟩ := id hrn
    obtain ⟨hm, hms, hrms⟩ := id hrm
    obtain ⟨hs, hss'⟩ := List.pairwise_cons.mp hss
    obtain ⟨ht, hts'⟩ := List.pairwise_cons.mp hts
    -- The first slots are the least that hashes lead to, and the hashes on both sides are the same.
    have hst : s = t := by
      obtain ⟨e, he⟩ := List.exists_mem_of_ne_nil _ (htn.1.toList_ne_nil n htn.2.1 hn)
      obtain ⟨f, hf⟩ := List.exists_mem_of_ne_nil _ (htm.1.toList_ne_nil m htm.2.1 hm)
      obtain ⟨f', hf', hef⟩ := Multiset.exists_mem_of_rel_of_mem h (a := e) (by simp [he])
      obtain ⟨e', he', hef'⟩ := exists_left_of_rel h (b := f) (by simp [hf])
      have hle : s ∈ t :: ts := by
        rw [← hns e he, hE e f' hef]
        exact hrm.slot_mem f' (Multiset.mem_coe.mp hf')
      have hge : t ∈ s :: ss := by
        rw [← hms f hf, ← hE e' f hef']
        exact hrn.slot_mem e' (Multiset.mem_coe.mp he')
      rcases List.mem_cons.mp hle with hle | hle
      · exact hle
      · rcases List.mem_cons.mp hge with hge | hge
        · exact hge.symm
        · exact absurd (hs t hge) (Nat.lt_asymm (ht s hle))
    subst hst
    -- The entries at that slot match, and so do the others.
    have hslot : ∀ e f, E e f → (Trie.slotAt (hash e.1) depth = s ↔ Trie.slotAt (hash f.1) depth = s) :=
      fun e f hef => by rw [hE e f hef]
    have hin := rel_filter hslot h
    have hout := rel_filter (fun e f hef => not_congr (hslot e f hef)) h
    obtain ⟨hnhead, hntail⟩ := hrn.filter_head hss
    obtain ⟨hmhead, hmtail⟩ := hrm.filter_head hts
    rw [Multiset.filter_coe, Multiset.filter_coe, hnhead, hmhead] at hin
    rw [Multiset.filter_coe, Multiset.filter_coe, hntail, hmtail] at hout
    obtain ⟨hshape, hlist⟩ := ih n (by simp) m htn.1 htn.2.1 hn htm.1 htm.2.1 hm hin
    obtain ⟨rfl, hshapes, hlists⟩ := sameTrie_all hrns hrms hss' hts' htn.2.2 htm.2.2
      (fun n hn => ih n (by simp [hn])) hout
    exact ⟨rfl, ⟨hshape, hshapes⟩, by simp only [listAll_cons, List.map_append, hlist, hlists]⟩

/-- Two branches of tidy nodes with matching entries. -/
theorem sameTrie_branch {bitmap bitmap' : BitVec 32} {entries entries' : List (Node κ ν)}
    (hrn : (branch bitmap entries).Routed hash depth) (hrm : (branch bitmap' entries').Routed hash depth)
    (htn : TidyAll entries) (htm : TidyAll entries')
    (ih : ∀ n ∈ entries, ∀ m : Node κ ν, n.Stands → n.Tidy → n.Routed hash (depth + 1) → m.Stands →
      m.Tidy → m.Routed hash (depth + 1) → Multiset.Rel E n.toList m.toList → SameTrie hash E n m)
    (h : Multiset.Rel E (listAll entries) (listAll entries')) :
    SameTrie hash E (branch bitmap entries) (branch bitmap' entries') := by
  obtain ⟨hslots, hshapes, hlists⟩ := sameTrie_all hE hrn.2 hrm.2 (Trie.pairwise_slots _)
    (Trie.pairwise_slots _) htn htm ih h
  exact ⟨⟨Trie.slots_inj hslots, hshapes⟩, hlists⟩

/-- Two tidy nodes that stand are of the same shape when their entries match. -/
theorem sameTrie (n : Node κ ν) : ∀ {depth : Nat} (m : Node κ ν), n.Stands → n.Tidy →
    n.Routed hash depth → m.Stands → m.Tidy → m.Routed hash depth →
    Multiset.Rel E n.toList m.toList → SameTrie hash E n m := by
  induction n using Node.induct with
  | leaf k v =>
    intro depth m hsn htn hrn hsm htm hrm h
    have hm := isTerminal_eq_of_rel hE hsn htn hrn hsm htm hrm h
    exact sameTrie_terminal hE hrn hrm rfl hm.symm h
  | collision c pairs =>
    intro depth m hsn htn hrn hsm htm hrm h
    have hm := isTerminal_eq_of_rel hE hsn htn hrn hsm htm hrm h
    exact sameTrie_terminal hE hrn hrm rfl hm.symm h
  | branch bitmap entries ih =>
    intro depth m hsn htn hrn hsm htm hrm h
    have hm := isTerminal_eq_of_rel hE hsn htn hrn hsm htm hrm h
    cases m with
    | leaf | collision => contradiction
    | branch bitmap' entries' => exact sameTrie_branch hE hrn hrm htn htm (fun n hn => ih n hn) h

end Same

end Node

namespace HashMap

variable {κ ν : Type} {K : Keying κ} {m m' : HashMap κ ν} {E : κ × ν → κ × ν → Prop}

/-- Tidy maps of matching entries are of the same shape. -/
theorem Tidy.sameTrie (ht : m.Tidy) (ht' : m'.Tidy) (hm : m.Counted K) (hm' : m'.Counted K)
    (hE : ∀ e f, E e f → K.hash e.1 = K.hash f.1) (h : Multiset.Rel E m.toList m'.toList) :
    Node.SameTrie K.hash E m.root m'.root := by
  obtain ⟨root, count⟩ := m
  obtain ⟨root', count'⟩ := m'
  obtain ⟨hroot, hbelow⟩ := ht
  obtain ⟨hroot', hbelow'⟩ := ht'
  cases root with
  | leaf | collision => contradiction
  | branch bitmap entries =>
    cases root' with
    | leaf | collision => contradiction
    | branch bitmap' entries' =>
      exact Node.sameTrie_branch hE hm.routed hm'.routed hbelow hbelow'
        (fun n _ m => Node.sameTrie hE n m) h

/-- A tidy map without entries is the empty map. -/
theorem Tidy.eq_empty (ht : m.Tidy) (hm : m.Counted K) (h : m.toList = []) : m = empty := by
  have hcount := hm.count_eq
  rw [h] at hcount
  obtain ⟨root, count⟩ := m
  obtain rfl : count = 0 := hcount
  have hsame := ht.sameTrie tidy_empty hm counted_empty (E := Eq) (by simp)
    (by rw [h]; exact .zero)
  match root, hsame.1 with
  | .branch _ [], ⟨rfl, _⟩ => rfl

/-! ### What a history leaves -/

/-- A key that a history does not leave is not among the entries. -/
theorem not_hasKey_after (hK : K.Lawful) (history : List (Change κ ν)) {q : κ}
    (h : ∀ v, ¬ Leaves K history q v) : K.hasKey q (after K history).toList = false := by
  rw [← Keying.isSome_get?, Option.isSome_eq_false_iff, Option.isNone_iff_eq_none]
  exact Option.eq_none_iff_forall_ne_some.mpr fun v hv => h v ((get?_after hK history q v).mp hv)

theorem without_comm (key q : κ) (es : List (κ × ν)) :
    K.without q (K.without key es) = K.without key (K.without q es) :=
  List.filter_comm ..

/-- Entries without a key are, but for their order, those that the history without the changes of this
key makes. -/
theorem without_after (hK : K.Lawful) (q : κ) (history : List (Change κ ν)) :
    (K.without q (after K history).toList).Perm
      (after K (history.filter fun c => !K.same c.key q)).toList := by
  induction history using List.reverseRecOn with
  | nil => exact .refl _
  | append_singleton history c ih =>
    have hm := sound_after hK history
    have hm' := sound_after hK (history.filter fun c => !K.same c.key q)
    have hpass {es fs : List (κ × ν)} (h : es.Perm fs) (key : κ) :
        (K.without key es).Perm (K.without key fs) := h.filter _
    rw [after_concat, List.filter_append]
    by_cases hs : K.same c.key q = true
    · -- The change is of that key and shows neither in the history nor in the entries.
      rw [List.filter_singleton, hs, Bool.not_true, cond_false, List.append_nil]
      have hsame (es : List (κ × ν)) : K.without q (K.without c.key es) = K.without q es := by
        rw [Keying.without, Keying.without, List.filter_filter]
        refine List.filter_congr fun e _ => ?_
        rw [hK.same_congr hs]
        exact Bool.and_self _
      cases c with
      | assoc key val =>
        have hkey : K.same key q = true := hs
        refine ((hpass (hm.toList_assoc hK key val) q).trans ?_).trans ih
        rw [Keying.without, List.filter_cons_of_neg (by simp [hkey])]
        exact .of_eq (hsame _)
      | dissoc key =>
        rw [apply, hm.toList_dissoc hK]
        exact (List.Perm.of_eq (hsame _)).trans ih
    · have hs' : K.same c.key q = false := eq_false_of_ne_true hs
      rw [List.filter_singleton, hs', Bool.not_false, cond_true, after_concat]
      cases c with
      | assoc key val =>
        refine (hpass (hm.toList_assoc hK key val) q).trans ?_
        refine List.Perm.trans ?_ (hm'.toList_assoc hK key val).symm
        rw [Keying.without_cons_of_ne _ hs', without_comm]
        exact (hpass ih key).cons _
      | dissoc key =>
        rw [apply, apply, hm.toList_dissoc hK, hm'.toList_dissoc hK, without_comm]
        exact hpass ih key

/-- Two lists of matching entries with keys of the same hashes in the same places, so that one differs
from the other at most in the order among keys of one hash. -/
def SameOrder (hash : κ → UInt64) (E : κ × ν → κ × ν → Prop) (es fs : List (κ × ν)) : Prop :=
  es.map (fun e => hash e.1) = fs.map (fun e => hash e.1) ∧ Multiset.Rel E es fs

/-- The structure of a hash map does not depend on its history. Let two histories leave matching
entries, where entries that match have equal keys; for a match one may take equality, or equal keys with
equal values. Then the two tries have the same shape but for the order in collision nodes, and both
iteration and cursor give the entries of both in the same order but for keys of one hash. Below the
root there is no empty branch and none over a lone leaf or collision node; a key that is not left might
as well never have been there; and where no key is left the map is the empty one. -/
theorem history_independent (hK : K.Lawful) (hE : ∀ e f, E e f → K.same e.1 f.1 = true)
    (history history' : List (Change κ ν))
    (hleft : Multiset.Rel E (after K history).toList (after K history').toList) :
    (after K history).root.SameShape E (after K history').root ∧
    SameOrder K.hash E (after K history).iter.drain (after K history').iter.drain ∧
    Cursor.Visits (Cursor.ofHashMap (after K history)) (after K history).iter.drain ∧
    Cursor.Visits (Cursor.ofHashMap (after K history')) (after K history').iter.drain ∧
    (after K history).Tidy ∧
    (∀ q, (∀ v, ¬ Leaves K history q v) → (after K history).root.SameShape Eq
      (after K (history.filter fun c => !K.same c.key q)).root) ∧
    ((∀ q v, ¬ Leaves K history q v) → after K history = empty) := by
  have tidy (history : List (Change κ ν)) := tidy_after K history
  have counted (history : List (Change κ ν)) := counted_after K history
  have hsame := (tidy history).sameTrie (tidy history') (counted history) (counted history')
    (fun e f hef => hK.hash_eq (hE e f hef)) hleft
  refine ⟨hsame.1, ?_, visits_drain (counted history).count_eq, visits_drain (counted history').count_eq,
    tidy history, fun q hq => ?_, fun h => (tidy history).eq_empty (counted history) ?_⟩
  · rw [drain_iter, drain_iter]
    exact ⟨hsame.2, hleft⟩
  · have hperm := without_after hK q history
    rw [Keying.without_of_not_hasKey (not_hasKey_after hK history hq)] at hperm
    exact ((tidy history).sameTrie (tidy _) (counted history) (counted _)
      (fun e f hef => by rw [hef]) (Multiset.rel_eq.mpr (Multiset.coe_eq_coe.mpr hperm))).1
  · refine List.eq_nil_iff_forall_not_mem.mpr fun e he => ?_
    have hkey := not_hasKey_after hK history (h e.1)
    rw [Keying.hasKey_eq_false] at hkey
    have := hkey e he
    rw [hK.refl] at this
    contradiction

/-- Two keys of one hash, and in between a third one that makes a chain of twelve branches. -/
def detour : List (Change Nat Char) := [.assoc 0 'a', .assoc 2 'c', .assoc 1 'b', .dissoc 2]

/-- The same two keys in the other order. -/
def direct : List (Change Nat Char) := [.assoc 1 'b', .assoc 0 'a']

theorem history_independent_lastDigit :
    Multiset.Rel (@Eq (Nat × Char)) (after lastDigit detour).toList (after lastDigit direct).toList ∧
      (after lastDigit detour).root.SameShape Eq (after lastDigit direct).root := by
  have hperm : (after lastDigit detour).toList.Perm (after lastDigit direct).toList := by decide
  have hleft : Multiset.Rel (@Eq (Nat × Char)) (after lastDigit detour).toList
      (after lastDigit direct).toList := Multiset.rel_eq.mpr (Multiset.coe_eq_coe.mpr hperm)
  exact ⟨hleft, (history_independent lawful_lastDigit
    (by rintro e _ rfl; exact lawful_lastDigit.refl e.1) detour direct hleft).1⟩

end HashMap

end LispCore
