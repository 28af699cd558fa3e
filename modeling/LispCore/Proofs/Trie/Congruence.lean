import LispCore.Proofs.Trie.FiniteMap
import Mathlib.Data.List.Find
/-!
What an update reads of its keying. Insertion and removal compare the key with stored keys and hash
those, so keyings that agree on the stored keys (`Keying.Agree`) make one update, and keys that compare
alike with the stored keys are removed alike.
-/

namespace LispCore

/-- One keying sees the first key among these entries as the other sees the second. -/
structure Keying.Agree {κ ν : Type} (K K' : Keying κ) (key key' : κ) (es : List (κ × ν)) : Prop where
  hash_key : K.hash key = K'.hash key'
  same : ∀ e ∈ es, K.same e.1 key = K'.same e.1 key'
  hash : ∀ e ∈ es, K.hash e.1 = K'.hash e.1

/-- A lookup reads how the key compares with stored keys. -/
theorem Keying.get?_congr {κ ν : Type} {K K' : Keying κ} {key key' : κ} {es : List (κ × ν)}
    (h : ∀ e ∈ es, K.same e.1 key = K'.same e.1 key') : K.get? key es = K'.get? key' es :=
  congrArg (Option.map Prod.snd) (List.find?_congr h)

theorem Keying.Coherent.same_congr {κ : Type} {K : Keying κ} (hK : K.Coherent) {key key' : κ}
    (h : K.same key key' = true) (k : κ) : K.same k key = K.same k key' :=
  Bool.eq_iff_iff.mpr ⟨fun hk => hK.trans hk h, fun hk => hK.trans hk (hK.symm h)⟩

theorem Keying.Lawful.same_congr {κ : Type} {K : Keying κ} (hK : K.Lawful) {key key' : κ}
    (h : K.same key key' = true) (k : κ) : K.same k key = K.same k key' :=
  hK.coherent.same_congr h k

namespace Node

variable {κ ν : Type} {K K' : Keying κ} {key key' : κ} {h : UInt64}

theorem mem_listAll {e : κ × ν} : ∀ {ns : List (Node κ ν)},
    e ∈ listAll ns ↔ ∃ n ∈ ns, e ∈ n.toList
  | [] => by simp
  | n :: ns => by
    have ih := @mem_listAll e ns
    simp [ih]

theorem findAt_congr {depth : Nat} : ∀ {ns : List (Node κ ν)} (i : Nat),
    (∀ n ∈ ns, n.find? K h key depth = n.find? K' h key depth) →
      findAt K h key depth ns i = findAt K' h key depth ns i
  | [], _, _ => rfl
  | n :: _, 0, hn => hn n (List.mem_cons_self ..)
  | _ :: _, i + 1, hn => findAt_congr i fun n he => hn n (List.mem_cons_of_mem _ he)

/-- A search reads how stored keys compare with the key. -/
theorem find?_congr (hs : ∀ k, K.same k key = K'.same k key) (n : Node κ ν) : ∀ {depth : Nat},
    n.find? K h key depth = n.find? K' h key depth := by
  induction n using Node.induct with
  | leaf k v =>
    intro depth
    rw [find?, find?, hs]
  | collision c pairs =>
    intro depth
    simp only [find?, hs]
  | branch bitmap entries ih =>
    intro depth
    rw [find?, find?, findAt_congr (Trie.position bitmap (Trie.slotAt h depth)) fun n hn => ih n hn]

theorem insertPair_congr (val : ν) : ∀ {es : List (κ × ν)},
    (∀ e ∈ es, K.same e.1 key = K'.same e.1 key) →
      insertPair K key val es = insertPair K' key val es
  | [], _ => rfl
  | e :: es, hs => by
    rw [insertPair, insertPair, hs e (List.mem_cons_self ..),
      insertPair_congr val fun e he => hs e (List.mem_cons_of_mem _ he)]

theorem insertAt_congr {val : ν} {depth : Nat} : ∀ {ns : List (Node κ ν)} (i : Nat),
    (∀ n ∈ ns, n.insert K h key val depth = n.insert K' h key val depth) →
      insertAt K h key val depth ns i = insertAt K' h key val depth ns i
  | [], _, _ => rfl
  | n :: ns, 0, hn => by rw [insertAt, insertAt, hn n (List.mem_cons_self ..)]
  | n :: ns, i + 1, hn => by
    rw [insertAt, insertAt, insertAt_congr i fun n he => hn n (List.mem_cons_of_mem _ he)]

/-- An insertion reads how the key compares with stored keys and what these hash to. -/
theorem insert_congr (val : ν) (n : Node κ ν) : ∀ {depth : Nat},
    (∀ e ∈ n.toList, K.same e.1 key = K'.same e.1 key) →
    (∀ e ∈ n.toList, K.hash e.1 = K'.hash e.1) →
      n.insert K h key val depth = n.insert K' h key val depth := by
  induction n using Node.induct with
  | leaf k v =>
    intro depth hs hh
    rw [insert, insert, hs (k, v) (by simp), hh (k, v) (by simp)]
  | collision c pairs =>
    intro depth hs _
    rw [toList_collision] at hs
    rw [insert, insert, insertPair_congr val hs]
  | branch bitmap entries ih =>
    intro depth hs hh
    rw [insert, insert, insertAt_congr (Trie.position bitmap (Trie.slotAt h depth)) fun n hn => ih n hn
      (fun e he => hs e (mem_listAll.mpr ⟨n, hn, he⟩))
      (fun e he => hh e (mem_listAll.mpr ⟨n, hn, he⟩))]

theorem erasePair_congr : ∀ {es : List (κ × ν)},
    (∀ e ∈ es, K.same e.1 key = K'.same e.1 key') → erasePair K key es = erasePair K' key' es
  | [], _ => rfl
  | e :: es, hs => by
    rw [erasePair, erasePair, hs e (List.mem_cons_self ..),
      erasePair_congr fun e he => hs e (List.mem_cons_of_mem _ he)]

theorem eraseAt_congr {depth : Nat} : ∀ {ns : List (Node κ ν)} (i : Nat),
    (∀ n ∈ ns, n.erase K h key depth = n.erase K' h key' depth) →
      eraseAt K h key depth ns i = eraseAt K' h key' depth ns i
  | [], _, _ => rfl
  | n :: _, 0, hn => hn n (List.mem_cons_self ..)
  | _ :: _, i + 1, hn => eraseAt_congr i fun n he => hn n (List.mem_cons_of_mem _ he)

/-- A removal reads how the key compares with stored keys. -/
theorem erase_congr (n : Node κ ν) : ∀ {depth : Nat},
    (∀ e ∈ n.toList, K.same e.1 key = K'.same e.1 key') →
      n.erase K h key depth = n.erase K' h key' depth := by
  induction n using Node.induct with
  | leaf k v =>
    intro depth hs
    rw [erase, erase, hs (k, v) (by simp)]
  | collision c pairs =>
    intro depth hs
    rw [toList_collision] at hs
    rw [erase, erase, erasePair_congr hs]
  | branch bitmap entries ih =>
    intro depth hs
    rw [erase, erase, eraseAt_congr (Trie.position bitmap (Trie.slotAt h depth)) fun n hn =>
      ih n hn fun e he => hs e (mem_listAll.mpr ⟨n, hn, he⟩)]

theorem RoutedAll.congr {hash hash' : κ → UInt64} {depth : Nat} : ∀ {ss : List Nat}
    {ns : List (Node κ ν)}, (∀ n ∈ ns, n.Routed hash (depth + 1) → n.Routed hash' (depth + 1)) →
    (∀ e ∈ listAll ns, hash e.1 = hash' e.1) → RoutedAll hash depth ss ns →
      RoutedAll hash' depth ss ns
  | [], [], _, _, _ => trivial
  | _ :: _, n :: ns, hn, hh, ⟨hr, hs, hrest⟩ => by
    refine ⟨hn n (by simp) hr, fun e he => ?_, hrest.congr (fun m hm => hn m (by simp [hm]))
      fun e he => hh e (by simp [he])⟩
    rw [← hh e (by simp [he])]
    exact hs e he

/-- Where entries belong is said by the hashes of their keys. -/
theorem Routed.congr {hash hash' : κ → UInt64} (n : Node κ ν) : ∀ {depth : Nat},
    (∀ e ∈ n.toList, hash e.1 = hash' e.1) → n.Routed hash depth → n.Routed hash' depth := by
  induction n using Node.induct with
  | leaf => exact fun _ _ => trivial
  | collision c pairs => exact fun hh hr => ⟨hr.1, fun e he => (hh e he).symm.trans (hr.2 e he)⟩
  | branch bitmap entries ih =>
    intro depth hh hr
    exact ⟨hr.1, hr.2.congr (fun n hn => ih n hn fun e he => hh e (mem_listAll.mpr ⟨n, hn, he⟩)) hh⟩

end Node

namespace HashMap

variable {κ ν : Type} {K K' : Keying κ} {m : HashMap κ ν} {key key' : κ}

theorem find?_congr (hs : ∀ k, K.same k key = K'.same k key) (hh : K.hash key = K'.hash key) :
    m.find? K key = m.find? K' key := by
  rw [find?, find?, hh, Node.find?_congr hs]

theorem insert_congr (val : ν) (h : K.Agree K' key key m.toList) :
    m.insert K key val = m.insert K' key val := by
  rw [insert, insert, h.hash_key, Node.insert_congr val m.root h.same h.hash]

theorem dissoc_congr (h : K.Agree K' key key' m.toList) : m.dissoc K key = m.dissoc K' key' := by
  rw [dissoc, dissoc, h.hash_key, Node.erase_congr m.root h.same]

/-- A lookup in a map that is sound under another keying reads the list of entries. -/
theorem Sound.find?_agree (hm : m.Sound K') (hK : K'.Coherent) (h : K.Agree K' key key' m.toList) :
    m.find? K key = K'.get? key' m.toList := by
  have hfound : ∀ e ∈ m.root.toList, K.same e.1 key = true → K'.hash e.1 = K.hash key := by
    intro e he hs
    rw [h.same e he] at hs
    rw [hK.hash_eq hs, h.hash_key]
  exact (m.root.find?_eq K hm.routed hfound).trans (Keying.get?_congr h.same)

/-- An insertion tells whether the key is new. -/
theorem Sound.insert_new (hm : m.Sound K) (hK : K.Coherent) (key : κ) (val : ν) :
    (m.insert K key val).2 = !K.hasKey key m.toList :=
  (hm.inserted hK key val).2.2

end HashMap

end LispCore
