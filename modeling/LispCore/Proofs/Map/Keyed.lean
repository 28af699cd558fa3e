import LispCore.Map.Basic
import LispCore.Proofs.Trie.Congruence
/-!
Maps under a keying. With keys that are compared in no world, updates of a map in either representation
are functions (`assocIn`, `dissocIn`). Seen as lists of entries both do the same to both
(`Updated`): the entry with an equal key is dropped, and an addition puts another one there. So two maps
that hold the same values, in whatever representations, still do after the same update
(`Alike.updated`, `Alike.dissocIn`).
-/

namespace LispCore

variable {κ ν : Type} {K : Keying κ} {key q : κ} {val : ν}

namespace Keying

theorem mem_of_get? {es : List (κ × ν)} {v : ν} (h : K.get? q es = some v) :
    ∃ e ∈ es, K.same e.1 q = true ∧ e.2 = v := by
  obtain ⟨e, he, rfl⟩ := Option.map_eq_some_iff.mp h
  exact ⟨e, List.mem_of_find?_eq_some he,
    List.find?_some (p := fun e : κ × ν => K.same e.1 q) he, rfl⟩

/-- Distinctness is about the keys. -/
theorem distinct_iff {es : List (κ × ν)} :
    K.Distinct es ↔ (es.map (·.1)).Pairwise fun a b => K.same a b = false := by
  rw [List.pairwise_map]
  rfl

theorem exists_of_hasKey {es : List (κ × ν)} (h : K.hasKey key es = true) :
    ∃ e ∈ es, K.same e.1 key = true :=
  List.any_eq_true.mp h

/-- Each of distinct entries is what is at its key. -/
theorem Lawful.get?_mem (hK : K.Lawful) : ∀ {es : List (κ × ν)} {e : κ × ν}, K.Distinct es →
    e ∈ es → K.get? e.1 es = some e.2
  | f :: es, e, hd, he => by
    obtain ⟨hf, hd⟩ := List.pairwise_cons.mp hd
    rcases List.mem_cons.mp he with rfl | he
    · rw [get?_cons, if_pos (hK.refl _)]
    · rw [get?_cons, hf e he, if_neg Bool.false_ne_true, hK.get?_mem hd he]

/-- Among distinct entries the first with a key parts those before from those after it, which are the
entries without that key. -/
theorem Coherent.exists_split (hK : K.Coherent) {es : List (κ × ν)} {i : Nat} (hd : K.Distinct es)
    (h : es.findIdx? (fun e => K.same e.1 key) = some i) : ∃ front e back, es = front ++ e :: back ∧
      front.length = i ∧ K.same e.1 key = true ∧ K.without key es = front ++ back := by
  obtain ⟨hi, hs, hfirst⟩ := List.findIdx?_eq_some_iff_getElem.mp h
  have hes : es = es.take i ++ es[i] :: es.drop (i + 1) := by
    rw [← List.drop_eq_getElem_cons hi, List.take_append_drop]
  refine ⟨es.take i, es[i], es.drop (i + 1), hes, List.length_take_of_le (Nat.le_of_lt hi), hs, ?_⟩
  have hfront : K.hasKey key (es.take i) = false := by
    refine hasKey_eq_false.mpr fun e he => ?_
    obtain ⟨j, hj, rfl⟩ := List.mem_iff_getElem.mp he
    rw [List.length_take] at hj
    rw [List.getElem_take]
    exact Bool.not_eq_true _ ▸ hfirst j (by omega)
  have hd' : K.Distinct (es[i] :: es.drop (i + 1)) := by
    rw [hes] at hd
    exact (List.pairwise_append.mp hd).2.1
  conv_lhs => rw [hes]
  rw [without_append, without_of_not_hasKey hfront, hK.without_cons hd' hs]

theorem hasKey_of_findIdx? {es : List (κ × ν)} :
    (es.findIdx? fun e => K.same e.1 key).isSome = K.hasKey key es := by
  rw [List.findIdx?_isSome]
  rfl

/-- What is not equal to itself is equal to no key. -/
theorem Coherent.hasKey_of_not_same (hK : K.Coherent) (h : K.same q q = false) (es : List (κ × ν)) :
    K.hasKey q es = false := by
  refine hasKey_eq_false.mpr fun e _ => Bool.eq_false_iff.mpr fun hs => ?_
  exact absurd (h.symm.trans (hK.trans (hK.symm hs) hs)) Bool.false_ne_true

theorem hasKey_without (K : Keying κ) (q : κ) (es : List (κ × ν)) :
    K.hasKey q (K.without q es) = false :=
  hasKey_eq_false.mpr fun e he => by simpa [without] using (List.mem_filter.mp he).2

/-- Entries are distinct, or one of them is the first whose key was there before. -/
theorem distinct_or_repeated (K : Keying κ) (es : List (κ × ν)) : K.Distinct es ∨
    ∃ front e back, es = front ++ e :: back ∧ K.Distinct front ∧ K.hasKey e.1 front = true := by
  induction es using List.reverseRecOn with
  | nil => exact .inl .nil
  | append_singleton es e ih =>
    rcases ih with hd | ⟨front, f, back, rfl, hd, hk⟩
    · cases hk : K.hasKey e.1 es with
      | true => exact .inr ⟨es, e, [], rfl, hd, hk⟩
      | false =>
        refine .inl (List.pairwise_append.mpr ⟨hd, List.pairwise_singleton .., fun f hf g hg => ?_⟩)
        rw [List.mem_singleton.mp hg]
        exact hasKey_eq_false.mp hk f hf
    · exact .inr ⟨front, f, back ++ [e], by simp, hd, hk⟩

end Keying

namespace HashMap

def assocEach (K : Keying κ) (m : HashMap κ ν) (es : List (κ × ν)) : HashMap κ ν :=
  es.foldl (fun m e => m.assoc K e.1 e.2) m

/-- Entries with new keys are all added. -/
theorem Sound.assocEach (hK : K.Coherent) : ∀ {es : List (κ × ν)} {m : HashMap κ ν}, m.Sound K →
    K.Distinct (m.toList ++ es) →
      (m.assocEach K es).Sound K ∧ (m.assocEach K es).toList.Perm (m.toList ++ es)
  | [], m, hm, _ => ⟨hm, by rw [List.append_nil]; exact .refl _⟩
  | e :: es, m, hm, hd => by
    have hnew : K.hasKey e.1 m.toList = false :=
      Keying.hasKey_eq_false.mpr fun f hf =>
        (List.pairwise_append.mp hd).2.2 f hf e (List.mem_cons_self ..)
    have hp : (m.assoc K e.1 e.2).toList.Perm (e :: m.toList) := by
      have := hm.toList_assoc hK e.1 e.2
      rwa [Keying.without_of_not_hasKey hnew] at this
    have hperm : ((m.assoc K e.1 e.2).toList ++ es).Perm (m.toList ++ e :: es) :=
      (hp.append_right es).trans List.perm_middle.symm
    obtain ⟨hs, hp'⟩ := (hm.assoc hK e.1 e.2).assocEach hK (hK.distinct_perm hperm.symm hd)
    exact ⟨hs, hp'.trans hperm⟩

end HashMap

namespace Map

variable {m m' : Map κ ν}

def assocIn (K : Keying κ) (key : κ) (val : ν) : Map κ ν → Map κ ν
  | .small entries =>
    match entries.toList.findIdx? fun e => K.same e.1 key with
    | some i => .small (entries.modify i fun e => (e.1, val))
    | none =>
      if smallLimit ≤ entries.size then
        .hashed ((HashMap.empty.assocEach K entries.toList).assoc K key val)
      else .small (entries.push (key, val))
  | .hashed m => .hashed (m.assoc K key val)

def dissocIn (K : Keying κ) (key : κ) : Map κ ν → Map κ ν
  | .small entries =>
    match entries.toList.findIdx? fun e => K.same e.1 key with
    | some i => .small (entries.eraseIdxIfInBounds i)
    | none => .small entries
  | .hashed m => .hashed (m.dissoc K key)

/-- The keys are distinct and, in a hashed map, where their hashes lead. -/
def Sound (K : Keying κ) : Map κ ν → Prop
  | .small entries => K.Distinct entries.toList
  | .hashed m => m.Sound K

theorem Sound.distinct (h : m.Sound K) : K.Distinct m.toList := by
  cases m with
  | small => exact h
  | hashed => exact h.distinct

theorem Sound.count_eq (h : m.Sound K) : m.count = m.toList.length := by
  cases m with
  | small => rfl
  | hashed => exact h.count_eq

/-- One map is the other after an addition: the entry with an equal key has given way to a new one, and
the map is small as before unless a new key has come to a full one. -/
structure Updated (K : Keying κ) (m : Map κ ν) (key : κ) (val : ν) (m' : Map κ ν) : Prop where
  sound : m'.Sound K
  small : m'.isSmall = (m.isSmall && (K.hasKey key m.toList || decide (m.count < smallLimit)))
  /-- The key in the map may be the old one. -/
  entries : ∃ k, (k = key ∨ K.same k key = true ∧ ∃ e ∈ m.toList, e.1 = k) ∧
    m'.toList.Perm ((k, val) :: K.without key m.toList)

/-! ### Additions -/

theorem modify_length {α : Type} (f : α → α) (e : α) : ∀ front back : List α,
    (front ++ e :: back).modify front.length f = front ++ f e :: back
  | [], _ => rfl
  | x :: front, back => congrArg (x :: ·) (modify_length f e front back)

section Small

variable {entries : Array (κ × ν)}

/-- Modifying the entry behind the first ones changes that one only. -/
theorem toList_modify_split {front back : List (κ × ν)} {e : κ × ν} {f : κ × ν → κ × ν}
    (h : entries.toList = front ++ e :: back) :
    (entries.modify front.length f).toList = front ++ f e :: back := by
  rw [Array.toList_modify, h, modify_length]

/-- In a small map that has the key the value is replaced. -/
theorem updated_present (hK : K.Coherent) (val : ν) {i : Nat} (hm : K.Distinct entries.toList)
    (hi : entries.toList.findIdx? (fun e => K.same e.1 key) = some i) :
    Updated K (.small entries) key val (.small (entries.modify i fun e => (e.1, val))) := by
  obtain ⟨front, e, back, hes, rfl, hs, hw⟩ := hK.exists_split hm hi
  have hkey : K.hasKey key entries.toList = true := by
    rw [← Keying.hasKey_of_findIdx?, hi]
    rfl
  have hlist : (entries.modify front.length fun e => (e.1, val)).toList =
      front ++ (e.1, val) :: back := toList_modify_split hes
  refine ⟨?_, by simp [isSmall, toList, hkey], e.1, .inr ⟨hs, e, by simp [toList, hes], rfl⟩, ?_⟩
  · show K.Distinct (entries.modify front.length fun e => (e.1, val)).toList
    rw [Keying.distinct_iff, hes] at hm
    rw [Keying.distinct_iff, hlist]
    simpa using hm
  · show (entries.modify front.length fun e => (e.1, val)).toList.Perm _
    rw [hlist, toList, hw]
    exact List.perm_middle

/-- In a full small map a new key makes a hashed map of all entries. -/
theorem updated_full (hK : K.Coherent) (val : ν) (hm : K.Distinct entries.toList)
    (hnew : K.hasKey key entries.toList = false) (hfull : smallLimit ≤ entries.size) :
    Updated K (.small entries) key val
      (.hashed ((HashMap.empty.assocEach K entries.toList).assoc K key val)) := by
  obtain ⟨hs, hp⟩ := HashMap.sound_empty.assocEach (m := HashMap.empty) hK hm
  have hsmall : ¬entries.size < smallLimit := Nat.not_lt.mpr hfull
  refine ⟨hs.assoc hK key val, by simp [isSmall, toList, count, hnew, hsmall], key, .inl rfl, ?_⟩
  exact (hs.toList_assoc hK key val).trans ((hp.filter _).cons _)

/-- In a small map with room a new key goes last. -/
theorem updated_room (val : ν) (hm : K.Distinct entries.toList)
    (hnew : K.hasKey key entries.toList = false) (hroom : entries.size < smallLimit) :
    Updated K (.small entries) key val (.small (entries.push (key, val))) := by
  have hlist : (entries.push (key, val)).toList = entries.toList ++ [(key, val)] :=
    Array.toList_push
  refine ⟨?_, by simp [isSmall, count, hroom], key, .inl rfl, ?_⟩
  · show K.Distinct (entries.push (key, val)).toList
    rw [hlist]
    refine List.pairwise_append.mpr ⟨hm, List.pairwise_singleton .., fun e he f hf => ?_⟩
    rw [List.mem_singleton.mp hf]
    exact Keying.hasKey_eq_false.mp hnew e he
  · show (entries.push (key, val)).toList.Perm _
    rw [hlist, toList, Keying.without_of_not_hasKey hnew]
    exact List.perm_append_singleton ..

end Small

theorem updated_assocIn (hK : K.Coherent) (hm : m.Sound K) (key : κ) (val : ν) :
    Updated K m key val (m.assocIn K key val) := by
  cases m with
  | hashed m => exact ⟨hm.assoc hK key val, rfl, key, .inl rfl, hm.toList_assoc hK key val⟩
  | small entries =>
    rw [assocIn]
    cases hi : entries.toList.findIdx? fun e => K.same e.1 key with
    | some i => exact updated_present hK val hm hi
    | none =>
      have hnew : K.hasKey key entries.toList = false := by
        rw [← Keying.hasKey_of_findIdx?, hi]
        rfl
      by_cases hfull : smallLimit ≤ entries.size
      · simp only [if_pos hfull]
        exact updated_full hK val hm hnew hfull
      · simp only [if_neg hfull]
        exact updated_room val hm hnew (Nat.not_le.mp hfull)

namespace Updated

variable (h : Updated K m key val m')
include h

/-- A new key comes with its value, and nothing is lost or doubled. -/
theorem perm (hnew : K.hasKey key m.toList = false) : m'.toList.Perm ((key, val) :: m.toList) := by
  obtain ⟨k, hk, hp⟩ := h.entries
  rw [Keying.without_of_not_hasKey hnew] at hp
  rcases hk with rfl | ⟨hs, e, he, rfl⟩
  · exact hp
  · rw [Keying.hasKey_eq_false.mp hnew e he] at hs
    cases hs

/-- The key that is there now compares as the one that was put. -/
theorem same_key (hK : K.Coherent) : ∃ k, (∀ q, K.same k q = K.same key q) ∧
    m'.toList.Perm ((k, val) :: K.without key m.toList) := by
  obtain ⟨k, hk, hp⟩ := h.entries
  rcases hk with rfl | ⟨hs, -⟩
  · exact ⟨k, fun _ => rfl, hp⟩
  · refine ⟨k, fun q => ?_, hp⟩
    rw [hK.same_comm, hK.same_congr hs, hK.same_comm]

/-- After the addition a map has the value at the key, and what it had at all others. -/
theorem get? (hK : K.Coherent) (q : κ) :
    K.get? q m'.toList = if K.same key q then some val else K.get? q m.toList := by
  obtain ⟨k, hk, hp⟩ := h.same_key hK
  rw [hK.get?_perm q hp h.sound.distinct, Keying.get?_cons, hk, hK.get?_without]
  cases K.same key q <;> rfl

theorem count (hK : K.Coherent) (hm : m.Sound K) :
    m'.count = if K.hasKey key m.toList then m.count else m.count + 1 := by
  obtain ⟨k, -, hp⟩ := h.same_key hK
  rw [h.sound.count_eq, hp.length_eq, hm.count_eq, List.length_cons]
  cases hk : K.hasKey key m.toList with
  | false =>
    rw [Keying.without_of_not_hasKey hk]
    rfl
  | true =>
    rw [hK.length_without hm.distinct hk]
    rfl

/-- The keys are the old ones and perhaps the new one, the values the old ones and the new one. -/
theorem mem {e : κ × ν} (he : e ∈ m'.toList) :
    (e.1 = key ∨ ∃ f ∈ m.toList, f.1 = e.1) ∧ (e.2 = val ∨ ∃ f ∈ m.toList, f.2 = e.2) := by
  obtain ⟨k, hk, hp⟩ := h.entries
  rcases List.mem_cons.mp (hp.subset he) with rfl | he
  · exact ⟨hk.imp_right fun hk => hk.2, .inl rfl⟩
  · have he := Keying.mem_of_mem_without he
    exact ⟨.inr ⟨e, he, rfl⟩, .inr ⟨e, he, rfl⟩⟩

theorem forall_keys {P : κ → Prop} (hm : ∀ e ∈ m.toList, P e.1) (hkey : P key) :
    ∀ e ∈ m'.toList, P e.1 := by
  intro e he
  rcases (h.mem he).1 with hk | ⟨f, hf, hk⟩
  · exact hk ▸ hkey
  · exact hk ▸ hm f hf

end Updated

/-! ### Removals -/

/-- A removal keeps the entries with other keys, in order. -/
theorem toList_dissocIn (hK : K.Coherent) (hm : m.Sound K) (key : κ) :
    (m.dissocIn K key).toList = K.without key m.toList := by
  cases m with
  | hashed m => exact HashMap.Sound.toList_dissoc hm hK key
  | small entries =>
    rw [dissocIn]
    cases hi : entries.toList.findIdx? fun e => K.same e.1 key with
    | some i =>
      obtain ⟨front, e, back, hes, rfl, -, hw⟩ := hK.exists_split hm hi
      show (entries.eraseIdxIfInBounds front.length).toList = K.without key entries.toList
      rw [hw, Array.toList_eraseIdxIfInBounds, hes]
      simp [List.eraseIdx_append_of_length_le]
    | none =>
      have hnew : K.hasKey key entries.toList = false := by
        rw [← Keying.hasKey_of_findIdx?, hi]
        rfl
      exact (Keying.without_of_not_hasKey hnew).symm

theorem forall_keys_dissocIn (hK : K.Coherent) (hm : m.Sound K) {P : κ → Prop}
    (hkeys : ∀ e ∈ m.toList, P e.1) (key : κ) : ∀ e ∈ (m.dissocIn K key).toList, P e.1 := by
  rw [toList_dissocIn hK hm]
  exact fun e he => hkeys e (Keying.mem_of_mem_without he)

theorem isSmall_dissocIn (K : Keying κ) (key : κ) (m : Map κ ν) :
    (m.dissocIn K key).isSmall = m.isSmall := by
  cases m with
  | hashed => rfl
  | small entries =>
    rw [dissocIn]
    cases entries.toList.findIdx? fun e => K.same e.1 key <;> rfl

theorem Sound.dissocIn (hK : K.Coherent) (hm : m.Sound K) (key : κ) : (m.dissocIn K key).Sound K := by
  cases m with
  | hashed m => exact HashMap.Sound.dissoc hm hK key
  | small entries =>
    have hd : K.Distinct ((Map.small entries).dissocIn K key).toList := by
      rw [toList_dissocIn hK hm]
      exact hm.distinct.filter _
    have hsmall := isSmall_dissocIn K key (.small entries)
    generalize (Map.small entries).dissocIn K key = m at hd hsmall
    cases m with
    | hashed => cases hsmall
    | small => exact hd

/-- Where no key is equal a removal changes nothing. -/
theorem dissocIn_of_not_hasKey (hK : K.Coherent) (hm : m.Sound K)
    (h : K.hasKey key m.toList = false) : m.dissocIn K key = m := by
  cases m with
  | hashed m => exact congrArg Map.hashed (HashMap.Sound.dissoc_of_not_hasKey hm hK h)
  | small entries =>
    have hnone : entries.toList.findIdx? (fun e => K.same e.1 key) = none := by
      rw [← Option.not_isSome_iff_eq_none, Keying.hasKey_of_findIdx?]
      exact Bool.not_eq_true _ ▸ h
    rw [dissocIn, hnone]

/-- Keys that are equal are removed alike. -/
theorem dissocIn_congr (hK : K.Coherent) {key' : κ} (h : K.same key key' = true) (m : Map κ ν) :
    m.dissocIn K key = m.dissocIn K key' := by
  have hsame := hK.same_congr h
  cases m with
  | hashed m =>
    exact congrArg Map.hashed (HashMap.dissoc_congr ⟨hK.hash_eq h, fun e _ => hsame e.1,
      fun _ _ => rfl⟩)
  | small entries => simp only [dissocIn, hsame]

/-! ### Maps with the same values -/

/-- The maps have the same value at every key. -/
def Alike (K : Keying κ) (m m' : Map κ ν) : Prop := ∀ q, K.get? q m.toList = K.get? q m'.toList

namespace Alike

theorem symm (h : Alike K m m') : Alike K m' m := fun q => (h q).symm

theorem hasKey (h : Alike K m m') (q : κ) : K.hasKey q m.toList = K.hasKey q m'.toList := by
  rw [← Keying.isSome_get?, ← Keying.isSome_get?, h q]

theorem count_le (h : Alike K m m') (hK : K.Lawful) (hm : m.Sound K) (hm' : m'.Sound K) :
    m.count ≤ m'.count := by
  rw [hm.count_eq, hm'.count_eq, ← List.length_map (·.1), ← @List.length_map _ _ m'.toList (·.1)]
  refine hK.coherent.length_le_of_cover (List.pairwise_map.mpr hm.distinct) fun k hk => ?_
  obtain ⟨e, he, rfl⟩ := List.mem_map.mp hk
  have hkey : K.hasKey e.1 m'.toList = true := by
    rw [← h.hasKey]
    exact List.any_eq_true.mpr ⟨e, he, hK.refl _⟩
  obtain ⟨f, hf, hs⟩ := Keying.exists_of_hasKey hkey
  exact ⟨f.1, List.mem_map_of_mem hf, hs⟩

theorem count_eq (h : Alike K m m') (hK : K.Lawful) (hm : m.Sound K) (hm' : m'.Sound K) :
    m.count = m'.count :=
  Nat.le_antisymm (h.count_le hK hm hm') (h.symm.count_le hK hm' hm)

/-- The same value put at the same key keeps maps alike. -/
theorem updated {n n' : Map κ ν} (h : Alike K m m') (hK : K.Lawful) {key' : κ}
    (hs : K.same key key' = true) (hu : Updated K m key val n) (hu' : Updated K m' key' val n') :
    Alike K n n' := by
  intro q
  rw [hu.get? hK, hu'.get? hK, h q, hK.coherent.same_comm, hK.same_congr hs, hK.coherent.same_comm]

theorem dissocIn (h : Alike K m m') (hK : K.Lawful) (hm : m.Sound K) (hm' : m'.Sound K) (key : κ) :
    Alike K (m.dissocIn K key) (m'.dissocIn K key) := by
  intro q
  rw [toList_dissocIn hK hm, toList_dissocIn hK hm', hK.coherent.get?_without, hK.coherent.get?_without, h q]

/-- Entries in another order. -/
theorem of_perm (hK : K.Lawful) (hm : m.Sound K) (hp : m.toList.Perm m'.toList) : Alike K m m' :=
  fun q => hK.coherent.get?_perm q hp hm.distinct

end Alike

end Map

end LispCore
