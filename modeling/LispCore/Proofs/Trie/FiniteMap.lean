import LispCore.Proofs.Trie.Iteration
import LispCore.Proofs.Trie.Update
import LispCore.Trie.HashMap
/-!
A hash map is a finite map. `Sound` is what every map made by `assoc` and `dissoc` satisfies: a routed
trie of distinct keys and the right count. Its lookups read the list of entries, which each update
changes in one place; so a run of updates ends in the map that the history of each key describes.
-/

namespace LispCore

namespace Keying

variable {κ ν : Type} {K : Keying κ}

def get? (K : Keying κ) (key : κ) (es : List (κ × ν)) : Option ν :=
  (es.find? fun e => K.same e.1 key).map (·.2)

@[simp] theorem get?_nil (key : κ) : K.get? key ([] : List (κ × ν)) = none := rfl

theorem get?_cons (key : κ) (e : κ × ν) (es : List (κ × ν)) :
    K.get? key (e :: es) = if K.same e.1 key then some e.2 else K.get? key es := by
  rw [get?, List.find?_cons]
  cases K.same e.1 key <;> rfl

theorem isSome_get? (key : κ) (es : List (κ × ν)) : (K.get? key es).isSome = K.hasKey key es := by
  induction es with
  | nil => rfl
  | cons e es ih =>
    rw [get?_cons, hasKey_cons, ← ih]
    cases K.same e.1 key <;> rfl

theorem get?_eq_none {key : κ} {es : List (κ × ν)} (h : K.hasKey key es = false) :
    K.get? key es = none := by
  rw [← isSome_get?] at h
  exact Option.not_isSome_iff_eq_none.mp (by simp [h])

/-- The values of the entries with a key, of which distinct entries have at most one. -/
theorem Coherent.filter_eq_get? (hK : K.Coherent) (key : κ) : ∀ {es : List (κ × ν)}, K.Distinct es →
    (es.filter fun e => K.same e.1 key).map (·.2) = (K.get? key es).toList
  | [], _ => rfl
  | e :: es, hd => by
    have ih := hK.filter_eq_get? key (List.pairwise_cons.mp hd).2
    rw [get?_cons, List.filter_cons]
    by_cases hs : K.same e.1 key = true
    · rw [get?_eq_none (hK.hasKey_tail hd hs)] at ih
      simp [hs, ih]
    · simp [hs, ih]

theorem Lawful.filter_eq_get? (hK : K.Lawful) (key : κ) {es : List (κ × ν)} (hd : K.Distinct es) :
    (es.filter fun e => K.same e.1 key).map (·.2) = (K.get? key es).toList :=
  hK.coherent.filter_eq_get? key hd

theorem Coherent.same_comm (hK : K.Coherent) (a b : κ) : K.same a b = K.same b a :=
  Bool.eq_iff_iff.mpr ⟨hK.symm, hK.symm⟩

theorem Coherent.distinct_perm (hK : K.Coherent) {es fs : List (κ × ν)} (hp : es.Perm fs)
    (hd : K.Distinct es) : K.Distinct fs :=
  hp.pairwise hd fun {e f} h => (hK.same_comm f.1 e.1).trans h

/-- Lookups do not depend on the order of distinct entries. -/
theorem Coherent.get?_perm (hK : K.Coherent) (key : κ) {es fs : List (κ × ν)} (hp : es.Perm fs)
    (hd : K.Distinct es) : K.get? key es = K.get? key fs := by
  have he := (hp.filter fun e => K.same e.1 key).map (·.2)
  rw [hK.filter_eq_get? key hd, hK.filter_eq_get? key (hK.distinct_perm hp hd)] at he
  cases h : K.get? key es <;> cases h' : K.get? key fs <;> rw [h, h'] at he <;> simp_all

/-- Entries without a key have the values of all other keys. -/
theorem Coherent.get?_without (hK : K.Coherent) (key q : κ) (es : List (κ × ν)) :
    K.get? q (K.without key es) = if K.same key q then none else K.get? q es := by
  induction es with
  | nil => simp [without]
  | cons e es ih =>
    by_cases hs : K.same e.1 key = true
    · have hw : K.without key (e :: es) = K.without key es := by simp [without, hs]
      rw [hw, ih, get?_cons]
      by_cases hq : K.same key q = true
      · simp [hq]
      · have he : ¬ K.same e.1 q = true := fun he => hq (hK.trans (hK.symm hs) he)
        simp [hq, he]
    · have hs' : K.same e.1 key = false := by simpa using hs
      rw [without_cons_of_ne es hs', get?_cons, get?_cons, ih]
      by_cases hq : K.same key q = true
      · have he : ¬ K.same e.1 q = true := fun he => hs (hK.trans he (hK.symm hq))
        simp [hq, he]
      · simp [hq]

/-- Keys of one list that are all in another are no more than those, when they are distinct. -/
theorem Coherent.length_le_of_cover (hK : K.Coherent) : ∀ {ks ls : List κ},
    ks.Pairwise (fun a b => K.same a b = false) → (∀ k ∈ ks, ∃ l ∈ ls, K.same l k = true) →
    ks.length ≤ ls.length
  | [], _, _, _ => Nat.zero_le _
  | k :: ks, ls, hd, hc => by
    obtain ⟨l, hl, hlk⟩ := hc k (by simp)
    obtain ⟨front, back, rfl⟩ := List.append_of_mem hl
    obtain ⟨hk, hd⟩ := List.pairwise_cons.mp hd
    -- The key that covers the first covers no other one.
    have hrest : ∀ k' ∈ ks, ∃ l' ∈ front ++ back, K.same l' k' = true := by
      intro k' hk'
      obtain ⟨l', hl', hs⟩ := hc k' (by simp [hk'])
      rcases List.mem_append.mp hl' with h | h
      · exact ⟨l', by simp [h], hs⟩
      · rcases List.mem_cons.mp h with rfl | h
        · have := hK.trans (hK.symm hlk) hs
          rw [hk k' hk'] at this
          contradiction
        · exact ⟨l', by simp [h], hs⟩
    have ih := hK.length_le_of_cover hd hrest
    simp only [List.length_cons, List.length_append] at ih ⊢
    omega

end Keying

/-! ### Sound maps -/

namespace HashMap

variable {κ ν : Type} {K : Keying κ} {m : HashMap κ ν}

/-- What holds of every hash map: its keys are distinct and where their hashes lead, and the count is
the number of entries. -/
structure Sound (K : Keying κ) (m : HashMap κ ν) : Prop where
  routed : m.root.Routed K.hash 0
  distinct : K.Distinct m.toList
  count_eq : m.count = m.toList.length

theorem sound_empty : (empty : HashMap κ ν).Sound K where
  routed := ⟨by decide, by
    have : Trie.slots 0 = [] := by decide
    rw [this]
    trivial⟩
  distinct := .nil
  count_eq := rfl

/-- A lookup reads the list of entries. -/
theorem Sound.find?_eq (hm : m.Sound K) (hK : K.Coherent) (key : κ) :
    m.find? K key = K.get? key m.toList :=
  m.root.find?_eq K hm.routed fun _ _ hs => hK.hash_eq hs

theorem Sound.inserted (hm : m.Sound K) (hK : K.Coherent) (key : κ) (val : ν) :
    Node.Inserted K key val 0 m.root (m.root.insert K (K.hash key) key val 0) :=
  m.root.insert_spec hK key val hm.routed hm.distinct (fun _ _ d hd => absurd hd (by omega))
    (by decide)

/-- An addition puts its entry in the place of those with an equal key. -/
theorem Sound.toList_assoc (hm : m.Sound K) (hK : K.Coherent) (key : κ) (val : ν) :
    (m.assoc K key val).toList.Perm ((key, val) :: K.without key m.toList) :=
  (hm.inserted hK key val).2.1

theorem Sound.assoc (hm : m.Sound K) (hK : K.Coherent) (key : κ) (val : ν) :
    (m.assoc K key val).Sound K := by
  obtain ⟨hr, hp, ha⟩ := hm.inserted hK key val
  have hcons : K.Distinct ((key, val) :: K.without key m.toList) := by
    refine List.pairwise_cons.mpr ⟨fun e he => ?_, hm.distinct.filter _⟩
    rw [hK.same_comm]
    simpa using (List.mem_filter.mp he).2
  refine ⟨hr, hK.distinct_perm hp.symm hcons, ?_⟩
  · have hl := hp.length_eq
    rw [List.length_cons] at hl
    show (if _ then m.count + 1 else m.count) = List.length _
    rw [ha, hm.count_eq]
    cases hk : K.hasKey key m.root.toList with
    | false =>
      rw [Keying.without_of_not_hasKey hk] at hl
      exact hl.symm
    | true => exact ((hl.trans (hK.length_without hm.distinct hk))).symm

/-- A removal keeps the entries with other keys, in order. -/
theorem Sound.toList_dissoc (hm : m.Sound K) (hK : K.Coherent) (key : κ) :
    (m.dissoc K key).toList = K.without key m.toList := by
  have hd := m.root.erase_spec hK key hm.routed hm.distinct
  rw [dissoc]
  cases h : m.root.erase K (K.hash key) key 0 with
  | absent =>
    rw [h] at hd
    exact (Keying.without_of_not_hasKey hd).symm
  | gone =>
    rw [h] at hd
    exact hd.2.symm
  | kept root =>
    rw [h] at hd
    exact hd.2.2

/-- Where no key is equal there is nothing to remove. -/
theorem Sound.dissoc_of_not_hasKey (hm : m.Sound K) (hK : K.Coherent) {key : κ}
    (h : K.hasKey key m.toList = false) : m.dissoc K key = m := by
  have hd := m.root.erase_spec hK key hm.routed hm.distinct
  rw [HashMap.dissoc]
  cases he : m.root.erase K (K.hash key) key 0 with
  | absent => rfl
  | gone =>
    rw [he] at hd
    exact absurd (h.symm.trans hd.1) Bool.false_ne_true
  | kept root =>
    rw [he] at hd
    exact absurd (h.symm.trans hd.1) Bool.false_ne_true

theorem Sound.dissoc (hm : m.Sound K) (hK : K.Coherent) (key : κ) : (m.dissoc K key).Sound K := by
  have hd := m.root.erase_spec hK key hm.routed hm.distinct
  have hl := hm.toList_dissoc hK key
  rw [HashMap.dissoc] at hl ⊢
  cases h : m.root.erase K (K.hash key) key 0 with
  | absent => exact hm
  | gone => exact sound_empty
  | kept root =>
    rw [h] at hd hl
    refine ⟨hd.2.1, ?_, ?_⟩
    · simp only at hl
      rw [hl]
      exact hm.distinct.filter _
    · have hw := hK.length_without hm.distinct hd.1
      have hlen := congrArg List.length hl
      simp only at hlen
      rw [hlen, hm.count_eq, ← hw, Nat.add_sub_cancel]

/-! ### Runs -/

inductive Change (κ ν : Type) where
  | assoc (key : κ) (val : ν)
  | dissoc (key : κ)

def Change.key : Change κ ν → κ
  | assoc key _ => key
  | dissoc key => key

def apply (K : Keying κ) (m : HashMap κ ν) : Change κ ν → HashMap κ ν
  | .assoc key val => m.assoc K key val
  | .dissoc key => m.dissoc K key

/-- The map that a history of changes makes of the empty map. -/
def after (K : Keying κ) (history : List (Change κ ν)) : HashMap κ ν :=
  history.foldl (apply K) empty

/-- A history leaves a key with a value: the last change of an equal key put the value there. -/
def Leaves (K : Keying κ) (history : List (Change κ ν)) (q : κ) (v : ν) : Prop :=
  ∃ before key since, history = before ++ .assoc key v :: since ∧ K.same key q = true ∧
    ∀ c ∈ since, K.same c.key q = false

/-- Keys that stand for each key left by a history, once each. -/
structure LiveKeys (K : Keying κ) (history : List (Change κ ν)) (keys : List κ) : Prop where
  distinct : keys.Pairwise fun a b => K.same a b = false
  live : ∀ k ∈ keys, ∃ v, Leaves K history k v
  all : ∀ q v, Leaves K history q v → ∃ k ∈ keys, K.same k q = true

theorem after_concat (K : Keying κ) (history : List (Change κ ν)) (c : Change κ ν) :
    after K (history ++ [c]) = (after K history).apply K c := by
  simp [after]

theorem sound_after_of_coherent (hK : K.Coherent) (history : List (Change κ ν)) :
    (after K history).Sound K := by
  induction history using List.reverseRecOn with
  | nil => exact sound_empty
  | append_singleton history c ih =>
    rw [after_concat]
    cases c with
    | assoc key val => exact ih.assoc hK key val
    | dissoc key => exact ih.dissoc hK key

theorem sound_after (hK : K.Lawful) (history : List (Change κ ν)) : (after K history).Sound K :=
  sound_after_of_coherent hK history

/-- A change of another key leaves what was left before. -/
theorem leaves_concat_other {history : List (Change κ ν)} {c : Change κ ν} {q : κ} {v : ν}
    (h : K.same c.key q = false) : Leaves K (history ++ [c]) q v ↔ Leaves K history q v := by
  constructor
  · rintro ⟨before, key, since, he, hs, ho⟩
    rcases List.eq_nil_or_concat since with rfl | ⟨since, c', rfl⟩
    · obtain ⟨-, hc⟩ := List.append_inj' he rfl
      rw [List.singleton_inj.mp hc, Change.key, hs] at h
      contradiction
    · rw [List.concat_eq_append, ← List.cons_append, ← List.append_assoc] at he
      obtain ⟨rfl, -⟩ := List.append_inj' he rfl
      exact ⟨before, key, since, rfl, hs, fun c hc => ho c (by simp [hc])⟩
  · rintro ⟨before, key, since, rfl, hs, ho⟩
    refine ⟨before, key, since ++ [c], by simp, hs, fun c' hc => ?_⟩
    rcases List.mem_append.mp hc with hc | hc
    · exact ho c' hc
    · rw [List.mem_singleton.mp hc, h]

/-- After a change of an equal key only its own value is left. -/
theorem leaves_concat_same {history : List (Change κ ν)} {c : Change κ ν} {q : κ} {v : ν}
    (h : K.same c.key q = true) : Leaves K (history ++ [c]) q v ↔ c = .assoc c.key v := by
  constructor
  · rintro ⟨before, key, since, he, -, ho⟩
    rcases List.eq_nil_or_concat since with rfl | ⟨since, c', rfl⟩
    · obtain ⟨-, hc⟩ := List.append_inj' he rfl
      rw [List.singleton_inj.mp hc]
      rfl
    · rw [List.concat_eq_append, ← List.cons_append, ← List.append_assoc] at he
      obtain ⟨-, hc⟩ := List.append_inj' he rfl
      rw [List.singleton_inj.mp hc, ho c' (by simp)] at h
      contradiction
  · intro hc
    exact ⟨history, c.key, [], by rw [← hc], h, by simp⟩

/-- The entries after a history have for each key what the history leaves. -/
theorem get?_after (hK : K.Lawful) (history : List (Change κ ν)) (q : κ) (v : ν) :
    K.get? q (after K history).toList = some v ↔ Leaves K history q v := by
  induction history using List.reverseRecOn with
  | nil =>
    constructor
    · intro h
      contradiction
    · rintro ⟨before, key, since, he, -⟩
      simp at he
  | append_singleton history c ih =>
    have hm := sound_after hK history
    rw [after_concat]
    by_cases hs : K.same c.key q = true
    · rw [leaves_concat_same hs]
      cases c with
      | assoc key val =>
        have hs' : K.same key q = true := hs
        rw [apply, hK.coherent.get?_perm q (hm.toList_assoc hK key val) (hm.assoc hK key val).distinct,
          Keying.get?_cons, if_pos hs']
        simp [Change.key]
      | dissoc key =>
        have hs' : K.same key q = true := hs
        rw [apply, hm.toList_dissoc hK, hK.coherent.get?_without, if_pos hs']
        simp
    · have hs' : K.same c.key q = false := by simpa using hs
      rw [leaves_concat_other hs', ← ih]
      cases c with
      | assoc key val =>
        have hs' : ¬ K.same key q = true := hs
        rw [apply, hK.coherent.get?_perm q (hm.toList_assoc hK key val) (hm.assoc hK key val).distinct,
          Keying.get?_cons, if_neg hs', hK.coherent.get?_without, if_neg hs']
      | dissoc key =>
        have hs' : ¬ K.same key q = true := hs
        rw [apply, hm.toList_dissoc hK, hK.coherent.get?_without, if_neg hs']

/-- The keys handed out by an iteration are those left, once each. -/
theorem liveKeys_after (hK : K.Lawful) (history : List (Change κ ν)) :
    LiveKeys K history ((after K history).iter.drain.map (·.1)) := by
  have hm := sound_after hK history
  rw [drain_iter]
  refine ⟨List.pairwise_map.mpr hm.distinct, ?_, ?_⟩
  · intro k hk
    obtain ⟨e, he, rfl⟩ := List.mem_map.mp hk
    have hsome : (K.get? e.1 (after K history).toList).isSome = true := by
      rw [Keying.isSome_get?]
      exact List.any_eq_true.mpr ⟨e, he, hK.refl _⟩
    obtain ⟨v, hv⟩ := Option.isSome_iff_exists.mp hsome
    exact ⟨v, (get?_after hK history e.1 v).mp hv⟩
  · intro q v hq
    have hsome := congrArg Option.isSome ((get?_after hK history q v).mpr hq)
    rw [Keying.isSome_get?] at hsome
    obtain ⟨e, he, hs⟩ := List.any_eq_true.mp hsome
    exact ⟨e.1, List.mem_map_of_mem he, hs⟩

/-- Lists that stand for the keys left once each are equally long. -/
theorem LiveKeys.length_le (hK : K.Lawful) {history : List (Change κ ν)} {ks ls : List κ}
    (hk : LiveKeys K history ks) (hl : LiveKeys K history ls) : ks.length ≤ ls.length :=
  hK.coherent.length_le_of_cover hk.distinct fun k h =>
    let ⟨v, hv⟩ := hk.live k h
    hl.all k v hv

/-- A hash map is a finite map: after every history, under every hash that equal keys share, look-up
gives what the history leaves, the count is the number of keys left, and an iteration hands out each
of them once, with its value. -/
theorem finite_map (hK : K.Lawful) (history : List (Change κ ν)) :
    (∀ q v, (after K history).find? K q = some v ↔ Leaves K history q v) ∧
    (∀ q, (after K history).contains K q = true ↔ ∃ v, Leaves K history q v) ∧
    (∀ keys, LiveKeys K history keys → (after K history).count = keys.length) ∧
    LiveKeys K history ((after K history).iter.drain.map (·.1)) ∧
    ∀ q v, Leaves K history q v →
      ((after K history).iter.drain.filter fun e => K.same e.1 q).map (·.2) = [v] := by
  have hm := sound_after hK history
  have hfind : ∀ q v, (after K history).find? K q = some v ↔ Leaves K history q v := by
    intro q v
    rw [hm.find?_eq hK, get?_after hK]
  refine ⟨hfind, fun q => ?_, fun keys hkeys => ?_, liveKeys_after hK history, fun q v hq => ?_⟩
  · rw [contains, Option.isSome_iff_exists]
    exact exists_congr (hfind q)
  · have hlive := liveKeys_after hK history
    have hlen : ((after K history).iter.drain.map (·.1)).length = (after K history).count := by
      rw [List.length_map, drain_iter, hm.count_eq]
    rw [← hlen]
    exact le_antisymm (hlive.length_le hK hkeys) (hkeys.length_le hK hlive)
  · rw [drain_iter, hK.filter_eq_get? q hm.distinct, (get?_after hK history q v).mpr hq]
    rfl

/-- Numbers with the same last digit are equal; all hashes agree but for their last four bits, in
which the digits 0 and 1 agree too. -/
def lastDigit : Keying Nat where
  same a b := a % 10 == b % 10
  hash k := if k % 10 ≤ 1 then 0 else UInt64.ofNat (k % 10) <<< 60

theorem lawful_lastDigit : lastDigit.Lawful where
  refl a := by simp [lastDigit]
  symm h := by
    simp only [lastDigit, beq_iff_eq] at h ⊢
    exact h.symm
  trans h h' := by
    simp only [lastDigit, beq_iff_eq] at h h' ⊢
    exact h.trans h'
  hash_eq h := by
    simp only [lastDigit, beq_iff_eq] at h ⊢
    rw [h]

/-- In a collision node below twelve branches one key is replaced and another removed. -/
theorem finite_map_lastDigit :
    lastDigit.Lawful ∧
      (after lastDigit [.assoc 0 'a', .assoc 1 'b', .assoc 2 'c', .assoc 11 'd', .dissoc 10]).find?
        lastDigit 21 = some 'd' :=
  ⟨lawful_lastDigit, ((finite_map lawful_lastDigit _).1 21 'd').mpr
    ⟨[.assoc 0 'a', .assoc 1 'b', .assoc 2 'c'], 11, [.dissoc 10], rfl, rfl, by
      intro c hc
      rw [List.mem_singleton.mp hc]
      rfl⟩⟩

end HashMap

end LispCore
