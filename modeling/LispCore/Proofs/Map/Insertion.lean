import LispCore.Proofs.Map.KeptKeys
import LispCore.Proofs.Map.Merge
import LispCore.Proofs.Trie.Walk
/-!
Insertion order. A small map is an association list: a key that is put where an equal one is gets the
value in its place, a new one goes last, and a removal closes the gap. So the entries stand in the order
in which their keys were last newly added, each with the value that the history leaves
(`Listed.push`, `Listed.replace`, `Listed.without`). Built from pairs of any number and changed as long as
it stays small, a map lists its entries so, and its sequences show them from every position
(`insertion_ordered`).
-/

namespace LispCore

/-! ### Histories -/

namespace HashMap

variable {κ ν : Type} {K : Keying κ} {history : List (Change κ ν)} {c : Change κ ν} {key q : κ}
  {t : Nat}

/-- A history leaves the key with some value. -/
def Live (K : Keying κ) (history : List (Change κ ν)) (q : κ) : Prop := ∃ v, Leaves K history q v

def Change.Removes (K : Keying κ) (q : κ) : Change κ ν → Prop
  | .assoc .. => False
  | .dissoc key => K.same key q = true

/-- What the change leaves its key with. -/
def Change.put? : Change κ ν → Option ν
  | .assoc _ val => some val
  | .dissoc _ => none

/-- At this step the history puts this very key where no equal one is left, and does not take it away
since. -/
def AddedAt (K : Keying κ) (history : List (Change κ ν)) (key : κ) (t : Nat) : Prop :=
  ∃ before val since, history = before ++ .assoc key val :: since ∧ before.length = t ∧
    ¬Live K before key ∧ ∀ c ∈ since, ¬c.Removes K key

theorem AddedAt.lt (h : AddedAt K history key t) : t < history.length := by
  obtain ⟨before, val, since, rfl, rfl, -, -⟩ := h
  rw [List.length_append, List.length_cons]
  omega

/-- One more change adds its key, if it was not left, and may take another away. -/
theorem addedAt_concat : AddedAt K (history ++ [c]) key t ↔
    AddedAt K history key t ∧ ¬c.Removes K key ∨
      t = history.length ∧ (∃ val, c = .assoc key val) ∧ ¬Live K history key := by
  constructor
  · rintro ⟨before, val, since, he, ht, hlive, hsince⟩
    rcases List.eq_nil_or_concat since with rfl | ⟨since, c', rfl⟩
    · obtain ⟨rfl, hc⟩ := List.append_inj' he rfl
      exact .inr ⟨ht.symm, ⟨val, List.singleton_inj.mp hc⟩, hlive⟩
    · rw [List.concat_eq_append] at he hsince
      rw [← List.cons_append, ← List.append_assoc] at he
      obtain ⟨rfl, hc⟩ := List.append_inj' he rfl
      obtain rfl := List.singleton_inj.mp hc
      exact .inl ⟨⟨before, val, since, rfl, ht, hlive, fun c hc => hsince c (by simp [hc])⟩,
        hsince c (by simp)⟩
  · rintro (⟨⟨before, val, since, rfl, ht, hlive, hsince⟩, hc⟩ | ⟨rfl, ⟨val, rfl⟩, hlive⟩)
    · refine ⟨before, val, since ++ [c], by simp, ht, hlive, fun c' hc' => ?_⟩
      rcases List.mem_append.mp hc' with hc' | hc'
      · exact hsince c' hc'
      · rwa [List.mem_singleton.mp hc']
    · exact ⟨history, val, [], rfl, rfl, hlive, nofun⟩

/-- A key that was added and not taken away is left. -/
theorem AddedAt.live (hK : K.Lawful) (h : AddedAt K history key t) : Live K history key := by
  induction history using List.reverseRecOn with
  | nil => exact absurd h.lt (Nat.not_lt_zero t)
  | append_singleton history c ih =>
    rcases addedAt_concat.mp h with ⟨h, hc⟩ | ⟨-, ⟨val, rfl⟩, -⟩
    · by_cases hs : K.same c.key key = true
      · cases c with
        | assoc k val => exact ⟨val, (leaves_concat_same hs).mpr rfl⟩
        | dissoc k => exact absurd hs hc
      · obtain ⟨v, hv⟩ := ih h
        exact ⟨v, (leaves_concat_other (Bool.not_eq_true _ ▸ hs)).mpr hv⟩
    · exact ⟨val, (leaves_concat_same (c := .assoc key val) (hK.refl key)).mpr rfl⟩

/-- What a history leaves is what the entries had, but for the key that the last change is about. -/
theorem leaves_concat_iff {es es' : List (κ × ν)}
    (h : ∀ q v, K.get? q es = some v ↔ Leaves K history q v)
    (h' : ∀ q, K.get? q es' = if K.same c.key q then c.put? else K.get? q es) (q : κ) (v : ν) :
    K.get? q es' = some v ↔ Leaves K (history ++ [c]) q v := by
  rw [h']
  by_cases hs : K.same c.key q = true
  · rw [if_pos hs, leaves_concat_same hs]
    cases c with
    | assoc => simp [Change.put?, Change.key]
    | dissoc => simp [Change.put?]
  · rw [if_neg hs, h, leaves_concat_other (Bool.not_eq_true _ ▸ hs)]

/-- The keys stand in the order in which a history last newly added them. -/
structure InOrder (K : Keying κ) (history : List (Change κ ν)) (keys : List κ) : Prop where
  added : ∀ k ∈ keys, ∃ t, AddedAt K history k t
  sorted : keys.Pairwise fun k l => ∀ s t, AddedAt K history k s → AddedAt K history l t → s < t

namespace InOrder

variable {keys : List κ}

theorem sublist {ks : List κ} (h : InOrder K history keys) (hs : ks.Sublist keys) :
    InOrder K history ks :=
  ⟨fun k hk => h.added k (hs.subset hk), h.sorted.sublist hs⟩

/-- A change that takes none of the keys away adds none of them anew. -/
theorem keep (h : InOrder K history keys) (hlive : ∀ k ∈ keys, Live K history k)
    (hc : ∀ k ∈ keys, ¬c.Removes K k) : InOrder K (history ++ [c]) keys := by
  have hadded {k : κ} (hk : k ∈ keys) {t : Nat} :
      AddedAt K (history ++ [c]) k t ↔ AddedAt K history k t := by
    rw [addedAt_concat]
    exact ⟨fun ht => ht.elim And.left fun ht => absurd (hlive k hk) ht.2.2,
      fun ht => .inl ⟨ht, hc k hk⟩⟩
  refine ⟨fun k hk => ?_, h.sorted.imp_of_mem fun hk hl hkl s t hs ht => ?_⟩
  · obtain ⟨t, ht⟩ := h.added k hk
    exact ⟨t, (hadded hk).mpr ht⟩
  · exact hkl s t ((hadded hk).mp hs) ((hadded hl).mp ht)

/-- A key that is put where none is left comes last. -/
theorem concat (hK : K.Lawful) {val : ν} (h : InOrder K history keys)
    (hlive : ∀ k ∈ keys, Live K history k)
    (hnew : ¬Live K history key) : InOrder K (history ++ [.assoc key val]) (keys ++ [key]) := by
  have hkept := h.keep (c := .assoc key val) hlive fun _ _ => id
  have hlast : AddedAt K (history ++ [.assoc key val]) key history.length :=
    addedAt_concat.mpr (.inr ⟨rfl, ⟨val, rfl⟩, hnew⟩)
  -- a key that is left was added at an earlier step
  have hbefore {k : κ} (hk : k ∈ keys) {s : Nat} (hs : AddedAt K (history ++ [.assoc key val]) k s) :
      s < history.length := by
    rcases addedAt_concat.mp hs with hs | hs
    · exact hs.1.lt
    · exact absurd (hlive k hk) hs.2.2
  have honly {t : Nat} (ht : AddedAt K (history ++ [.assoc key val]) key t) : history.length ≤ t := by
    rcases addedAt_concat.mp ht with ht | ht
    · exact absurd (ht.1.live hK) hnew
    · exact Nat.le_of_eq ht.1.symm
  refine ⟨fun k hk => ?_, List.pairwise_append.mpr
    ⟨hkept.sorted, List.pairwise_singleton .., fun k hk l hl s t hs ht => ?_⟩⟩
  · rcases List.mem_append.mp hk with hk | hk
    · exact hkept.added k hk
    · obtain rfl := List.mem_singleton.mp hk
      exact ⟨_, hlast⟩
  · obtain rfl := List.mem_singleton.mp hl
    exact Nat.lt_of_lt_of_le (hbefore hk hs) (honly ht)

end InOrder

end HashMap

/-! ### Association lists -/

open HashMap

section Listed

variable {κ ν : Type} {K : Keying κ} {history : List (HashMap.Change κ ν)} {c : HashMap.Change κ ν}
  {key : κ} {val : ν} {es front back : List (κ × ν)} {e : κ × ν}

/-- The entries have what a history leaves, in the order in which it last newly added their keys. -/
structure Listed (K : Keying κ) (history : List (HashMap.Change κ ν)) (es : List (κ × ν)) : Prop where
  distinct : K.Distinct es
  leaves (q : κ) (v : ν) : K.get? q es = some v ↔ Leaves K history q v
  inOrder : InOrder K history (es.map (·.1))

namespace Listed

theorem nil (K : Keying κ) : Listed K [] ([] : List (κ × ν)) := by
  refine ⟨.nil, fun q v => ⟨nofun, ?_⟩, ⟨nofun, .nil⟩⟩
  rintro ⟨before, key, since, he, -⟩
  simp at he

variable (hK : K.Lawful)
include hK

theorem live (h : Listed K history es) : ∀ k ∈ es.map (·.1), Live K history k := by
  intro k hk
  obtain ⟨e, he, rfl⟩ := List.mem_map.mp hk
  exact ⟨e.2, (h.leaves e.1 e.2).mp (hK.get?_mem h.distinct he)⟩

/-- A new key goes last. -/
theorem push (h : Listed K history es) (hnew : K.hasKey key es = false) (val : ν) :
    Listed K (history ++ [.assoc key val]) (es ++ [(key, val)]) := by
  have hdistinct : K.Distinct (es ++ [(key, val)]) := by
    refine List.pairwise_append.mpr ⟨h.distinct, List.pairwise_singleton .., fun e he f hf => ?_⟩
    rw [List.mem_singleton.mp hf]
    exact Keying.hasKey_eq_false.mp hnew e he
  refine ⟨hdistinct, leaves_concat_iff h.leaves fun q => ?_, ?_⟩
  · rw [hK.coherent.get?_perm q (List.perm_append_singleton ..) hdistinct, Keying.get?_cons]
    rfl
  · rw [List.map_append]
    refine h.inOrder.concat hK (h.live hK) ?_
    rintro ⟨v, hv⟩
    rw [← h.leaves, Keying.get?_eq_none hnew] at hv
    cases hv

/-- A key that is there gets the value and stays where it is. -/
theorem replace (h : Listed K history (front ++ e :: back)) (hs : K.same e.1 key = true) (val : ν) :
    Listed K (history ++ [.assoc key val]) (front ++ (e.1, val) :: back) := by
  have hkeys : (front ++ (e.1, val) :: back).map (·.1) = (front ++ e :: back).map (·.1) := by simp
  have hdistinct : K.Distinct (front ++ (e.1, val) :: back) := by
    rw [Keying.distinct_iff, hkeys, ← Keying.distinct_iff]
    exact h.distinct
  refine ⟨hdistinct, leaves_concat_iff h.leaves fun q => ?_, ?_⟩
  · have hsame : K.same e.1 q = K.same key q := by
      rw [hK.coherent.same_comm, hK.same_congr hs, hK.coherent.same_comm]
    rw [hK.coherent.get?_perm q List.perm_middle hdistinct,
      hK.coherent.get?_perm q List.perm_middle h.distinct, Keying.get?_cons, Keying.get?_cons, hsame]
    show _ = if K.same key q then some val else _
    cases K.same key q <;> rfl
  · rw [hkeys]
    exact h.inOrder.keep (h.live hK) fun _ _ => id

/-- A removal keeps the others in order. -/
theorem without (h : Listed K history es) (key : κ) :
    Listed K (history ++ [.dissoc key]) (K.without key es) := by
  refine ⟨h.distinct.filter _, leaves_concat_iff h.leaves fun q => ?_, ?_⟩
  · exact hK.coherent.get?_without key q es
  · have hsub : ((K.without key es).map (·.1)).Sublist (es.map (·.1)) := List.filter_sublist.map _
    refine (h.inOrder.sublist hsub).keep (fun k hk => h.live hK k (hsub.subset hk)) fun k hk hr => ?_
    obtain ⟨e, he, rfl⟩ := List.mem_map.mp hk
    have hother := Keying.hasKey_eq_false.mp (Keying.hasKey_without K key es) e he
    rw [hK.symm hr] at hother
    cases hother

end Listed

end Listed

/-! ### Small maps -/

section Small

variable {κ ν : Type} {K : Keying κ} {history : List (HashMap.Change κ ν)} {key : κ} {val : ν}
  {front back : List (κ × ν)} {e : κ × ν} {entries : Array (κ × ν)}

/-- Among distinct entries that with an equal key is found in its place. -/
theorem Keying.Coherent.findIdx?_split (hK : K.Coherent) (hd : K.Distinct (front ++ e :: back))
    (hs : K.same e.1 key = true) :
    (front ++ e :: back).findIdx? (fun e => K.same e.1 key) = some front.length := by
  have hfront : front.findIdx? (fun e => K.same e.1 key) = none := by
    rw [List.findIdx?_eq_none_iff]
    intro f hf
    have hfe := (List.pairwise_append.mp hd).2.2 f hf e (List.mem_cons_self ..)
    rwa [hK.same_congr hs] at hfe
  rw [List.findIdx?_append, hfront, List.findIdx?_cons, hs]
  simp

namespace Map

/-- Makes a change, with keys that are compared in no world. -/
def changeIn (K : Keying κ) (c : HashMap.Change κ ν) (m : Map κ ν) : Map κ ν :=
  match c with
  | .assoc key val => m.assocIn K key val
  | .dissoc key => m.dissocIn K key

/-- Makes changes one after the other, with keys that are compared in no world. -/
def changedIn (K : Keying κ) : List (HashMap.Change κ ν) → Map κ ν → Map κ ν
  | [], m => m
  | c :: cs, m => changedIn K cs (m.changeIn K c)

/-- In place of the entry with an equal key there is its old key with the new value. -/
theorem assocIn_present (hK : K.Coherent) (hes : entries.toList = front ++ e :: back)
    (hd : K.Distinct entries.toList) (hs : K.same e.1 key = true) (val : ν) :
    (small entries).assocIn K key val = .small (front ++ (e.1, val) :: back).toArray := by
  have hi : entries.toList.findIdx? (fun e => K.same e.1 key) = some front.length := by
    rw [hes] at hd ⊢
    exact hK.findIdx?_split hd hs
  rw [assocIn, hi, ← toList_modify_split (f := fun e => (e.1, val)) hes]

/-- A new key goes behind the others when there is room. -/
theorem assocIn_new (hnew : K.hasKey key entries.toList = false) (hroom : entries.size < smallLimit)
    (val : ν) : (small entries).assocIn K key val = .small (entries.push (key, val)) := by
  rw [← Keying.hasKey_of_findIdx?, Option.isSome_eq_false_iff, Option.isNone_iff_eq_none] at hnew
  simp only [assocIn, hnew, if_neg (Nat.not_le.mpr hroom)]

/-- Without room a new key makes a hashed map. -/
theorem assocIn_full (hnew : K.hasKey key entries.toList = false) (hfull : ¬entries.size < smallLimit)
    (val : ν) : ∃ m, (small entries).assocIn K key val = .hashed m := by
  rw [← Keying.hasKey_of_findIdx?, Option.isSome_eq_false_iff, Option.isNone_iff_eq_none] at hnew
  simp only [assocIn, hnew, if_pos (Nat.le_of_not_lt hfull)]
  exact ⟨_, rfl⟩

/-- A removal closes the gap. -/
theorem dissocIn_present (hK : K.Coherent) (hes : entries.toList = front ++ e :: back)
    (hd : K.Distinct entries.toList) (hs : K.same e.1 key = true) :
    (small entries).dissocIn K key = (.small (front ++ back).toArray : Map κ ν) := by
  have hi : entries.toList.findIdx? (fun e => K.same e.1 key) = some front.length := by
    rw [hes] at hd ⊢
    exact hK.findIdx?_split hd hs
  have herase : entries.eraseIdxIfInBounds front.length = (front ++ back).toArray := by
    rw [← Array.toList_inj, Array.toList_eraseIdxIfInBounds, hes]
    simp [List.eraseIdx_append_of_length_le]
  rw [dissocIn, hi]
  exact congrArg Map.small herase

/-- A map that is small after a change was small before. -/
theorem isSmall_of_changeIn {c : HashMap.Change κ ν} {m : Map κ ν}
    (h : (m.changeIn K c).isSmall = true) : ∃ entries, m = .small entries := by
  cases m with
  | small entries => exact ⟨entries, rfl⟩
  | hashed m => cases c <;> cases h

end Map

/-- A change that keeps the map small keeps its entries listed. -/
theorem Listed.changeIn (hK : K.Lawful) (h : Listed K history entries.toList) (c : HashMap.Change κ ν)
    (hsmall : ((Map.small entries).changeIn K c).isSmall = true) :
    Listed K (history ++ [c]) ((Map.small entries).changeIn K c).toList := by
  cases c with
  | dissoc key =>
    rw [Map.changeIn, Map.toList_dissocIn (m := .small entries) hK.coherent h.distinct]
    exact h.without hK key
  | assoc key val =>
    rw [Map.changeIn] at hsmall ⊢
    cases hk : K.hasKey key entries.toList with
    | true =>
      obtain ⟨e, he, hs⟩ := Keying.exists_of_hasKey hk
      obtain ⟨front, back, hes⟩ := List.append_of_mem he
      rw [Map.assocIn_present hK.coherent hes h.distinct hs]
      exact Listed.replace hK (hes ▸ h) hs val
    | false =>
      have hroom : entries.size < Map.smallLimit := by
        by_contra hfull
        obtain ⟨m, hm⟩ := Map.assocIn_full hk hfull val
        rw [hm] at hsmall
        cases hsmall
      rw [Map.assocIn_new hk hroom, Map.toList, Array.toList_push]
      exact h.push hK hk val

/-- A run of changes that leaves the map small keeps its entries listed. -/
theorem Listed.changedIn (hK : K.Lawful) : ∀ {cs : List (HashMap.Change κ ν)} {m : Map κ ν}
    {history : List (HashMap.Change κ ν)}, (m.isSmall = true → Listed K history m.toList) →
    (m.changedIn K cs).isSmall = true → Listed K (history ++ cs) (m.changedIn K cs).toList
  | [], m, history, h, hsmall => by
    rw [List.append_nil]
    exact h hsmall
  | c :: cs, m, history, h, hsmall => by
    rw [List.append_cons]
    refine Listed.changedIn hK (m := m.changeIn K c) (fun hc => ?_) hsmall
    obtain ⟨entries, rfl⟩ := Map.isSmall_of_changeIn hc
    exact (h rfl).changeIn hK c hc

/-- Pairs that are put one after the other. -/
def additions (pairs : List (κ × ν)) : List (HashMap.Change κ ν) :=
  pairs.map fun e => .assoc e.1 e.2

/-- Pairs with distinct keys are listed as they are put. -/
theorem listed_additions (hK : K.Lawful) {pairs : List (κ × ν)} (hd : K.Distinct pairs) :
    Listed K (additions pairs) pairs := by
  induction pairs using List.reverseRecOn with
  | nil => exact .nil K
  | append_singleton pairs e ih =>
    obtain ⟨hd, -, hlast⟩ := List.pairwise_append.mp hd
    have hnew : K.hasKey e.1 pairs = false :=
      Keying.hasKey_eq_false.mpr fun f hf => hlast f hf e (List.mem_singleton_self e)
    rw [additions, List.map_append]
    exact (ih hd).push hK hnew e.2

end Small

/-! ### Runs -/

variable {inside : Nat → Datum} {w : World} {pairs : List (Value × Value)} {key : Value}
  {entries : Array (Value × Value)} {m : Map Value Value}

namespace Map.Keyed

/-- A change of a regular key settles on what the keying makes of the map. -/
theorem change (hm : m.Keyed inside w) (hw : Orderly w) {c : HashMap.Change Value Value}
    (hc : LispCore.Regular inside w c.key) : (m.change c).Settles w (m.changeIn (w.keying inside) c) ∧
      (m.changeIn (w.keying inside) c).Keyed inside w := by
  have hK := World.lawful_keying inside hw
  cases c with
  | assoc key val =>
    exact ⟨hm.assoc_settles hw hc val, hm.updated hc (updated_assocIn hK.coherent hm.sound key val)⟩
  | dissoc key => exact ⟨hm.dissoc_settles hw hc.finite, hm.dissocIn hw key⟩

/-- So does a run of changes. -/
theorem changed (hw : Orderly w) : ∀ {cs : List (HashMap.Change Value Value)} {m : Map Value Value},
    m.Keyed inside w → (∀ c ∈ cs, LispCore.Regular inside w c.key) →
      (m.changed cs).Settles w (m.changedIn (w.keying inside) cs) ∧
        (m.changedIn (w.keying inside) cs).Keyed inside w
  | [], m, hm, _ => ⟨.pure m w, hm⟩
  | c :: cs, m, hm, hc => by
    obtain ⟨hchange, hm⟩ := hm.change hw (hc c (List.mem_cons_self ..))
    obtain ⟨hrest, hm⟩ := changed hw hm fun c hmem => hc c (List.mem_cons_of_mem _ hmem)
    exact ⟨hchange.bind hrest, hm⟩

end Map.Keyed

/-- What the next change of this key makes of a small map. When an equal key is there, only its entry
changes or goes; when none is, a removal changes nothing and the key goes last while there is room. -/
structure Map.TakesInPlace (w : World) (entries : Array (Value × Value)) (key : Value) : Prop where
  present_or_absent : (∃ e ∈ entries.toList, Compares w e.1 key true) ∨
    ∀ e ∈ entries.toList, Compares w e.1 key false
  present (front : List (Value × Value)) (e : Value × Value) (back : List (Value × Value))
    (hes : entries.toList = front ++ e :: back) (hs : Compares w e.1 key true) :
    (∀ val, ((small entries).assoc key val).Settles w
      (.small (front ++ (e.1, val) :: back).toArray)) ∧
    ((small entries).dissoc key).Settles w (.small (front ++ back).toArray)
  absent (h : ∀ e ∈ entries.toList, Compares w e.1 key false) :
    (∀ val, if entries.size < smallLimit then
        ((small entries).assoc key val).Settles w (.small (entries.push (key, val)))
      else ∃ m, ((small entries).assoc key val).Settles w (.hashed m)) ∧
    ((small entries).dissoc key).Settles w (.small entries)

/-- A small map of regular keys takes the changes of every regular key so. -/
theorem Map.Keyed.takesInPlace (hm : (Map.small entries).Keyed inside w) (hw : Orderly w)
    (hkey : LispCore.Regular inside w key) : Map.TakesInPlace w entries key := by
  have hK := World.lawful_keying inside hw
  have hcompares {e : Value × Value} {r : Bool} (he : e ∈ entries.toList) :
      Compares w e.1 key r ↔ (w.keying inside).same e.1 key = r :=
    compares_keying hw (hm.regular e he) hkey
  refine ⟨?_, fun front e back hes hs => ?_, fun habsent => ?_⟩
  · cases hk : (w.keying inside).hasKey key entries.toList with
    | true =>
      obtain ⟨e, he, hs⟩ := Keying.exists_of_hasKey hk
      exact .inl ⟨e, he, (hcompares he).mpr hs⟩
    | false => exact .inr fun e he => (hcompares he).mpr (Keying.hasKey_eq_false.mp hk e he)
  · have he : e ∈ entries.toList := by simp [hes]
    have hs := (hcompares he).mp hs
    refine ⟨fun val => ?_, ?_⟩
    · rw [← assocIn_present hK.coherent hes hm.sound hs]
      exact hm.assoc_settles hw hkey val
    · rw [← dissocIn_present hK.coherent hes hm.sound hs]
      exact hm.dissoc_settles hw hkey.finite
  · have hnew : (w.keying inside).hasKey key entries.toList = false :=
      Keying.hasKey_eq_false.mpr fun e he => (hcompares he).mp (habsent e he)
    refine ⟨fun val => ?_, ?_⟩
    · have hassoc := hm.assoc_settles hw hkey val
      by_cases hroom : entries.size < smallLimit
      · rw [if_pos hroom, ← assocIn_new hnew hroom]
        exact hassoc
      · rw [if_neg hroom]
        obtain ⟨m, hm⟩ := assocIn_full hnew hroom val
        exact ⟨m, hm ▸ hassoc⟩
    · have hdissoc := hm.dissoc_settles hw hkey.finite
      rwa [dissocIn_of_not_hasKey hK.coherent hm.sound hnew] at hdissoc

/-- From this position on the sequences of entries, keys and values go through what is listed there,
and know how much is left. -/
structure Map.ShownFrom (entries : Array (Value × Value)) (i : Nat) : Prop where
  visits : Cursor.Visits (Cursor.smallAt entries i) (entries.toList.drop i)
  whole : Seq.Shows ((Cursor.smallAt entries i).map .entries)
    ((entries.toList.drop i).map Value.pair)
  keys : Seq.Shows ((Cursor.smallAt entries i).map .keys) ((entries.toList.drop i).map (·.1))
  vals : Seq.Shows ((Cursor.smallAt entries i).map .vals) ((entries.toList.drop i).map (·.2))

theorem Map.shownFrom (entries : Array (Value × Value)) (i : Nat) : Map.ShownFrom entries i where
  visits := Cursor.visits_smallAt entries i rfl
  whole := (Cursor.visits_smallAt entries i rfl).shows (fun _ => rfl) (fun _ => rfl) fun _ => rfl
  keys := (Cursor.visits_smallAt entries i rfl).shows (fun _ => rfl) (fun _ => rfl) fun _ => rfl
  vals := (Cursor.visits_smallAt entries i rfl).shows (fun _ => rfl) (fun _ => rfl) fun _ => rfl

/-- A small map that is made of pairs with regular keys, and has taken any changes of such keys that leave
it small, lists what the pairs and the changes leave, in the order in which the keys were last newly added.
It takes the next change in place, and its sequences show its entries from every position. -/
theorem insertion_ordered (hw : Reached w) (hp : ∀ e ∈ pairs, Regular inside w e.1)
    (hs : (Map.smallOfPairs pairs).Settles w m) (cs : List (HashMap.Change Value Value))
    (hc : ∀ c ∈ cs, Regular inside w c.key) :
    m.toList = pairs ∧ ∃ m', (m.changed cs).Settles w m' ∧ ∀ entries, m' = .small entries →
      KeysDiffer w entries.toList ∧
      Listed (w.keying inside) (additions pairs ++ cs) entries.toList ∧
      (∀ key, Regular inside w key → Map.TakesInPlace w entries key) ∧
      (Map.small entries).Aligned ∧ ∀ i, Map.ShownFrom entries i := by
  have hw := hw.orderly
  have hK := World.lawful_keying inside hw
  have hdistinct := (keysDiffer_iff hw hp).mp (Map.keysDiffer_of_built hw hp (.inl hs))
  obtain rfl := hs.unique (build_settles (World.tells_keying inside hw) hdistinct hp).1
  have hm : (Map.small pairs.toArray).Keyed inside w := ⟨hdistinct, hp⟩
  obtain ⟨hrun, hm'⟩ := hm.changed hw hc
  refine ⟨rfl, _, hrun, fun entries he => ?_⟩
  have hsmall : ((Map.small pairs.toArray).changedIn (w.keying inside) cs).isSmall = true := by
    rw [he]
    rfl
  have hbuilt : Listed (w.keying inside) (additions pairs) (Map.small pairs.toArray).toList :=
    listed_additions hK hdistinct
  have hlisted := Listed.changedIn hK (fun _ => hbuilt) hsmall
  rw [he] at hm' hlisted
  exact ⟨(keysDiffer_iff hw hm'.regular).mpr hm'.sound, hlisted,
    fun key hkey => hm'.takesInPlace hw hkey, Map.Formed.aligned (m := .small entries) trivial,
    Map.shownFrom entries⟩

/-- A lazy sequence that has not run is put on an equal vector behind which another key has come: the
vector stays first, with the new value. -/
theorem insertion_ordered_lazy : ∃ m, (Map.smallOfPairs vectorOnce).Settles unrun m ∧
    (m.changed [.assoc .nil (.int 2), .assoc (.lazy ⟨0⟩) (.int 3)]).Settles unrun
      (.small #[(.vector #[.int 1], .int 3), (.nil, .int 2)]) := by
  have hw := reached_unrun.orderly
  have hvector := (regular_iff hw comesTo_oneVector).mpr whole_oneItem.refl
  have hlazy := (regular_iff hw comesTo_oneLazy).mpr whole_oneItem.refl
  have hnil : Regular (fun _ => oneItem) unrun .nil := .of_atom hw rfl
  have hne : Compares unrun (.vector #[.int 1]) .nil false :=
    (compares_iff hw comesTo_oneVector ⟨0, .atom rfl⟩).mpr (by simp [oneItem, Datum.same])
  have hsame : Compares unrun (.vector #[.int 1]) (.lazy ⟨0⟩) true :=
    (compares_iff hw comesTo_oneVector comesTo_oneLazy).mpr whole_oneItem.refl
  have hp : ∀ e ∈ vectorOnce, Regular (fun _ => oneItem) unrun e.1 :=
    List.forall_mem_singleton.mpr hvector
  have hs := (build_settles (World.tells_keying _ hw) (List.pairwise_singleton ..) hp).1
  obtain ⟨-, m₀, hm₀, h₀⟩ := insertion_ordered reached_unrun hp hs [] (List.forall_mem_nil _)
  obtain rfl := hm₀.unique (.pure _ unrun)
  obtain ⟨-, -, htakes, -⟩ := h₀ _ rfl
  have hfirst := ((htakes .nil hnil).absent (List.forall_mem_singleton.mpr hne)).1 (.int 2)
  rw [if_pos (by decide)] at hfirst
  obtain ⟨-, m₁, hm₁, h₁⟩ := insertion_ordered reached_unrun hp hs [.assoc .nil (.int 2)]
    (List.forall_mem_singleton.mpr hnil)
  obtain rfl := hm₁.unique (hfirst.bind (.pure _ unrun))
  obtain ⟨-, -, htakes, -⟩ := h₁ _ rfl
  have hsecond := ((htakes (.lazy ⟨0⟩) hlazy).present [] _ [(.nil, .int 2)] rfl hsame).1 (.int 3)
  exact ⟨_, hs, hfirst.bind (hsecond.bind (.pure _ unrun))⟩

end LispCore
