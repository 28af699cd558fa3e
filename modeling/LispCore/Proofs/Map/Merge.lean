import LispCore.Proofs.Map.Representations
/-!
Merging maps. Adding a map to a map puts the entries of the one into the other, one after the other.
One entry updates the map (`Merged.cons`), so by induction all of them do (`merged_mergeIn`): the
entries that are put win, each new key is counted once, and only the number of keys decides whether a
small map becomes a hashed one on the way. `maps_merge` says this of all maps that can be made from
regular keys and values.
-/

namespace LispCore

section Keying

variable {κ ν : Type} {K : Keying κ} {key q : κ} {val : ν} {m m' m₁ : Map κ ν} {e : κ × ν}
  {xs : List (κ × ν)}

namespace Map

def mergeIn (K : Keying κ) (m : Map κ ν) (xs : List (κ × ν)) : Map κ ν :=
  xs.foldl (fun m e => m.assocIn K e.1 e.2) m

/-- The number of entries whose keys are new to a map. -/
def freshIn (K : Keying κ) (m : Map κ ν) (xs : List (κ × ν)) : Nat :=
  xs.countP fun e => !K.hasKey e.1 m.toList

/-- One map is the other after a merge: the entries that were put come first, the new keys are counted,
and the map is small as before unless new keys have made it too large. -/
structure Merged (K : Keying κ) (m : Map κ ν) (xs : List (κ × ν)) (m' : Map κ ν) : Prop where
  sound : m'.Sound K
  get? (q : κ) : K.get? q m'.toList = (K.get? q xs).or (K.get? q m.toList)
  count : m'.count = m.count + freshIn K m xs
  small : m'.isSmall =
    (m.isSmall && (freshIn K m xs == 0 || decide (m.count + freshIn K m xs ≤ smallLimit)))

theorem merged_nil (hm : m.Sound K) : Merged K m [] m where
  sound := hm
  get? _ := rfl
  count := rfl
  small := by simp [freshIn]

/-! ### One entry -/

theorem Updated.hasKey (h : Updated K m key val m') (hK : K.Coherent) (q : κ) :
    K.hasKey q m'.toList = (K.same key q || K.hasKey q m.toList) := by
  rw [← Keying.isSome_get?, ← Keying.isSome_get?, h.get? hK]
  cases K.same key q <;> rfl

theorem freshIn_cons (K : Keying κ) (m : Map κ ν) (e : κ × ν) (xs : List (κ × ν)) :
    freshIn K m (e :: xs) = freshIn K m xs + if K.hasKey e.1 m.toList then 0 else 1 := by
  rw [freshIn, List.countP_cons, freshIn]
  cases K.hasKey e.1 m.toList <;> rfl

/-- An entry that is put does not make the keys of the others known or new. -/
theorem Updated.freshIn_eq (h : Updated K m e.1 e.2 m₁) (hK : K.Coherent)
    (he : ∀ f ∈ xs, K.same e.1 f.1 = false) : freshIn K m₁ xs = freshIn K m xs := by
  refine List.countP_congr fun f hf => ?_
  rw [h.hasKey hK, he f hf, Bool.false_or]

/-- What is equal to the first of distinct keys is equal to none of the others. -/
theorem get?_rest_eq_none (hK : K.Coherent) (he : ∀ f ∈ xs, K.same e.1 f.1 = false)
    (hq : K.same e.1 q = true) : K.get? q xs = none := by
  refine Keying.get?_eq_none (Keying.hasKey_eq_false.mpr fun f hf => ?_)
  rw [hK.same_comm, ← he f hf, hK.same_comm, hK.same_comm e.1, hK.same_congr hq]

/-- A merge that starts with an entry goes on from the update by that entry. -/
theorem Merged.cons (hK : K.Coherent) (hm : m.Sound K) (hd : K.Distinct (e :: xs))
    (hu : Updated K m e.1 e.2 m₁) (h : Merged K m₁ xs m') : Merged K m (e :: xs) m' := by
  have he : ∀ f ∈ xs, K.same e.1 f.1 = false := (List.pairwise_cons.mp hd).1
  have hfresh : freshIn K m₁ xs = freshIn K m xs := hu.freshIn_eq hK he
  have hcount := hu.count hK hm
  refine ⟨h.sound, fun q => ?_, ?_, ?_⟩
  · rw [h.get? q, hu.get? hK, Keying.get?_cons]
    cases hq : K.same e.1 q with
    | true => rw [get?_rest_eq_none hK he hq]; rfl
    | false => rfl
  · rw [h.count, hfresh, freshIn_cons, hcount]
    split <;> omega
  · rw [h.small, hu.small, hfresh, freshIn_cons, hcount]
    cases hk : K.hasKey e.1 m.toList with
    | true => simp
    | false =>
      -- The new key is the last one that fits, or the others decide.
      simp only [Bool.false_or, Bool.false_eq_true, if_false, Bool.and_assoc]
      congr 1
      rw [Bool.eq_iff_iff]
      simp only [Bool.and_eq_true, Bool.or_eq_true, decide_eq_true_eq, beq_iff_eq]
      omega

/-! ### All entries -/

/-- Distinct entries that are put one after the other are merged. -/
theorem merged_mergeIn (hK : K.Coherent) : ∀ {xs : List (κ × ν)} {m : Map κ ν}, m.Sound K →
    K.Distinct xs → Merged K m xs (m.mergeIn K xs)
  | [], _, hm, _ => merged_nil hm
  | e :: _, _, hm, hd =>
    have hu := updated_assocIn hK hm e.1 e.2
    .cons hK hm hd hu (merged_mergeIn hK hu.sound (List.pairwise_cons.mp hd).2)

/-- A map that is merged into itself has the same values. -/
theorem Merged.alike_self (h : Merged K m m.toList m') : Alike K m' m :=
  fun q => by rw [h.get? q, Option.or_self]

end Map

end Keying

variable {inside : Nat → Datum} {w : World} {m o : Map Value Value} {pairs : List (Value × Value)}

theorem RegularAlike.refl (hm : m.Regular inside w) : RegularAlike inside w m m :=
  ⟨hm, hm, fun _ => rfl⟩

namespace Map

/-- Putting regular entries one after the other settles on the map that the keying makes. -/
theorem Regular.assocAll_settles (hw : Orderly w) : ∀ {xs : List (Value × Value)}
    {m : Map Value Value}, m.Regular inside w → AllRegular inside w xs →
      (m.assocAll xs).Settles w (m.mergeIn (w.keying inside) xs) ∧
        (m.mergeIn (w.keying inside) xs).Regular inside w
  | [], m, hm, _ => ⟨.pure m w, hm⟩
  | e :: xs, m, hm, hr => by
    obtain ⟨hk, hv⟩ := hr e (List.mem_cons_self ..)
    have hu := updated_assocIn (World.lawful_keying inside hw) hm.sound e.1 e.2
    obtain ⟨hsettles, hregular⟩ := (hm.updated hk hv hu).assocAll_settles hw
      fun f hf => hr f (List.mem_cons_of_mem _ hf)
    exact ⟨(hm.assoc_settles hw hk e.2).bind hsettles, hregular⟩

theorem Regular.allRegular (hm : m.Regular inside w) : AllRegular inside w m.toList :=
  fun e he => ⟨hm.regular e he, hm.regular_vals e he⟩

/-! ### Maps that can be made -/

/-- Made from pairs by any of the builders, and by changes, with regular keys and values. -/
inductive Made (inside : Nat → Datum) (w : World) : Map Value Value → Prop
  | small {pairs : List (Value × Value)} {m : Map Value Value} (hr : AllRegular inside w pairs)
      (hm : (smallOfPairs pairs).Settles w m) : Made inside w m
  | hashed {pairs : List (Value × Value)} {m : Map Value Value} (hr : AllRegular inside w pairs)
      (hm : (hashedOfPairs pairs).Settles w m) : Made inside w m
  | change {m m' : Map Value Value} {c : Change} (h : Made inside w m) (hc : c.Regular inside w)
      (hm : (c.apply (.map m)).Settles w (.map m')) : Made inside w m'

/-- Between the builders `ofPairs` only chooses. -/
theorem Made.ofPairs (hr : AllRegular inside w pairs)
    (hm : (Map.ofPairs pairs).Settles w m) : m.Made inside w := by
  rw [Map.ofPairs] at hm
  split at hm
  · exact .small hr hm
  · exact .hashed hr hm

/-- A builder that refuses a key does not settle. -/
theorem not_settles_of_refuses {x : Act (Map Value Value)} {key : Value}
    (h : x.Refuses inside w key) : ¬x.Settles w m := by
  rintro ⟨N, hx⟩
  obtain ⟨N', h⟩ := h
  obtain ⟨_, _, hok, -⟩ := hx (max N N') (Nat.le_max_left ..) w (.refl w)
  obtain ⟨_, _, _, -, -, herror, -⟩ := h (max N N') (Nat.le_max_right ..) w (.refl w)
  cases hok.symm.trans herror

/-- Pairs of which a map is made have different keys. -/
theorem keysDiffer_of_built (hw : Orderly w) (hr : ∀ e ∈ pairs, LispCore.Regular inside w e.1)
    (hm : (smallOfPairs pairs).Settles w m ∨ (hashedOfPairs pairs).Settles w m) :
    KeysDiffer w pairs := by
  by_contra hd
  obtain ⟨_, _, _, -, -, -, hsmall, hhashed⟩ := exists_refused hw hr hd
  exact hm.elim (not_settles_of_refuses hsmall) (not_settles_of_refuses hhashed)

/-- Maps that are made hold regular keys, all different, and regular values. -/
theorem Made.regular (hw : Orderly w) (h : m.Made inside w) : m.Regular inside w := by
  induction h with
  | small hr hm =>
    have hd := keysDiffer_of_built hw (fun e he => (hr e he).1) (.inl hm)
    obtain ⟨_, hs, -, -, halike⟩ := exists_built hw hr hd
    exact hm.unique hs ▸ halike.left
  | hashed hr hm =>
    have hd := keysDiffer_of_built hw (fun e he => (hr e he).1) (.inr hm)
    obtain ⟨_, -, hh, -, halike⟩ := exists_built hw hr hd
    exact hm.unique hh ▸ halike.right
  | change _ hc hm ih =>
    obtain ⟨n, _, hn, -, halike⟩ := (RegularAlike.refl ih).change hw hc
    exact Value.map.inj (hm.unique hn) ▸ halike.left

end Map

/-! ### Merging -/

/-- Adding one map to another settles on a third one. It finds what is added, and otherwise what was
there; the keys that were not there are counted, and small maps stay small unless these make more than
the limit. Adding may realize values, but whatever had an answer before has the same one after it. -/
structure Map.Merges (inside : Nat → Datum) (w : World) (m o r : Map Value Value) : Prop where
  conj : ((Value.map m).conj (.map o)).Settles w (.map r)
  find? (key : Value) (d : Datum) (hkey : ComesTo inside w key d) : ∃ a b,
    (o.find? key).Settles w a ∧ (m.find? key).Settles w b ∧ (r.find? key).Settles w (a.or b)
  /-- Which of the added keys were there, and how many entries there are now. -/
  counted : ∃ present, List.Forall₂ (fun e b => (m.contains e.1).Settles w b) o.toList present ∧
    r.count = m.count + present.count false ∧ r.isSmall = (m.isSmall &&
      (present.count false == 0 || decide (m.count + present.count false ≤ smallLimit)))
  unaffected : ∃ N, ∀ n ≥ N, ∃ w', (Value.map m).conj (.map o) n w = .ok (.map r) w' ∧
    ∀ {α : Type} (x : Act α) (a : α), x.Settles w a → x.Settles w' a

/-- The entries with new keys are those whose key is not present. -/
theorem Map.freshIn_eq_count {κ ν : Type} (K : Keying κ) (m : Map κ ν) (xs : List (κ × ν)) :
    freshIn K m xs = (xs.map fun e => K.hasKey e.1 m.toList).count false := by
  rw [List.count, List.countP_map]
  refine List.countP_congr fun e _ => ?_
  cases h : K.hasKey e.1 m.toList <;> simp [h]

theorem Act.Settles.leaves {α : Type} {x : Act α} {a : α} (h : x.Settles w a) :
    ∃ N, ∀ n ≥ N, ∃ w', x n w = .ok a w' ∧
      ∀ {β : Type} (y : Act β) (b : β), y.Settles w b → y.Settles w' b := by
  obtain ⟨N, h⟩ := h
  refine ⟨N, fun n hn => ?_⟩
  obtain ⟨_, w', hx, hev, rfl⟩ := h n hn w (.refl w)
  exact ⟨w', hx, fun _ _ hy => hy.later hev⟩

/-- Regular maps merge into the map that the keying makes. -/
theorem Map.Regular.merges (hw : Orderly w) (hm : m.Regular inside w) (ho : o.Regular inside w) :
    Map.Merges inside w m o (m.mergeIn (w.keying inside) o.toList) := by
  have hK := World.lawful_keying inside hw
  obtain ⟨hsettles, hr⟩ := hm.assocAll_settles hw ho.allRegular
  have h := Map.merged_mergeIn hK hm.sound ho.sound.distinct
  have hconj := hsettles.bind (f := fun r => pure (Value.map r)) (.pure _ w)
  refine ⟨hconj, fun key d hkey => ⟨_, _, ho.find?_settles hw ⟨d, hkey⟩,
    hm.find?_settles hw ⟨d, hkey⟩, ?_⟩,
    ⟨o.toList.map fun e => (w.keying inside).hasKey e.1 m.toList, ?_, ?_, ?_⟩, hconj.leaves⟩
  · rw [← h.get? key]
    exact hr.find?_settles hw ⟨d, hkey⟩
  · exact List.forall₂_map_right_iff.mpr (List.forall₂_same.mpr fun e he =>
      hm.contains_settles hw (ho.regular e he).finite)
  · rw [h.count, Map.freshIn_eq_count]
  · rw [h.small, Map.freshIn_eq_count]

/-- Maps of either representation and any size, made of keys and values on which equality is an
equivalence, merge when one is added to the other, and a map that is added to itself cannot be told
from itself. -/
theorem maps_merge (hw : Reached w) (hm : m.Made inside w) (ho : o.Made inside w) :
    (∃ r, Map.Merges inside w m o r) ∧
      ∃ s, ((Value.map m).conj (.map m)).Settles w (.map s) ∧ LookAlike inside w s m := by
  have hw := hw.orderly
  have hm := hm.regular hw
  have ho := ho.regular hw
  obtain ⟨-, hs⟩ := hm.assocAll_settles hw hm.allRegular
  have hself := Map.merged_mergeIn (World.lawful_keying inside hw) hm.sound hm.sound.distinct
  have halike : RegularAlike inside w _ m := ⟨hs, hm, hself.alike_self⟩
  exact ⟨⟨_, hm.merges hw ho⟩, _, (hm.merges hw hm).conj, halike.lookAlike hw⟩

/-- One pair of a lazy sequence that has not run makes a small map, one of a vector that is equal to it a
hashed map. Merged, the sequence is one key with the vector's value. -/
theorem maps_merge_lazy : ∃ m o r,
    (Map.ofPairs [(.lazy ⟨0⟩, .int 1)]).Settles unrun m ∧
    (Map.hashedOfPairs [(.vector #[.int 1], .int 2)]).Settles unrun o ∧
    Map.Merges (fun _ => oneItem) unrun m o r ∧
    (r.find? (.lazy ⟨0⟩)).Settles unrun (some (.int 2)) := by
  have hw := reached_unrun.orderly
  have hint : ∀ i, Regular (fun _ => oneItem) unrun (.int i) := fun i => .of_atom hw rfl
  have hlazy := (regular_iff hw comesTo_oneLazy).mpr whole_oneItem.refl
  have hvector := (regular_iff hw comesTo_oneVector).mpr whole_oneItem.refl
  have hm : AllRegular (fun _ => oneItem) unrun [(.lazy ⟨0⟩, .int 1)] := by
    simp [AllRegular, hlazy, hint]
  have ho : AllRegular (fun _ => oneItem) unrun [(.vector #[.int 1], .int 2)] := by
    simp [AllRegular, hvector, hint]
  obtain ⟨-, hs, -, -, -⟩ := exists_built hw hm (List.pairwise_singleton ..)
  obtain ⟨h, -, hh, -, halike⟩ := exists_built hw ho (List.pairwise_singleton ..)
  obtain ⟨⟨r, hr⟩, -⟩ := maps_merge reached_unrun (.ofPairs hm hs) (.hashed ho hh)
  refine ⟨_, _, r, hs, hh, hr, ?_⟩
  obtain ⟨a, b, ha, -, hfind⟩ := hr.find? _ _ comesTo_oneLazy
  have hsame : (World.keying (fun _ => oneItem) unrun).same (.vector #[.int 1]) (.lazy ⟨0⟩) = true :=
    (compares_keying hw hvector hlazy).mp
      ((compares_iff hw comesTo_oneVector comesTo_oneLazy).mpr whole_oneItem.refl)
  have hfound := halike.right.find?_settles hw ⟨_, comesTo_oneLazy⟩
  rw [← halike.alike, Map.toList, List.toList_toArray, Keying.get?_cons, if_pos hsame] at hfound
  rw [ha.unique hfound] at hfind
  exact hfind

end LispCore
