import LispCore.Table
import Mathlib.Data.List.Nodup
import Mathlib.Tactic.SplitIfs
/-!
Updates of tables. No key is ever there twice (`Table.Distinct.put`), so filtering the entries filters
what each key has, and several insertions put the new values before the old ones.
-/

namespace LispCore.Table

variable {κ ν : Type} [DecidableEq κ] {t : Table κ ν} {k : κ} {v : ν}

/-- Puts a value at a key, or nothing. -/
def put (t : Table κ ν) (k : κ) : Option ν → Table κ ν
  | some v => t.insert k v
  | none => t.erase k

theorem find?_put (o : Option ν) (j : κ) : (t.put k o).find? j = if j = k then o else t.find? j := by
  cases o with
  | some v => exact find?_insert t k j v
  | none => exact find?_erase t k j

theorem insertEntry_of_find? : ∀ {es : List (κ × ν)}, (es.find? (·.1 = k)).map (·.2) = some v →
    insertEntry k v es = es
  | [], h => by simp at h
  | e :: es, h => by
    by_cases he : e.1 = k
    · obtain rfl : e.2 = v := by simpa [he] using h
      rw [insertEntry, if_pos he, ← he]
    · rw [insertEntry, if_neg he, insertEntry_of_find? (by simpa [he] using h)]

/-- Putting the value at a key that is there already changes nothing. -/
theorem insert_of_find? (h : t.find? k = some v) : t.insert k v = t := by
  rw [insert, insertEntry_of_find? h]

/-- A key that is not there is put at the end. -/
theorem insertEntry_of_find?_eq_none : ∀ {es : List (κ × ν)},
    (es.find? (·.1 = k)).map (·.2) = none → insertEntry k v es = es ++ [(k, v)]
  | [], _ => rfl
  | e :: es, h => by
    by_cases he : e.1 = k
    · simp [he] at h
    · rw [insertEntry, if_neg he, insertEntry_of_find?_eq_none (by simpa [he] using h)]
      rfl

/-- No key is there twice. -/
def Distinct (t : Table κ ν) : Prop := (t.entries.map (·.1)).Nodup

theorem keys_insertEntry : ∀ es : List (κ × ν), (insertEntry k v es).map (·.1) =
    if k ∈ es.map (·.1) then es.map (·.1) else es.map (·.1) ++ [k]
  | [] => rfl
  | e :: es => by
    have ih := keys_insertEntry es
    rw [insertEntry]
    by_cases he : e.1 = k
    · simp [he]
    · have hne : ¬k = e.1 := fun h => he h.symm
      simp only [if_neg he, List.map_cons, ih, List.mem_cons, hne, false_or]
      split <;> rfl

theorem Distinct.put (h : t.Distinct) (k : κ) (o : Option ν) : (t.put k o).Distinct := by
  cases o with
  | some v =>
    rw [Table.put, Distinct, insert, keys_insertEntry]
    split_ifs with hk
    · exact h
    · refine List.nodup_append.mpr ⟨h, by simp, fun a ha b hb hab => hk ?_⟩
      rw [← List.mem_singleton.mp hb, ← hab]
      exact ha
  | none => exact h.sublist (List.filter_sublist.map _)

/-- Puts several values at keys, one after the other. -/
def putAll (t : Table κ ν) (ms : List (κ × ν)) : Table κ ν :=
  ms.foldl (fun t m => t.insert m.1 m.2) t

theorem Distinct.putAll : ∀ (ms : List (κ × ν)) {t : Table κ ν}, t.Distinct → (t.putAll ms).Distinct
  | [], _, h => h
  | m :: ms, _, h => (h.put m.1 (some m.2)).putAll ms

/-- A key that is not among the others has nothing there. -/
theorem find?_eq_none_of_not_mem {es : List (κ × ν)} (h : k ∉ es.map (·.1)) :
    (⟨es⟩ : Table κ ν).find? k = none := by
  refine Option.map_eq_none_iff.mpr (List.find?_eq_none.mpr fun e he hk => h ?_)
  exact List.mem_map.mpr ⟨e, he, by simpa using hk⟩

/-- A key has a value just when it is among the keys. -/
theorem mem_keys_iff : k ∈ t.entries.map (·.1) ↔ ∃ v, t.find? k = some v := by
  refine ⟨fun hk => ?_, fun ⟨v, hv⟩ => List.mem_map.mpr ⟨(k, v), mem_of_find? hv, rfl⟩⟩
  rw [← Option.ne_none_iff_exists']
  intro hnone
  rw [find?, Option.map_eq_none_iff, List.find?_eq_none] at hnone
  obtain ⟨e, he, rfl⟩ := List.mem_map.mp hk
  exact hnone e he (decide_eq_true rfl)

/-- An entry is what its key has. -/
theorem Distinct.find?_of_mem (h : t.Distinct) (hm : (k, v) ∈ t.entries) : t.find? k = some v := by
  obtain ⟨u, hu⟩ := mem_keys_iff.mp (List.mem_map.mpr ⟨(k, v), hm, rfl⟩)
  obtain ⟨-, rfl⟩ := Prod.mk.inj (List.inj_on_of_nodup_map h (mem_of_find? hu) hm rfl)
  exact hu

theorem find?_cons (e : κ × ν) (es : List (κ × ν)) :
    (⟨e :: es⟩ : Table κ ν).find? k = if e.1 = k then some e.2 else (⟨es⟩ : Table κ ν).find? k := by
  by_cases he : e.1 = k <;> simp [find?, he]

/-- Filtering the entries filters what is at each key. -/
theorem find?_filter (p : κ × ν → Bool) : ∀ {es : List (κ × ν)}, (es.map (·.1)).Nodup →
    (⟨es.filter p⟩ : Table κ ν).find? k = ((⟨es⟩ : Table κ ν).find? k).filter fun v => p (k, v)
  | [], _ => rfl
  | e :: es, h => by
    obtain ⟨hnot, h⟩ := List.nodup_cons.mp h
    have ih := find?_filter p h
    rw [find?_cons]
    by_cases hp : p e = true
    · rw [List.filter_cons_of_pos hp, find?_cons]
      split_ifs with he
      · rw [← he]
        exact (if_pos hp).symm
      · exact ih
    · rw [List.filter_cons_of_neg hp, ih]
      split_ifs with he
      · rw [← he, find?_eq_none_of_not_mem hnot]
        exact (if_neg hp).symm
      · rfl

/-- After several insertions at different keys these have their new values, and others what they had. -/
theorem find?_putAll : ∀ {ms : List (κ × ν)} (t : Table κ ν), (ms.map (·.1)).Nodup →
    (t.putAll ms).find? k = ((⟨ms⟩ : Table κ ν).find? k).or (t.find? k)
  | [], _, _ => rfl
  | m :: ms, t, h => by
    obtain ⟨hnot, h⟩ := List.nodup_cons.mp h
    have ih := find?_putAll (t.insert m.1 m.2) h
    rw [find?_insert] at ih
    rw [find?_cons]
    refine ih.trans ?_
    by_cases hk : m.1 = k
    · subst hk
      rw [find?_eq_none_of_not_mem hnot, if_pos rfl, if_pos rfl]
      rfl
    · rw [if_neg hk, if_neg fun h => hk h.symm]

end LispCore.Table
