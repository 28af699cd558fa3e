/-!
Finite tables: association lists with at most one entry a key. `insert` replaces the entry of a
present key where it stands and otherwise adds one at the end; `erase` removes the entry.
-/

namespace LispCore

/-- A finite table from `κ` to `ν`. -/
structure Table (κ ν : Type) where
  entries : List (κ × ν) := []
deriving Inhabited

namespace Table

variable {κ ν : Type} [DecidableEq κ]

def empty : Table κ ν := {}

def find? (t : Table κ ν) (k : κ) : Option ν :=
  (t.entries.find? (·.1 = k)).map (·.2)

/-- Puts a value at a key in a list of entries. -/
def insertEntry (k : κ) (v : ν) : List (κ × ν) → List (κ × ν)
  | [] => [(k, v)]
  | e :: es => if e.1 = k then (k, v) :: es else e :: insertEntry k v es

def insert (t : Table κ ν) (k : κ) (v : ν) : Table κ ν := ⟨insertEntry k v t.entries⟩

def erase (t : Table κ ν) (k : κ) : Table κ ν := ⟨t.entries.filter (·.1 ≠ k)⟩

def size (t : Table κ ν) : Nat := t.entries.length

theorem find?_insertEntry (k j : κ) (v : ν) (es : List (κ × ν)) :
    ((insertEntry k v es).find? (·.1 = j)).map (·.2) =
      if j = k then some v else (es.find? (·.1 = j)).map (·.2) := by
  induction es with
  | nil => by_cases h : j = k <;> simp [insertEntry, h, eq_comm]
  | cons e es ih =>
    by_cases he : e.1 = k
    · by_cases h : j = k
      · simp [insertEntry, he, h]
      · have : ¬ k = j := fun h' => h h'.symm
        simp [insertEntry, he, h, this]
    · by_cases hj : e.1 = j
      · have : ¬ j = k := fun h' => he (hj.trans h')
        simp [insertEntry, hj, this]
      · simp [insertEntry, he, hj, ih]

/-- After an insertion the key has the new value and every other key what it had. -/
@[simp] theorem find?_insert (t : Table κ ν) (k j : κ) (v : ν) :
    (t.insert k v).find? j = if j = k then some v else t.find? j :=
  find?_insertEntry k j v t.entries

/-- After an erasure the key has nothing and every other key what it had. -/
@[simp] theorem find?_erase (t : Table κ ν) (k j : κ) :
    (t.erase k).find? j = if j = k then none else t.find? j := by
  unfold find? erase
  induction t.entries with
  | nil => simp
  | cons e es ih =>
    by_cases he : e.1 = k
    · by_cases h : j = k
      · simp [he, h]
      · have : ¬ k = j := fun h' => h h'.symm
        simpa [he, this] using ih
    · by_cases hj : e.1 = j
      · have : ¬ j = k := fun h' => he (hj.trans h')
        simp [hj, this]
      · simpa [he, hj] using ih

theorem mem_of_find? {t : Table κ ν} {k : κ} {v : ν} (h : t.find? k = some v) : (k, v) ∈ t.entries := by
  obtain ⟨e, he, rfl⟩ := Option.map_eq_some_iff.mp h
  have hk : e.1 = k := by simpa using List.find?_some he
  exact hk ▸ List.mem_of_find?_eq_some he

/-- An entry after an insertion is the one put in or was there before. -/
theorem mem_insertEntry {k : κ} {v : ν} {e : κ × ν} : ∀ {es : List (κ × ν)},
    e ∈ insertEntry k v es → e = (k, v) ∨ e ∈ es
  | [], h => .inl (List.mem_singleton.mp h)
  | d :: es, h => by
    rw [insertEntry] at h
    split at h
    · exact (List.mem_cons.mp h).imp_right (List.mem_cons_of_mem d)
    · rcases List.mem_cons.mp h with rfl | h
      · exact .inr List.mem_cons_self
      · exact (mem_insertEntry h).imp_right (List.mem_cons_of_mem d)

theorem mem_foldl_insert {e : κ × ν} : ∀ (pairs : List (κ × ν)) {t : Table κ ν},
    e ∈ (pairs.foldl (fun t p => t.insert p.1 p.2) t).entries → e ∈ pairs ∨ e ∈ t.entries
  | [], _, h => .inr h
  | p :: ps, t, h => by
    rcases mem_foldl_insert ps h with h | h
    · exact .inl (List.mem_cons_of_mem p h)
    · rcases mem_insertEntry h with rfl | h
      · exact .inl List.mem_cons_self
      · exact .inr h

@[simp] theorem find?_empty (j : κ) : (empty : Table κ ν).find? j = none := rfl

end Table

end LispCore
