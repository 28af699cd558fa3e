import LispCore.Proofs.Map.KeptKeys
/-!
A small map in slots. One array holds the entries of a small map, each key in an even slot and its value
in the slot behind it. A search then looks at every second slot, a new entry takes two slots at the end, a
removal joins what stands in front of two slots and behind them, iteration takes the slots by twos, and a
place moves on by two slots. Built from pairs and changed, the slots hold in every world what a map of
entries would, and they fail where it fails (`SlotMap.keeps_entries`). Iteration shows the same entries
(`SlotMap.toList_toSlots`), and a walk begins at the same one (`SlotMap.cursor?_toSlots`) and goes on from
there as a cursor does (`SlotPlace.OnEntry`).
-/

namespace LispCore

/-! ### Slots -/

section Spread

variable {α : Type}

def spread (es : List (α × α)) : List α := es.flatMap fun e => [e.1, e.2]

/-- Keys and values in turn, taken as entries again. -/
def paired : List α → List (α × α)
  | k :: v :: xs => (k, v) :: paired xs
  | _ => []

@[simp] theorem spread_nil : spread ([] : List (α × α)) = [] := rfl

@[simp] theorem spread_cons (e : α × α) (es : List (α × α)) :
    spread (e :: es) = e.1 :: e.2 :: spread es := rfl

@[simp] theorem spread_append (es fs : List (α × α)) : spread (es ++ fs) = spread es ++ spread fs :=
  List.flatMap_append

@[simp] theorem length_spread (es : List (α × α)) : (spread es).length = 2 * es.length := by
  induction es with
  | nil => rfl
  | cons e es ih =>
    rw [spread_cons, List.length_cons, List.length_cons, ih, List.length_cons]
    omega

@[simp] theorem paired_spread (es : List (α × α)) : paired (spread es) = es := by
  induction es with
  | nil => rfl
  | cons e es ih => rw [spread_cons, paired, ih]

theorem drop_spread (es : List (α × α)) (i : Nat) : (spread es).drop (2 * i) = spread (es.drop i) := by
  induction es generalizing i with
  | nil => simp
  | cons e es ih =>
    cases i with
    | zero => rfl
    | succ i => exact ih i

theorem take_spread (es : List (α × α)) (i : Nat) : (spread es).take (2 * i) = spread (es.take i) := by
  induction es generalizing i with
  | nil => simp
  | cons e es ih =>
    cases i with
    | zero => rfl
    | succ i => exact congrArg (e.1 :: e.2 :: ·) (ih i)

/-- A value that is put behind a key changes only that entry. -/
theorem set_spread (es : List (α × α)) (i : Nat) (val : α) :
    (spread es).set (2 * i + 1) val = spread (es.modify i fun e => (e.1, val)) := by
  induction es generalizing i with
  | nil => simp
  | cons e es ih =>
    cases i with
    | zero => rfl
    | succ i => exact congrArg (e.1 :: e.2 :: ·) (ih i)

/-- The slots in front of an entry and those behind it are the other entries. -/
theorem join_spread (es : List (α × α)) (i : Nat) :
    (spread es).take (2 * i) ++ (spread es).drop (2 * i + 2) = spread (es.eraseIdx i) := by
  rw [List.eraseIdx_eq_take_drop_succ, spread_append, ← take_spread, ← drop_spread]
  rfl

def inSlots (entries : Array (α × α)) : Array α := (spread entries.toList).toArray

variable (entries : Array (α × α)) (i : Nat)

theorem toList_inSlots : (inSlots entries).toList = spread entries.toList := rfl

@[simp] theorem size_inSlots : (inSlots entries).size = 2 * entries.size := by
  rw [← Array.length_toList, toList_inSlots, length_spread, Array.length_toList]

/-- From an even slot on there is the key of an entry, its value and the other entries. -/
theorem drop_inSlots {e : α × α} {es : List (α × α)} (h : entries.toList.drop i = e :: es) :
    (inSlots entries).toList.drop (2 * i) = e.1 :: e.2 :: spread es := by
  rw [toList_inSlots, drop_spread, h, spread_cons]

theorem getElem?_inSlots_key : (inSlots entries)[2 * i]? = entries[i]?.map (·.1) := by
  rw [← Array.getElem?_toList, ← Array.getElem?_toList, ← List.head?_drop, ← List.head?_drop,
    toList_inSlots, drop_spread]
  cases entries.toList.drop i <;> rfl

theorem getElem?_inSlots_val : (inSlots entries)[2 * i + 1]? = entries[i]?.map (·.2) := by
  rw [← Array.getElem?_toList, ← Array.getElem?_toList, ← List.getElem?_drop,
    ← List.head?_drop (l := entries.toList), toList_inSlots, drop_spread]
  cases entries.toList.drop i <;> rfl

theorem inSlots_push (e : α × α) : inSlots (entries.push e) = ((inSlots entries).push e.1).push e.2 := by
  simp [inSlots]

theorem inSlots_modify (val : α) : inSlots (entries.modify i fun e => (e.1, val)) =
    (inSlots entries).setIfInBounds (2 * i + 1) val := by
  rw [← Array.toList_inj, Array.toList_setIfInBounds, toList_inSlots, toList_inSlots, set_spread,
    Array.toList_modify]

theorem inSlots_eraseIdx : inSlots (entries.eraseIdxIfInBounds i) =
    (inSlots entries).extract 0 (2 * i) ++
      (inSlots entries).extract (2 * i + 2) (inSlots entries).size := by
  rw [← Array.toList_inj, Array.toList_append, Array.toList_extract, Array.toList_extract,
    toList_inSlots, toList_inSlots, Array.toList_eraseIdxIfInBounds, ← join_spread]
  simp [List.take_of_length_le]

end Spread

/-! ### Places -/

/-- A place in the slots of a small map, on a key. -/
structure SlotPlace where
  cells : Array Value
  index : Nat

namespace SlotPlace

/-- The place at a slot, if there is one. -/
def at? (cells : Array Value) (index : Nat) : Option SlotPlace :=
  if index < cells.size then some ⟨cells, index⟩ else none

/-- The key and the value in the slot behind it. -/
def entry? (p : SlotPlace) : Option (Value × Value) := do
  return (← p.cells[p.index]?, ← p.cells[p.index + 1]?)

/-- The place on the next key, if there is one. -/
def next? (p : SlotPlace) : Option SlotPlace := at? p.cells (p.index + 2)

def remaining (p : SlotPlace) : Nat := (p.cells.size - p.index) / 2

/-- The place is in the slots of the entries, on the key of the entry where the cursor is. -/
inductive OnEntry : SlotPlace → Cursor Value Value → Prop
  | intro (entries : Array (Value × Value)) (i : Nat) :
      OnEntry ⟨inSlots entries, 2 * i⟩ (.small entries i)

theorem at?_inSlots (entries : Array (Value × Value)) (i : Nat) :
    Option.Rel OnEntry (at? (inSlots entries) (2 * i)) (Cursor.smallAt entries i) := by
  have hsize : 2 * i < (inSlots entries).size ↔ i < entries.size := by
    rw [size_inSlots]
    omega
  rw [at?, Cursor.smallAt]
  by_cases hi : i < entries.size
  · rw [if_pos (hsize.mpr hi), if_pos hi]
    exact .some (.intro entries i)
  · rw [if_neg (mt hsize.mp hi), if_neg hi]
    exact .none

namespace OnEntry

variable {p : SlotPlace} {c : Cursor Value Value}

/-- A place shows the entry of the cursor. -/
theorem entry? (h : OnEntry p c) : p.entry? = c.entry? := by
  cases h with
  | intro entries i =>
    simp only [SlotPlace.entry?, Cursor.entry?, getElem?_inSlots_key, getElem?_inSlots_val]
    cases entries[i]? <;> rfl

/-- It moves on as the cursor does. -/
theorem next? (h : OnEntry p c) : Option.Rel OnEntry p.next? c.next? := by
  cases h with
  | intro entries i => exact at?_inSlots entries (i + 1)

/-- It has as many entries left. -/
theorem remaining (h : OnEntry p c) : p.remaining = c.remaining := by
  cases h with
  | intro entries i =>
    simp only [SlotPlace.remaining, Cursor.remaining, size_inSlots]
    omega

end OnEntry

end SlotPlace

/-! ### Maps -/

/-- A map whose small form is slots. -/
inductive SlotMap where
  | slots (cells : Array Value)
  | hashed (m : HashMap Value Value)

/-- The same map with its small form in slots. -/
def Map.toSlots : Map Value Value → SlotMap
  | small entries => .slots (inSlots entries)
  | hashed m => .hashed m

namespace SlotMap

/-- The most slots that a small map grows to. -/
def slotLimit : Nat := 16

def count : SlotMap → Nat
  | slots cells => cells.size / 2
  | hashed m => m.count

def toList : SlotMap → List (Value × Value)
  | slots cells => paired cells.toList
  | hashed m => m.toList

/-- Where a walk over the entries begins. -/
def cursor? : SlotMap → Option (SlotPlace ⊕ Cursor Value Value)
  | slots cells => (SlotPlace.at? cells 0).map .inl
  | hashed m => (Cursor.ofHashMap m).map .inr

/-- The first slot in steps of two with an equal key. -/
def indexFrom (same : Value → Value → Act Bool) (key : Value) (cells : Array Value) (i : Nat) :
    Act (Option Nat) :=
  if h : i < cells.size then do
    if ← same cells[i] key then return some i
    indexFrom same key cells (i + 2)
  else pure none
termination_by cells.size - i

/-- The value at a key, with a given test for equal keys. -/
def findWith? (same : Value → Value → Act Bool) (m : SlotMap) (key : Value) : Act (Option Value) :=
  match m with
  | slots cells => do
    match ← indexFrom same key cells 0 with
    | some i => return cells[i + 1]?
    | none => return none
  | hashed m => Map.findWith? same (.hashed m) key

/-- Adds entries whose keys must be new behind others. -/
def appendNew (cells : Array Value) : List (Value × Value) → Act (Array Value)
  | [] => pure cells
  | e :: es => do
    match ← indexFrom Value.same e.1 cells 0 with
    | some _ => Act.fail (.duplicateKey (← e.1.display))
    | none => appendNew ((cells.push e.1).push e.2) es

/-- A small map of the pairs, however many. -/
def ofPairs (pairs : List (Value × Value)) : Act SlotMap := do
  return slots (← appendNew #[] pairs)

def assoc (m : SlotMap) (key val : Value) : Act SlotMap :=
  match m with
  | slots cells => do
    match ← indexFrom Value.same key cells 0 with
    | some i => return slots (cells.setIfInBounds (i + 1) val)
    | none =>
      if slotLimit ≤ cells.size then
        let m ← HashMap.empty.putAll (slots cells).toList
        return hashed (← m.put key val).1
      else return slots ((cells.push key).push val)
  | hashed m => do return hashed (← m.put key val).1

/-- Removes a key; the last entry leaves the empty map. -/
def dissoc (m : SlotMap) (key : Value) : Act SlotMap :=
  match m with
  | slots cells => do
    match ← indexFrom Value.same key cells 0 with
    | some i =>
      if cells.size / 2 = 1 then return slots #[]
      else return slots (cells.extract 0 i ++ cells.extract (i + 2) cells.size)
    | none => return slots cells
  | hashed m => do return hashed (← m.remove key)

def change (m : SlotMap) : HashMap.Change Value Value → Act SlotMap
  | .assoc key val => m.assoc key val
  | .dissoc key => m.dissoc key

def changed : List (HashMap.Change Value Value) → SlotMap → Act SlotMap
  | [], m => pure m
  | c :: cs, m => do changed cs (← m.change c)

end SlotMap

/-! ### Agreement -/

variable {same : Value → Value → Act Bool} {key : Value}

/-- An entry that a search finds is among those that it looked at. -/
theorem Map.lt_of_indexFrom {n : Nat} {w' : World} :
    ∀ {es : List (Value × Value)} {i j : Nat} {w : World},
    Map.indexFrom same key i es n w = .ok (some j) w' → j < i + es.length
  | [], _, _, _, h => by cases h
  | e :: es, i, j, w, h => by
    obtain ⟨found, w₁, -, h⟩ := Act.ok_of_bind h
    rw [List.length_cons]
    cases found with
    | true =>
      cases h
      omega
    | false =>
      have := lt_of_indexFrom h
      omega

namespace SlotMap

section Search

variable (entries : Array (Value × Value))

/-- A search in steps of two makes the comparisons of a search among the entries, and ends on the key. -/
theorem indexFrom_inSlots : ∀ {es : List (Value × Value)} (i : Nat), entries.toList.drop i = es →
    indexFrom same key (inSlots entries) (2 * i) = (·.map (2 * ·)) <$> Map.indexFrom same key i es
  | [], i, h => by
    have hle : entries.size ≤ i := by simpa using h
    have hsize := size_inSlots entries
    rw [indexFrom, dif_neg (by omega)]
    rfl
  | e :: es, i, h => by
    have hdrop := drop_inSlots entries i h
    have hlt : 2 * i < (inSlots entries).size := by
      by_contra hge
      rw [List.drop_eq_nil_of_le (Nat.not_lt.mp hge)] at hdrop
      contradiction
    rw [List.drop_eq_getElem_cons hlt] at hdrop
    have hkey : (inSlots entries)[2 * i] = e.1 := (List.cons.inj hdrop).1
    have hrest : entries.toList.drop (i + 1) = es := by
      rw [← List.tail_drop, h, List.tail_cons]
    rw [indexFrom, dif_pos hlt, hkey, Map.indexFrom, map_bind]
    refine congrArg _ (funext fun found => ?_)
    cases found with
    | true => rfl
    | false => exact indexFrom_inSlots (i + 1) hrest

theorem index_inSlots : indexFrom same key (inSlots entries) 0 =
    (·.map (2 * ·)) <$> Map.indexFrom same key 0 entries.toList :=
  indexFrom_inSlots entries 0 rfl

end Search

theorem count_toSlots (m : Map Value Value) : m.toSlots.count = m.count := by
  cases m with
  | hashed m => rfl
  | small entries =>
    rw [Map.toSlots, count, Map.count, size_inSlots]
    omega

/-- Iterating over the slots is iterating over the entries. -/
theorem toList_toSlots (m : Map Value Value) : m.toSlots.toList = m.toList := by
  cases m with
  | small entries => exact paired_spread entries.toList
  | hashed m => rfl

/-- A walk over the slots begins on the key of the entry where one over the entries does. -/
theorem cursor?_toSlots (m : Map Value Value) :
    Option.Rel (Sum.elim SlotPlace.OnEntry Eq) m.toSlots.cursor? m.cursor? := by
  cases m with
  | small entries =>
    have hfirst := SlotPlace.at?_inSlots entries 0
    rw [Map.toSlots, cursor?, Map.cursor?]
    generalize SlotPlace.at? (inSlots entries) (2 * 0) = p, Cursor.smallAt entries 0 = c at hfirst ⊢
    cases hfirst with
    | some h => exact .some h
    | none => exact .none
  | hashed m =>
    rw [Map.toSlots, cursor?, Map.cursor?]
    cases Cursor.ofHashMap m with
    | some c => exact .some rfl
    | none => exact .none

/-- A lookup in slots is that in the entries. -/
theorem findWith?_toSlots (m : Map Value Value) (key : Value) :
    m.toSlots.findWith? same key = m.findWith? same key := by
  cases m with
  | hashed m => rfl
  | small entries =>
    rw [Map.toSlots, findWith?, Map.findWith?, index_inSlots, bind_map_left]
    refine congrArg _ (funext fun r => ?_)
    cases r with
    | none => rfl
    | some i =>
      exact congrArg (pure : Option Value → Act (Option Value)) (getElem?_inSlots_val entries i)

/-- Slots take new entries, or fail at a key that is there, as entries do. -/
theorem appendNew_inSlots : ∀ (pairs : List (Value × Value)) (entries : Array (Value × Value)),
    appendNew (inSlots entries) pairs = inSlots <$> Map.appendNew entries pairs
  | [], entries => rfl
  | e :: es, entries => by
    rw [appendNew, Map.appendNew, index_inSlots, bind_map_left, map_bind]
    refine congrArg _ (funext fun r => ?_)
    cases r with
    | some i =>
      rw [map_bind]
      rfl
    | none =>
      rw [← inSlots_push]
      exact appendNew_inSlots es (entries.push e)

theorem ofPairs_eq (pairs : List (Value × Value)) :
    ofPairs pairs = Map.toSlots <$> Map.smallOfPairs pairs := by
  have hnew := appendNew_inSlots pairs #[]
  rw [ofPairs, Map.smallOfPairs, map_bind]
  refine (congrArg (· >>= pure ∘ slots) hnew).trans ?_
  rw [bind_map_left]
  rfl

theorem assoc_toSlots (m : Map Value Value) (key val : Value) :
    m.toSlots.assoc key val = Map.toSlots <$> m.assoc key val := by
  cases m with
  | hashed m =>
    rw [Map.toSlots, assoc, Map.assoc, map_bind]
    rfl
  | small entries =>
    rw [Map.toSlots, assoc, Map.assoc, index_inSlots, bind_map_left, map_bind]
    refine congrArg _ (funext fun r => ?_)
    cases r with
    | some i =>
      exact congrArg (pure ∘ slots : Array Value → Act SlotMap) (inSlots_modify entries i val).symm
    | none =>
      have hlimit : slotLimit ≤ (inSlots entries).size ↔ Map.smallLimit ≤ entries.size := by
        rw [size_inSlots, slotLimit, Map.smallLimit]
        omega
      dsimp only [Option.map_none]
      by_cases hfull : Map.smallLimit ≤ entries.size
      · rw [if_pos (hlimit.mpr hfull), if_pos hfull, toList, toList_inSlots, paired_spread, map_bind]
        refine congrArg _ (funext fun m => ?_)
        rw [map_bind]
        rfl
      · rw [if_neg (mt hlimit.mp hfull), if_neg hfull, ← inSlots_push entries (key, val)]
        rfl

theorem dissoc_toSlots (m : Map Value Value) (key : Value) :
    m.toSlots.dissoc key = Map.toSlots <$> m.dissoc key := by
  cases m with
  | hashed m =>
    rw [Map.toSlots, dissoc, Map.dissoc, map_bind]
    rfl
  | small entries =>
    rw [Map.toSlots, dissoc, Map.dissoc, index_inSlots, bind_map_left, map_bind]
    refine funext fun n => funext fun w => Act.bind_congr_at fun r w' hr => ?_
    cases r with
    | none => rfl
    | some i =>
      have hi : i < entries.size := by simpa using Map.lt_of_indexFrom hr
      dsimp only [Option.map_some]
      by_cases hone : (inSlots entries).size / 2 = 1
      · -- the entry found is the only one
        have hnil : inSlots (entries.eraseIdxIfInBounds i) = #[] := by
          rw [size_inSlots] at hone
          rw [← Array.size_eq_zero_iff, size_inSlots, ← Array.length_toList,
            Array.toList_eraseIdxIfInBounds, List.length_eraseIdx_of_lt hi, Array.length_toList]
          omega
        rw [if_pos hone, ← hnil]
        rfl
      · rw [if_neg hone, ← inSlots_eraseIdx]
        rfl

/-- A change of the slots is the change of the entries. -/
theorem change_toSlots (m : Map Value Value) (c : HashMap.Change Value Value) :
    m.toSlots.change c = Map.toSlots <$> m.change c := by
  cases c with
  | assoc key val => exact assoc_toSlots m key val
  | dissoc key => exact dissoc_toSlots m key

theorem changed_toSlots : ∀ (cs : List (HashMap.Change Value Value)) (m : Map Value Value),
    changed cs m.toSlots = Map.toSlots <$> m.changed cs
  | [], _ => rfl
  | c :: cs, m => by
    rw [changed, Map.changed, change_toSlots, bind_map_left, map_bind]
    exact congrArg _ (funext (changed_toSlots cs))

/-- Built from pairs and changed, the slots hold in every world what a map of entries would, with the same
effects, and fail where it fails. -/
theorem keeps_entries (pairs : List (Value × Value)) (cs : List (HashMap.Change Value Value)) :
    ofPairs pairs >>= changed cs =
      Map.toSlots <$> (Map.smallOfPairs pairs >>= Map.changed cs) := by
  rw [ofPairs_eq, bind_map_left, map_bind]
  exact congrArg _ (funext (changed_toSlots cs))

end SlotMap

end LispCore
