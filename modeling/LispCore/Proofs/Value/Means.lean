import LispCore.Map.Find
import LispCore.Proofs.Lazy.Cells
import LispCore.Proofs.Trie.Layout
import LispCore.Proofs.Value.Datum
/-!
What a value comes to in a world. `Means` reads a value without running anything: a lazy sequence
that has been realized comes to what is kept for it, one that has not to what its producer would
give. The bound on the height of a reading goes down towards the parts, so only finite values come
to something, and none whose producers panic. What a value comes to is a proper datum
(`Means.proper`), and a length that is known beforehand is that of the elements (`Means.counted`).
-/

namespace LispCore

/-- The outcome with which a lazy sequence answers without running a producer, if it has one. -/
def World.told? (w : World) (l : Lazy) : Option Realized :=
  match w.lazyCell l with
  | ⟨_, some r⟩ => some r
  | ⟨.ready _, none⟩ => none
  | ⟨.running, none⟩ => some (.error .producerPanicked)
  | ⟨.delegated o, none⟩ => some ((w.lazyCell o).realized.getD (.error .producerPanicked))

/-- The atom that a value is, if it holds no other values. -/
def Value.atom? : Value → Option Atom
  | nil => some .nil
  | bool b => some (.bool b)
  | int n => some (.int n)
  | float bits => some (.float bits)
  | char c => some (.char c)
  | str s => some (.str s)
  | symbol s => some (.symbol s)
  | keyword k => some (.keyword k)
  | var v => some (.var v)
  | handle h => some (.handle h.id)
  | _ => none

/-- Views are not empty and lie within their backing. -/
def Value.Shaped : Value → Prop
  | view v => v.WellFormed
  | _ => True

/-- A hashed map counts its entries and has them where the hashes of their keys say. -/
def Map.Laid (m : Map Value Value) (es : List (Datum × Datum)) : Prop :=
  match m with
  | .small _ => True
  | .hashed m => m.count = m.toList.length ∧ ∃ hash : Value → UInt64, m.root.Routed hash 0 ∧
    List.Forall₂ (fun x e => hash x.1 = e.1.hash) m.toList es

/-- What can be read: a value, the elements of a value that is traversed, a sequence or error that a
realization ended with, what a producer would give, or the entries of a map. -/
inductive Subject where
  | value (v : Value)
  | rest (v : Value)
  | outcome (r : Realized)
  | producer (p : Producer)
  | entries (xs : List (Value × Value))

open Subject Datum in
/-- What a subject comes to, read in less than so many steps. Markers of one stamp are one marker,
around what `inside` says. -/
inductive Means (inside : Nat → Datum) (w : World) : Nat → Subject → Datum → Prop
  | atom {k : Nat} {v : Value} {a : Atom} (ha : v.atom? = some a) :
      Means inside w k (value v) (.atom a)
  | marker {i k s : Nat} {v : Value} {d : Datum} (hi : i < k) (hs : inside s = d)
      (h : Means inside w i (value v) d) : Means inside w k (value (.reduced s v)) (.marker s d)
  | sequential {i k : Nat} {v : Value} {ds : List Datum} {f : Bool} (hi : i < k)
      (hv : v.isSequential = true) (hs : v.Shaped) (h : Means inside w i (rest v) (.items ds f)) :
      Means inside w k (value v) (.items ds f)
  | map {i k : Nat} {m : Map Value Value} {es : List (Datum × Datum)} (hi : i < k)
      (hd : es.Pairwise fun x y => ¬x.1.same y.1 = true) (hl : m.Laid es)
      (h : Means inside w i (entries m.toList) (.table es)) :
      Means inside w k (value (.map m)) (.table es)
  | noEntries {k : Nat} : Means inside w k (entries []) (.table [])
  | entry {i k : Nat} {x : Value × Value} {xs : List (Value × Value)} {key val : Datum}
      {es : List (Datum × Datum)} (hi : i < k) (hk : Means inside w i (value x.1) key)
      (hv : Means inside w i (value x.2) val) (h : Means inside w i (entries xs) (.table es)) :
      Means inside w k (entries (x :: xs)) (.table ((key, val) :: es))
  | direct {i k : Nat} {v : Value} {ds : List Datum} {f : Bool} (hi : i < k)
      (hv : ∀ l, v ≠ .lazy l) (h : Means inside w i (outcome v.directSeq) (.items ds f)) :
      Means inside w k (rest v) (.items ds f)
  | told {i k : Nat} {l : Lazy} {r : Realized} {ds : List Datum} {f : Bool} (hi : i < k)
      (hl : l.id < w.lazies.size) (hr : w.told? l = some r)
      (h : Means inside w i (outcome r) (.items ds f)) :
      Means inside w k (rest (.lazy l)) (.items ds f)
  | ready {i k : Nat} {l : Lazy} {p : Producer} {ds : List Datum} {f : Bool} (hi : i < k)
      (hl : w.lazyCell l = ⟨.ready p, none⟩) (h : Means inside w i (producer p) (.items ds f)) :
      Means inside w k (rest (.lazy l)) (.items ds f)
  | failed {k : Nat} {e : Error} : Means inside w k (outcome (.error e)) (.items [] true)
  | done {k : Nat} : Means inside w k (outcome (.ok none)) (.items [] false)
  | cons {i k : Nat} {x v : Value} {d : Datum} {ds : List Datum} {f : Bool} (hi : i < k)
      (hx : Means inside w i (value x) d) (h : Means inside w i (rest v) (.items ds f)) :
      Means inside w k (outcome (.ok (some (.cons x v)))) (.items (d :: ds) f)
  | step {i k : Nat} {s : Seq} {d : Datum} {ds : List Datum} {f : Bool} (hi : i < k)
      (hs : ∀ x v, s ≠ .cons x v) (hx : Means inside w i (value s.first) d)
      (h : Means inside w i (outcome (.ok s.step?)) (.items ds f)) :
      Means inside w k (outcome (.ok (some s))) (.items (d :: ds) f)
  | give {i k : Nat} {v : Value} {ds : List Datum} {f : Bool} (hi : i < k)
      (h : Means inside w i (rest v) (.items ds f)) :
      Means inside w k (producer (.give v)) (.items ds f)
  | fail {k : Nat} {e : Error} : Means inside w k (producer (.fail e)) (.items [] true)
  | log {i k : Nat} {line : String} {p : Producer} {ds : List Datum} {f : Bool} (hi : i < k)
      (h : Means inside w i (producer p) (.items ds f)) :
      Means inside w k (producer (.log line p)) (.items ds f)
  | defer {i k : Nat} {p : Producer} {ds : List Datum} {f : Bool} (hi : i < k)
      (h : Means inside w i (producer p) (.items ds f)) :
      Means inside w k (producer (.defer p)) (.items ds f)
  /-- The rest gets a number first, so it is read one step later. -/
  | cell {i k : Nat} {x : Value} {p : Producer} {d : Datum} {ds : List Datum} {f : Bool}
      (hi : i + 1 < k) (hx : Means inside w i (value x) d)
      (h : Means inside w i (producer p) (.items ds f)) :
      Means inside w k (producer (.cell x p)) (.items (d :: ds) f)

/-- The value is finite and nothing in it panics: it comes to a datum. -/
def ComesTo (inside : Nat → Datum) (w : World) (v : Value) (d : Datum) : Prop :=
  ∃ k, Means inside w k (.value v) d

namespace Means

variable {inside : Nat → Datum} {w : World} {i k : Nat} {s : Subject} {d : Datum}

/-- Readings within a bound are readings within any larger one. -/
theorem mono (h : Means inside w i s d) (hik : i ≤ k) : Means inside w k s d := by
  cases h with
  | atom ha => exact .atom ha
  | marker hi hs h => exact .marker (Nat.lt_of_lt_of_le hi hik) hs h
  | sequential hi hv hs h => exact .sequential (Nat.lt_of_lt_of_le hi hik) hv hs h
  | map hi hd hl h => exact .map (Nat.lt_of_lt_of_le hi hik) hd hl h
  | noEntries => exact .noEntries
  | entry hi hk hv h => exact .entry (Nat.lt_of_lt_of_le hi hik) hk hv h
  | direct hi hv h => exact .direct (Nat.lt_of_lt_of_le hi hik) hv h
  | told hi hl hr h => exact .told (Nat.lt_of_lt_of_le hi hik) hl hr h
  | ready hi hl h => exact .ready (Nat.lt_of_lt_of_le hi hik) hl h
  | failed => exact .failed
  | done => exact .done
  | cons hi hx h => exact .cons (Nat.lt_of_lt_of_le hi hik) hx h
  | step hi hs hx h => exact .step (Nat.lt_of_lt_of_le hi hik) hs hx h
  | give hi h => exact .give (Nat.lt_of_lt_of_le hi hik) h
  | fail => exact .fail
  | log hi h => exact .log (Nat.lt_of_lt_of_le hi hik) h
  | defer hi h => exact .defer (Nat.lt_of_lt_of_le hi hik) h
  | cell hi hx h => exact .cell (Nat.lt_of_lt_of_le hi hik) hx h

/-- What a subject comes to is proper. -/
theorem proper (h : Means inside w k s d) :
    match s with
    | .entries _ => ∀ es, d = .table es → ∀ e ∈ es, e.1.Proper inside ∧ e.2.Proper inside
    | _ => d.Proper inside := by
  induction h with
  | atom => exact .atom _
  | marker _ hs _ ih => exact .marker hs ih
  | map _ hd _ _ ih =>
    exact .table (fun e he => (ih _ rfl e he).1) (fun e he => (ih _ rfl e he).2) hd
  | noEntries =>
    rintro es hes e he
    cases hes
    cases he
  | entry _ _ _ _ ihk ihv ih =>
    rintro es hes e he
    cases hes
    rcases List.mem_cons.mp he with rfl | he
    · exact ⟨ihk, ihv⟩
    · exact ih _ rfl e he
  | failed | done | fail => exact .items fun _ h => nomatch h
  | cons _ _ _ ihx ih | step _ _ _ _ ihx ih | cell _ _ _ ihx ih =>
    refine .items fun d hd => ?_
    rcases List.mem_cons.mp hd with rfl | hd
    · exact ihx
    · exact ih.of_mem hd
  | sequential _ _ _ _ ih | direct _ _ _ ih | told _ _ _ _ ih | ready _ _ _ ih | give _ _ ih
  | log _ _ ih | defer _ _ ih => exact ih

/-! ### Lengths known beforehand -/

variable {ds : List Datum} {f : Bool}

/-- A list comes to what its elements come to. -/
theorem list : ∀ {l : Linked Value} {ds : List Datum} {k : Nat},
    Means inside w k (.outcome (.ok (Seq.ofLinked l))) (.items ds f) →
      f = false ∧ List.Forall₂ (fun x d => Means inside w k (.value x) d) l.toList ds
  | .nil, _, _, h => by
    cases h with
    | done => exact ⟨rfl, .nil⟩
  | .cons n x l, _, _, h => by
    cases h with
    | step hi _ hx h =>
      obtain ⟨hf, hall⟩ := list h
      exact ⟨hf, .cons (hx.mono (Nat.le_of_lt hi)) (hall.imp fun _ _ h => h.mono (Nat.le_of_lt hi))⟩

/-- A range of an array comes to what the elements in it come to. -/
theorem slice {items : Array Value} {stop : Nat} (hstop : stop ≤ items.size) :
    ∀ {n index : Nat} {ds : List Datum} {k : Nat}, index + n = stop →
      Means inside w k (.outcome (.ok (Seq.ofSlice items index stop))) (.items ds f) →
        f = false ∧ List.Forall₂ (fun x d => Means inside w k (.value x) d)
          ((items.toList.take stop).drop index) ds
  | 0, index, _, _, hn, h => by
    have hle : (items.toList.take stop).length ≤ index := by
      rw [List.length_take]
      omega
    rw [Seq.ofSlice, if_neg (by omega)] at h
    rw [List.drop_of_length_le hle]
    cases h with
    | done => exact ⟨rfl, .nil⟩
  | n + 1, index, _, _, hn, h => by
    have hlt : index < items.size := by omega
    have hlt' : index < (items.toList.take stop).length := by
      rw [List.length_take, Array.length_toList]
      omega
    rw [Seq.ofSlice, if_pos (by omega)] at h
    rw [List.drop_eq_getElem_cons hlt', List.getElem_take, Array.getElem_toList]
    cases h with
    | step hi _ hx h =>
      have hfirst : (Seq.slice items index stop).first = items[index] := by
        rw [Seq.first, Array.getElem?_eq_getElem hlt, Option.getD_some]
      have hnext : index + 1 + n = stop := by omega
      obtain ⟨hf, hall⟩ := slice hstop hnext h
      rw [hfirst] at hx
      exact ⟨hf, .cons (hx.mono (Nat.le_of_lt hi)) (hall.imp fun _ _ h => h.mono (Nat.le_of_lt hi))⟩

/-- A vector comes to what its elements come to. -/
theorem vector {items : Array Value} (h : Means inside w k (.rest (.vector items)) (.items ds f)) :
    f = false ∧ List.Forall₂ (fun x d => Means inside w k (.value x) d) items.toList ds := by
  cases h with
  | direct hi _ h =>
    obtain ⟨hf, hall⟩ := slice (Nat.le_refl _) (Nat.zero_add _) h
    rw [← Array.length_toList, List.take_length, List.drop_zero] at hall
    exact ⟨hf, hall.imp fun _ _ h => h.mono (Nat.le_of_lt hi)⟩

/-- A sequential value whose length is known beforehand comes to as many elements. -/
theorem counted {v : Value} {n : Nat} (hv : v.isSequential = true) (hs : v.Shaped)
    (hn : v.knownCount? = some n) (h : Means inside w k (.rest v) (.items ds f)) :
    f = false ∧ ds.length = n := by
  cases v with
  | list l =>
    cases hn
    cases h with
    | direct _ _ h =>
      obtain ⟨hf, hall⟩ := list h
      exact ⟨hf, by rw [Linked.count_eq, hall.length_eq]⟩
  | vector items =>
    cases hn
    obtain ⟨hf, hall⟩ := h.vector
    exact ⟨hf, by rw [← hall.length_eq, Array.length_toList]⟩
  | view v =>
    cases hn
    cases h with
    | direct _ _ h =>
      obtain ⟨hf, hall⟩ := slice hs.2 (Nat.add_sub_of_le (Nat.le_of_lt hs.1)) h
      exact ⟨hf, hall.length_eq.symm.trans (View.length_toList hs)⟩
  | seq | lazy => cases hn
  | _ => cases hv

/-! ### Entries -/

/-- Entries come to these, key by key and value by value. -/
abbrev Entries (inside : Nat → Datum) (w : World) (k : Nat) (xs : List (Value × Value))
    (es : List (Datum × Datum)) : Prop :=
  List.Forall₂ (fun x e => Means inside w k (.value x.1) e.1 ∧ Means inside w k (.value x.2) e.2)
    xs es

theorem Entries.mono {xs : List (Value × Value)} {es : List (Datum × Datum)}
    (h : Entries inside w i xs es) (hik : i ≤ k) : Entries inside w k xs es :=
  h.imp fun _ _ h => ⟨h.1.mono hik, h.2.mono hik⟩

theorem entries : ∀ {k : Nat} {xs : List (Value × Value)} {es : List (Datum × Datum)},
    Means inside w k (.entries xs) (.table es) → Entries inside w k xs es
  | _, [], _, h => by
    cases h with
    | noEntries => exact .nil
  | _, x :: xs, _, h => by
    cases h with
    | entry hi hk hv h =>
      have hi := Nat.le_of_lt hi
      exact .cons ⟨hk.mono hi, hv.mono hi⟩ (Entries.mono (entries h) hi)

/-- A map comes to a table of what its entries come to. -/
theorem of_map {m : Map Value Value} (h : Means inside w k (.value (.map m)) d) :
    ∃ es, d = .table es ∧ m.Laid es ∧ ∃ i < k, Entries inside w i m.toList es := by
  cases h with
  | atom ha => cases ha
  | sequential _ hv => cases hv
  | map hi hd hl h => exact ⟨_, rfl, hl, _, hi, h.entries⟩

/-- A map counts the entries that it comes to. -/
theorem count_of_laid {m : Map Value Value} {es : List (Datum × Datum)} (hl : m.Laid es)
    (h : Entries inside w k m.toList es) : m.count = es.length := by
  rw [← h.length_eq]
  cases m with
  | small entries => rfl
  | hashed m => exact hl.1

end Means

end LispCore
