import LispCore.Proofs.Value.Lookup
/-!
Equality of finite values. Comparing two values compares the data that they come to, along whichever
path (`sameAt_gives`), so an answer lasts: it is given in every world that follows (`Compares`).
Sequential values are equal when they drain alike (`drainAlike_iff`) and maps when their entries are
found alike (`foundAlike_iff`); on finite values equality is symmetric and transitive, and reflexive
where nothing has failed (`equality_of_finite_values`).
-/

namespace LispCore

variable {inside : Nat → Datum} {w w' : World} {n k depth : Nat} {ds es : List Datum} {f g : Bool}
  {a b v : Value} {d e : Datum} {same : Value → Value → Act Bool}

/-! ### Forms -/

/-- The forms of values: those that hold no others, those with elements, maps, and markers. -/
inductive Form where
  | atom
  | items
  | table
  | marker
deriving DecidableEq

def Value.form : Value → Form
  | list _ | vector _ | view _ | seq _ | lazy _ => .items
  | map _ => .table
  | reduced .. => .marker
  | _ => .atom

def Datum.form : Datum → Form
  | atom _ => .atom
  | items .. => .items
  | table _ => .table
  | marker .. => .marker

theorem Datum.same_unlike (h : d.form ≠ e.form) : d.same e = false := by
  rw [Bool.eq_false_iff]
  intro hs
  cases same_iff.mp hs <;> exact h rfl

/-- A value has the form of what it comes to. -/
theorem Means.form (h : Means inside w k (.value v) d) : v.form = d.form := by
  cases h with
  | atom ha => cases v <;> cases ha <;> rfl
  | marker | map => rfl
  | sequential _ hv => cases v <;> cases hv <;> rfl

/-! ### Maps -/

/-- Each entry is looked up in a map, and the values are compared. -/
theorem allFound_gives {m : Map Value Value} {ys : List (Datum × Datum)}
    (hs : Decides inside same n k) (hn : 2 ≤ n) (hk : k < n) (hl : m.Laid ys)
    (hp : Datum.Proper inside (.table ys)) : ∀ {xs : List (Value × Value)}
    {es : List (Datum × Datum)} {w : World}, Orderly w → Means.Entries inside w k m.toList ys →
    Means.Entries inside w k xs es → Gives (Value.allFound same m xs) n w fun b _ =>
      b = es.all fun e => (Datum.found? ys e.1).any (·.same e.2)
  | [], _, _, _, _, .nil => .pure rfl
  | x :: xs, _, w, hw, hm, .cons (b := e) ⟨hk', hv⟩ hxs => by
    refine (findWith?_gives hs hw hn hk hl hm hp hk').bind fun o w₁ hev ho => ?_
    subst ho
    have hw₁ := hev.orderly hw
    have hfound := located?_means e.1 (hev.entries hw hm)
    cases hlo : located? m.toList ys e.1 with
    | none =>
      rw [hlo] at hfound
      exact .pure (by simp [show Datum.found? ys e.1 = none from hfound])
    | some v =>
      rw [hlo] at hfound
      obtain ⟨d, hd, hmv⟩ := hfound
      refine (hs w₁ v x.2 d e.2 hw₁ hmv (hev.means hw hv)).bind fun b w₂ hev' hb => ?_
      subst hb
      cases hde : d.same e.2 with
      | false => exact .pure (by simp [hd, hde])
      | true =>
        have hev₂ := hev.trans hev'
        refine (allFound_gives hs hn hk hl hp (hev'.orderly hw₁) (hev₂.entries hw hm)
          (hev₂.entries hw hxs)).mono fun b _ _ hb => ?_
        rw [hb]
        simp [hd, hde]

/-- Maps are compared as their tables, whatever their representations. -/
theorem sameMaps_gives {m m' : Map Value Value} {xs ys : List (Datum × Datum)}
    (hs : Decides inside same n k) (hw : Orderly w) (hn : 2 ≤ n) (hk : k < n) (hl : m.Laid xs)
    (hl' : m'.Laid ys) (hm : Means.Entries inside w k m.toList xs)
    (hm' : Means.Entries inside w k m'.toList ys) (hp : Datum.Proper inside (.table xs))
    (hp' : Datum.Proper inside (.table ys)) :
    Gives (Value.sameMaps same m m') n w fun b _ => b = (Datum.table xs).same (.table ys) := by
  unfold Value.sameMaps
  rw [Means.count_of_laid hl hm, Means.count_of_laid hl' hm']
  by_cases hlen : xs.length = ys.length
  · rw [if_pos hlen]
    refine (allFound_gives hs hn hk hl' hp' hw hm' hm).mono fun b _ _ hb => ?_
    rw [hb, hp.all_found? hp']
    simp [Datum.same, hlen]
  · rw [if_neg hlen]
    exact .pure (by simp [Datum.same, hlen])

/-! ### Values -/

theorem sameAt_atoms {x y : Atom} (n depth : Nat) (w : World) (ha : a.atom? = some x)
    (hb : b.atom? = some y) : Value.sameAt (depth + 1) a b n w = .ok (x == y) w := by
  cases a <;> cases ha <;> cases b <;> cases hb <;> first | rfl | simp [Value.sameAt]

/-- Values of different forms are not equal. -/
theorem sameAt_unlike (n depth : Nat) (w : World) (h : a.form ≠ b.form) :
    Value.sameAt (depth + 1) a b n w = .ok false w := by
  cases a <;> cases b <;> first | exact absurd rfl h | rfl

theorem sameAt_sequential (depth : Nat) (ha : a.isSequential = true) (hb : b.isSequential = true)
    (hv : ∀ xs ys, ¬(a = .vector xs ∧ b = .vector ys)) :
    Value.sameAt (depth + 1) a b = Value.sameItems (Value.sameAt depth) a b := by
  cases a <;> cases ha <;> cases b <;> cases hb <;>
    first | exact absurd ⟨rfl, rfl⟩ (hv _ _) | rfl

/-- Vectors are compared without a walk, with the same answer. -/
theorem sameVectors_gives {xs ys : Array Value} (hs : Decides inside same n k) (hw : Orderly w)
    (h : Means inside w k (.rest (.vector xs)) (.items ds f))
    (h' : Means inside w k (.rest (.vector ys)) (.items es g)) :
    Gives (if xs.size = ys.size then Value.sameLists same xs.toList ys.toList else pure false) n w
      fun b _ => b = (Datum.items ds f).same (.items es g) := by
  obtain ⟨rfl, hxs⟩ := h.vector
  obtain ⟨rfl, hys⟩ := h'.vector
  by_cases hsize : xs.size = ys.size
  · rw [if_pos hsize]
    refine (sameLists_gives hs hw hxs hys).mono fun b _ _ hb => ?_
    rw [hb]
    simp [Datum.same]
  · rw [if_neg hsize]
    have hshaped : ∀ zs : Array Value, (Value.vector zs).Shaped := fun _ => trivial
    exact .pure (Means.same_of_counts rfl rfl (hshaped xs) (hshaped ys) rfl rfl h h' hsize).symm

/-- Comparing finite values compares what they come to. -/
theorem sameAt_gives (hn : 2 ≤ n) : ∀ {depth k : Nat}, k < depth → k < n →
    Decides inside (Value.sameAt depth) n k
  | 0, _, hk, _ => absurd hk (Nat.not_lt_zero _)
  | depth + 1, k, hk, hkn => by
    intro w a b d e hw h h'
    have hpd : d.Proper inside := h.proper
    have hpe : e.Proper inside := h'.proper
    have hdec : ∀ i, i < k → Decides inside (Value.sameAt depth) n i :=
      fun i hi => sameAt_gives hn (by omega) (by omega)
    by_cases hform : d.form = e.form
    · cases h with
      | atom ha =>
        cases h' with
        | atom hb => exact ⟨_, w, sameAt_atoms n depth w ha hb, .refl w, by rw [Datum.same]⟩
        | _ => cases hform
      | @marker i _ s x d hi _ hx =>
        cases h' with
        | @marker j _ t y e hj _ hy =>
          show Gives (if s = t then pure true else Value.sameAt depth x y) n w _
          by_cases hst : s = t
          · rw [if_pos hst]
            exact .pure (by simp [Datum.same, hst])
          · rw [if_neg hst]
            have hij : max i j < k := Nat.max_lt.mpr ⟨hi, hj⟩
            refine (hdec _ hij w x y d e hw (hx.mono (Nat.le_max_left i j))
              (hy.mono (Nat.le_max_right i j))).mono fun b _ _ hb => ?_
            rw [hb]
            simp [Datum.same, hst]
        | _ => cases hform
      | @map i _ m xs hi _ hl hm =>
        cases h' with
        | @map j _ m' ys hj _ hl' hm' =>
          have hij : max i j < k := Nat.max_lt.mpr ⟨hi, hj⟩
          exact sameMaps_gives (hdec _ hij) hw hn (by omega) hl hl'
            (hm.entries.mono (Nat.le_max_left i j)) (hm'.entries.mono (Nat.le_max_right i j)) hpd hpe
        | _ => cases hform
      | @sequential i _ a ds f hi ha hsa hx =>
        cases h' with
        | @sequential j _ b es g hj hb hsb hy =>
          have hij : max i j < k := Nat.max_lt.mpr ⟨hi, hj⟩
          have hx := hx.mono (Nat.le_max_left i j)
          have hy := hy.mono (Nat.le_max_right i j)
          by_cases hv : ∃ xs ys, a = .vector xs ∧ b = .vector ys
          · obtain ⟨xs, ys, rfl, rfl⟩ := hv
            exact sameVectors_gives (hdec _ hij) hw hx hy
          · rw [sameAt_sequential depth ha hb fun xs ys h => hv ⟨xs, ys, h⟩]
            exact sameItems_gives (hdec _ hij) hw hn (by omega) ha hb hsa hsb hx hy
        | _ => cases hform
    · refine ⟨false, w, sameAt_unlike n depth w ?_, .refl w, (Datum.same_unlike hform).symm⟩
      rw [h.form, h'.form]
      exact hform

/-! ### Answers that last -/

/-- Comparing the two values gives this answer from here on: in every world that follows, with
enough budget. -/
def Compares (w : World) (x y : Value) (r : Bool) : Prop :=
  ∃ N, ∀ n ≥ N, ∀ w', Evolves w w' → Gives (Value.same x y) n w' fun b _ => b = r

/-- Looking a key up gives this value from here on. -/
def Finds (w : World) (m : Map Value Value) (key v : Value) : Prop :=
  ∃ N, ∀ n ≥ N, ∀ w', Evolves w w' → Gives (m.find? key) n w' fun o _ => o = some v

/-- From here on, both values are drained without an error, to as many elements, which are equal one
by one. -/
def DrainAlike (w : World) (x y : Value) : Prop :=
  ∃ N, ∀ n ≥ N, ∀ w', Evolves w w' → Gives x.toArray n w' fun xs w₁ =>
    Gives y.toArray n w₁ fun ys w₂ => xs.size = ys.size ∧
      ∀ i (hi : i < xs.size) (hi' : i < ys.size), Compares w₂ xs[i] ys[i] true

/-- The maps have as many entries, and every key of the one is found in the other with an equal
value. -/
def FoundAlike (w : World) (m m' : Map Value Value) : Prop :=
  m.count = m'.count ∧ ∀ e ∈ m.toList, ∃ v, Finds w m' e.1 v ∧ Compares w v e.2 true

theorem same_decides (hn : 2 ≤ n) (hk : k < n) : Decides inside Value.same n k :=
  fun w x y d e hw hx hy => sameAt_gives hn hk hk w x y d e hw hx hy

theorem Compares.unique {r r' : Bool} (h : Compares w a b r) (h' : Compares w a b r') : r = r' := by
  obtain ⟨N, h⟩ := h
  obtain ⟨N', h'⟩ := h'
  obtain ⟨x, w₁, hx, -, rfl⟩ := h (max N N') (Nat.le_max_left ..) w (.refl w)
  obtain ⟨y, w₂, hy, -, rfl⟩ := h' (max N N') (Nat.le_max_right ..) w (.refl w)
  rw [hx] at hy
  cases hy
  rfl

/-- Finite values compare as what they come to. -/
theorem compares_iff {r : Bool} (hw : Orderly w) (ha : ComesTo inside w a d)
    (hb : ComesTo inside w b e) : Compares w a b r ↔ d.same e = r := by
  obtain ⟨i, ha⟩ := ha
  obtain ⟨j, hb⟩ := hb
  have hcompares : Compares w a b (d.same e) := by
    refine ⟨max i j + 2, fun n hn w' hev => ?_⟩
    have ha := (hev.means hw ha).mono (Nat.le_max_left i j)
    have hb := (hev.means hw hb).mono (Nat.le_max_right i j)
    exact same_decides (by omega) (by omega) w' a b d e (hev.orderly hw) ha hb
  exact ⟨hcompares.unique, fun h => h ▸ hcompares⟩

theorem Means.of_sequential (ha : a.isSequential = true) (h : Means inside w k (.value a) d) :
    ∃ ds f, d = .items ds f ∧ Means inside w k (.rest a) (.items ds f) := by
  cases h with
  | atom hatom => cases a <;> cases ha <;> cases hatom
  | sequential hi _ _ h => exact ⟨_, _, rfl, h.mono (Nat.le_of_lt hi)⟩
  | marker | map => cases ha

/-- A value that was drained without an error did not fail. -/
theorem Collected.ok {xs : Array Value} (h : Collected inside k w #[] ds f (.ok xs)) :
    f = false ∧ List.Forall₂ (fun x d => Means inside w k (.value x) d) xs.toList ds := by
  rcases h with ⟨-, e, he⟩ | ⟨hf, ys, hys, hall⟩
  · cases he
  · cases hys
    simpa using ⟨hf, hall⟩

theorem Collected.keeps {r : Except Fault (Array Value)} (h : Collected inside k w #[] ds f r)
    (hev : Evolves w w') (hw : Orderly w) : Collected inside k w' #[] ds f r := by
  rcases h with h | ⟨hf, ys, hys, hall⟩
  · exact .inl h
  · exact .inr ⟨hf, ys, hys, hall.imp fun _ _ h => hev.means hw h⟩

/-- Two finite sequential values are drained one after the other. -/
theorem drain_gives (hw : Orderly w) (hn : 2 ≤ n) (hk : k < n)
    (h : Means inside w k (.rest a) (.items ds f)) (h' : Means inside w k (.rest b) (.items es g)) :
    ∃ r r' w₁ w₂, a.toArray n w = Act.ended r w₁ ∧ b.toArray n w₁ = Act.ended r' w₂ ∧
      Evolves w w₁ ∧ Evolves w₁ w₂ ∧ Collected inside k w₂ #[] ds f r ∧
      Collected inside k w₂ #[] es g r' := by
  obtain ⟨r, w₁, hr, hev, hc⟩ := toArray_gives hw hn hk h
  have hw₁ := hev.orderly hw
  obtain ⟨r', w₂, hr', hev', hc'⟩ := toArray_gives hw₁ hn hk (hev.means hw h')
  exact ⟨r, r', w₁, w₂, hr, hr', hev, hev', hc.keeps hev' hw₁, hc'⟩

/-- Elements that come to data compare as these. -/
theorem compares_all (hw : Orderly w) {xs ys : Array Value}
    (hxs : List.Forall₂ (fun x d => Means inside w k (.value x) d) xs.toList ds)
    (hys : List.Forall₂ (fun y e => Means inside w k (.value y) e) ys.toList es) :
    (xs.size = ys.size ∧ ∀ i (hi : i < xs.size) (hi' : i < ys.size), Compares w xs[i] ys[i] true) ↔
      Datum.sameAll ds es = true := by
  have hlx : xs.size = ds.length := Array.length_toList.symm.trans hxs.length_eq
  have hly : ys.size = es.length := Array.length_toList.symm.trans hys.length_eq
  have hcompares : ∀ i (hi : i < xs.size) (hi' : i < ys.size) (hd : i < ds.length)
      (he : i < es.length), Compares w xs[i] ys[i] true ↔ ds[i].same es[i] = true :=
    fun i hi hi' hd he => compares_iff hw ⟨k, (List.forall₂_iff_get.mp hxs).2 i hi hd⟩
      ⟨k, (List.forall₂_iff_get.mp hys).2 i hi' he⟩
  rw [Datum.sameAll_iff, List.forall₂_iff_get]
  refine and_congr (by rw [hlx, hly]) ⟨fun h i hd he => ?_, fun h i hi hi' => ?_⟩
  · have hi : i < xs.size := hlx.symm ▸ hd
    have hi' : i < ys.size := hly.symm ▸ he
    exact (hcompares i hi hi' hd he).mp (h i hi hi')
  · have hd : i < ds.length := hlx ▸ hi
    have he : i < es.length := hly ▸ hi'
    exact (hcompares i hi hi' hd he).mpr (h i hd he)

/-- Sequential values are equal when they drain alike. -/
theorem drainAlike_iff (hw : Orderly w) (ha : a.isSequential = true) (hb : b.isSequential = true)
    (hma : ComesTo inside w a d) (hmb : ComesTo inside w b e) :
    DrainAlike w a b ↔ d.same e = true := by
  obtain ⟨i, hma⟩ := hma
  obtain ⟨j, hmb⟩ := hmb
  obtain ⟨ds, f, rfl, hra⟩ := hma.of_sequential ha
  obtain ⟨es, g, rfl, hrb⟩ := hmb.of_sequential hb
  have hra := hra.mono (Nat.le_max_left i j)
  have hrb := hrb.mono (Nat.le_max_right i j)
  constructor
  · rintro ⟨N, h⟩
    obtain ⟨xs, w₁, hxs, -, ys, w₂, hys, -, hsame⟩ :=
      h (max N (max i j + 2)) (Nat.le_max_left ..) w (.refl w)
    obtain ⟨r, r', v₁, v₂, hr, hr', hev, hev', hc, hc'⟩ :=
      drain_gives (n := max N (max i j + 2)) (k := max i j) hw (by omega) (by omega) hra hrb
    obtain ⟨rfl, rfl⟩ := Act.ended_inj (hr.symm.trans hxs : _ = Act.ended (.ok xs) w₁)
    obtain ⟨rfl, rfl⟩ := Act.ended_inj (hr'.symm.trans hys : _ = Act.ended (.ok ys) w₂)
    obtain ⟨rfl, hxs⟩ := hc.ok
    obtain ⟨rfl, hys⟩ := hc'.ok
    have hall := (compares_all ((hev.trans hev').orderly hw) hxs hys).mp hsame
    simp [Datum.same, hall]
  · intro hsame
    refine ⟨max i j + 2, fun n hn w' hev => ?_⟩
    have hw' := hev.orderly hw
    obtain ⟨r, r', w₁, w₂, hr, hr', hev₁, hev₂, hc, hc'⟩ := drain_gives (n := n) (k := max i j) hw'
      (by omega) (by omega) (hev.means hw hra) (hev.means hw hrb)
    rw [Datum.same, Bool.and_eq_true, Bool.and_eq_true, Bool.not_eq_true', Bool.not_eq_true'] at hsame
    obtain ⟨⟨rfl, rfl⟩, hall⟩ := hsame
    rcases hc with ⟨hf, -⟩ | ⟨-, xs, rfl, hxs⟩
    · cases hf
    rcases hc' with ⟨hf, -⟩ | ⟨-, ys, rfl, hys⟩
    · cases hf
    refine ⟨_, w₁, hr, hev₁, _, w₂, hr', hev₂, ?_⟩
    rw [Array.empty_append, Array.empty_append]
    exact (compares_all ((hev₁.trans hev₂).orderly hw') hxs hys).mpr hall

/-- What is found at a key is what is located among the entries. -/
theorem finds_iff {m : Map Value Value} {es : List (Datum × Datum)} {key : Value} {dk : Datum}
    (hw : Orderly w) (hl : m.Laid es) (hm : Means.Entries inside w k m.toList es)
    (hp : Datum.Proper inside (.table es)) (hkey : Means inside w k (.value key) dk) :
    Finds w m key v ↔ located? m.toList es dk = some v := by
  have hgives : ∀ n ≥ k + 2, ∀ w', Evolves w w' →
      Gives (m.find? key) n w' fun o _ => o = located? m.toList es dk := by
    intro n hn w' hev
    exact findWith?_gives (same_decides (by omega) (by omega)) (hev.orderly hw) (by omega) (by omega)
      hl (hev.entries hw hm) hp (hev.means hw hkey)
  constructor
  · rintro ⟨N, h⟩
    obtain ⟨o, w₁, ho, -, rfl⟩ := h (max N (k + 2)) (Nat.le_max_left ..) w (.refl w)
    obtain ⟨o', w₂, ho', -, rfl⟩ := hgives (max N (k + 2)) (Nat.le_max_right ..) w (.refl w)
    rw [ho] at ho'
    injection ho' with ho'
    exact ho'.symm
  · intro h
    exact ⟨k + 2, fun n hn w' hev => (hgives n hn w' hev).mono fun o _ _ ho => ho.trans h⟩

/-- A key is found with an equal value when its datum is. -/
theorem finds_compares_iff {m : Map Value Value} {es : List (Datum × Datum)}
    {x : Value × Value} {e : Datum × Datum} (hw : Orderly w) (hl : m.Laid es)
    (hm : Means.Entries inside w k m.toList es) (hp : Datum.Proper inside (.table es))
    (hk : Means inside w k (.value x.1) e.1) (hv : Means inside w k (.value x.2) e.2) :
    (∃ v, Finds w m x.1 v ∧ Compares w v x.2 true) ↔
      (Datum.found? es e.1).any (·.same e.2) = true := by
  have hfound := located?_means e.1 hm
  cases hlo : located? m.toList es e.1 with
  | none =>
    rw [hlo] at hfound
    rw [show Datum.found? es e.1 = none from hfound]
    refine iff_of_false ?_ (by simp)
    rintro ⟨v, hv, -⟩
    rw [finds_iff hw hl hm hp hk, hlo] at hv
    cases hv
  | some u =>
    rw [hlo] at hfound
    obtain ⟨d, hd, hu⟩ := hfound
    rw [hd, Option.any_some, ← compares_iff hw ⟨k, hu⟩ ⟨k, hv⟩]
    constructor
    · rintro ⟨v, hv, hc⟩
      rw [finds_iff hw hl hm hp hk, hlo] at hv
      cases hv
      exact hc
    · exact fun hc => ⟨u, (finds_iff hw hl hm hp hk).mpr hlo, hc⟩

theorem forall_mem_iff {α β : Type} {R : α → β → Prop} {P : α → Prop} {Q : β → Prop} {xs : List α}
    {ys : List β} (h : List.Forall₂ R xs ys) (hpq : ∀ x y, R x y → (P x ↔ Q y)) :
    (∀ x ∈ xs, P x) ↔ ∀ y ∈ ys, Q y := by
  induction h with
  | nil => simp
  | cons hxy _ ih => rw [List.forall_mem_cons, List.forall_mem_cons, hpq _ _ hxy, ih]

/-- Maps are equal when their entries are found alike. -/
theorem foundAlike_iff {m m' : Map Value Value} (hw : Orderly w)
    (hm : ComesTo inside w (.map m) d) (hm' : ComesTo inside w (.map m') e) :
    FoundAlike w m m' ↔ d.same e = true := by
  obtain ⟨i, hm⟩ := hm
  obtain ⟨j, hm'⟩ := hm'
  obtain ⟨xs, rfl, hl, i', hi, hxs⟩ := hm.of_map
  obtain ⟨ys, rfl, hl', j', hj, hys⟩ := hm'.of_map
  have hp : (Datum.table xs).Proper inside := hm.proper
  have hp' : (Datum.table ys).Proper inside := hm'.proper
  have hys := hys.mono (Nat.le_max_right i' j')
  rw [Datum.same, Bool.and_eq_true, beq_iff_eq, ← hp.all_found? hp', List.all_eq_true]
  refine and_congr ?_ (forall_mem_iff hxs fun x e hx => ?_)
  · rw [Means.count_of_laid hl hxs, Means.count_of_laid hl' hys]
  · exact finds_compares_iff hw hl' hys hp' (hx.1.mono (Nat.le_max_left i' j'))
      (hx.2.mono (Nat.le_max_left i' j'))

/-- Equality of finite values is decided once and for all, is symmetric and transitive, and is
reflexive where nothing has failed. Sequential values are equal exactly when they drain alike and
maps exactly when their entries are found alike, whatever their representations. -/
theorem equality_of_finite_values {inside : Nat → Datum} {w : World} {a b c : Value} {da db dc : Datum}
    (hw : Reached w) (ha : ComesTo inside w a da) (hb : ComesTo inside w b db)
    (hc : ComesTo inside w c dc) :
    (∃ r, Compares w a b r ∧ Compares w b a r) ∧
    (Compares w a b true → Compares w b c true → Compares w a c true) ∧
    (da.Whole → Compares w a a true) ∧
    (a.isSequential = true → b.isSequential = true → (Compares w a b true ↔ DrainAlike w a b)) ∧
    ∀ m m', a = .map m → b = .map m' → (Compares w a b true ↔ FoundAlike w m m') := by
  have hw := hw.orderly
  have hpa : da.Proper inside := ha.elim fun _ h => h.proper
  have hpb : db.Proper inside := hb.elim fun _ h => h.proper
  have hpc : dc.Proper inside := hc.elim fun _ h => h.proper
  refine ⟨⟨da.same db, ?_, ?_⟩, fun hab hbc => ?_, fun hwhole => ?_, fun hsa hsb => ?_,
    fun m m' ham hbm => ?_⟩
  · exact (compares_iff hw ha hb).mpr rfl
  · exact (compares_iff hw hb ha).mpr (hpb.same_comm hpa)
  · rw [compares_iff hw ha hc]
    exact hpa.trans hpb hpc ((compares_iff hw ha hb).mp hab) ((compares_iff hw hb hc).mp hbc)
  · exact (compares_iff hw ha ha).mpr hwhole.refl
  · rw [compares_iff hw ha hb, drainAlike_iff hw hsa hsb ha hb]
  · subst ham hbm
    rw [compares_iff hw ha hb, foundAlike_iff hw ha hb]

/-- A world with a lazy sequence that would write a line and give one element. -/
def unrun : World := { lazies := #[⟨.ready (.log "run" (.cell (.int 1) (.give .nil))), none⟩] }

/-- What that sequence comes to. -/
def oneItem : Datum := .items [.atom (.int 1)] false

/-- A hashed map of one entry, whose key has this hash. -/
def hashedOne (hash : UInt64) (key val : Value) : HashMap Value Value :=
  ⟨.branch (Trie.only (Trie.slotAt hash 0)) [.leaf key val], 1⟩

theorem laid_hashedOne (key val : Value) (d e : Datum) :
    (Map.hashed (hashedOne d.hash key val)).Laid [(d, e)] := by
  refine ⟨rfl, fun _ => d.hash, ⟨by decide, ?_⟩, .cons rfl .nil⟩
  rw [Trie.slots_only (Trie.slotAt_lt ..)]
  refine ⟨trivial, fun x hx => ?_, trivial⟩
  rw [List.mem_singleton.mp hx]

/-- A map of one entry comes to a table of one entry. -/
theorem ComesTo.map_one {m : Map Value Value} (hd : ComesTo inside w a d) (he : ComesTo inside w b e)
    (hm : m.toList = [(a, b)]) (hl : m.Laid [(d, e)]) :
    ComesTo inside w (.map m) (.table [(d, e)]) := by
  obtain ⟨i, hd⟩ := hd
  obtain ⟨j, he⟩ := he
  refine ⟨max i j + 2, .map (Nat.lt_succ_self _) (List.pairwise_singleton ..) hl ?_⟩
  rw [hm]
  exact .entry (Nat.lt_succ_self _) (hd.mono (Nat.le_max_left i j)) (he.mono (Nat.le_max_right i j))
    .noEntries

/-- A vector, a list and a lazy sequence that has not run are equal when their elements are, also as
keys of maps of either representation. -/
theorem equality_of_finite_values_lazy :
    Compares unrun (.lazy ⟨0⟩) (.vector #[.int 1]) true ∧
      DrainAlike unrun (.vector #[.int 1]) (.lazy ⟨0⟩) ∧
      Compares unrun (.vector #[.int 1]) (.list (.cons 0 (.int 1) .nil)) true ∧
      FoundAlike unrun (.small #[(.vector #[.int 1], .nil)])
        (.hashed (hashedOne oneItem.hash (.lazy ⟨0⟩) .nil)) := by
  have hreached : Reached unrun :=
    ⟨{}, rfl, .make (n := 0) (l := ⟨0⟩) (p := .log "run" (.cell (.int 1) (.give .nil))) (.refl _) rfl⟩
  have hone : ∀ k, Means (fun _ => oneItem) unrun k (.value (.int 1)) (.atom (.int 1)) :=
    fun k => .atom rfl
  have hvector : ComesTo (fun _ => oneItem) unrun (.vector #[.int 1]) oneItem := by
    refine ⟨3, .sequential (Nat.lt_succ_self 2) rfl trivial (.direct (Nat.lt_succ_self 1) nofun ?_)⟩
    exact .step (s := .slice #[.int 1] 0 1) (Nat.lt_succ_self 0) nofun (hone 0) .done
  have hlist : ComesTo (fun _ => oneItem) unrun (.list (.cons 0 (.int 1) .nil)) oneItem := by
    refine ⟨3, .sequential (Nat.lt_succ_self 2) rfl trivial (.direct (Nat.lt_succ_self 1) nofun ?_)⟩
    exact .step (s := .list (.cons 0 (.int 1) .nil)) (Nat.lt_succ_self 0) nofun (hone 0) .done
  have hlazy : ComesTo (fun _ => oneItem) unrun (.lazy ⟨0⟩) oneItem := by
    refine ⟨7, .sequential (Nat.lt_succ_self 6) rfl trivial (.ready (Nat.lt_succ_self 5) rfl ?_)⟩
    refine .log (Nat.lt_succ_self 4) (.cell (Nat.lt_succ_self 3) (hone 2) ?_)
    exact .give (Nat.lt_succ_self 1) (.direct (Nat.lt_succ_self 0) nofun .done)
  have hnil : ComesTo (fun _ => oneItem) unrun .nil (.atom .nil) := ⟨0, .atom rfl⟩
  have hsmall := ComesTo.map_one (m := .small #[(.vector #[.int 1], .nil)]) hvector hnil rfl trivial
  have hhashed := hlazy.map_one hnil rfl (laid_hashedOne (.lazy ⟨0⟩) .nil oneItem (.atom .nil))
  have hwhole : oneItem.Whole := .items fun d hd => List.mem_singleton.mp hd ▸ .atom _
  obtain ⟨⟨r, hr, hr'⟩, htrans, -, hdrain, -⟩ :=
    equality_of_finite_values hreached hvector hlazy hlist
  obtain ⟨-, -, -, -, hfound⟩ := equality_of_finite_values hreached hsmall hhashed hnil
  have hvl := (compares_iff hreached.orderly hvector hlazy).mpr hwhole.refl
  have hlc := (compares_iff hreached.orderly hlazy hlist).mpr hwhole.refl
  have htable : (Datum.table [(oneItem, .atom .nil)]).Whole :=
    .table (fun e he => List.mem_singleton.mp he ▸ hwhole)
      fun e he => List.mem_singleton.mp he ▸ .atom _
  have hmaps := (compares_iff hreached.orderly hsmall hhashed).mpr htable.refl
  exact ⟨hr.unique hvl ▸ hr', (hdrain rfl rfl).mp hvl, htrans hvl hlc, (hfound _ _ rfl rfl).mp hmaps⟩

end LispCore
