import LispCore.Value.Hash
import Mathlib.Data.List.Forall2
/-!
What values come to. A datum is what is left of a value when every sequence in it has been drained:
an atom, the elements of a sequential value with a mark when it failed, the entries of a map, or an
early-stop marker. `Datum.same` and `Datum.feed` are equality and hashing without any realization.
Equality of proper data is symmetric and transitive (`Datum.Proper.symm`, `Datum.Proper.trans`),
reflexive on what has not failed outside markers (`Datum.Proper.same_self_iff`), and equal data feed the
same tokens (`Datum.Proper.feed_eq`).
-/

namespace LispCore

/-- A value that holds no other values. -/
inductive Atom where
  | nil
  | bool (b : Bool)
  | int (n : Int64)
  | float (bits : UInt64)
  | char (c : Char)
  | str (s : String)
  | symbol (s : Symbol)
  | keyword (k : Keyword)
  | var (v : Var)
  /-- Handles are known by number. -/
  | handle (id : Nat)
deriving DecidableEq

def Atom.feed : Atom → Array Token
  | nil => #[.kind 0]
  | bool b => #[.kind 1, .bool b]
  | int n => #[.kind 2, .word n.toUInt64]
  | float bits => #[.kind 3, .word bits]
  | char c => #[.kind 4, .char c]
  | str s => #[.kind 5, .text s]
  | symbol s => #[.kind 6, .word s.serial.toUInt64]
  | keyword k => #[.kind 7, .word k.serial.toUInt64]
  | var v => #[.kind 14, .word v.id.toUInt64]
  | handle id => #[.kind 16, .word id.toUInt64]

/-- What a value comes to. -/
inductive Datum where
  | atom (a : Atom)
  /-- The elements of a sequential value, and whether it failed after them. -/
  | items (ds : List Datum) (failed : Bool)
  | table (es : List (Datum × Datum))
  | marker (stamp : Nat) (d : Datum)

namespace Datum

mutual

/-- Equality. Failed sequences are equal to nothing, and one marker is equal to itself whatever is
inside. -/
def same : Datum → Datum → Bool
  | atom a, atom b => a == b
  | items ds f, items es g => !f && !g && sameAll ds es
  | table xs, table ys => xs.length == ys.length && sameEach xs ys
  | marker s a, marker t b => s == t || a.same b
  | _, _ => false

def sameAll : List Datum → List Datum → Bool
  | [], [] => true
  | d :: ds, e :: es => d.same e && sameAll ds es
  | _, _ => false

/-- Whether each of the first entries is equal to one of the others. -/
def sameEach : List (Datum × Datum) → List (Datum × Datum) → Bool
  | [], _ => true
  | x :: xs, ys => ys.any (sameEntry x) && sameEach xs ys

/-- Whether two entries have equal keys and equal values. -/
def sameEntry : Datum × Datum → Datum × Datum → Bool
  | (k, v), y => k.same y.1 && v.same y.2

end

mutual

/-- The tokens that a datum feeds, with the digest of entries given. -/
def feed (digest : Array Token → UInt64) : Datum → Array Token
  | atom a => a.feed
  | items ds _ => #[.sequential] ++ feedAll digest ds
  | table es => #[.kind 11, .word (sumOf digest es), .word es.length.toUInt64]
  | marker _ d => #[.kind 15] ++ d.feed digest

/-- The tokens of data one after the other. -/
def feedAll (digest : Array Token → UInt64) : List Datum → Array Token
  | [] => #[]
  | d :: ds => d.feed digest ++ feedAll digest ds

/-- The sum of the digests of entries. -/
def sumOf (digest : Array Token → UInt64) : List (Datum × Datum) → UInt64
  | [] => 0
  | e :: es => digestOf digest e + sumOf digest es

def digestOf (digest : Array Token → UInt64) : Datum × Datum → UInt64
  | (k, v) => digest (k.feed digest ++ v.feed digest)

end

def hash (d : Datum) : UInt64 := Token.digest (d.feed Token.digest)

/-- A datum of a well-made value: no two keys of a table are equal, and markers of one stamp are one
marker, around what `inside` says. -/
inductive Proper (inside : Nat → Datum) : Datum → Prop
  | atom (a : Atom) : Proper inside (.atom a)
  | items {ds : List Datum} {f : Bool} (h : ∀ d ∈ ds, Proper inside d) :
      Proper inside (.items ds f)
  | table {es : List (Datum × Datum)} (hk : ∀ e ∈ es, Proper inside e.1)
      (hv : ∀ e ∈ es, Proper inside e.2) (hd : es.Pairwise fun x y => ¬x.1.same y.1 = true) :
      Proper inside (.table es)
  | marker {s : Nat} {d : Datum} (hs : inside s = d) (h : Proper inside d) :
      Proper inside (.marker s d)

/-- Nothing in the datum has failed. -/
inductive Whole : Datum → Prop
  | atom (a : Atom) : Whole (.atom a)
  | items {ds : List Datum} (h : ∀ d ∈ ds, Whole d) : Whole (.items ds false)
  | table {es : List (Datum × Datum)} (hk : ∀ e ∈ es, Whole e.1) (hv : ∀ e ∈ es, Whole e.2) :
      Whole (.table es)
  | marker {s : Nat} {d : Datum} (h : Whole d) : Whole (.marker s d)

/-- Nothing in the datum has failed, except perhaps inside a marker. -/
inductive Steady : Datum → Prop
  | atom (a : Atom) : Steady (.atom a)
  | items {ds : List Datum} (h : ∀ d ∈ ds, Steady d) : Steady (.items ds false)
  | table {es : List (Datum × Datum)} (hk : ∀ e ∈ es, Steady e.1) (hv : ∀ e ∈ es, Steady e.2) :
      Steady (.table es)
  | marker (s : Nat) (d : Datum) : Steady (.marker s d)

/-- What has not failed at all has not failed outside markers. -/
theorem Whole.steady {d : Datum} (h : d.Whole) : d.Steady := by
  induction h with
  | atom a => exact .atom a
  | items _ ih => exact .items ih
  | table _ _ ihk ihv => exact .table ihk ihv
  | marker => exact .marker _ _

/-! ### Sizes -/

theorem sizeOf_mem {ds : List Datum} {d : Datum} {f : Bool} (h : d ∈ ds) :
    sizeOf d < sizeOf (items ds f) := by
  have := List.sizeOf_lt_of_mem h
  simp only [items.sizeOf_spec]
  omega

theorem sizeOf_entry {es : List (Datum × Datum)} {e : Datum × Datum} (h : e ∈ es) :
    sizeOf e.1 < sizeOf (table es) ∧ sizeOf e.2 < sizeOf (table es) := by
  have := List.sizeOf_lt_of_mem h
  obtain ⟨k, v⟩ := e
  simp only [table.sizeOf_spec, Prod.mk.sizeOf_spec] at this ⊢
  omega

/-! ### Equality -/

theorem sameAll_iff : ∀ {ds es : List Datum},
    sameAll ds es = true ↔ List.Forall₂ (fun d e => d.same e = true) ds es
  | [], [] => by simp [sameAll]
  | [], _ :: _ => by simp [sameAll]
  | _ :: _, [] => by simp [sameAll]
  | d :: ds, e :: es => by simp [sameAll, sameAll_iff]

theorem sameEach_iff : ∀ {xs ys : List (Datum × Datum)},
    sameEach xs ys = true ↔ ∀ x ∈ xs, ∃ y ∈ ys, x.1.same y.1 = true ∧ x.2.same y.2 = true
  | [], _ => by simp [sameEach]
  | (k, v) :: xs, ys => by simp [sameEach, sameEach_iff, sameEntry]

/-- The ways in which two data are equal. -/
inductive Equal : Datum → Datum → Prop
  | atom (a : Atom) : Equal (.atom a) (.atom a)
  | items {ds es : List Datum} (h : List.Forall₂ (fun d e => d.same e = true) ds es) :
      Equal (.items ds false) (.items es false)
  | table {xs ys : List (Datum × Datum)} (hlen : xs.length = ys.length)
      (h : ∀ x ∈ xs, ∃ y ∈ ys, x.1.same y.1 = true ∧ x.2.same y.2 = true) :
      Equal (.table xs) (.table ys)
  | marker {s t : Nat} {d e : Datum} (h : s = t ∨ d.same e = true) :
      Equal (.marker s d) (.marker t e)

theorem same_iff {a b : Datum} : a.same b = true ↔ Equal a b := by
  constructor
  · intro h
    cases a <;> cases b <;> simp only [same, Bool.false_eq_true, Bool.and_eq_true, Bool.or_eq_true,
      Bool.not_eq_true', beq_iff_eq, sameAll_iff, sameEach_iff] at h
    · rw [h]
      exact .atom _
    · obtain ⟨⟨rfl, rfl⟩, h⟩ := h
      exact .items h
    · exact .table h.1 h.2
    · exact .marker h
  · intro h
    cases h with
    | atom a => rw [same, beq_iff_eq]
    | items h =>
      rw [same, sameAll_iff.mpr h]
      rfl
    | table hlen h => rw [same, Bool.and_eq_true, beq_iff_eq, sameEach_iff]; exact ⟨hlen, h⟩
    | marker h => rw [same, Bool.or_eq_true, beq_iff_eq]; exact h

/-- When each of some things is related to one of others, and no two of them to the same one, they are
related one by one to some of the others. -/
theorem exists_perm_of_unique {α β : Type} {R : α → β → Prop} : ∀ {xs : List α} {ys : List β},
    (∀ x ∈ xs, ∃ y ∈ ys, R x y) → xs.Pairwise (fun x x' => ∀ y ∈ ys, R x y → ¬R x' y) →
    ∃ zs rest, (zs ++ rest).Perm ys ∧ List.Forall₂ R xs zs
  | [], ys, _, _ => ⟨[], ys, .refl _, .nil⟩
  | x :: xs, ys, h, hu => by
    obtain ⟨hx, hxs⟩ := List.pairwise_cons.mp hu
    obtain ⟨y, hy, hxy⟩ := h x (List.mem_cons_self ..)
    obtain ⟨front, back, rfl⟩ := List.append_of_mem hy
    have hperm : (front ++ y :: back).Perm (y :: (front ++ back)) := List.perm_middle
    have hothers : ∀ x' ∈ xs, ∃ z ∈ front ++ back, R x' z := by
      intro x' hx'
      obtain ⟨z, hz, hxz⟩ := h x' (List.mem_cons_of_mem _ hx')
      rcases List.mem_cons.mp (hperm.mem_iff.mp hz) with rfl | hz
      · exact absurd hxz (hx x' hx' z hy hxy)
      · exact ⟨z, hz, hxz⟩
    have hunique : xs.Pairwise fun x x' => ∀ z ∈ front ++ back, R x z → ¬R x' z :=
      hxs.imp fun hp z hz => hp z (hperm.mem_iff.mpr (List.mem_cons_of_mem _ hz))
    obtain ⟨zs, rest, hzs, hall⟩ := exists_perm_of_unique hothers hunique
    exact ⟨y :: zs, rest, (hzs.cons y).trans hperm.symm, .cons hxy hall⟩

section Small

/-! Symmetry and transitivity of the equality of tables need each other for the keys, so both are
proved for data below a size at a time. -/

variable {P : Datum → Prop} (hsymm : ∀ a b, P a → P b → a.same b = true → b.same a = true)
  (htrans : ∀ a b c, P a → P b → P c → a.same b = true → b.same c = true → a.same c = true)
include hsymm htrans

/-- Tables with equal entries have them in some order one by one. -/
theorem exists_perm_of_same {xs ys : List (Datum × Datum)} (hx : ∀ x ∈ xs, P x.1)
    (hy : ∀ y ∈ ys, P y.1) (hd : xs.Pairwise fun x x' => ¬x.1.same x'.1 = true)
    (hlen : xs.length = ys.length)
    (hall : ∀ x ∈ xs, ∃ y ∈ ys, x.1.same y.1 = true ∧ x.2.same y.2 = true) :
    ∃ zs, zs.Perm ys ∧
      List.Forall₂ (fun x z => x.1.same z.1 = true ∧ x.2.same z.2 = true) xs zs := by
  have hunique : xs.Pairwise fun x x' => ∀ y ∈ ys,
      (x.1.same y.1 = true ∧ x.2.same y.2 = true) →
        ¬(x'.1.same y.1 = true ∧ x'.2.same y.2 = true) := by
    refine hd.imp_of_mem fun {x x'} hmx hmx' hne y hmy hxy hxy' => hne ?_
    have hback := hsymm x'.1 y.1 (hx x' hmx') (hy y hmy) hxy'.1
    exact htrans x.1 y.1 x'.1 (hx x hmx) (hy y hmy) (hx x' hmx') hxy.1 hback
  obtain ⟨zs, rest, hperm, hzs⟩ := exists_perm_of_unique hall hunique
  have hrest : rest = [] := by
    have hlen' := hperm.length_eq
    rw [List.length_append, ← hzs.length_eq, hlen] at hlen'
    exact List.length_eq_zero_iff.mp (by omega)
  rw [hrest, List.append_nil] at hperm
  exact ⟨zs, hperm, hzs⟩

theorem symm_table {xs ys : List (Datum × Datum)} (hx : ∀ x ∈ xs, P x.1 ∧ P x.2)
    (hy : ∀ y ∈ ys, P y.1 ∧ P y.2) (hd : xs.Pairwise fun x x' => ¬x.1.same x'.1 = true)
    (hlen : xs.length = ys.length)
    (hall : ∀ x ∈ xs, ∃ y ∈ ys, x.1.same y.1 = true ∧ x.2.same y.2 = true) :
    ∀ y ∈ ys, ∃ x ∈ xs, y.1.same x.1 = true ∧ y.2.same x.2 = true := by
  obtain ⟨zs, hperm, hzs⟩ := exists_perm_of_same hsymm htrans (fun x hm => (hx x hm).1)
    (fun y hm => (hy y hm).1) hd hlen hall
  intro y hmy
  obtain ⟨i, hi, rfl⟩ := List.mem_iff_getElem.mp (hperm.mem_iff.mpr hmy)
  have hi' : i < xs.length := hzs.length_eq ▸ hi
  obtain ⟨hk, hv⟩ := (List.forall₂_iff_get.mp hzs).2 i hi' hi
  have hmx : xs[i] ∈ xs := List.getElem_mem hi'
  have hmz : zs[i] ∈ ys := hperm.mem_iff.mp (List.getElem_mem hi)
  exact ⟨xs[i], hmx, hsymm _ _ (hx _ hmx).1 (hy _ hmz).1 hk, hsymm _ _ (hx _ hmx).2 (hy _ hmz).2 hv⟩

end Small

theorem symm_all {ds es : List Datum}
    (h : ∀ d ∈ ds, ∀ e ∈ es, d.same e = true → e.same d = true)
    (hs : List.Forall₂ (fun d e => d.same e = true) ds es) :
    List.Forall₂ (fun e d => e.same d = true) es ds := by
  refine List.forall₂_iff_get.mpr ⟨hs.length_eq.symm, fun i hi hi' => ?_⟩
  exact h _ (List.getElem_mem hi') _ (List.getElem_mem hi) ((List.forall₂_iff_get.mp hs).2 i hi' hi)

theorem trans_all {ds es fs : List Datum}
    (h : ∀ d ∈ ds, ∀ e ∈ es, ∀ f ∈ fs, d.same e = true → e.same f = true → d.same f = true)
    (hs : List.Forall₂ (fun d e => d.same e = true) ds es)
    (hs' : List.Forall₂ (fun d e => d.same e = true) es fs) :
    List.Forall₂ (fun d e => d.same e = true) ds fs := by
  refine List.forall₂_iff_get.mpr ⟨hs.length_eq.trans hs'.length_eq, fun i hi hi' => ?_⟩
  have hj : i < es.length := hs.length_eq ▸ hi
  exact h _ (List.getElem_mem hi) _ (List.getElem_mem hj) _ (List.getElem_mem hi')
    ((List.forall₂_iff_get.mp hs).2 i hi hj) ((List.forall₂_iff_get.mp hs').2 i hj hi')

variable {inside : Nat → Datum} {a b c : Datum}

theorem Proper.of_mem {ds : List Datum} {f : Bool} {d : Datum} (h : Proper inside (.items ds f))
    (hd : d ∈ ds) : Proper inside d := by
  cases h with
  | items h => exact h d hd

theorem Proper.of_entry {es : List (Datum × Datum)} {e : Datum × Datum}
    (h : Proper inside (.table es)) (he : e ∈ es) : Proper inside e.1 ∧ Proper inside e.2 := by
  cases h with
  | table hk hv => exact ⟨hk e he, hv e he⟩

theorem Proper.distinct {es : List (Datum × Datum)} (h : Proper inside (.table es)) :
    es.Pairwise fun x y => ¬x.1.same y.1 = true := by
  cases h with
  | table _ _ hd => exact hd

/-- A proper datum below a size. -/
def Small (inside : Nat → Datum) (n : Nat) (d : Datum) : Prop := Proper inside d ∧ sizeOf d < n

theorem Small.of_mem {n : Nat} {ds : List Datum} {f : Bool} {d : Datum}
    (h : Small inside (n + 1) (.items ds f)) (hd : d ∈ ds) : Small inside n d :=
  ⟨h.1.of_mem hd, Nat.lt_of_lt_of_le (sizeOf_mem hd) (Nat.le_of_lt_succ h.2)⟩

theorem Small.of_entry {n : Nat} {es : List (Datum × Datum)} {e : Datum × Datum}
    (h : Small inside (n + 1) (.table es)) (he : e ∈ es) : Small inside n e.1 ∧ Small inside n e.2 :=
  have hs := sizeOf_entry he
  have hp := h.1.of_entry he
  ⟨⟨hp.1, Nat.lt_of_lt_of_le hs.1 (Nat.le_of_lt_succ h.2)⟩,
    hp.2, Nat.lt_of_lt_of_le hs.2 (Nat.le_of_lt_succ h.2)⟩

theorem Small.of_marker {n s : Nat} {d : Datum} (h : Small inside (n + 1) (.marker s d)) :
    Small inside n d := by
  obtain ⟨hp, hlt⟩ := h
  rw [marker.sizeOf_spec] at hlt
  cases hp with
  | marker _ hp => exact ⟨hp, by omega⟩

theorem Proper.inside_eq {s : Nat} {d e : Datum} (h : Proper inside (.marker s d))
    (h' : Proper inside (.marker s e)) : d = e := by
  cases h with
  | marker hs =>
    cases h' with
    | marker hs' => exact hs.symm.trans hs'

/-- Below a size, equality is symmetric and transitive. -/
theorem symm_trans : ∀ n : Nat,
    (∀ a b, Small inside n a → Small inside n b → a.same b = true → b.same a = true) ∧
    ∀ a b c, Small inside n a → Small inside n b → Small inside n c →
      a.same b = true → b.same c = true → a.same c = true
  | 0 => ⟨fun _ _ h => absurd h.2 (Nat.not_lt_zero _), fun _ _ _ h => absurd h.2 (Nat.not_lt_zero _)⟩
  | n + 1 => by
    obtain ⟨hsymm, htrans⟩ := symm_trans n
    refine ⟨fun a b ha hb hab => ?_, fun a b c ha hb hc hab hbc => ?_⟩
    · cases same_iff.mp hab with
      | atom => exact hab
      | items h =>
        exact same_iff.mpr (.items (symm_all (fun d hd e he =>
          hsymm d e (ha.of_mem hd) (hb.of_mem he)) h))
      | table hlen h =>
        exact same_iff.mpr (.table hlen.symm (symm_table hsymm htrans (fun _ hm => ha.of_entry hm)
          (fun _ hm => hb.of_entry hm) ha.1.distinct hlen h))
      | marker h =>
        rcases h with rfl | h
        · exact same_iff.mpr (.marker (.inl rfl))
        · exact same_iff.mpr (.marker (.inr (hsymm _ _ ha.of_marker hb.of_marker h)))
    · cases same_iff.mp hab with
      | atom => exact hbc
      | items h =>
        cases same_iff.mp hbc with
        | items h' =>
          exact same_iff.mpr (.items (trans_all (fun d hd e he f hf =>
            htrans d e f (ha.of_mem hd) (hb.of_mem he) (hc.of_mem hf)) h h'))
      | table hlen h =>
        cases same_iff.mp hbc with
        | table hlen' h' =>
          refine same_iff.mpr (.table (hlen.trans hlen') fun x hmx => ?_)
          obtain ⟨y, hmy, hk, hv⟩ := h x hmx
          obtain ⟨z, hmz, hk', hv'⟩ := h' y hmy
          obtain ⟨hxk, hxv⟩ := ha.of_entry hmx
          obtain ⟨hyk, hyv⟩ := hb.of_entry hmy
          obtain ⟨hzk, hzv⟩ := hc.of_entry hmz
          exact ⟨z, hmz, htrans _ _ _ hxk hyk hzk hk hk', htrans _ _ _ hxv hyv hzv hv hv'⟩
      | marker h =>
        cases same_iff.mp hbc with
        | marker h' =>
          -- markers of one stamp have the same inside
          refine same_iff.mpr (.marker ?_)
          rcases h with rfl | h
          · rcases h' with rfl | h'
            · exact .inl rfl
            · rw [ha.1.inside_eq hb.1]
              exact .inr h'
          · rcases h' with rfl | h'
            · rw [← hb.1.inside_eq hc.1]
              exact .inr h
            · exact .inr (htrans _ _ _ ha.of_marker hb.of_marker hc.of_marker h h')

theorem Proper.symm (ha : Proper inside a) (hb : Proper inside b) (h : a.same b = true) :
    b.same a = true :=
  (symm_trans (sizeOf a + sizeOf b + 1)).1 a b ⟨ha, by omega⟩ ⟨hb, by omega⟩ h

theorem Proper.trans (ha : Proper inside a) (hb : Proper inside b) (hc : Proper inside c)
    (h : a.same b = true) (h' : b.same c = true) : a.same c = true :=
  (symm_trans (sizeOf a + sizeOf b + sizeOf c + 1)).2 a b c ⟨ha, by omega⟩ ⟨hb, by omega⟩
    ⟨hc, by omega⟩ h h'

theorem Proper.same_comm (ha : Proper inside a) (hb : Proper inside b) : a.same b = b.same a :=
  Bool.eq_iff_iff.mpr ⟨ha.symm hb, hb.symm ha⟩

theorem Steady.refl (h : Steady a) : a.same a = true := by
  induction h with
  | atom a => exact same_iff.mpr (.atom a)
  | items _ ih => exact same_iff.mpr (.items (List.forall₂_same.mpr ih))
  | table _ _ ihk ihv => exact same_iff.mpr (.table rfl fun x hm => ⟨x, hm, ihk x hm, ihv x hm⟩)
  | marker => exact same_iff.mpr (.marker (.inl rfl))

/-- What has not failed is equal to itself. -/
theorem Whole.refl (h : Whole a) : a.same a = true := h.steady.refl

/-- What is equal to something is equal to itself. -/
theorem Proper.same_self (ha : Proper inside a) (hb : Proper inside b) (h : a.same b = true) :
    a.same a = true :=
  ha.trans hb ha h (ha.symm hb h)

/-- Equality is reflexive just where nothing has failed outside markers. -/
theorem Proper.same_self_iff (ha : Proper inside a) : a.same a = true ↔ a.Steady := by
  refine ⟨fun h => ?_, Steady.refl⟩
  induction ha with
  | atom a => exact .atom a
  | @items ds f hds ih =>
    cases same_iff.mp h with
    | items hall => exact .items fun d hd => ih d hd (List.forall₂_same.mp hall d hd)
  | @table es hk hv _ ihk ihv =>
    -- an entry is equal to some entry, so its parts are equal to themselves
    cases same_iff.mp h with
    | table _ hall =>
      refine .table (fun x hx => ?_) fun x hx => ?_
      · obtain ⟨y, hy, hxy, -⟩ := hall x hx
        exact ihk x hx ((hk x hx).same_self (hk y hy) hxy)
      · obtain ⟨y, hy, -, hxy⟩ := hall x hx
        exact ihv x hx ((hv x hx).same_self (hv y hy) hxy)
  | marker => exact .marker _ _

/-! ### Hashing -/

theorem sumOf_perm {digest : Array Token → UInt64} {xs ys : List (Datum × Datum)}
    (h : xs.Perm ys) : sumOf digest xs = sumOf digest ys := by
  induction h with
  | nil => rfl
  | cons x _ ih => rw [sumOf, sumOf, ih]
  | swap x y l =>
    rw [sumOf, sumOf, sumOf, sumOf, ← UInt64.add_assoc, ← UInt64.add_assoc,
      UInt64.add_comm (digestOf digest y)]
  | trans _ _ ih ih' => exact ih.trans ih'

theorem feedAll_eq {digest : Array Token → UInt64} {ds es : List Datum}
    (h : List.Forall₂ (fun d e => d.feed digest = e.feed digest) ds es) :
    feedAll digest ds = feedAll digest es := by
  induction h with
  | nil => rfl
  | cons hd _ ih => rw [feedAll, feedAll, hd, ih]

theorem sumOf_eq {digest : Array Token → UInt64} {xs ys : List (Datum × Datum)}
    (h : List.Forall₂ (fun x y => digestOf digest x = digestOf digest y) xs ys) :
    sumOf digest xs = sumOf digest ys := by
  induction h with
  | nil => rfl
  | cons hd _ ih => rw [sumOf, sumOf, hd, ih]

/-- Equal data feed the same tokens. -/
theorem Proper.feed_eq (digest : Array Token → UInt64) : ∀ (n : Nat) {a b : Datum},
    sizeOf a < n → Proper inside a → Proper inside b → a.same b = true →
      a.feed digest = b.feed digest
  | 0, _, _, hlt, _, _, _ => absurd hlt (Nat.not_lt_zero _)
  | n + 1, a, b, hlt, ha, hb, h => by
    have hlt : sizeOf a ≤ n := Nat.le_of_lt_succ hlt
    cases same_iff.mp h with
    | atom => rfl
    | items hs =>
      rw [feed, feed]
      refine congrArg _ (feedAll_eq (List.forall₂_iff_get.mpr ⟨hs.length_eq, fun i hi hi' => ?_⟩))
      have hmi := List.getElem_mem hi
      exact feed_eq digest n (Nat.lt_of_lt_of_le (sizeOf_mem hmi) hlt) (ha.of_mem hmi)
        (hb.of_mem (List.getElem_mem hi')) ((List.forall₂_iff_get.mp hs).2 i hi hi')
    | @table xs ys hlen hs =>
      obtain ⟨zs, hperm, hzs⟩ := exists_perm_of_same (fun _ _ => Proper.symm)
        (fun _ _ _ => Proper.trans) (fun x hm => (ha.of_entry hm).1)
        (fun y hm => (hb.of_entry hm).1) ha.distinct hlen hs
      have hsum : sumOf digest xs = sumOf digest zs := by
        refine sumOf_eq (List.forall₂_iff_get.mpr ⟨hzs.length_eq, fun i hi hi' => ?_⟩)
        obtain ⟨hk, hv⟩ := (List.forall₂_iff_get.mp hzs).2 i hi hi'
        have hmi : xs.get ⟨i, hi⟩ ∈ xs := List.getElem_mem hi
        have hmi' : zs.get ⟨i, hi'⟩ ∈ ys := hperm.mem_iff.mp (List.getElem_mem hi')
        obtain ⟨hak, hav⟩ := ha.of_entry hmi
        obtain ⟨hbk, hbv⟩ := hb.of_entry hmi'
        obtain ⟨hsk, hsv⟩ := sizeOf_entry hmi
        rw [digestOf, digestOf, feed_eq digest n (Nat.lt_of_lt_of_le hsk hlt) hak hbk hk,
          feed_eq digest n (Nat.lt_of_lt_of_le hsv hlt) hav hbv hv]
      rw [feed, feed, hlen, hsum, sumOf_perm hperm]
    | marker hs =>
      rw [feed, feed]
      rcases hs with rfl | hs
      · rw [ha.inside_eq hb]
      · rw [marker.sizeOf_spec] at hlt
        cases ha with
        | marker _ ha =>
          cases hb with
          | marker _ hb => rw [feed_eq digest n (by omega) ha hb hs]

/-- Equal data have one hash. -/
theorem Proper.hash_eq (ha : Proper inside a) (hb : Proper inside b) (h : a.same b = true) :
    a.hash = b.hash := by
  rw [hash, hash, ha.feed_eq Token.digest (sizeOf a + 1) (Nat.lt_succ_self _) hb h]

/-! ### Keys -/

def found? (es : List (Datum × Datum)) (key : Datum) : Option Datum :=
  (es.find? fun e => e.1.same key).map (·.2)

/-- Two entries of a proper table whose keys are equal to one key are one entry. -/
theorem Proper.entry_unique {es : List (Datum × Datum)} {key : Datum} {x y : Datum × Datum}
    (h : Proper inside (.table es)) (hkey : Proper inside key) (hx : x ∈ es) (hy : y ∈ es)
    (hxk : x.1.same key = true) (hyk : y.1.same key = true) : x = y := by
  have hpx := (h.of_entry hx).1
  have hpy := (h.of_entry hy).1
  have hxy : x.1.same y.1 = true := hpx.trans hkey hpy hxk (hpy.symm hkey hyk)
  have hyx : y.1.same x.1 = true := hpx.symm hpy hxy
  have hd := List.pairwise_iff_getElem.mp h.distinct
  obtain ⟨i, hi, rfl⟩ := List.mem_iff_getElem.mp hx
  obtain ⟨j, hj, rfl⟩ := List.mem_iff_getElem.mp hy
  rcases Nat.lt_trichotomy i j with hij | rfl | hij
  · exact absurd hxy (hd i j hi hj hij)
  · rfl
  · exact absurd hyx (hd j i hj hi hij)

theorem Proper.found?_eq {es : List (Datum × Datum)} {key : Datum} {e : Datum × Datum}
    (h : Proper inside (.table es)) (hkey : Proper inside key) (he : e ∈ es)
    (hek : e.1.same key = true) : found? es key = some e.2 := by
  unfold found?
  cases hf : es.find? fun e => e.1.same key with
  | none => exact absurd hek (List.find?_eq_none.mp hf e he)
  | some y =>
    have hy := List.find?_some (p := fun e : Datum × Datum => e.1.same key) hf
    rw [h.entry_unique hkey (List.mem_of_find?_eq_some hf) he hy hek]
    rfl

/-- Looking up each key of one table in another one and comparing what is there says whether each
entry is equal to one of the other. -/
theorem Proper.all_found? {xs ys : List (Datum × Datum)} (hx : Proper inside (.table xs))
    (hy : Proper inside (.table ys)) :
    (xs.all fun x => (found? ys x.1).any (·.same x.2)) = sameEach xs ys := by
  rw [Bool.eq_iff_iff, List.all_eq_true, sameEach_iff]
  refine forall₂_congr fun x hmx => ?_
  obtain ⟨hkx, hvx⟩ := hx.of_entry hmx
  constructor
  · intro h
    obtain ⟨v, hv, hsame⟩ := (Option.any_eq_true ..).mp h
    obtain ⟨y, hf, rfl⟩ := Option.map_eq_some_iff.mp hv
    have hmy := List.mem_of_find?_eq_some hf
    obtain ⟨hky, hvy⟩ := hy.of_entry hmy
    have hk := List.find?_some (p := fun e : Datum × Datum => e.1.same x.1) hf
    exact ⟨y, hmy, hky.symm hkx hk, hvy.symm hvx hsame⟩
  · rintro ⟨y, hmy, hk, hv⟩
    obtain ⟨hky, hvy⟩ := hy.of_entry hmy
    rw [hy.found?_eq hkx hmy (hkx.symm hky hk)]
    exact hvx.symm hvy hv

end Datum

end LispCore
