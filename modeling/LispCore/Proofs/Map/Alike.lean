import LispCore.Proofs.Map.Settles
/-!
Maps that cannot be told apart. Two maps of regular entries that have the same values compare equal,
hash alike and answer every lookup alike, whatever their representations (`LookAlike`). Changes of such
maps settle on maps that are alike again (`RegularAlike.change`), so runs of changes do
(`RegularAlike.run`); an addition also tells when a map becomes a hashed one (`Map.Adds`).
-/

namespace LispCore

variable {inside : Nat → Datum} {w : World} {k : Nat} {key val : Value} {d : Datum}
  {m m' : Map Value Value} {xs : List (Value × Value)} {es : List (Datum × Datum)}

/-! ### Regular parts -/

/-- The elements of a regular vector are regular. -/
theorem Regular.of_vector (hw : Orderly w) {items : Array Value}
    (h : Regular inside w (.vector items)) : ∀ x ∈ items.toList, Regular inside w x := by
  obtain ⟨d, hd⟩ := h.finite
  have hs := (regular_iff hw hd).mp h
  obtain ⟨k, hd⟩ := hd
  obtain ⟨ds, f, rfl, hrest⟩ := hd.of_sequential rfl
  obtain ⟨-, hall⟩ := hrest.vector
  cases Datum.same_iff.mp hs with
  | items hs =>
    intro x hx
    obtain ⟨i, hi, rfl⟩ := List.mem_iff_getElem.mp hx
    have hi' : i < ds.length := hall.length_eq ▸ hi
    exact (regular_iff hw ⟨k, (List.forall₂_iff_get.mp hall).2 i hi hi'⟩).mpr
      ((List.forall₂_iff_get.mp hs).2 i hi' hi')

/-- The keys and values of a regular map are regular. -/
theorem Regular.of_map (hw : Orderly w) (h : Regular inside w (.map m)) :
    ∀ e ∈ m.toList, Regular inside w e.1 ∧ Regular inside w e.2 := by
  obtain ⟨d, hd⟩ := h.finite
  have hs := (regular_iff hw hd).mp h
  have hp := hd.proper
  obtain ⟨k, hd⟩ := hd
  obtain ⟨es, rfl, -, i, -, hes⟩ := hd.of_map
  cases Datum.same_iff.mp hs with
  | table _ hs =>
    intro x hx
    obtain ⟨j, hj, rfl⟩ := List.mem_iff_getElem.mp hx
    have hj' : j < es.length := hes.length_eq ▸ hj
    have hmem := List.getElem_mem hj'
    obtain ⟨hk, hv⟩ := (List.forall₂_iff_get.mp hes).2 j hj hj'
    obtain ⟨y, hy, hky, hvy⟩ := hs _ hmem
    obtain ⟨hpk, hpv⟩ := hp.of_entry hmem
    obtain ⟨hpk', hpv'⟩ := hp.of_entry hy
    exact ⟨(regular_iff hw ⟨i, hk⟩).mpr (hpk.same_self hpk' hky),
      (regular_iff hw ⟨i, hv⟩).mpr (hpv.same_self hpv' hvy)⟩

theorem exists_entries : ∀ {xs : List (Value × Value)},
    (∀ e ∈ xs, Regular inside w e.1 ∧ Regular inside w e.2) → ∃ k es, Means.Entries inside w k xs es
  | [], _ => ⟨0, [], .nil⟩
  | x :: xs, h => by
    obtain ⟨hk, hv⟩ := h x (List.mem_cons_self ..)
    obtain ⟨dk, i, hk⟩ := hk.finite
    obtain ⟨dv, j, hv⟩ := hv.finite
    obtain ⟨k, es, hes⟩ := exists_entries fun e he => h e (List.mem_cons_of_mem _ he)
    refine ⟨max (max i j) k, (dk, dv) :: es, .cons ⟨?_, ?_⟩ (hes.mono (Nat.le_max_right ..))⟩
    · exact hk.mono (Nat.le_trans (Nat.le_max_left i j) (Nat.le_max_left ..))
    · exact hv.mono (Nat.le_trans (Nat.le_max_right i j) (Nat.le_max_left ..))

theorem Means.of_entries : ∀ {xs : List (Value × Value)} {es : List (Datum × Datum)},
    Means.Entries inside w k xs es → Means inside w (k + xs.length) (.entries xs) (.table es)
  | [], _, .nil => .noEntries
  | _ :: xs, (_, _) :: _, .cons h hxs =>
    .entry (Nat.lt_succ_self (k + xs.length)) (h.1.mono (Nat.le_add_right ..))
      (h.2.mono (Nat.le_add_right ..)) (Means.of_entries hxs)

/-- A map of regular keys, all different, and regular values. -/
structure Map.Regular (inside : Nat → Datum) (w : World) (m : Map Value Value) : Prop
    extends m.Keyed inside w where
  regular_vals : ∀ e ∈ m.toList, LispCore.Regular inside w e.2

/-- A map of regular entries is a finite value. -/
theorem Map.Regular.comesTo (h : m.Regular inside w) (hw : Orderly w) :
    ∃ d, ComesTo inside w (.map m) d := by
  obtain ⟨k, es, hes⟩ := exists_entries fun e he => ⟨h.regular e he, h.regular_vals e he⟩
  have hkeys : ∀ i (hi : i < m.toList.length) (hi' : i < es.length),
      ComesTo inside w m.toList[i].1 es[i].1 :=
    fun i hi hi' => ⟨k, ((List.forall₂_iff_get.mp hes).2 i hi hi').1⟩
  have hlen := hes.length_eq
  have hd : es.Pairwise fun x y => ¬x.1.same y.1 = true := by
    refine List.pairwise_iff_getElem.mpr fun i j hi hj hij => ?_
    have hi' : i < m.toList.length := hlen ▸ hi
    have hj' : j < m.toList.length := hlen ▸ hj
    rw [← World.keying_same_eq hw (hkeys i hi' hi) (hkeys j hj' hj)
      (.inl (h.regular _ (List.getElem_mem hi')))]
    exact (Bool.not_eq_true _).mpr
      (List.pairwise_iff_getElem.mp h.sound.distinct i j hi' hj' hij)
  have hl : m.Laid es := by
    cases m with
    | small => trivial
    | hashed m =>
      have hs : m.Sound (w.keying inside) := h.sound
      exact ⟨hs.count_eq, _, hs.routed, List.forall₂_iff_get.mpr
        ⟨hlen, fun i hi hi' => World.keying_hash hw (hkeys i hi hi')⟩⟩
  exact ⟨.table es, _, .map (Nat.lt_succ_self _) hd hl (Means.of_entries hes)⟩

/-! ### Looking alike -/

/-- From here on nothing tells the maps apart: they are equal, count and hash alike, and answer lookups
of all finite keys alike, with values that are equal to themselves. -/
structure LookAlike (inside : Nat → Datum) (w : World) (m m' : Map Value Value) : Prop where
  same : Compares w (.map m) (.map m') true
  same' : Compares w (.map m') (.map m) true
  count : m.count = m'.count
  isEmpty : m.isEmpty = m'.isEmpty
  hash : ∃ h, (Value.map m).hash.Settles w h ∧ (Value.map m').hash.Settles w h
  find (key : Value) (d : Datum) (hkey : ComesTo inside w key d) : ∃ o, (m.find? key).Settles w o ∧
    (m'.find? key).Settles w o ∧ ∀ v ∈ o, Compares w v v true
  contains (key : Value) (d : Datum) (hkey : ComesTo inside w key d) :
    ∃ b, (m.contains key).Settles w b ∧ (m'.contains key).Settles w b
  get (key default : Value) (d : Datum) (hkey : ComesTo inside w key d)
    (hdefault : Compares w default default true) : ∃ v,
      ((Value.map m).get key default).Settles w v ∧ ((Value.map m').get key default).Settles w v ∧
        Compares w v v true

/-- Maps of regular entries that have the same values. -/
structure RegularAlike (inside : Nat → Datum) (w : World) (m m' : Map Value Value) : Prop where
  left : m.Regular inside w
  right : m'.Regular inside w
  alike : Map.Alike (w.keying inside) m m'

namespace RegularAlike

variable (h : RegularAlike inside w m m') (hw : Orderly w)
include h

theorem symm : RegularAlike inside w m' m := ⟨h.right, h.left, h.alike.symm⟩

include hw

theorem count_eq : m.count = m'.count :=
  h.alike.count_eq (World.lawful_keying inside hw) h.left.sound h.right.sound

theorem compares : Compares w (.map m) (.map m') true := by
  obtain ⟨d, hd⟩ := h.left.comesTo hw
  obtain ⟨d', hd'⟩ := h.right.comesTo hw
  rw [compares_iff hw hd hd', ← foundAlike_iff hw hd hd']
  refine ⟨h.count_eq hw, fun e he => ⟨e.2, ?_, (h.left.regular_vals e he).same⟩⟩
  have hfind := h.right.find?_settles hw (h.left.regular e he).finite
  rwa [← h.alike e.1, (World.lawful_keying inside hw).get?_mem h.left.sound.distinct he] at hfind

theorem find (hkey : ComesTo inside w key d) : ∃ o, (m.find? key).Settles w o ∧
    (m'.find? key).Settles w o ∧ ∀ v ∈ o, Compares w v v true := by
  refine ⟨_, h.left.find?_settles hw ⟨d, hkey⟩, ?_, fun v hv => ?_⟩
  · rw [h.alike key]
    exact h.right.find?_settles hw ⟨d, hkey⟩
  · obtain ⟨e, he, -, rfl⟩ := Keying.mem_of_get? hv
    exact (h.left.regular_vals e he).same

theorem lookAlike : LookAlike inside w m m' where
  same := h.compares hw
  same' := h.symm.compares hw
  count := h.count_eq hw
  isEmpty := by rw [Map.isEmpty, Map.isEmpty, h.count_eq hw]
  hash := by
    obtain ⟨d, hd⟩ := h.left.comesTo hw
    obtain ⟨d', hd'⟩ := h.right.comesTo hw
    refine ⟨d.hash, hash_settles hw hd, ?_⟩
    rw [hd.proper.hash_eq hd'.proper ((compares_iff hw hd hd').mp (h.compares hw))]
    exact hash_settles hw hd'
  find _ _ hkey := h.find hw hkey
  contains key d hkey := by
    obtain ⟨o, ho, ho', -⟩ := h.find hw hkey
    exact ⟨o.isSome, ho.bind (.pure _ w), ho'.bind (.pure _ w)⟩
  get key default d hkey hdefault := by
    obtain ⟨o, ho, ho', hsame⟩ := h.find hw hkey
    refine ⟨o.getD default, ho.bind (.pure _ w), ho'.bind (.pure _ w), ?_⟩
    cases o with
    | none => exact hdefault
    | some v => exact hsame v rfl

end RegularAlike

/-! ### Changes -/

/-- A change of a map value: an entry is put or removed, or something is added to the collection. -/
inductive Map.Change where
  | assoc (key val : Value)
  | dissoc (key : Value)
  | conj (x : Value)

namespace Map.Change

def apply (coll : Value) : Change → Act Value
  | assoc key val => coll.assoc key val
  | dissoc key => coll.dissoc key
  | conj x => coll.conj x

def run : List Change → Value → Act Value
  | [], coll => pure coll
  | c :: cs, coll => do run cs (← c.apply coll)

/-- The change has regular keys and values, and what is added is a pair or a map. -/
inductive Regular (inside : Nat → Datum) (w : World) : Change → Prop
  | assoc {key val : Value} (hk : LispCore.Regular inside w key) (hv : LispCore.Regular inside w val) :
      Regular inside w (.assoc key val)
  | dissoc {key : Value} (hk : LispCore.Regular inside w key) : Regular inside w (.dissoc key)
  | pair {key val : Value} (h : LispCore.Regular inside w (.vector #[key, val])) :
      Regular inside w (.conj (.vector #[key, val]))
  | merge {other : Map Value Value} (h : LispCore.Regular inside w (.map other)) :
      Regular inside w (.conj (.map other))

/-- Adding a map puts its entries one after the other. -/
theorem conj_map (m other : Map Value Value) : (Value.map m).conj (.map other) =
    run (other.toList.map fun e => .assoc e.1 e.2) (.map m) := by
  show (m.assocAll other.toList >>= fun n => pure (Value.map n)) = _
  generalize other.toList = xs
  induction xs generalizing m with
  | nil => rfl
  | cons x xs ih =>
    have hrun : run ((x :: xs).map fun e => .assoc e.1 e.2) (.map m) =
        m.assoc x.1 x.2 >>= fun n => run (xs.map fun e => .assoc e.1 e.2) (.map n) := by
      show ((m.assoc x.1 x.2 >>= fun n => pure (Value.map n)) >>= _) = _
      rw [bind_assoc]
      exact bind_congr fun n => pure_bind ..
    rw [hrun, Map.assocAll, bind_assoc]
    exact bind_congr fun n => ih n

end Map.Change

/-- An addition to a map settles on another map. Only a new key that comes to a full small map makes it
hashed; a new key comes with its value and nothing is lost or doubled; otherwise the value is replaced. -/
structure Map.Adds (inside : Nat → Datum) (w : World) (m : Map Value Value) (key val : Value)
    (present : Bool) (m' : Map Value Value) : Prop where
  contains : (m.contains key).Settles w present
  assoc : (m.assoc key val).Settles w m'
  isSmall : m'.isSmall = (m.isSmall && (present || decide (m.count < smallLimit)))
  count : m'.count = if present then m.count else m.count + 1
  perm (hnew : present = false) : m'.toList.Perm ((key, val) :: m.toList)
  found : (m'.find? key).Settles w (some val)
  others (q : Value) (d : Datum) (hq : ComesTo inside w q d) (hne : Compares w key q false) :
    ∃ o, (m.find? q).Settles w o ∧ (m'.find? q).Settles w o

/-- A removal from a map settles on another map, of the same representation. -/
structure Map.Drops (inside : Nat → Datum) (w : World) (m : Map Value Value) (key : Value)
    (m' : Map Value Value) : Prop where
  dissoc : (m.dissoc key).Settles w m'
  isSmall : m'.isSmall = m.isSmall
  absent : (m'.find? key).Settles w none
  others (q : Value) (d : Datum) (hq : ComesTo inside w q d) (hne : Compares w key q false) :
    ∃ o, (m.find? q).Settles w o ∧ (m'.find? q).Settles w o

namespace Map.Regular

variable (hm : m.Regular inside w)
include hm

theorem updated (hk : LispCore.Regular inside w key) (hv : LispCore.Regular inside w val)
    (hu : Map.Updated (w.keying inside) m key val m') : m'.Regular inside w := by
  refine ⟨hm.toKeyed.updated hk hu, fun e he => ?_⟩
  rcases (hu.mem he).2 with hv' | ⟨f, hf, hv'⟩
  · exact hv' ▸ hv
  · exact hv' ▸ hm.regular_vals f hf

variable (hw : Orderly w)
include hw

theorem dissocIn (key : Value) : (m.dissocIn (w.keying inside) key).Regular inside w := by
  refine ⟨hm.toKeyed.dissocIn hw key, fun e he => ?_⟩
  rw [Map.toList_dissocIn (World.lawful_keying inside hw) hm.sound] at he
  exact hm.regular_vals e (Keying.mem_of_mem_without he)

theorem adds (hk : LispCore.Regular inside w key) (hv : LispCore.Regular inside w val) :
    ∃ b m', m.Adds inside w key val b m' := by
  have hK := World.lawful_keying inside hw
  have hu := Map.updated_assocIn hK hm.sound key val
  have hm' := hm.updated hk hv hu
  refine ⟨_, _, hm.contains_settles hw hk.finite, hm.assoc_settles hw hk val, hu.small,
    hu.count hK hm.sound, hu.perm, ?_, fun q d hq hne => ⟨_, hm.find?_settles hw ⟨d, hq⟩, ?_⟩⟩
  · have hfound := hm'.find?_settles hw hk.finite
    rwa [hu.get? hK, if_pos (hK.refl key)] at hfound
  · have hother := hm'.find?_settles hw ⟨d, hq⟩
    rwa [hu.get? hK, World.keying_same_false hw hk hq hne, if_neg Bool.false_ne_true] at hother

theorem drops (hk : LispCore.Regular inside w key) : ∃ m', m.Drops inside w key m' := by
  have hK := World.lawful_keying inside hw
  have hl := Map.toList_dissocIn hK hm.sound key
  have hm' := hm.dissocIn hw key
  refine ⟨_, hm.dissoc_settles hw hk.finite, Map.isSmall_dissocIn .., ?_,
    fun q d hq hne => ⟨_, hm.find?_settles hw ⟨d, hq⟩, ?_⟩⟩
  · have habsent := hm'.find?_settles hw hk.finite
    rwa [hl, hK.coherent.get?_without, if_pos (hK.refl key)] at habsent
  · have hother := hm'.find?_settles hw ⟨d, hq⟩
    rwa [hl, hK.coherent.get?_without, World.keying_same_false hw hk hq hne, if_neg Bool.false_ne_true]
      at hother

end Map.Regular

namespace RegularAlike

variable (h : RegularAlike inside w m m') (hw : Orderly w)
include h hw

theorem assoc (hk : Regular inside w key) (hv : Regular inside w val) :
    ∃ n n', (m.assoc key val).Settles w n ∧ (m'.assoc key val).Settles w n' ∧
      RegularAlike inside w n n' := by
  have hK := World.lawful_keying inside hw
  have hu := Map.updated_assocIn hK h.left.sound key val
  have hu' := Map.updated_assocIn hK h.right.sound key val
  exact ⟨_, _, h.left.assoc_settles hw hk val, h.right.assoc_settles hw hk val,
    h.left.updated hk hv hu, h.right.updated hk hv hu', h.alike.updated hK (hK.refl key) hu hu'⟩

theorem dissoc (hk : Regular inside w key) :
    ∃ n n', (m.dissoc key).Settles w n ∧ (m'.dissoc key).Settles w n' ∧
      RegularAlike inside w n n' :=
  ⟨_, _, h.left.dissoc_settles hw hk.finite, h.right.dissoc_settles hw hk.finite,
    h.left.dissocIn hw key, h.right.dissocIn hw key,
    h.alike.dissocIn (World.lawful_keying inside hw) h.left.sound h.right.sound key⟩

end RegularAlike

/-- Entries that are put one after the other into maps that are alike leave them alike. -/
theorem RegularAlike.assocAll (hw : Orderly w) : ∀ {xs : List (Value × Value)}
    {m m' : Map Value Value}, RegularAlike inside w m m' →
    (∀ e ∈ xs, Regular inside w e.1 ∧ Regular inside w e.2) →
      ∃ n n', (m.assocAll xs).Settles w n ∧ (m'.assocAll xs).Settles w n' ∧
        RegularAlike inside w n n'
  | [], m, m', h, _ => ⟨m, m', .pure m w, .pure m' w, h⟩
  | x :: xs, m, m', h, hr => by
    obtain ⟨hk, hv⟩ := hr x (List.mem_cons_self ..)
    obtain ⟨n, n', hn, hn', h⟩ := h.assoc hw hk hv
    obtain ⟨p, p', hp, hp', h⟩ := h.assocAll hw fun e he => hr e (List.mem_cons_of_mem _ he)
    exact ⟨p, p', hn.bind hp, hn'.bind hp', h⟩

/-- A change keeps maps alike. -/
theorem RegularAlike.change (h : RegularAlike inside w m m') (hw : Orderly w) {c : Map.Change}
    (hc : c.Regular inside w) : ∃ n n', (c.apply (.map m)).Settles w (.map n) ∧
      (c.apply (.map m')).Settles w (.map n') ∧ RegularAlike inside w n n' := by
  have hvalue : ∀ {x : Act (Map Value Value)} {n : Map Value Value}, x.Settles w n →
      (do return Value.map (← x)).Settles w (.map n) := fun hx => hx.bind (.pure _ w)
  cases hc with
  | assoc hk hv =>
    obtain ⟨n, n', hn, hn', h⟩ := h.assoc hw hk hv
    exact ⟨n, n', hvalue hn, hvalue hn', h⟩
  | dissoc hk =>
    obtain ⟨n, n', hn, hn', h⟩ := h.dissoc hw hk
    exact ⟨n, n', hvalue hn, hvalue hn', h⟩
  | @pair key val hx =>
    have hitems := hx.of_vector hw
    obtain ⟨n, n', hn, hn', h⟩ := h.assoc hw (hitems key (by simp)) (hitems val (by simp))
    exact ⟨n, n', hvalue hn, hvalue hn', h⟩
  | merge hx =>
    obtain ⟨n, n', hn, hn', h⟩ := h.assocAll hw (hx.of_map hw)
    exact ⟨n, n', hvalue hn, hvalue hn', h⟩

/-- A run of changes keeps maps alike. -/
theorem RegularAlike.run (hw : Orderly w) : ∀ {cs : List Map.Change} {m m' : Map Value Value},
    RegularAlike inside w m m' → (∀ c ∈ cs, c.Regular inside w) →
      ∃ n n', (Map.Change.run cs (.map m)).Settles w (.map n) ∧
        (Map.Change.run cs (.map m')).Settles w (.map n') ∧ RegularAlike inside w n n'
  | [], m, m', h, _ => ⟨m, m', .pure _ w, .pure _ w, h⟩
  | c :: cs, m, m', h, hc => by
    obtain ⟨n, n', hn, hn', h⟩ := h.change hw (hc c (List.mem_cons_self ..))
    obtain ⟨p, p', hp, hp', h⟩ := h.run hw fun c hm => hc c (List.mem_cons_of_mem _ hm)
    exact ⟨p, p', hn.bind hp, hn'.bind hp', h⟩

end LispCore
