import LispCore.Proofs.Map.Representations
import LispCore.Proofs.Map.Stored
/-!
Which of two equal keys a map stores. A small map goes on with the key that it has, a hashed map takes the
one that is put (`Map.perm_assocIn`). Two maps are made of the same pairs, one small and one hashed, and
take the same changes. One ledger tells what both hold then (`Ledger.Tallied`): each line has the two keys
and the value. The two keys look alike at every step just when each key that is put looks like the one that
stays or comes then in the map that began small (`keys_stand`).
-/

namespace LispCore

section

variable {κ ν : Type} {K : Keying κ} {key : κ} {val : ν} {m m' : Map κ ν}

/-! ### The key that stands -/

/-- Of distinct entries only one has a given key. -/
theorem Keying.Coherent.eq_of_same (hK : K.Coherent) {es : List (κ × ν)} {e f : κ × ν}
    (hd : K.Distinct es) (he : e ∈ es) (hf : f ∈ es) (hse : K.same e.1 key = true)
    (hsf : K.same f.1 key = true) : e = f := by
  have : Std.Symm fun e f : κ × ν => K.same e.1 f.1 = false :=
    ⟨fun e f h => (hK.same_comm f.1 e.1).trans h⟩
  by_contra hne
  have hdiffer : K.same e.1 f.1 = false := List.Pairwise.forall hd he hf hne
  rw [hK.trans hse (hK.symm hsf)] at hdiffer
  cases hdiffer

namespace Map

/-- The key that is in a map once a key has been put. A small map keeps one that is equal. -/
def standing (K : Keying κ) (key : κ) : Map κ ν → κ
  | .small entries => ((entries.toList.find? fun e => K.same e.1 key).map Prod.fst).getD key
  | .hashed _ => key

theorem standing_of_mem (hK : K.Coherent) {entries : Array (κ × ν)} {e : κ × ν}
    (hd : K.Distinct entries.toList) (he : e ∈ entries.toList) (hs : K.same e.1 key = true) :
    (small entries).standing K key = e.1 := by
  have hsome : (entries.toList.find? fun e => K.same e.1 key).isSome :=
    List.find?_isSome.mpr ⟨e, he, hs⟩
  obtain ⟨f, hf⟩ := Option.isSome_iff_exists.mp hsome
  rw [standing, hf, hK.eq_of_same hd he (List.mem_of_find?_eq_some hf) hs
    (List.find?_some (p := fun e : κ × ν => K.same e.1 key) hf)]
  rfl

theorem standing_of_not_hasKey (h : K.hasKey key m.toList = false) : m.standing K key = key := by
  cases m with
  | hashed => rfl
  | small entries =>
    have hnone : entries.toList.find? (fun e => K.same e.1 key) = none :=
      List.find?_eq_none.mpr fun e he => by simp [Keying.hasKey_eq_false.mp h e he]
    rw [standing, hnone]
    rfl

/-- After an addition the entry with an equal key has given way to the value under the key that stands. -/
theorem perm_assocIn (hK : K.Coherent) (hm : m.Sound K) (key : κ) (val : ν) :
    (m.assocIn K key val).toList.Perm ((m.standing K key, val) :: K.without key m.toList) := by
  cases m with
  | hashed h => exact HashMap.Sound.toList_assoc hm hK key val
  | small entries =>
    cases hi : entries.toList.findIdx? fun e => K.same e.1 key with
    | none =>
      have hnew : K.hasKey key (small entries).toList = false := by
        rw [toList, ← Keying.hasKey_of_findIdx?, hi]
        rfl
      rw [standing_of_not_hasKey hnew, Keying.without_of_not_hasKey hnew]
      exact (updated_assocIn hK hm key val).perm hnew
    | some i =>
      obtain ⟨front, e, back, hes, rfl, hs, hwithout⟩ := hK.exists_split hm hi
      have he : e ∈ entries.toList := by simp [hes]
      rw [standing_of_mem hK hm he hs, assocIn]
      simp only [hi]
      rw [toList, toList_modify_split hes, toList, hwithout]
      exact List.perm_middle

end Map

/-! ### The ledger -/

/-- What two maps hold at a key: the key that is in the one that began small, the key that is in the one
that began hashed, and the value. -/
structure Line (κ ν : Type) where
  kept : κ
  given : κ
  val : ν

/-- What two maps hold that take the same changes, and whether the one that began small still is. -/
structure Ledger (κ ν : Type) where
  small : Bool
  lines : List (Line κ ν)

namespace Ledger

/-- Two maps that are made of the same pairs. -/
def ofPairs (pairs : List (κ × ν)) : Ledger κ ν := ⟨true, pairs.map fun e => ⟨e.1, e.1, e.2⟩⟩

/-- The lines of other keys. -/
def others (K : Keying κ) (key : κ) (l : Ledger κ ν) : List (Line κ ν) :=
  l.lines.filter fun x => !K.same x.given key

/-- The key that is in the map which began small once a key has been put. -/
def standing (K : Keying κ) (key : κ) (l : Ledger κ ν) : κ :=
  if l.small then ((l.lines.find? fun x => K.same x.given key).map Line.kept).getD key else key

/-- A value is put. The map that began hashed takes the key that comes with it, and the other one becomes
hashed when a new key comes and it is full. -/
def assoc (K : Keying κ) (key : κ) (val : ν) (l : Ledger κ ν) : Ledger κ ν where
  small := l.small && ((l.lines.any fun x => K.same x.given key) ||
    decide (l.lines.length < Map.smallLimit))
  lines := ⟨l.standing K key, key, val⟩ :: l.others K key

def dissoc (K : Keying κ) (key : κ) (l : Ledger κ ν) : Ledger κ ν := ⟨l.small, l.others K key⟩

def change (K : Keying κ) (l : Ledger κ ν) : HashMap.Change κ ν → Ledger κ ν
  | .assoc key val => l.assoc K key val
  | .dissoc key => l.dissoc K key

def run (K : Keying κ) : List (HashMap.Change κ ν) → Ledger κ ν → Ledger κ ν
  | [], l => l
  | c :: cs, l => run K cs (l.change K c)

/-- A key that is put is like the one that stands then. -/
def Agrees (K : Keying κ) (R : κ → κ → Prop) (l : Ledger κ ν) : HashMap.Change κ ν → Prop
  | .assoc key _ => R (l.standing K key) key
  | .dissoc _ => True

/-- Each key that is put in the course of the changes is like the one that stands then. -/
def Faithful (K : Keying κ) (R : κ → κ → Prop) : List (HashMap.Change κ ν) → Ledger κ ν → Prop
  | [], _ => True
  | c :: cs, l => l.Agrees K R c ∧ (l.change K c).Faithful K R cs

/-- Both keys on each line are alike. -/
def Level (R : κ → κ → Prop) (l : Ledger κ ν) : Prop := ∀ x ∈ l.lines, R x.kept x.given

variable {l : Ledger κ ν} {R : κ → κ → Prop}

theorem level_ofPairs (hR : ∀ a, R a a) (pairs : List (κ × ν)) : (ofPairs pairs).Level R := by
  intro x hx
  obtain ⟨e, -, rfl⟩ := List.mem_map.mp hx
  exact hR e.1

theorem Level.change_iff (h : l.Level R) (c : HashMap.Change κ ν) :
    (l.change K c).Level R ↔ l.Agrees K R c := by
  cases c with
  | dissoc key => exact ⟨fun _ => trivial, fun _ x hx => h x (List.mem_of_mem_filter hx)⟩
  | assoc key val =>
    refine ⟨fun h' => h' _ (List.mem_cons_self ..), fun hR x hx => ?_⟩
    rcases List.mem_cons.mp hx with rfl | hx
    · exact hR
    · exact h x (List.mem_of_mem_filter hx)

/-- The keys stay alike through all of a run just when each key that is put is like the one that stands
then. -/
theorem level_iff_faithful : ∀ {cs : List (HashMap.Change κ ν)} {l : Ledger κ ν}, l.Level R →
    ((∀ done, done <+: cs → (l.run K done).Level R) ↔ l.Faithful K R cs)
  | [], l, h => ⟨fun _ => trivial, fun _ done hdone => by rwa [List.prefix_nil.mp hdone]⟩
  | c :: cs, l, h => by
    constructor
    · intro hall
      have hfirst : (l.change K c).Level R := hall [c] (by simp)
      refine ⟨(h.change_iff c).mp hfirst, (level_iff_faithful hfirst).mp fun done hdone => ?_⟩
      exact hall (c :: done) ((List.prefix_cons_inj c).mpr hdone)
    · rintro ⟨hagrees, hrest⟩ done hdone
      rcases List.prefix_cons_iff.mp hdone with rfl | ⟨done', rfl, hdone'⟩
      · exact h
      · exact (level_iff_faithful ((h.change_iff c).mpr hagrees)).mpr hrest done' hdone'

/-! ### Tallying -/

/-- The first map began small and the second one hashed, and the ledger tells what they hold. -/
structure Tallied (K : Keying κ) (l : Ledger κ ν) (m m' : Map κ ν) : Prop where
  small : m.isSmall = l.small
  hashed : m'.isSmall = false
  kept : m.toList.Perm (l.lines.map fun x => (x.kept, x.val))
  given : m'.toList.Perm (l.lines.map fun x => (x.given, x.val))
  same : l.Level fun a b => a = b ∨ K.same a b = true

namespace Tallied

variable (h : l.Tallied K m m') (hK : K.Coherent)
include h hK

/-- The two keys of a line compare alike. -/
theorem same_key {x : Line κ ν} (hx : x ∈ l.lines) (q : κ) : K.same x.kept q = K.same x.given q := by
  rcases h.same x hx with he | hs
  · rw [he]
  · rw [hK.same_comm, hK.same_congr hs, hK.same_comm]

theorem hasKey (key : κ) :
    K.hasKey key m.toList = l.lines.any fun x => K.same x.given key := by
  rw [Keying.hasKey, h.kept.any_eq, List.any_map, Bool.eq_iff_iff, List.any_eq_true, List.any_eq_true]
  refine exists_congr fun x => and_congr_right fun hx => ?_
  rw [← h.same_key hK hx key]
  rfl

theorem kept_others (key : κ) :
    (K.without key m.toList).Perm ((l.others K key).map fun x => (x.kept, x.val)) := by
  refine (h.kept.filter _).trans (.of_eq ?_)
  rw [List.filter_map, others]
  exact congrArg _ (List.filter_congr fun x hx => congrArg (!·) (h.same_key hK hx key))

omit hK in
theorem given_others (key : κ) :
    (K.without key m'.toList).Perm ((l.others K key).map fun x => (x.given, x.val)) := by
  refine (h.given.filter _).trans (.of_eq ?_)
  rw [List.filter_map]
  rfl

theorem standing (hm : m.Sound K) (key : κ) : m.standing K key = l.standing K key := by
  rw [Ledger.standing, ← h.small]
  cases hx : l.lines.find? fun x => K.same x.given key with
  | none =>
    have hnew : K.hasKey key m.toList = false := by
      rw [h.hasKey hK, List.any_eq_false]
      exact List.find?_eq_none.mp hx
    rw [Map.standing_of_not_hasKey hnew]
    simp
  | some x =>
    -- The entry of the line is the one that a small map has at the key.
    cases m with
    | hashed => rfl
    | small entries =>
      have hmem := List.mem_of_find?_eq_some hx
      have hs : K.same x.kept key = true := (h.same_key hK hmem key).trans
        (List.find?_some (p := fun x : Line κ ν => K.same x.given key) hx)
      exact Map.standing_of_mem hK hm (h.kept.symm.subset (List.mem_map_of_mem hmem)) hs

/-- The key that stands is the one that is put, or compares equal. -/
theorem standing_same (key : κ) : l.standing K key = key ∨ K.same (l.standing K key) key = true := by
  rw [Ledger.standing]
  split
  · cases hx : l.lines.find? fun x => K.same x.given key with
    | none => exact .inl rfl
    | some x => exact .inr ((h.same_key hK (List.mem_of_find?_eq_some hx) key).trans
        (List.find?_some (p := fun x : Line κ ν => K.same x.given key) hx))
  · exact .inl rfl

theorem dissocIn (hm : m.Sound K) (hm' : m'.Sound K) (key : κ) :
    (l.dissoc K key).Tallied K (m.dissocIn K key) (m'.dissocIn K key) where
  small := (Map.isSmall_dissocIn K key m).trans h.small
  hashed := (Map.isSmall_dissocIn K key m').trans h.hashed
  kept := by
    rw [Map.toList_dissocIn hK hm]
    exact h.kept_others hK key
  given := by
    rw [Map.toList_dissocIn hK hm']
    exact h.given_others key
  same := (h.same.change_iff (.dissoc key)).mpr trivial

theorem assocIn (hm : m.Sound K) (hm' : m'.Sound K) (key : κ) (val : ν) :
    (l.assoc K key val).Tallied K (m.assocIn K key val) (m'.assocIn K key val) where
  small := by
    rw [(Map.updated_assocIn hK hm key val).small, h.small, h.hasKey hK, hm.count_eq,
      h.kept.length_eq, List.length_map]
    rfl
  hashed := by
    rw [(Map.updated_assocIn hK hm' key val).small, h.hashed]
    rfl
  kept := by
    refine (Map.perm_assocIn hK hm key val).trans ?_
    rw [h.standing hK hm]
    exact (h.kept_others hK key).cons _
  given := by
    refine (Map.perm_assocIn hK hm' key val).trans ?_
    have hgiven : m'.standing K key = key := by
      cases m' with
      | hashed => rfl
      | small => cases h.hashed
    rw [hgiven]
    exact (h.given_others key).cons _
  same := (h.same.change_iff (.assoc key val)).mpr (h.standing_same hK key)

omit hK in
/-- When both keys on each line are the same, so are the entries. -/
theorem perm (hlevel : l.Level Eq) : m.toList.Perm m'.toList := by
  refine h.kept.trans (.trans (.of_eq ?_) h.given.symm)
  exact List.map_congr_left fun x hx => congrArg (·, x.val) (hlevel x hx)

end Tallied

end Ledger

end

/-! ### Runs -/

variable {inside : Nat → Datum} {w : World} {pairs : List (Value × Value)}

namespace Map

def change (m : Map Value Value) : HashMap.Change Value Value → Act (Map Value Value)
  | .assoc key val => m.assoc key val
  | .dissoc key => m.dissoc key

def changed : List (HashMap.Change Value Value) → Map Value Value → Act (Map Value Value)
  | [], m => pure m
  | c :: cs, m => do changed cs (← m.change c)

end Map

/-- Two maps of finite keys, and the ledger of what they hold. -/
structure Accounted (inside : Nat → Datum) (w : World) (l : Ledger Value Value)
    (m m' : Map Value Value) : Prop where
  left : m.Stored inside w
  right : m'.Stored inside w
  tallied : l.Tallied (w.matching inside) m m'

namespace Accounted

variable {l : Ledger Value Value} {m m' : Map Value Value}

/-- What a change makes of the maps is what it makes of the ledger. -/
theorem change (h : Accounted inside w l m m') (hw : Orderly w) {c : HashMap.Change Value Value}
    (hc : ∃ d, ComesTo inside w c.key d) : ∃ n n', (m.change c).Settles w n ∧
      (m'.change c).Settles w n' ∧ Accounted inside w (l.change (w.matching inside) c) n n' := by
  have hK := World.tells_matching inside hw
  have hm := h.left.sound
  have hm' := h.right.sound
  obtain ⟨d, hd⟩ := hc
  cases c with
  | assoc key val =>
    exact ⟨_, _, hK.assoc_settles hm h.left.finite ⟨d, hd⟩ val,
      hK.assoc_settles hm' h.right.finite ⟨d, hd⟩ val,
      h.left.updated hd (Map.updated_assocIn hK.coherent hm key val),
      h.right.updated hd (Map.updated_assocIn hK.coherent hm' key val),
      h.tallied.assocIn hK.coherent hm hm' key val⟩
  | dissoc key =>
    exact ⟨_, _, hK.dissoc_settles h.left.finite ⟨d, hd⟩, hK.dissoc_settles h.right.finite ⟨d, hd⟩,
      h.left.dissocIn hw key, h.right.dissocIn hw key,
      h.tallied.dissocIn hK.coherent hm hm' key⟩

/-- What a run of changes makes of the maps is what it makes of the ledger. -/
theorem run (hw : Orderly w) : ∀ {cs : List (HashMap.Change Value Value)} {l : Ledger Value Value}
    {m m' : Map Value Value}, Accounted inside w l m m' →
    (∀ c ∈ cs, ∃ d, ComesTo inside w c.key d) →
      ∃ n n', (m.changed cs).Settles w n ∧ (m'.changed cs).Settles w n' ∧
        Accounted inside w (l.run (w.matching inside) cs) n n'
  | [], l, m, m', h, _ => ⟨m, m', .pure m w, .pure m' w, h⟩
  | c :: cs, l, m, m', h, hc => by
    obtain ⟨n, n', hn, hn', h⟩ := h.change hw (hc c (List.mem_cons_self ..))
    obtain ⟨p, p', hp, hp', h⟩ := h.run hw fun c hm => hc c (List.mem_cons_of_mem _ hm)
    exact ⟨p, p', hn.bind hp, hn'.bind hp', h⟩

/-- Maps that are made of the same pairs. -/
theorem built (hw : Orderly w) (hp : ∀ e ∈ pairs, ∃ d, ComesTo inside w e.1 d)
    (hd : KeysDiffer w pairs) : ∃ s h, (Map.smallOfPairs pairs).Settles w s ∧
      (Map.hashedOfPairs pairs).Settles w h ∧ Accounted inside w (.ofPairs pairs) s h := by
  obtain ⟨h, hsmall, hhashed, hperm, hs, hh⟩ := Map.Stored.built hw hp hd
  have hlines : (Ledger.ofPairs pairs).lines.map (fun x => (x.kept, x.val)) = pairs := by
    simp [Ledger.ofPairs, Function.comp_def]
  have hlines' : (Ledger.ofPairs pairs).lines.map (fun x => (x.given, x.val)) = pairs := by
    simp [Ledger.ofPairs, Function.comp_def]
  refine ⟨_, _, hsmall, hhashed, hs, hh, rfl, rfl, ?_, ?_, ?_⟩
  · rw [hlines]
    exact .refl pairs
  · rw [hlines']
    exact hperm
  · exact Ledger.level_ofPairs (fun _ => .inl rfl) pairs

end Accounted

/-- The values look alike: they are of one kind and are printed alike. -/
def LooksLike (w : World) (u v : Value) : Prop :=
  u.kind = v.kind ∧ ∀ o p, (u.render o {}).Settles w p ↔ (v.render o {}).Settles w p

theorem LooksLike.refl (w : World) (v : Value) : LooksLike w v v := ⟨rfl, fun _ _ => .rfl⟩

/-- A small map and a hashed map that are made of the same pairs take the same changes. What they hold then
is in the ledger: the same values, at keys that are equal. The keys look alike at every step just when each
key that is put looks like the one that stands then, which is another one only when a small map has an
equal one; and when it is the very key that stands, both maps hold the same entries. -/
theorem keys_stand (hw : Reached w) (hp : ∀ e ∈ pairs, ∃ d, ComesTo inside w e.1 d)
    (hd : KeysDiffer w pairs) (cs : List (HashMap.Change Value Value))
    (hc : ∀ c ∈ cs, ∃ d, ComesTo inside w c.key d) :
    ∃ s h m m', (Map.smallOfPairs pairs).Settles w s ∧ (Map.hashedOfPairs pairs).Settles w h ∧
      (s.changed cs).Settles w m ∧ (h.changed cs).Settles w m' ∧
      ((Ledger.ofPairs pairs).run (w.matching inside) cs).Tallied (w.matching inside) m m' ∧
      ((∀ done, done <+: cs →
          ((Ledger.ofPairs pairs).run (w.matching inside) done).Level (LooksLike w)) ↔
        (Ledger.ofPairs pairs).Faithful (w.matching inside) (LooksLike w) cs) ∧
      ((Ledger.ofPairs pairs).Faithful (w.matching inside) Eq cs → m.toList.Perm m'.toList) := by
  have hw := hw.orderly
  obtain ⟨s, h, hs, hh, haccounted⟩ := Accounted.built hw hp hd
  obtain ⟨m, m', hm, hm', hend⟩ := haccounted.run hw hc
  refine ⟨s, h, m, m', hs, hh, hm, hm', hend.tallied,
    Ledger.level_iff_faithful (Ledger.level_ofPairs (LooksLike.refl w) pairs), fun hfaithful => ?_⟩
  have hlevel := (Ledger.level_iff_faithful (Ledger.level_ofPairs Eq.refl pairs)).mpr hfaithful
  exact hend.tallied.perm (hlevel cs List.prefix_rfl)

/-- Pairs with a vector. -/
def vectorOnce : List (Value × Value) := [(.vector #[.int 1], .int 1)]

/-- When a lazy sequence that has not run is put on an equal vector, the vector stays in a small map, and
the lazy sequence is in a hashed one. When the vector is put again, both have it. -/
theorem keys_stand_lazy : KeysDiffer unrun vectorOnce ∧
    (∃ s h m m', (Map.smallOfPairs vectorOnce).Settles unrun s ∧
      (Map.hashedOfPairs vectorOnce).Settles unrun h ∧
      (s.changed [.assoc (.lazy ⟨0⟩) (.int 2)]).Settles unrun m ∧
      (h.changed [.assoc (.lazy ⟨0⟩) (.int 2)]).Settles unrun m' ∧
      m.toList = [(.vector #[.int 1], .int 2)] ∧ m'.toList = [(.lazy ⟨0⟩, .int 2)]) ∧
    ∃ s h m m', (Map.smallOfPairs vectorOnce).Settles unrun s ∧
      (Map.hashedOfPairs vectorOnce).Settles unrun h ∧
      (s.changed [.assoc (.vector #[.int 1]) (.int 2)]).Settles unrun m ∧
      (h.changed [.assoc (.vector #[.int 1]) (.int 2)]).Settles unrun m' ∧ m.toList.Perm m'.toList := by
  have hw := reached_unrun.orderly
  have hd : KeysDiffer unrun vectorOnce := List.pairwise_singleton ..
  have hp : ∀ e ∈ vectorOnce, ∃ d, ComesTo (fun _ => oneItem) unrun e.1 d :=
    List.forall_mem_singleton.mpr ⟨_, comesTo_oneVector⟩
  have hsame {v : Value} (hv : ComesTo (fun _ => oneItem) unrun v oneItem) :
      (unrun.matching fun _ => oneItem).same (.vector #[.int 1]) v = true :=
    ((World.tells_matching _ hw).same_eq ⟨_, comesTo_oneVector⟩ comesTo_oneVector hv).trans
      whole_oneItem.refl
  refine ⟨hd, ?_, ?_⟩
  · obtain ⟨s, h, m, m', hs, hh, hm, hm', htallied, -⟩ := keys_stand reached_unrun hp hd
      [.assoc (.lazy ⟨0⟩) (.int 2)] (List.forall_mem_singleton.mpr ⟨_, comesTo_oneLazy⟩)
    have hledger : (Ledger.ofPairs vectorOnce).run (unrun.matching fun _ => oneItem)
        [.assoc (.lazy ⟨0⟩) (.int 2)] = ⟨true, [⟨.vector #[.int 1], .lazy ⟨0⟩, .int 2⟩]⟩ := by
      simp [vectorOnce, Ledger.run, Ledger.change, Ledger.assoc, Ledger.ofPairs, Ledger.standing,
        Ledger.others, hsame comesTo_oneLazy]
    rw [hledger] at htallied
    exact ⟨s, h, m, m', hs, hh, hm, hm', List.perm_singleton.mp htallied.kept,
      List.perm_singleton.mp htallied.given⟩
  · obtain ⟨s, h, m, m', hs, hh, hm, hm', -, -, hperm⟩ := keys_stand reached_unrun hp hd
      [.assoc (.vector #[.int 1]) (.int 2)]
      (List.forall_mem_singleton.mpr ⟨_, comesTo_oneVector⟩)
    refine ⟨s, h, m, m', hs, hh, hm, hm', hperm ⟨?_, trivial⟩⟩
    simp [vectorOnce, Ledger.ofPairs, Ledger.Agrees, Ledger.standing, hsame comesTo_oneVector]

/-- A list and a vector that are equal: once the vector is put on the list, the list is in the small map
and the vector is in the hashed one, and the maps are printed with different keys. -/
theorem keys_differ_in_form : Reached {} ∧ ∃ w', (do
    let list := Value.list (← Linked.ofList [.int 1])
    let vector := Value.vector #[.int 1]
    let s ← Map.smallOfPairs [(list, .int 1)]
    let h ← Map.hashedOfPairs [(list, .int 1)]
    let m ← s.changed [.assoc vector (.int 2)]
    let m' ← h.changed [.assoc vector (.int 2)]
    return (← list.same vector, m.toList.map (·.1.kind), m'.toList.map (·.1.kind),
      ← (Value.map m).print {}, ← (Value.map m').print {}) : Act _) 20 {} =
      .ok (true, ["list"], ["vector"], "\x7b(1) 2\x7d", "\x7b[1] 2\x7d") w' :=
  ⟨⟨{}, rfl, .refl _⟩, _, rfl⟩

end LispCore
