import LispCore.Proofs.Map.Alike
import LispCore.Proofs.Map.Build
import LispCore.Proofs.Map.Keys
/-!
Small and hashed maps behave the same. Pairs whose keys are all different make a map of either
representation, pairs of which two have equal keys make none, and the same key is at fault
(`exists_first_repeated`). The maps made are alike, so no changes and no lookups tell them apart, and only
the number of entries decides when a small map becomes a hashed one (`representations_agree`).
-/

namespace LispCore

variable {inside : Nat → Datum} {w w' : World} {pairs : List (Value × Value)}

def KeysDiffer (w : World) (pairs : List (Value × Value)) : Prop :=
  pairs.Pairwise fun x y => Compares w x.1 y.1 false

def AllRegular (inside : Nat → Datum) (w : World) (pairs : List (Value × Value)) : Prop :=
  ∀ e ∈ pairs, Regular inside w e.1 ∧ Regular inside w e.2

theorem AllRegular.later (h : AllRegular inside w pairs) (hw : Orderly w) (hev : Evolves w w') :
    AllRegular inside w' pairs :=
  fun e he => ⟨(h e he).1.later hw hev, (h e he).2.later hw hev⟩

theorem KeysDiffer.later (h : KeysDiffer w pairs) (hev : Evolves w w') : KeysDiffer w' pairs :=
  h.imp fun hxy => Act.Settles.later hxy hev

/-- Regular keys compare as the keying says. -/
theorem compares_keying (hw : Orderly w) {u v : Value} (hu : Regular inside w u)
    (hv : Regular inside w v) {r : Bool} : Compares w u v r ↔ (w.keying inside).same u v = r := by
  obtain ⟨d, hd⟩ := hu.finite
  obtain ⟨e, he⟩ := hv.finite
  rw [World.keying_same_eq hw hd he (.inl hu), compares_iff hw hd he]

theorem keysDiffer_iff (hw : Orderly w) (hr : ∀ e ∈ pairs, Regular inside w e.1) :
    KeysDiffer w pairs ↔ (w.keying inside).Distinct pairs :=
  List.Pairwise.iff_of_mem fun hx hy => compares_keying hw (hr _ hx) (hr _ hy)

/-- When not all keys are different, there is a first one that is equal to an earlier one. -/
theorem exists_first_repeated (hw : Orderly w) (hr : ∀ e ∈ pairs, Regular inside w e.1)
    (hd : ¬KeysDiffer w pairs) : ∃ front e back, pairs = front ++ e :: back ∧ KeysDiffer w front ∧
      ∃ x ∈ front, Compares w x.1 e.1 true := by
  rw [keysDiffer_iff hw hr] at hd
  obtain ⟨front, e, back, rfl, hfront, hk⟩ :=
    (Keying.distinct_or_repeated (w.keying inside) pairs).resolve_left hd
  have hr' : ∀ x ∈ front, Regular inside w x.1 := fun x hx => hr x (List.mem_append_left _ hx)
  obtain ⟨x, hx, hs⟩ := Keying.exists_of_hasKey hk
  exact ⟨front, e, back, rfl, (keysDiffer_iff hw hr').mpr hfront, x, hx,
    (compares_keying hw (hr' x hx) (hr e (by simp))).mpr hs⟩

/-- The maps that are made of pairs with different keys hold these pairs and are alike. -/
theorem exists_built (hw : Orderly w) (hr : AllRegular inside w pairs) (hd : KeysDiffer w pairs) :
    ∃ h, (Map.smallOfPairs pairs).Settles w (.small pairs.toArray) ∧
      (Map.hashedOfPairs pairs).Settles w (.hashed h) ∧ h.toList.Perm pairs ∧
      RegularAlike inside w (.small pairs.toArray) (.hashed h) := by
  have hK := World.lawful_keying inside hw
  have hkeys : ∀ e ∈ pairs, Regular inside w e.1 := fun e he => (hr e he).1
  have hdistinct := (keysDiffer_iff hw hkeys).mp hd
  obtain ⟨hsmall, hhashed⟩ := build_settles (World.tells_keying inside hw) hdistinct hkeys
  obtain ⟨hs, hp⟩ := HashMap.sound_empty.assocEach (m := HashMap.empty) hK hdistinct
  have hperm : (HashMap.empty.assocEach (w.keying inside) pairs).toList.Perm pairs := hp
  refine ⟨_, hsmall, hhashed, hperm, ⟨⟨hdistinct, hkeys⟩, fun e he => (hr e he).2⟩,
    ⟨⟨hs, fun e he => hkeys e (hperm.subset he)⟩, fun e he => (hr e (hperm.subset he)).2⟩, ?_⟩
  exact Map.Alike.of_perm hK hdistinct hperm.symm

/-- Of pairs with equal keys no map is made: the first key that is equal to an earlier one is refused. -/
theorem exists_refused (hw : Orderly w) (hr : ∀ e ∈ pairs, Regular inside w e.1)
    (hd : ¬KeysDiffer w pairs) : ∃ front e back, pairs = front ++ e :: back ∧ KeysDiffer w front ∧
      (∃ x ∈ front, Compares w x.1 e.1 true) ∧ (Map.smallOfPairs pairs).Refuses inside w e.1 ∧
      (Map.hashedOfPairs pairs).Refuses inside w e.1 := by
  obtain ⟨front, e, back, rfl, hfront, x, hx, hxe⟩ := exists_first_repeated hw hr hd
  have hfrontKeys : ∀ x ∈ front, Regular inside w x.1 :=
    fun x hx => hr x (List.mem_append_left _ hx)
  have he : Regular inside w e.1 := hr e (by simp)
  have hk : (w.keying inside).hasKey e.1 front = true :=
    List.any_eq_true.mpr ⟨x, hx, (compares_keying hw (hfrontKeys x hx) he).mp hxe⟩
  obtain ⟨hsmall, hhashed⟩ :=
    build_refuses hw ((keysDiffer_iff hw hfrontKeys).mp hfront) hfrontKeys he hk back
  exact ⟨front, e, back, rfl, hfront, ⟨x, hx, hxe⟩, hsmall, hhashed⟩

/-- What is next done to a map succeeds: additions and removals of regular keys and values do what they
should. -/
structure Map.Goes (inside : Nat → Datum) (w : World) (m : Map Value Value) : Prop where
  adds (key val : Value) (hk : LispCore.Regular inside w key) (hv : LispCore.Regular inside w val) :
    ∃ present m', m.Adds inside w key val present m'
  drops (key : Value) (hk : LispCore.Regular inside w key) : ∃ m', m.Drops inside w key m'

/-- The same regular changes, made at any time, lead from the two maps to maps that look alike. -/
def BehaveAlike (inside : Nat → Datum) (w : World) (m m' : Map Value Value) : Prop :=
  ∀ w' changes, Evolves w w' → (∀ c ∈ changes, Map.Change.Regular inside w' c) → ∃ n n',
    (Map.Change.run changes (.map m)).Settles w' (.map n) ∧
    (Map.Change.run changes (.map m')).Settles w' (.map n') ∧
    LookAlike inside w' n n' ∧ n.Goes inside w' ∧ n'.Goes inside w'

/-- Maps that are built from the same pairs behave alike. -/
theorem behaveAlike_of_built (hw : Orderly w) (hr : AllRegular inside w pairs)
    (hd : KeysDiffer w pairs) {m m' : Map Value Value} (hm : (Map.smallOfPairs pairs).Settles w m)
    (hm' : (Map.hashedOfPairs pairs).Settles w m') : BehaveAlike inside w m m' := by
  intro w' changes hev hc
  have hw' := hev.orderly hw
  -- The builders settle for good, so the maps are also those that are built in the later world.
  obtain ⟨h, hs, hh, -, halike⟩ := exists_built hw' (hr.later hw hev) (hd.later hev)
  obtain rfl := (hm.later hev).unique hs
  obtain rfl := (hm'.later hev).unique hh
  obtain ⟨n, n', hn, hn', h⟩ := halike.run hw' hc
  exact ⟨n, n', hn, hn', h.lookAlike hw', ⟨fun _ _ => h.left.adds hw', fun _ => h.left.drops hw'⟩,
    ⟨fun _ _ => h.right.adds hw', fun _ => h.right.drops hw'⟩⟩

/-- Pairs of regular keys and values make a small map and a hashed map of themselves when no two keys are
equal, and these behave alike. Otherwise nothing is made: the builders refuse the first key that is equal
to an earlier one. Adding a pair or a map to a map is putting entries into it. -/
theorem representations_agree (hw : Reached w) (hr : AllRegular inside w pairs) :
    (KeysDiffer w pairs → ∃ s h, s.isSmall = true ∧ h.isSmall = false ∧
      s.toList = pairs ∧ h.toList.Perm pairs ∧
      (Map.smallOfPairs pairs).Settles w s ∧ (Map.hashedOfPairs pairs).Settles w h ∧
      (Map.ofPairs pairs).Settles w (if pairs.length ≤ Map.smallLimit then s else h) ∧
      BehaveAlike inside w s h) ∧
    (¬KeysDiffer w pairs → ∃ front e back, pairs = front ++ e :: back ∧ KeysDiffer w front ∧
      (∃ x ∈ front, Compares w x.1 e.1 true) ∧ (Map.smallOfPairs pairs).Refuses inside w e.1 ∧
      (Map.hashedOfPairs pairs).Refuses inside w e.1 ∧ (Map.ofPairs pairs).Refuses inside w e.1) ∧
    (∀ (m : Map Value Value) (key val : Value), (Value.map m).conj (.vector #[key, val]) =
      Map.Change.apply (.map m) (.assoc key val)) ∧
    ∀ m other : Map Value Value, (Value.map m).conj (.map other) =
      Map.Change.run (other.toList.map fun e => .assoc e.1 e.2) (.map m) := by
  have hw := hw.orderly
  have hkeys : ∀ e ∈ pairs, Regular inside w e.1 := fun e he => (hr e he).1
  refine ⟨fun hd => ?_, fun hd => ?_, fun _ _ _ => rfl, Map.Change.conj_map⟩
  · obtain ⟨h, hs, hh, hperm, -⟩ := exists_built hw hr hd
    refine ⟨_, .hashed h, rfl, rfl, rfl, hperm, hs, hh, ?_, behaveAlike_of_built hw hr hd hs hh⟩
    rw [Map.ofPairs]
    split
    · exact hs
    · exact hh
  · obtain ⟨front, e, back, hsplit, hfront, hrepeated, hsmall, hhashed⟩ :=
      exists_refused hw hkeys hd
    refine ⟨front, e, back, hsplit, hfront, hrepeated, hsmall, hhashed, ?_⟩
    rw [Map.ofPairs]
    split
    · exact hsmall
    · exact hhashed

theorem not_keysDiffer {x y : Value × Value} (h : Compares w x.1 y.1 true) : ¬KeysDiffer w [x, y] := by
  intro hd
  have hne : Compares w x.1 y.1 false := by simpa [KeysDiffer] using hd
  cases Act.Settles.unique h hne

/-- Pairs with a lazy sequence that has not run and another key. -/
def lazyAndNil : List (Value × Value) := [(.lazy ⟨0⟩, .int 1), (.nil, .int 2)]

/-- Pairs with that sequence and a vector that is equal to it. -/
def lazyAndVector : List (Value × Value) := [(.lazy ⟨0⟩, .int 1), (.vector #[.int 1], .int 2)]

/-- A lazy sequence that has not run is a key, and a vector that is equal to it is the same key. -/
theorem representations_agree_lazy :
    (∃ s h n n', (Map.smallOfPairs lazyAndNil).Settles unrun s ∧
      (Map.hashedOfPairs lazyAndNil).Settles unrun h ∧ s.isSmall = true ∧ h.isSmall = false ∧
      (Map.Change.run [.assoc (.vector #[.int 1]) (.int 3), .dissoc .nil] (.map s)).Settles unrun
        (.map n) ∧
      (Map.Change.run [.assoc (.vector #[.int 1]) (.int 3), .dissoc .nil] (.map h)).Settles unrun
        (.map n') ∧ Compares unrun (.map n) (.map n') true) ∧
    (Map.smallOfPairs lazyAndVector).Refuses (fun _ => oneItem) unrun (.vector #[.int 1]) ∧
    (Map.hashedOfPairs lazyAndVector).Refuses (fun _ => oneItem) unrun (.vector #[.int 1]) := by
  have hw := reached_unrun.orderly
  have hlazy := (regular_iff hw comesTo_oneLazy).mpr whole_oneItem.refl
  have hvector := (regular_iff hw comesTo_oneVector).mpr whole_oneItem.refl
  have hint : ∀ i, Regular (fun _ => oneItem) unrun (.int i) := fun i => .of_atom hw rfl
  have hnil : Regular (fun _ => oneItem) unrun .nil := .of_atom hw rfl
  constructor
  · have hr : AllRegular (fun _ => oneItem) unrun lazyAndNil := by
      simp [AllRegular, lazyAndNil, hlazy, hnil, hint]
    have hne : Compares unrun (.lazy ⟨0⟩) .nil false :=
      (compares_iff hw comesTo_oneLazy ⟨0, .atom rfl⟩).mpr (by simp [oneItem, Datum.same])
    have hd : KeysDiffer unrun lazyAndNil := by simpa [KeysDiffer, lazyAndNil] using hne
    obtain ⟨s, h, hs, hh, -, -, hsmall, hhashed, -, halike⟩ :=
      (representations_agree reached_unrun hr).1 hd
    have hc : ∀ c ∈ [Map.Change.assoc (.vector #[.int 1]) (.int 3), .dissoc .nil],
        c.Regular (fun _ => oneItem) unrun := by
      simp [Map.Change.Regular.assoc hvector (hint 3), Map.Change.Regular.dissoc hnil]
    obtain ⟨n, n', hn, hn', hlook, -⟩ := halike unrun _ (.refl _) hc
    exact ⟨s, h, n, n', hsmall, hhashed, hs, hh, hn, hn', hlook.same⟩
  · have hr : AllRegular (fun _ => oneItem) unrun lazyAndVector := by
      simp [AllRegular, lazyAndVector, hlazy, hvector, hint]
    have hsame : Compares unrun (.lazy ⟨0⟩) (.vector #[.int 1]) true :=
      (compares_iff hw comesTo_oneLazy comesTo_oneVector).mpr whole_oneItem.refl
    obtain ⟨front, e, back, hsplit, -, ⟨x, hx, -⟩, hsmall, hhashed, -⟩ :=
      (representations_agree reached_unrun hr).2.1 (not_keysDiffer hsame)
    -- Something stands before the key that is refused, so it is the second one.
    rcases front with - | ⟨y, - | ⟨z, front⟩⟩
    · cases hx
    · obtain ⟨rfl, -⟩ := List.cons.inj (List.cons.inj hsplit).2
      exact ⟨hsmall, hhashed⟩
    · simp [lazyAndVector] at hsplit

/-- A world with a lazy sequence whose producer fails as a formatter does. -/
def unformatted : World := { lazies := #[⟨.ready (.fail .format), none⟩] }

/-- Two pairs with one key, a marker around that sequence. -/
def markerTwice : List (Value × Value) :=
  [(.reduced 0 (.lazy ⟨0⟩), .int 1), (.reduced 0 (.lazy ⟨0⟩), .int 2)]

/-- A repeated key need not be named. A marker is equal to itself whatever is inside, but it has no text
when what is inside fails as a formatter does: every builder panics then. -/
theorem repeated_key_unnamed : Reached unformatted ∧
    AllRegular (fun _ => .items [] true) unformatted markerTwice ∧ ¬KeysDiffer unformatted markerTwice ∧
    ∀ build ∈ [Map.smallOfPairs, Map.hashedOfPairs, Map.ofPairs], ∃ w', build markerTwice 10 unformatted =
      .error (.panic "a Display implementation returned an error unexpectedly: Error") w' := by
  have hreached : Reached unformatted :=
    ⟨{}, rfl, .make (n := 0) (l := ⟨0⟩) (p := .fail .format) (.refl _) rfl⟩
  have hw := hreached.orderly
  have hlazy : Means (fun _ => .items [] true) unformatted 2 (.value (.lazy ⟨0⟩)) (.items [] true) :=
    .sequential (Nat.lt_succ_self 1) rfl trivial (.ready (Nat.lt_succ_self 0) rfl .fail)
  have hmarker : Regular (fun _ => .items [] true) unformatted (.reduced 0 (.lazy ⟨0⟩)) :=
    (regular_iff hw ⟨3, .marker (Nat.lt_succ_self 2) rfl hlazy⟩).mpr (by simp [Datum.same])
  have hint : ∀ i, Regular (fun _ => .items [] true) unformatted (.int i) :=
    fun i => .of_atom hw rfl
  refine ⟨hreached, by simp [AllRegular, markerTwice, hmarker, hint], not_keysDiffer hmarker.same, ?_⟩
  simp only [List.forall_mem_cons, List.not_mem_nil, false_implies, implies_true, and_true]
  exact ⟨⟨_, rfl⟩, ⟨_, rfl⟩, ⟨_, rfl⟩⟩

end LispCore
