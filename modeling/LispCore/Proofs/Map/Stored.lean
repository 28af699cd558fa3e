import LispCore.Proofs.Map.Build
import LispCore.Proofs.Map.Keys
/-!
Keys that are not equal to themselves. Equality of finite values is reflexive where nothing has failed,
except inside a marker (`Datum.Proper.same_self_iff`). A map takes other keys too: it tells them from all
keys, themselves included (`World.matching`), so they are stored again and again, never found and never
removed, while all other keys behave as if they were not there (`stored_keys_found_iff`).
-/

namespace LispCore

variable {inside : Nat → Datum} {w : World} {key val u v : Value} {m m' : Map Value Value}
  {pairs : List (Value × Value)} {d : Datum}

/-! ### Keys of any kind -/

open Classical in
/-- How finite values compare and hash from here on. A value that is not regular is told from all. -/
noncomputable def World.matching (inside : Nat → Datum) (w : World) : Keying Value where
  same u v := decide (Regular inside w u) && (w.keying inside).same u v
  hash := (w.keying inside).hash

namespace World

open Classical in
theorem matching_same : (w.matching inside).same u v = true ↔
    Regular inside w u ∧ (w.keying inside).same u v = true := by
  rw [matching, Bool.and_eq_true, decide_eq_true_iff]

/-- On finite values equality is symmetric and transitive, and equal ones have one hash. -/
theorem coherent_matching (inside : Nat → Datum) (hw : Orderly w) : (w.matching inside).Coherent where
  symm h := by
    obtain ⟨hu, h⟩ := matching_same.mp h
    refine matching_same.mpr ⟨?_, (lawful_keying inside hw).symm h⟩
    rcases keying_same.mp h with rfl | ⟨-, hv, -⟩
    · exact hu
    · exact hv
  trans h h' := by
    obtain ⟨hu, h⟩ := matching_same.mp h
    obtain ⟨-, h'⟩ := matching_same.mp h'
    exact matching_same.mpr ⟨hu, (lawful_keying inside hw).trans h h'⟩
  hash_eq h := (lawful_keying inside hw).hash_eq (matching_same.mp h).2

theorem tells_matching (inside : Nat → Datum) (hw : Orderly w) :
    (w.matching inside).Tells inside w fun v => ∃ d, ComesTo inside w v d where
  orderly := hw
  coherent := coherent_matching inside hw
  finite := id
  same_eq {u v d e} _ hu hv := by
    rw [Bool.eq_iff_iff, matching_same]
    constructor
    · rintro ⟨hr, h⟩
      rwa [← keying_same_eq hw hu hv (.inl hr)]
    · intro h
      have hr := (Regular.of_compares hw hu hv ((compares_iff hw hu hv).mpr h)).1
      exact ⟨hr, (keying_same_eq hw hu hv (.inl hr)).trans h⟩
  hash_eq := keying_hash hw

end World

/-! ### Maps -/

/-- A map of finite keys that are all different. A key need not be equal to itself, and values may be
anything. -/
structure Map.Stored (inside : Nat → Datum) (w : World) (m : Map Value Value) : Prop where
  sound : m.Sound (w.matching inside)
  finite : ∀ e ∈ m.toList, ∃ d, ComesTo inside w e.1 d

namespace Map.Stored

theorem updated (hm : m.Stored inside w) (hkey : ComesTo inside w key d)
    (hu : Map.Updated (w.matching inside) m key val m') : m'.Stored inside w :=
  ⟨hu.sound, hu.forall_keys (P := fun v => ∃ d, ComesTo inside w v d) hm.finite ⟨d, hkey⟩⟩

theorem dissocIn (hm : m.Stored inside w) (hw : Orderly w) (key : Value) :
    (m.dissocIn (w.matching inside) key).Stored inside w :=
  have hK := World.coherent_matching inside hw
  ⟨hm.sound.dissocIn hK key,
    forall_keys_dissocIn (P := fun v => ∃ d, ComesTo inside w v d) hK hm.sound hm.finite key⟩

/-- What is realized in the meantime changes nothing. -/
theorem later {w' : World} (hm : m.Stored inside w) (hw : Orderly w) (hev : Evolves w w') :
    m.Stored inside w' := by
  have hK := World.tells_matching inside hw
  have hK' := World.tells_matching inside (hev.orderly hw)
  have hdistinct : (w'.matching inside).Distinct m.toList := by
    refine hm.sound.distinct.imp_of_mem fun {x y} hx hy h => ?_
    obtain ⟨d, hd⟩ := hm.finite x hx
    obtain ⟨e, he⟩ := hm.finite y hy
    rw [hK.same_eq ⟨d, hd⟩ hd he] at h
    have hd' := hd.later hw hev
    exact (hK'.same_eq ⟨d, hd'⟩ hd' (he.later hw hev)).trans h
  refine ⟨?_, fun e he => (hm.finite e he).imp fun _ h => h.later hw hev⟩
  cases m with
  | small entries => exact hdistinct
  | hashed h =>
    refine ⟨Node.Routed.congr h.root (fun e he => ?_) hm.sound.routed, hdistinct, hm.sound.count_eq⟩
    obtain ⟨d, hd⟩ := hm.finite e he
    exact (hK.hash_eq hd).trans (hK'.hash_eq (hd.later hw hev)).symm

/-- Every finite map is such a map. -/
theorem of_comesTo (hw : Orderly w) (hm : ComesTo inside w (.map m) d) : m.Stored inside w :=
  ⟨(World.tells_matching inside hw).sound_of_comesTo hm hm.key_finite, hm.key_finite⟩

/-- Pairs of finite keys, no two of which are equal, make such maps. -/
theorem built (hw : Orderly w) (hp : ∀ e ∈ pairs, ∃ d, ComesTo inside w e.1 d)
    (hd : pairs.Pairwise fun x y => Compares w x.1 y.1 false) :
    ∃ h, (Map.smallOfPairs pairs).Settles w (.small pairs.toArray) ∧
      (Map.hashedOfPairs pairs).Settles w (.hashed h) ∧ h.toList.Perm pairs ∧
      (Map.small pairs.toArray).Stored inside w ∧ (Map.hashed h).Stored inside w := by
  have hK := World.tells_matching inside hw
  have hdistinct : (w.matching inside).Distinct pairs := by
    refine hd.imp_of_mem fun {x y} hx hy h => ?_
    obtain ⟨d, hd⟩ := hp x hx
    obtain ⟨e, he⟩ := hp y hy
    rw [hK.same_eq ⟨d, hd⟩ hd he]
    exact (compares_iff hw hd he).mp h
  obtain ⟨hsmall, hhashed⟩ := build_settles hK hdistinct hp
  obtain ⟨hs, hperm⟩ := HashMap.sound_empty.assocEach (m := HashMap.empty) hK.coherent hdistinct
  exact ⟨_, hsmall, hhashed, hperm, ⟨hdistinct, hp⟩, hs, fun e he => hp e (hperm.subset he)⟩

end Map.Stored

/-- A key that was put into a map is found and removed there just when it is equal to itself, that is when
nothing in it has failed outside markers. Let a map of either representation have finite keys, all
different, and let a finite key be put. If the key is equal to itself, its value is found and the key is
contained, putting it again leaves the number of entries as it is, and once removed it is gone. If not,
it is not found or contained, putting it again adds another entry, and removing it changes nothing. -/
theorem stored_keys_found_iff (hw : Reached w) (hm : m.Stored inside w)
    (hkey : ComesTo inside w key d) (val : Value) :
    ∃ r m₁, Compares w key key r ∧ (r = true ↔ d.Steady) ∧
      (m.assoc key val).Settles w m₁ ∧ m₁.Stored inside w ∧
      (m₁.find? key).Settles w (if r then some val else none) ∧ (m₁.contains key).Settles w r ∧
      (∀ val', ∃ m₂, (m₁.assoc key val').Settles w m₂ ∧ m₂.Stored inside w ∧
        m₂.count = if r then m₁.count else m₁.count + 1) ∧
      ∃ m₃, (m₁.dissoc key).Settles w m₃ ∧ m₃.Stored inside w ∧ (m₃.contains key).Settles w false ∧
        (r = false → m₃ = m₁) := by
  have hw := hw.orderly
  have hK := World.tells_matching inside hw
  have hcoherent := hK.coherent
  have hself : (w.matching inside).same key key = d.same d := hK.same_eq ⟨d, hkey⟩ hkey hkey
  have hu := Map.updated_assocIn hcoherent hm.sound key val
  have hm₁ := hm.updated hkey hu
  have hget : (w.matching inside).get? key (m.assocIn (w.matching inside) key val).toList =
      if d.same d then some val else none := by
    rw [hu.get? hcoherent, hself]
    split_ifs with hs
    · rfl
    · rw [Bool.not_eq_true, ← hself] at hs
      exact Keying.get?_eq_none (hcoherent.hasKey_of_not_same hs _)
  have hhas : (w.matching inside).hasKey key (m.assocIn (w.matching inside) key val).toList =
      d.same d := by
    rw [← Keying.isSome_get?, hget]
    cases d.same d <;> rfl
  refine ⟨d.same d, _, (compares_iff hw hkey hkey).mpr rfl, hkey.proper.same_self_iff,
    hK.assoc_settles hm.sound hm.finite ⟨d, hkey⟩ val, hm₁, ?_, ?_, fun val' => ?_, ?_⟩
  · rw [← hget]
    exact hK.find?_settles hm₁.sound hm₁.finite ⟨d, hkey⟩
  · rw [← hhas]
    exact hK.contains_settles hm₁.sound hm₁.finite ⟨d, hkey⟩
  · have hu' := Map.updated_assocIn hcoherent hm₁.sound key val'
    refine ⟨_, hK.assoc_settles hm₁.sound hm₁.finite ⟨d, hkey⟩ val', hm₁.updated hkey hu', ?_⟩
    rw [hu'.count hcoherent hm₁.sound, hhas]
  · have hm₃ := hm₁.dissocIn hw key
    have habsent := hK.contains_settles hm₃.sound hm₃.finite ⟨d, hkey⟩
    rw [Map.toList_dissocIn hcoherent hm₁.sound, Keying.hasKey_without] at habsent
    exact ⟨_, hK.dissoc_settles hm₁.finite ⟨d, hkey⟩, hm₃, habsent, fun hr =>
      Map.dissocIn_of_not_hasKey hcoherent hm₁.sound (hhas.trans hr)⟩

/-- A world with a lazy sequence whose producer fails. -/
def broken : World := { lazies := #[⟨.ready (.fail (.unboundVar "user/x")), none⟩] }

theorem reached_broken : Reached broken :=
  ⟨{}, rfl, .make (n := 0) (l := ⟨0⟩) (p := .fail (.unboundVar "user/x")) (.refl _) rfl⟩

theorem comesTo_brokenLazy :
    ComesTo (fun _ => .items [] true) broken (.lazy ⟨0⟩) (.items [] true) :=
  ⟨2, .sequential (Nat.lt_succ_self 1) rfl trivial (.ready (Nat.lt_succ_self 0) rfl .fail)⟩

/-- In a map that holds a failing sequence twice a number is found once it is put, and the sequence is not
found when it is put once more. -/
theorem stored_keys_found_iff_broken :
    let m : Map Value Value := .small #[(.lazy ⟨0⟩, .int 1), (.lazy ⟨0⟩, .int 2)]
    m.Stored (fun _ => .items [] true) broken ∧
      (∃ m₁, (m.assoc (.int 5) (.int 3)).Settles broken m₁ ∧
        (m₁.find? (.int 5)).Settles broken (some (.int 3))) ∧
      ∃ m₁, (m.assoc (.lazy ⟨0⟩) (.int 3)).Settles broken m₁ ∧
        (m₁.find? (.lazy ⟨0⟩)).Settles broken none := by
  intro m
  have hw := reached_broken.orderly
  have hlazy := comesTo_brokenLazy
  have hfive : ComesTo (fun _ => .items [] true) broken (.int 5) (.atom (.int 5)) := ⟨0, .atom rfl⟩
  have hkeys : ∀ e ∈ m.toList, ∃ d, ComesTo (fun _ => .items [] true) broken e.1 d := by
    simp [m, Map.toList, show ∃ d, ComesTo _ _ _ d from ⟨_, hlazy⟩]
  have hm : m.Stored (fun _ => .items [] true) broken := by
    refine ⟨List.pairwise_pair.mpr ?_, hkeys⟩
    rw [(World.tells_matching _ hw).same_eq ⟨_, hlazy⟩ hlazy hlazy, Datum.same]
    rfl
  obtain ⟨r, m₁, -, hr, hassoc, -, hfind, -⟩ :=
    stored_keys_found_iff reached_broken hm hfive (.int 3)
  obtain ⟨r', m₂, -, hr', hassoc', -, hfind', -⟩ :=
    stored_keys_found_iff reached_broken hm hlazy (.int 3)
  refine ⟨hm, ⟨m₁, hassoc, ?_⟩, m₂, hassoc', ?_⟩
  · rwa [if_pos (hr.mpr (.atom _))] at hfind
  · have hfailed : ¬ r' = true := by
      intro h
      cases hr'.mp h
    rwa [if_neg hfailed] at hfind'

/-- A failing lazy sequence is a key that a map of either representation takes, but it is not equal to
itself: it is not found, and put twice it makes two entries. -/
theorem failed_key_not_found : Reached broken ∧
    ComesTo (fun _ => .items [] true) broken (.lazy ⟨0⟩) (.items [] true) ∧
    ∀ m ∈ [Map.empty, .hashed .empty], m.Stored (fun _ => .items [] true) broken ∧
      ∃ w', (do
        let m₁ ← m.assoc (.lazy ⟨0⟩) (.int 1)
        let found ← m₁.find? (.lazy ⟨0⟩)
        let present ← m₁.contains (.lazy ⟨0⟩)
        let m₂ ← m₁.assoc (.lazy ⟨0⟩) (.int 2)
        let m₃ ← m₁.dissoc (.lazy ⟨0⟩)
        let same ← (Value.lazy ⟨0⟩).same (.lazy ⟨0⟩)
        return (found, present, m₁.count, m₂.count, m₃.count, same) : Act _) 10 broken =
          .ok (none, false, 1, 2, 1, false) w' := by
  refine ⟨reached_broken, comesTo_brokenLazy, ?_⟩
  simp only [List.forall_mem_cons, List.not_mem_nil, false_implies, implies_true, and_true]
  exact ⟨⟨⟨.nil, List.forall_mem_nil _⟩, _, rfl⟩,
    ⟨HashMap.sound_empty, List.forall_mem_nil _⟩, _, rfl⟩

end LispCore
