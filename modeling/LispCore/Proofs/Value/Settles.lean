import LispCore.Proofs.Trie.FiniteMap
import LispCore.Proofs.Value.Equality
/-!
Results that last. An action settles on a result when it gives that result from here on, whatever is
realized in between (`Act.Settles`). Comparing and hashing finite values settles, so the values that are
finite and equal to themselves are keys (`Regular`): equality is an equivalence on them that hashes
respect (`World.lawful_keying`).
-/

namespace LispCore

variable {α β : Type} {inside : Nat → Datum} {w w' : World} {u v : Value} {d e : Datum}

/-- The action gives this result from here on: in every world that follows, with enough budget. -/
def Act.Settles (x : Act α) (w : World) (a : α) : Prop :=
  ∃ N, ∀ n ≥ N, ∀ w', Evolves w w' → Gives x n w' fun b _ => b = a

namespace Act.Settles

variable {x : Act α} {f : α → Act β} {a a' : α} {b : β}

theorem pure (a : α) (w : World) : (Pure.pure a : Act α).Settles w a :=
  ⟨0, fun _ _ _ _ => .pure rfl⟩

theorem later (h : x.Settles w a) (hev : Evolves w w') : x.Settles w' a := by
  obtain ⟨N, h⟩ := h
  exact ⟨N, fun n hn w'' hev' => h n hn w'' (hev.trans hev')⟩

theorem bind (hx : x.Settles w a) (hf : (f a).Settles w b) : (x >>= f).Settles w b := by
  obtain ⟨N, hx⟩ := hx
  obtain ⟨N', hf⟩ := hf
  refine ⟨max N N', fun n hn w' hev => ?_⟩
  refine (hx n (Nat.le_trans (Nat.le_max_left ..) hn) w' hev).bind fun c w'' hev' hc => ?_
  rw [hc]
  exact hf n (Nat.le_trans (Nat.le_max_right ..) hn) w'' (hev.trans hev')

theorem unique (h : x.Settles w a) (h' : x.Settles w a') : a = a' := by
  obtain ⟨N, h⟩ := h
  obtain ⟨N', h'⟩ := h'
  obtain ⟨c, w₁, hc, -, rfl⟩ := h (max N N') (Nat.le_max_left ..) w (.refl w)
  obtain ⟨c', w₂, hc', -, rfl⟩ := h' (max N N') (Nat.le_max_right ..) w (.refl w)
  rw [hc] at hc'
  cases hc'
  rfl

/-- An action whose result looks at the budget settles when the rest does. -/
theorem budget {f : Nat → Act β}
    (h : ∃ N, ∀ n ≥ N, ∀ w', Evolves w w' → Gives (f n) n w' fun c _ => c = b) :
    (Act.budget >>= f).Settles w b := by
  obtain ⟨N, h⟩ := h
  exact ⟨N, fun n hn w' hev => h n hn w' hev⟩

end Act.Settles

/-! ### Finite values -/

/-- A finite value feeds the tokens of its datum from here on. -/
theorem feed_settles (digest : Array Token → UInt64) (hw : Orderly w) (h : ComesTo inside w v d) :
    (v.feed digest).Settles w (d.feed digest) := by
  obtain ⟨k, h⟩ := h
  refine .budget ⟨k + 2, fun n hn w' hev => ?_⟩
  exact feedAt_gives (by omega) (by omega) (by omega) w' v d (hev.orderly hw) (hev.means hw h)

theorem hash_settles (hw : Orderly w) (h : ComesTo inside w v d) : v.hash.Settles w d.hash :=
  (feed_settles Token.digest hw h).bind (.pure _ w)

theorem same_settles (hw : Orderly w) (hu : ComesTo inside w u d) (hv : ComesTo inside w v e) :
    (u.same v).Settles w (d.same e) :=
  (compares_iff hw hu hv).mpr rfl

theorem ComesTo.proper (h : ComesTo inside w v d) : d.Proper inside :=
  h.elim fun _ h => h.proper

theorem ComesTo.later (h : ComesTo inside w v d) (hw : Orderly w) (hev : Evolves w w') :
    ComesTo inside w' v d :=
  h.imp fun _ h => hev.means hw h

/-! ### Regular values -/

/-- The value is finite and equal to itself. -/
structure Regular (inside : Nat → Datum) (w : World) (v : Value) : Prop where
  finite : ∃ d, ComesTo inside w v d
  same : Compares w v v true

theorem regular_iff (hw : Orderly w) (h : ComesTo inside w v d) :
    Regular inside w v ↔ d.same d = true :=
  ⟨fun hr => (compares_iff hw h h).mp hr.same, fun hs => ⟨⟨d, h⟩, (compares_iff hw h h).mpr hs⟩⟩

theorem Regular.of_atom {a : Atom} (hw : Orderly w) (h : v.atom? = some a) : Regular inside w v :=
  (regular_iff hw ⟨0, .atom h⟩).mpr (Datum.Whole.atom a).refl

theorem Regular.later (h : Regular inside w v) (hw : Orderly w) (hev : Evolves w w') :
    Regular inside w' v :=
  ⟨h.finite.imp fun _ h => h.later hw hev, Act.Settles.later h.same hev⟩

/-- Finite values that are equal are regular. -/
theorem Regular.of_compares (hw : Orderly w) (hu : ComesTo inside w u d) (hv : ComesTo inside w v e)
    (h : Compares w u v true) : Regular inside w u ∧ Regular inside w v := by
  have hs := (compares_iff hw hu hv).mp h
  have hs' := hu.proper.symm hv.proper hs
  exact ⟨(regular_iff hw hu).mpr (hu.proper.same_self hv.proper hs),
    (regular_iff hw hv).mpr (hv.proper.same_self hu.proper hs')⟩

open Classical in
/-- How regular values compare and hash from here on. Any other value is told from all but itself. -/
noncomputable def World.keying (inside : Nat → Datum) (w : World) : Keying Value where
  same u v := decide (u = v ∨ Regular inside w u ∧ Regular inside w v ∧ Compares w u v true)
  hash v := Classical.epsilon fun x => v.hash.Settles w x

namespace World

open Classical in
theorem keying_same : (w.keying inside).same u v = true ↔
    u = v ∨ Regular inside w u ∧ Regular inside w v ∧ Compares w u v true :=
  decide_eq_true_iff

theorem keying_hash (hw : Orderly w) (h : ComesTo inside w v d) :
    (w.keying inside).hash v = d.hash := by
  have hsettles : v.hash.Settles w ((w.keying inside).hash v) :=
    Classical.epsilon_spec (p := fun x => v.hash.Settles w x) ⟨_, hash_settles hw h⟩
  exact hsettles.unique (hash_settles hw h)

/-- When one of two finite values is regular, they compare as they do for the keying. -/
theorem keying_same_eq (hw : Orderly w) (hu : ComesTo inside w u d) (hv : ComesTo inside w v e)
    (hr : Regular inside w u ∨ Regular inside w v) : (w.keying inside).same u v = d.same e := by
  rw [Bool.eq_iff_iff, keying_same, ← compares_iff hw hu hv]
  constructor
  · rintro (rfl | ⟨-, -, h⟩)
    · exact hr.elim Regular.same Regular.same
    · exact h
  · intro h
    obtain ⟨hru, hrv⟩ := Regular.of_compares hw hu hv h
    exact .inr ⟨hru, hrv, h⟩

theorem keying_same_false (hw : Orderly w) (hu : Regular inside w u) (hv : ComesTo inside w v e)
    (h : Compares w u v false) : (w.keying inside).same u v = false := by
  obtain ⟨d, hd⟩ := hu.finite
  rw [keying_same_eq hw hd hv (.inl hu)]
  exact (compares_iff hw hd hv).mp h

/-- On regular values equality is an equivalence, and equal ones have one hash. -/
theorem lawful_keying (inside : Nat → Datum) (hw : Orderly w) : (w.keying inside).Lawful where
  refl _ := keying_same.mpr (.inl rfl)
  symm h := by
    rcases keying_same.mp h with rfl | ⟨hu, hv, h⟩
    · exact keying_same.mpr (.inl rfl)
    · obtain ⟨du, hdu⟩ := hu.finite
      obtain ⟨dv, hdv⟩ := hv.finite
      have hs := hdu.proper.symm hdv.proper ((compares_iff hw hdu hdv).mp h)
      exact keying_same.mpr (.inr ⟨hv, hu, (compares_iff hw hdv hdu).mpr hs⟩)
  trans h h' := by
    rcases keying_same.mp h with rfl | ⟨hu, hv, h⟩
    · exact h'
    · rcases keying_same.mp h' with rfl | ⟨-, ht, h'⟩
      · exact keying_same.mpr (.inr ⟨hu, hv, h⟩)
      · obtain ⟨du, hdu⟩ := hu.finite
        obtain ⟨dv, hdv⟩ := hv.finite
        obtain ⟨dt, hdt⟩ := ht.finite
        have hs := hdu.proper.trans hdv.proper hdt.proper ((compares_iff hw hdu hdv).mp h)
          ((compares_iff hw hdv hdt).mp h')
        exact keying_same.mpr (.inr ⟨hu, ht, (compares_iff hw hdu hdt).mpr hs⟩)
  hash_eq h := by
    rcases keying_same.mp h with rfl | ⟨hu, hv, h⟩
    · rfl
    · obtain ⟨du, hdu⟩ := hu.finite
      obtain ⟨dv, hdv⟩ := hv.finite
      rw [keying_hash hw hdu, keying_hash hw hdv]
      exact hdu.proper.hash_eq hdv.proper ((compares_iff hw hdu hdv).mp h)

end World

/-- What a keying tells of a world: values of this kind are finite, and compare with finite values, and
hash, as their data do. -/
structure Keying.Tells (K : Keying Value) (inside : Nat → Datum) (w : World) (P : Value → Prop) :
    Prop where
  orderly : Orderly w
  coherent : K.Coherent
  finite : ∀ {v}, P v → ∃ d, ComesTo inside w v d
  same_eq : ∀ {u v d e}, P u → ComesTo inside w u d → ComesTo inside w v e → K.same u v = d.same e
  hash_eq : ∀ {v d}, ComesTo inside w v d → K.hash v = d.hash

theorem World.tells_keying (inside : Nat → Datum) (hw : Orderly w) :
    (w.keying inside).Tells inside w (Regular inside w) where
  orderly := hw
  coherent := World.lawful_keying inside hw
  finite := Regular.finite
  same_eq hr hu hv := World.keying_same_eq hw hu hv (.inl hr)
  hash_eq := World.keying_hash hw

end LispCore
