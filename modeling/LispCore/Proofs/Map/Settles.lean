import LispCore.Collection.Basic
import LispCore.Proofs.Map.Keyed
import LispCore.Proofs.Value.Settles
/-!
Operations on maps. Where a keying tells how the stored keys compare, comparing a key with them settles,
so every operation does: lookups on what the entries have at the key, updates on the map that the keying
makes (`Keying.Tells`). For a map of regular keys (`Map.Keyed`) this is the keying of the world, and such
a map stays one (`Keyed.updated`, `Keyed.dissocIn`).
-/

namespace LispCore

variable {α β : Type} {inside : Nat → Datum} {w w' : World} {n : Nat} {key key' val u v : Value}
  {m m' : Map Value Value} {xs : List (Value × Value)} {K : Keying Value} {P : Value → Prop}

/-- Bounds for each of some things give one bound for all of them. -/
theorem exists_bound {P : α → Nat → Prop} : ∀ {xs : List α},
    (∀ x ∈ xs, ∃ N, ∀ n ≥ N, P x n) → ∃ N, ∀ n ≥ N, ∀ x ∈ xs, P x n
  | [], _ => ⟨0, nofun⟩
  | x :: xs, h => by
    obtain ⟨N, hx⟩ := h x (List.mem_cons_self ..)
    obtain ⟨N', hxs⟩ := exists_bound fun x hx => h x (List.mem_cons_of_mem _ hx)
    refine ⟨max N N', fun n hn y hy => ?_⟩
    rcases List.mem_cons.mp hy with rfl | hy
    · exact hx n (Nat.le_trans (Nat.le_max_left ..) hn)
    · exact hxs n (Nat.le_trans (Nat.le_max_right ..) hn) y hy

/-! ### Comparing with stored keys -/

/-- The keying that an operation reads off a world. -/
def World.peeked (n : Nat) (w : World) : Keying Value :=
  ⟨fun u v => (u.same v).peek n w false, fun v => v.hash.peek n w 0⟩

/-- An action that reads the keying of the world settles when what it makes of it does not change. -/
theorem Act.Settles.keying {F : Keying Value → β} {b : β}
    (h : ∃ N, ∀ n ≥ N, ∀ w', Evolves w w' → F (w'.peeked n) = b) :
    (do let K ← Act.keying Value.same Value.hash; return F K).Settles w b := by
  obtain ⟨N, h⟩ := h
  exact ⟨N, fun n hn w' hev => ⟨_, w', rfl, .refl w', h n hn w' hev⟩⟩

namespace Keying.Tells

variable (hK : K.Tells inside w P)
include hK

theorem compare_settles (hu : P u) (hv : ∃ d, ComesTo inside w v d) :
    (u.same v).Settles w (K.same u v) := by
  obtain ⟨d, hd⟩ := hK.finite hu
  obtain ⟨e, he⟩ := hv
  rw [hK.same_eq hu hd he]
  exact same_settles hK.orderly hd he

theorem hash_settles (hv : ∃ d, ComesTo inside w v d) : v.hash.Settles w (K.hash v) := by
  obtain ⟨d, hd⟩ := hv
  rw [hK.hash_eq hd]
  exact LispCore.hash_settles hK.orderly hd

/-- Stored keys compare with a finite one, and hash, for an operation as for the keying. -/
theorem peeked_agrees (hxs : ∀ e ∈ xs, P e.1) (hkey : ∃ d, ComesTo inside w key d) :
    ∃ N, ∀ n ≥ N, ∀ w', Evolves w w' → (w'.peeked n).Agree K key key xs := by
  have hstored : ∃ N, ∀ n ≥ N, ∀ e ∈ xs, ∀ w', Evolves w w' →
      (w'.peeked n).same e.1 key = K.same e.1 key ∧ (w'.peeked n).hash e.1 = K.hash e.1 := by
    refine exists_bound fun e he => ?_
    obtain ⟨N, hsame⟩ := hK.compare_settles (hxs e he) hkey
    obtain ⟨N', hhash⟩ := hK.hash_settles (hK.finite (hxs e he))
    refine ⟨max N N', fun n hn w' hev => ⟨?_, ?_⟩⟩
    · exact (hsame n (Nat.le_trans (Nat.le_max_left ..) hn) w' hev).peek
    · exact (hhash n (Nat.le_trans (Nat.le_max_right ..) hn) w' hev).peek
  obtain ⟨N, hstored⟩ := hstored
  obtain ⟨N', hhash⟩ := hK.hash_settles hkey
  refine ⟨max N N', fun n hn w' hev => ⟨?_, fun e he => ?_, fun e he => ?_⟩⟩
  · exact (hhash n (Nat.le_trans (Nat.le_max_right ..) hn) w' hev).peek
  · exact (hstored n (Nat.le_trans (Nat.le_max_left ..) hn) e he w' hev).1
  · exact (hstored n (Nat.le_trans (Nat.le_max_left ..) hn) e he w' hev).2

theorem indexFrom_settles (hkey : ∃ d, ComesTo inside w key d) :
    ∀ {xs : List (Value × Value)} (i : Nat), (∀ e ∈ xs, P e.1) →
      (Map.indexFrom Value.same key i xs).Settles w
        ((xs.findIdx? fun e => K.same e.1 key).map (· + i))
  | [], _, _ => .pure none w
  | x :: xs, i, hxs => by
    refine (hK.compare_settles (hxs x (List.mem_cons_self ..)) hkey).bind ?_
    rw [List.findIdx?_cons]
    cases K.same x.1 key with
    | true => simpa using Act.Settles.pure (some i) w
    | false =>
      have ih := indexFrom_settles hkey (i + 1) fun e he => hxs e (List.mem_cons_of_mem _ he)
      simpa [Function.comp_def, Nat.add_assoc, Nat.add_comm 1] using ih

/-- The index of a key in a small map. -/
theorem index_settles (hkey : ∃ d, ComesTo inside w key d) {entries : Array (Value × Value)}
    (h : ∀ e ∈ (Map.small entries).toList, P e.1) :
    (Map.indexFrom Value.same key 0 entries.toList).Settles w
      (entries.toList.findIdx? fun e => K.same e.1 key) := by
  simpa [Map.toList] using hK.indexFrom_settles hkey 0 h

/-! ### Hashed maps -/

section Hashed

variable {h : HashMap Value Value}

theorem put_settles (hm : ∀ e ∈ h.toList, P e.1) (hkey : ∃ d, ComesTo inside w key d)
    (val : Value) : (h.put key val).Settles w (h.insert K key val) := by
  refine (hK.hash_settles hkey).bind (.keying ?_)
  obtain ⟨N, hN⟩ := hK.peeked_agrees hm hkey
  exact ⟨N, fun n hn w' hev => HashMap.insert_congr val (hN n hn w' hev)⟩

theorem remove_settles (hm : ∀ e ∈ h.toList, P e.1) (hkey : ∃ d, ComesTo inside w key d) :
    (h.remove key).Settles w (h.dissoc K key) := by
  refine (hK.hash_settles hkey).bind (.keying ?_)
  obtain ⟨N, hN⟩ := hK.peeked_agrees hm hkey
  exact ⟨N, fun n hn w' hev => HashMap.dissoc_congr (hN n hn w' hev)⟩

/-- Additions of keys of the kind leave only such keys. -/
theorem keys_assoc (hm : h.Sound K) (hr : ∀ e ∈ h.toList, P e.1) (hkey : P key) (val : Value) :
    ∀ e ∈ (h.assoc K key val).toList, P e.1 := by
  intro e he
  have hp := hm.toList_assoc hK.coherent key val
  rcases List.mem_cons.mp (hp.subset he) with rfl | he
  · exact hkey
  · exact hr e (Keying.mem_of_mem_without he)

theorem putAll_settles : ∀ {xs : List (Value × Value)} {h : HashMap Value Value}, h.Sound K →
    (∀ e ∈ h.toList, P e.1) → (∀ e ∈ xs, P e.1) → (h.putAll xs).Settles w (h.assocEach K xs)
  | [], h, _, _, _ => .pure h w
  | x :: xs, h, hm, hr, hxs => by
    have hx := hxs x (List.mem_cons_self ..)
    refine (hK.put_settles hr (hK.finite hx) x.2).bind ?_
    exact putAll_settles (hm.assoc hK.coherent x.1 x.2) (hK.keys_assoc hm hr hx x.2)
      fun e he => hxs e (List.mem_cons_of_mem _ he)

end Hashed

/-! ### Maps -/

/-- A lookup settles on what the entries have at the key. -/
theorem find?_settles (hs : m.Sound K) (hm : ∀ e ∈ m.toList, P e.1)
    (hkey : ∃ d, ComesTo inside w key d) : (m.find? key).Settles w (K.get? key m.toList) := by
  cases m with
  | small entries =>
    refine (hK.index_settles hkey hm).bind ?_
    rw [Keying.get?, List.find?_eq_bind_findIdx?_getElem?, Map.toList]
    cases entries.toList.findIdx? fun e => K.same e.1 key with
    | none => exact .pure none w
    | some i => simpa using Act.Settles.pure (entries[i]?.map (·.2)) w
  | hashed h =>
    refine (hK.hash_settles hkey).bind (.keying ?_)
    obtain ⟨N, hN⟩ := hK.peeked_agrees hm hkey
    exact ⟨N, fun n hn w' hev =>
      HashMap.Sound.find?_agree hs hK.coherent (hN n hn w' hev)⟩

theorem contains_settles (hs : m.Sound K) (hm : ∀ e ∈ m.toList, P e.1)
    (hkey : ∃ d, ComesTo inside w key d) : (m.contains key).Settles w (K.hasKey key m.toList) := by
  rw [← Keying.isSome_get?]
  exact (hK.find?_settles hs hm hkey).bind (.pure _ w)

/-- An addition settles on the map that the keying makes. -/
theorem assoc_settles (hs : m.Sound K) (hm : ∀ e ∈ m.toList, P e.1)
    (hkey : ∃ d, ComesTo inside w key d) (val : Value) :
    (m.assoc key val).Settles w (m.assocIn K key val) := by
  cases m with
  | hashed h => exact (hK.put_settles hm hkey val).bind (.pure _ w)
  | small entries =>
    refine (hK.index_settles hkey hm).bind ?_
    rw [Map.assocIn]
    cases hi : entries.toList.findIdx? fun e => K.same e.1 key with
    | some i => exact .pure _ w
    | none =>
      by_cases hfull : Map.smallLimit ≤ entries.size
      · simp only [if_pos hfull]
        have hdistinct : K.Distinct (HashMap.empty.toList ++ entries.toList) := hs
        obtain ⟨-, hp⟩ := HashMap.sound_empty.assocEach hK.coherent hdistinct
        have hempty : ∀ e ∈ (HashMap.empty : HashMap Value Value).toList, P e.1 :=
          List.forall_mem_nil _
        refine (hK.putAll_settles HashMap.sound_empty hempty hm).bind ?_
        exact (hK.put_settles (fun e he => hm e (hp.subset he)) hkey val).bind (.pure _ w)
      · simp only [if_neg hfull]
        exact .pure _ w

/-- A removal settles on the map that the keying makes. -/
theorem dissoc_settles (hm : ∀ e ∈ m.toList, P e.1) (hkey : ∃ d, ComesTo inside w key d) :
    (m.dissoc key).Settles w (m.dissocIn K key) := by
  cases m with
  | hashed h => exact (hK.remove_settles hm hkey).bind (.pure _ w)
  | small entries =>
    refine (hK.index_settles hkey hm).bind ?_
    rw [Map.dissocIn]
    cases hi : entries.toList.findIdx? fun e => K.same e.1 key with
    | some i => exact .pure _ w
    | none => exact .pure _ w

end Keying.Tells

/-! ### Maps of regular keys -/

/-- A map of regular keys that are all different. -/
structure Map.Keyed (inside : Nat → Datum) (w : World) (m : Map Value Value) : Prop where
  sound : m.Sound (w.keying inside)
  regular : ∀ e ∈ m.toList, Regular inside w e.1

namespace Map.Keyed

theorem updated (hm : m.Keyed inside w) (hkey : Regular inside w key)
    (hu : Map.Updated (w.keying inside) m key val m') : m'.Keyed inside w :=
  ⟨hu.sound, hu.forall_keys hm.regular hkey⟩

theorem dissocIn (hm : m.Keyed inside w) (hw : Orderly w) (key : Value) :
    (m.dissocIn (w.keying inside) key).Keyed inside w :=
  have hK := World.lawful_keying inside hw
  ⟨hm.sound.dissocIn hK key, forall_keys_dissocIn hK hm.sound hm.regular key⟩

variable (hm : m.Keyed inside w) (hw : Orderly w)
include hm hw

theorem find?_settles (hkey : ∃ d, ComesTo inside w key d) :
    (m.find? key).Settles w ((w.keying inside).get? key m.toList) :=
  (World.tells_keying inside hw).find?_settles hm.sound hm.regular hkey

theorem contains_settles (hkey : ∃ d, ComesTo inside w key d) :
    (m.contains key).Settles w ((w.keying inside).hasKey key m.toList) :=
  (World.tells_keying inside hw).contains_settles hm.sound hm.regular hkey

theorem assoc_settles (hkey : Regular inside w key) (val : Value) :
    (m.assoc key val).Settles w (m.assocIn (w.keying inside) key val) :=
  (World.tells_keying inside hw).assoc_settles hm.sound hm.regular hkey.finite val

theorem dissoc_settles (hkey : ∃ d, ComesTo inside w key d) :
    (m.dissoc key).Settles w (m.dissocIn (w.keying inside) key) :=
  (World.tells_keying inside hw).dissoc_settles hm.regular hkey

end Map.Keyed

end LispCore
