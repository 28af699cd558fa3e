import LispCore.Proofs.Value.Walks
/-!
Hashing and looking up finite values. A value feeds the tokens of its datum (`feedAt_gives`), so its
hash is that of the datum. Looking a key up in a map gives the value behind the key that comes to an
equal datum, whatever the representation of the map (`findWith?_gives`): equal data have one hash,
and the entries of a hashed map are where those hashes say.
-/

namespace LispCore

variable {inside : Nat → Datum} {w w' : World} {n k : Nat} {ds : List Datum} {f : Bool}
  {digest : Array Token → UInt64} {feed : Value → Act (Array Token)}

/-! ### Feeding -/

/-- Values feed the tokens of their data, when their readings are this low. -/
def Feeds (inside : Nat → Datum) (digest : Array Token → UInt64) (feed : Value → Act (Array Token))
    (n k : Nat) : Prop :=
  ∀ w x d, Orderly w → Means inside w k (.value x) d →
    Gives (feed x) n w fun ts _ => ts = d.feed digest

theorem Feeds.mono {i : Nat} (h : Feeds inside digest feed n k) (hi : i ≤ k) :
    Feeds inside digest feed n i :=
  fun w x d hw hx => h w x d hw (hx.mono hi)

/-- A walk feeds the tokens of the elements that are left. -/
theorem feedItems_gives (hn : 2 ≤ n) : ∀ {rounds k : Nat} {w : World} {ds : List Datum} {f : Bool}
    {r : Realized} (out : Array Token), Feeds inside digest feed n k → Orderly w → k < rounds →
    k < n → Means inside w k (.outcome r) (.items ds f) →
    Gives (Value.feedItems feed rounds out (.onto r)) n w fun ts _ =>
      ts = out ++ Datum.feedAll digest ds
  | 0, _, _, _, _, _, _, _, _, hk, _, _ => absurd hk (Nat.not_lt_zero _)
  | rounds + 1, k, w, _, _, _, out, hs, hw, hk, hkn, h => by
    refine (pull_gives hw hn hkn h).bind fun res w₁ hev hp => ?_
    have hw₁ := hev.orderly hw
    cases hp with
    | done | failed => exact .pure (by simp [Datum.feedAll])
    | @next i x r d ds f hi hx h =>
      refine (hs w₁ x d hw₁ (hx.mono (Nat.le_of_lt hi))).bind fun ts w₂ hev' hts => ?_
      subst hts
      refine (feedItems_gives hn (out ++ d.feed digest) (hs.mono (Nat.le_of_lt hi))
        (hev'.orderly hw₁) (by omega) (by omega) (hev'.means hw₁ h)).mono fun ts _ _ hts => ?_
      rw [hts, Datum.feedAll, Array.append_assoc]

/-- Entries feed the sum of their digests. -/
theorem sumEntries_gives (hs : Feeds inside digest feed n k) : ∀ {xs : List (Value × Value)}
    {es : List (Datum × Datum)} {w : World} (sum : UInt64), Orderly w →
    Means.Entries inside w k xs es → Gives (Value.sumEntries digest feed sum xs) n w fun s _ =>
      s = sum + Datum.sumOf digest es
  | [], _, _, sum, _, .nil => .pure (by simp [Datum.sumOf])
  | x :: xs, _, w, sum, hw, .cons (b := e) ⟨hk, hv⟩ hxs => by
    refine (hs w x.1 e.1 hw hk).bind fun key w₁ hev hkey => ?_
    have hw₁ := hev.orderly hw
    refine (hs w₁ x.2 e.2 hw₁ (hev.means hw hv)).bind fun val w₂ hev' hval => ?_
    subst hkey hval
    have hev₂ := hev.trans hev'
    refine (sumEntries_gives hs (sum + digest (e.1.feed digest ++ e.2.feed digest))
      (hev₂.orderly hw) (hev₂.entries hw hxs)).mono fun s _ _ hs => ?_
    rw [hs, Datum.sumOf, Datum.digestOf, UInt64.add_assoc]

theorem feedAt_atom {v : Value} {a : Atom} (n depth : Nat) (w : World) (ha : v.atom? = some a) :
    Value.feedAt digest (depth + 1) v n w = .ok a.feed w := by
  cases v <;> cases ha <;> rfl

/-- A finite value feeds the tokens of its datum. -/
theorem feedAt_gives (hn : 2 ≤ n) : ∀ {depth k : Nat}, k < depth → k < n →
    Feeds inside digest (Value.feedAt digest depth) n k
  | 0, _, hk, _ => absurd hk (Nat.not_lt_zero _)
  | depth + 1, k, hk, hkn => by
    intro w v d hw h
    cases h with
    | @atom _ _ a ha => exact ⟨a.feed, w, feedAt_atom n depth w ha, .refl w, by rw [Datum.feed]⟩
    | @marker i _ s v d hi _ h =>
      refine (feedAt_gives hn (by omega) (by omega) w v d hw h).bind fun ts w' _ hts => .pure ?_
      rw [hts, Datum.feed]
    | @map i _ m es hi _ hl h =>
      have hs : Feeds inside digest (Value.feedAt digest depth) n i :=
        feedAt_gives hn (by omega) (by omega)
      refine (sumEntries_gives hs 0 hw h.entries).bind fun sum w' _ hsum => .pure ?_
      rw [hsum, Datum.feed, Means.count_of_laid hl h.entries, UInt64.zero_add]
    | @sequential i _ v ds f hi hv _ h =>
      rw [Value.feedAt_sequential digest depth hv]
      refine (attempt_walk_gives hw hn (by omega) h).bind fun x w₁ hev hx => ?_
      obtain ⟨r, rfl, j, hj, h⟩ := hx
      cases r with
      | error e =>
        cases h with
        | failed => exact .pure (by simp [Datum.feed, Datum.feedAll])
      | ok s =>
        have hs : Feeds inside digest (Value.feedAt digest depth) n i :=
          feedAt_gives hn (by omega) (by omega)
        refine (feedItems_gives hn #[.sequential] hs (hev.orderly hw) (by omega) (by omega)
          (h.mono (Nat.le_of_lt hj))).mono fun ts _ _ hts => ?_
        rw [hts, Datum.feed]

/-- The hash of a finite value is that of its datum. -/
theorem hash_gives {v : Value} {d : Datum} (hw : Orderly w) (hn : 2 ≤ n) (hk : k < n)
    (h : Means inside w k (.value v) d) : Gives v.hash n w fun h _ => h = d.hash := by
  refine (feedAt_gives hn hk hk w v d hw h).bind fun ts w' _ hts => .pure ?_
  rw [hts, Datum.hash]

/-! ### Looking up -/

/-- The value behind the first of the keys that comes to a datum equal to this one. -/
def located? (xs : List (Value × Value)) (es : List (Datum × Datum)) (key : Datum) : Option Value :=
  ((xs.zip es).find? fun p => p.2.1.same key).map (·.1.2)

theorem located?_cons (x : Value × Value) (xs : List (Value × Value)) (e : Datum × Datum)
    (es : List (Datum × Datum)) (key : Datum) :
    located? (x :: xs) (e :: es) key =
      if e.1.same key then some x.2 else located? xs es key := by
  cases h : e.1.same key <;> simp [located?, h]

/-- What is located comes to what is found among the data. -/
theorem located?_means (key : Datum) : ∀ {xs : List (Value × Value)} {es : List (Datum × Datum)},
    Means.Entries inside w k xs es → match located? xs es key with
      | none => Datum.found? es key = none
      | some v => ∃ d, Datum.found? es key = some d ∧ Means inside w k (.value v) d
  | [], _, .nil => rfl
  | x :: xs, e :: es, .cons hx hxs => by
    rw [located?_cons]
    cases hs : e.1.same key with
    | true => exact ⟨e.2, by simp [Datum.found?, hs], hx.2⟩
    | false =>
      have h := located?_means key hxs
      have hf : Datum.found? (e :: es) key = Datum.found? es key := by simp [Datum.found?, hs]
      simpa only [hf, Bool.false_eq_true, if_false] using h

variable {same : Value → Value → Act Bool} {key : Value} {dk : Datum}

/-- The index of a key leads to the value that is located. -/
theorem indexFrom_gives (hs : Decides inside same n k) : ∀ {xs : List (Value × Value)}
    {es : List (Datum × Datum)} {w : World} (i : Nat), Orderly w → Means.Entries inside w k xs es →
    Means inside w k (.value key) dk → Gives (Map.indexFrom same key i xs) n w fun r _ =>
      match r with
      | none => located? xs es dk = none
      | some j => i ≤ j ∧ xs[j - i]?.map (·.2) = located? xs es dk
  | [], _, _, i, _, .nil, _ => .pure rfl
  | x :: xs, _, w, i, hw, .cons (b := e) ⟨hk, hv⟩ hxs, hkey => by
    refine (hs w x.1 key e.1 dk hw hk hkey).bind fun b w₁ hev hb => ?_
    subst hb
    cases hd : e.1.same dk with
    | true => exact .pure ⟨Nat.le_refl i, by simp [located?_cons, hd]⟩
    | false =>
      refine (indexFrom_gives hs (i + 1) (hev.orderly hw) (hev.entries hw hxs)
        (hev.means hw hkey)).mono fun r _ _ hr => ?_
      rw [located?_cons, hd]
      cases r with
      | none => exact hr
      | some j =>
        obtain ⟨hj, hr⟩ := hr
        refine ⟨by omega, ?_⟩
        rw [show j - i = j - (i + 1) + 1 by omega, List.getElem?_cons_succ]
        exact hr

theorem Gives.peek {α : Type} {x : Act α} {a b : α} (h : Gives x n w fun r _ => r = a) :
    x.peek n w b = a := by
  obtain ⟨r, w', hx, -, rfl⟩ := h
  rw [Act.peek, hx]

theorem find?_eq_located? {p : Value × Value → Bool} : ∀ {xs : List (Value × Value)}
    {es : List (Datum × Datum)}, List.Forall₂ (fun x e => p x = e.1.same dk) xs es →
    (xs.find? p).map (·.2) = located? xs es dk
  | [], _, .nil => rfl
  | x :: xs, _, .cons (b := e) hx hxs => by
    rw [located?_cons, ← hx, ← find?_eq_located? hxs]
    cases hp : p x <;> simp [hp]

/-- A hashed map that is searched in the world as it is gives what is located among its entries. -/
theorem HashMap.find?_located {m : HashMap Value Value} {es : List (Datum × Datum)}
    (hs : Decides inside same n k) (hw : Orderly w) (hn : 2 ≤ n) (hk : k < n)
    (hl : (Map.hashed m).Laid es) (hm : Means.Entries inside w k m.toList es)
    (hp : Datum.Proper inside (.table es)) (hkey : Means inside w k (.value key) dk) :
    m.find? ⟨fun a b => (same a b).peek n w false, fun a => a.hash.peek n w 0⟩ key =
      located? m.toList es dk := by
  obtain ⟨-, hash, hrouted, hhash⟩ := hl
  have hsame : List.Forall₂ (fun x e => (same x.1 key).peek n w false = e.1.same dk) m.toList es :=
    hm.imp fun x e h => (hs w x.1 key e.1 dk hw h.1 hkey).peek
  have hfound : ∀ x ∈ m.root.toList, (same x.1 key).peek n w false = true →
      hash x.1 = key.hash.peek n w 0 := by
    intro x hx hxk
    obtain ⟨i, hi, rfl⟩ := List.mem_iff_getElem.mp hx
    have hi' : i < es.length := hm.length_eq ▸ hi
    have hmem : es[i] ∈ es := List.getElem_mem hi'
    have hk₁ : (same m.toList[i].1 key).peek n w false = es[i].1.same dk :=
      (List.forall₂_iff_get.mp hsame).2 i hi hi'
    have hk₂ : hash m.toList[i].1 = es[i].1.hash := (List.forall₂_iff_get.mp hhash).2 i hi hi'
    calc hash m.toList[i].1
      _ = es[i].1.hash := hk₂
      _ = dk.hash := (hp.of_entry hmem).1.hash_eq hkey.proper (hk₁.symm.trans hxk)
      _ = key.hash.peek n w 0 := (hash_gives hw hn hk hkey).peek.symm
  rw [HashMap.find?, Node.find?_eq _ m.root hrouted hfound]
  exact find?_eq_located? hsame

/-- Looking up a key gives what is located among the entries, in either representation. -/
theorem findWith?_gives {m : Map Value Value} {es : List (Datum × Datum)}
    (hs : Decides inside same n k) (hw : Orderly w) (hn : 2 ≤ n) (hk : k < n) (hl : m.Laid es)
    (hm : Means.Entries inside w k m.toList es) (hp : Datum.Proper inside (.table es))
    (hkey : Means inside w k (.value key) dk) :
    Gives (m.findWith? same key) n w fun o _ => o = located? m.toList es dk := by
  cases m with
  | small entries =>
    refine (indexFrom_gives hs 0 hw hm hkey).bind fun r w' _ hr => ?_
    cases r with
    | none => exact .pure hr.symm
    | some j =>
      refine .pure (Eq.trans ?_ hr.2)
      rw [Nat.sub_zero, Map.toList, Array.getElem?_toList]
  | hashed m =>
    refine (hash_gives hw hn hk hkey).bind fun _ w' hev _ => ?_
    exact ⟨_, w', rfl, .refl w', HashMap.find?_located hs (hev.orderly hw) hn hk hl
      (hev.entries hw hm) hp (hev.means hw hkey)⟩

end LispCore
