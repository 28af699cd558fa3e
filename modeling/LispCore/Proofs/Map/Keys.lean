import LispCore.Proofs.Map.Settles
/-!
Equal values as keys. Finite values that are equal feed a hasher the same tokens, so they have one hash,
and compare alike with every stored key. Hence one finds what was put under the other and is removed as
the other is, in either representation (`equal_values_stand_in`).
-/

namespace LispCore

variable {inside : Nat → Datum} {w : World} {a b key : Value} {da db d : Datum}
  {m : Map Value Value} {es : List (Datum × Datum)}

theorem located?_congr {xs : List (Value × Value)} {d e : Datum}
    (h : ∀ x ∈ es, x.1.same d = x.1.same e) : located? xs es d = located? xs es e := by
  rw [located?, located?, List.find?_congr fun p hp => h p.2 (List.of_mem_zip hp).2]

/-- A lookup in a finite map settles on what is located among its entries. -/
theorem find?_settles_located (hw : Orderly w) (hm : ComesTo inside w (.map m) (.table es))
    (hkey : ComesTo inside w key d) : (m.find? key).Settles w (located? m.toList es d) := by
  obtain ⟨i, hm⟩ := hm
  obtain ⟨j, hkey⟩ := hkey
  have hp : (Datum.table es).Proper inside := hm.proper
  obtain ⟨es, he, hl, i', -, hes⟩ := hm.of_map
  cases he
  have hes := hes.mono (Nat.le_max_left i' j)
  have hkey := hkey.mono (Nat.le_max_right i' j)
  refine ⟨max i' j + 2, fun n hn w' hev => ?_⟩
  exact findWith?_gives (same_decides (by omega) (by omega)) (hev.orderly hw) (by omega) (by omega) hl
    (hev.entries hw hes) hp (hev.means hw hkey)

/-- Equal values find the same in every finite map. -/
theorem find?_settles_alike (hw : Orderly w) (ha : ComesTo inside w a da)
    (hb : ComesTo inside w b db) (h : da.same db = true) (hm : ComesTo inside w (.map m) d) :
    ∃ o, (m.find? a).Settles w o ∧ (m.find? b).Settles w o := by
  obtain ⟨k, hk⟩ := hm
  obtain ⟨es, rfl, -⟩ := hk.of_map
  have hm : ComesTo inside w (.map m) (.table es) := ⟨k, hk⟩
  refine ⟨_, find?_settles_located hw hm ha, ?_⟩
  rw [located?_congr fun x hx => ?_]
  · exact find?_settles_located hw hm hb
  · have hx := (hm.proper.of_entry hx).1
    exact Bool.eq_iff_iff.mpr ⟨fun hs => hx.trans ha.proper hb.proper hs h,
      fun hs => hx.trans hb.proper ha.proper hs (ha.proper.symm hb.proper h)⟩

/-- The keys of a finite map are finite. -/
theorem ComesTo.key_finite (hm : ComesTo inside w (.map m) d) :
    ∀ e ∈ m.toList, ∃ d, ComesTo inside w e.1 d := by
  obtain ⟨k, hm⟩ := hm
  obtain ⟨es, rfl, -, i, -, hes⟩ := hm.of_map
  intro e he
  obtain ⟨j, hj, rfl⟩ := List.mem_iff_getElem.mp he
  exact ⟨_, i, ((List.forall₂_iff_get.mp hes).2 j hj (hes.length_eq ▸ hj)).1⟩

/-- A keying that tells of the keys of a finite map tells them all apart, and their hashes say where they
are. -/
theorem Keying.Tells.sound_of_comesTo {K : Keying Value} {P : Value → Prop}
    (hK : K.Tells inside w P) (hm : ComesTo inside w (.map m) d) (hkind : ∀ e ∈ m.toList, P e.1) :
    m.Sound K := by
  obtain ⟨k, hm⟩ := hm
  have hp := hm.proper
  obtain ⟨es, rfl, hl, i, -, hes⟩ := hm.of_map
  have hlen := hes.length_eq
  have hkeys : ∀ j (hj : j < m.toList.length) (hj' : j < es.length),
      ComesTo inside w m.toList[j].1 es[j].1 :=
    fun j hj hj' => ⟨i, ((List.forall₂_iff_get.mp hes).2 j hj hj').1⟩
  have hdistinct : K.Distinct m.toList := by
    refine List.pairwise_iff_getElem.mpr fun j l hj hl hjl => ?_
    rw [hK.same_eq (hkind _ (List.getElem_mem hj)) (hkeys j hj (hlen ▸ hj)) (hkeys l hl (hlen ▸ hl))]
    exact Bool.not_eq_true _ ▸
      List.pairwise_iff_getElem.mp hp.distinct j l (hlen ▸ hj) (hlen ▸ hl) hjl
  cases m with
  | small entries => exact hdistinct
  | hashed h =>
    obtain ⟨hcount, hash, hrouted, hhash⟩ := hl
    refine ⟨Node.Routed.congr h.root (fun e he => ?_) hrouted, hdistinct, hcount⟩
    obtain ⟨j, hj, rfl⟩ := List.mem_iff_getElem.mp he
    have hj' : j < es.length := hlen ▸ hj
    exact ((List.forall₂_iff_get.mp hhash).2 j hj hj').trans (hK.hash_eq (hkeys j hj hj')).symm

/-- A finite map whose keys are equal to themselves is a map of regular keys. -/
theorem Map.Keyed.of_comesTo (hw : Orderly w) (hm : ComesTo inside w (.map m) d)
    (hs : ∀ e ∈ m.toList, Compares w e.1 e.1 true) : m.Keyed inside w := by
  have hregular : ∀ e ∈ m.toList, LispCore.Regular inside w e.1 :=
    fun e he => ⟨hm.key_finite e he, hs e he⟩
  exact ⟨(World.tells_keying inside hw).sound_of_comesTo hm hregular, hregular⟩

/-- Finite values that are equal can stand in for each other. They feed a hasher the same tokens, under
any digest of map entries, and have one hash; in every finite map they find the same; and in a map of
keys that are equal to themselves they are removed alike, and what is put under one is found under the
other. -/
theorem equal_values_stand_in (hw : Reached w) (ha : ComesTo inside w a da)
    (hb : ComesTo inside w b db) (hab : Compares w a b true) :
    (∀ digest, ∃ ts, (a.feed digest).Settles w ts ∧ (b.feed digest).Settles w ts) ∧
    (∃ h, a.hash.Settles w h ∧ b.hash.Settles w h) ∧
    (∀ m d, ComesTo inside w (.map m) d →
      ∃ o, (m.find? a).Settles w o ∧ (m.find? b).Settles w o) ∧
    ∀ m d val, ComesTo inside w (.map m) d → (∀ e ∈ m.toList, Compares w e.1 e.1 true) →
      (∃ m', (m.dissoc a).Settles w m' ∧ (m.dissoc b).Settles w m') ∧
      ∃ m₁ m₂, (m.assoc a val).Settles w m₁ ∧ (m.assoc b val).Settles w m₂ ∧
        m₁.count = m₂.count ∧ m₁.isSmall = m₂.isSmall ∧ (m₁.find? b).Settles w (some val) ∧
        ∀ key dk, ComesTo inside w key dk →
          ∃ o, (m₁.find? key).Settles w o ∧ (m₂.find? key).Settles w o := by
  have hw := hw.orderly
  have hs := (compares_iff hw ha hb).mp hab
  have hfeed : ∀ digest, da.feed digest = db.feed digest := fun digest =>
    ha.proper.feed_eq digest (sizeOf da + 1) (Nat.lt_succ_self _) hb.proper hs
  refine ⟨fun digest => ⟨_, feed_settles digest hw ha, ?_⟩, ⟨_, hash_settles hw ha, ?_⟩,
    fun m d hm => find?_settles_alike hw ha hb hs hm, fun m d val hm hself => ?_⟩
  · rw [hfeed digest]
    exact feed_settles digest hw hb
  · rw [ha.proper.hash_eq hb.proper hs]
    exact hash_settles hw hb
  · obtain ⟨hra, hrb⟩ := Regular.of_compares hw ha hb hab
    have hK := World.lawful_keying inside hw
    have hkey : (w.keying inside).same a b = true := World.keying_same.mpr (.inr ⟨hra, hrb, hab⟩)
    have hm := Map.Keyed.of_comesTo hw hm hself
    have hu := Map.updated_assocIn hK hm.sound a val
    have hu' := Map.updated_assocIn hK hm.sound b val
    have halike := Map.Alike.updated (fun _ => rfl) hK hkey hu hu'
    have hhas : (w.keying inside).hasKey a m.toList = (w.keying inside).hasKey b m.toList := by
      simp only [Keying.hasKey, hK.same_congr hkey]
    refine ⟨⟨_, hm.dissoc_settles hw hra.finite, ?_⟩, _, _, hm.assoc_settles hw hra val,
      hm.assoc_settles hw hrb val, ?_, ?_, ?_, fun key dk hkey => ?_⟩
    · rw [Map.dissocIn_congr hK hkey]
      exact hm.dissoc_settles hw hrb.finite
    · exact halike.count_eq hK hu.sound hu'.sound
    · rw [hu.small, hu'.small, hhas]
    · have hfound := (hm.updated hra hu).find?_settles hw ⟨db, hb⟩
      rwa [hu.get? hK, if_pos hkey] at hfound
    · refine ⟨_, (hm.updated hra hu).find?_settles hw ⟨dk, hkey⟩, ?_⟩
      rw [halike key]
      exact (hm.updated hrb hu').find?_settles hw ⟨dk, hkey⟩

theorem comesTo_oneVector : ComesTo (fun _ => oneItem) unrun (.vector #[.int 1]) oneItem := by
  refine ⟨3, .sequential (Nat.lt_succ_self 2) rfl trivial (.direct (Nat.lt_succ_self 1) nofun ?_)⟩
  exact .step (s := .slice #[.int 1] 0 1) (Nat.lt_succ_self 0) nofun (.atom rfl) .done

theorem comesTo_oneLazy : ComesTo (fun _ => oneItem) unrun (.lazy ⟨0⟩) oneItem := by
  refine ⟨7, .sequential (Nat.lt_succ_self 6) rfl trivial (.ready (Nat.lt_succ_self 5) rfl ?_)⟩
  refine .log (Nat.lt_succ_self 4) (.cell (Nat.lt_succ_self 3) (.atom rfl) ?_)
  exact .give (Nat.lt_succ_self 1) (.direct (Nat.lt_succ_self 0) nofun .done)

theorem reached_unrun : Reached unrun :=
  ⟨{}, rfl, .make (n := 0) (l := ⟨0⟩) (p := .log "run" (.cell (.int 1) (.give .nil))) (.refl _) rfl⟩

theorem whole_oneItem : oneItem.Whole := .items fun _ hd => List.mem_singleton.mp hd ▸ .atom _

/-- A lazy sequence that has not run and a vector feed a hasher the same tokens, and what is put under
the one in a hashed map is found under the other. -/
theorem equal_values_stand_in_lazy :
    (∃ ts, ((Value.lazy ⟨0⟩).feed Token.digest).Settles unrun ts ∧
      ((Value.vector #[.int 1]).feed Token.digest).Settles unrun ts) ∧
    ∃ m, ((Map.hashed (hashedOne oneItem.hash (.lazy ⟨0⟩) .nil)).assoc (.lazy ⟨0⟩) (.int 2)).Settles
      unrun m ∧ (m.find? (.vector #[.int 1])).Settles unrun (some (.int 2)) := by
  have hw := reached_unrun.orderly
  have hsame := (compares_iff hw comesTo_oneLazy comesTo_oneVector).mpr whole_oneItem.refl
  have hself := (compares_iff hw comesTo_oneLazy comesTo_oneLazy).mpr whole_oneItem.refl
  have hm := comesTo_oneLazy.map_one (b := .nil) ⟨0, .atom rfl⟩ rfl
    (laid_hashedOne (.lazy ⟨0⟩) .nil oneItem (.atom .nil))
  obtain ⟨hfeed, -, -, hupdates⟩ :=
    equal_values_stand_in reached_unrun comesTo_oneLazy comesTo_oneVector hsame
  obtain ⟨-, m, -, hassoc, -, -, -, hfind, -⟩ :=
    hupdates _ _ (.int 2) hm fun e he => List.mem_singleton.mp he ▸ hself
  exact ⟨hfeed Token.digest, m, hassoc, hfind⟩

end LispCore
