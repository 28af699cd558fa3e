import LispCore.Proofs.Seq.Readings
import LispCore.Proofs.Value.Evolves
/-!
Walking again. A sequence that was realized on a walk tells its outcome from then on, so the walk can
be taken again in every world that follows (`Walked.again`), also from any sequence that it meets
(`Walked.from_met`). Then all readings of the value and of those sequences agree with the walk, before
it, on the way and after it (`readings_agree`).
-/

namespace LispCore

variable {n : Nat} {w w' : World} {o : Option Seq} {s : Seq} {ss : List Seq} {err : Option Error}

/-- A sequence that tells an outcome answers it. -/
theorem Lazy.seqAt_tells {l : Lazy} {r : Realized} (hw : Orderly w) (hr : w.told? l = some r)
    (depth : Nat) : ∃ w', Lazy.seqAt (depth + 2) l n w = Act.ended r.answer w' := by
  rcases hc : w.lazyCell l with ⟨slot, _ | r'⟩
  · cases slot with
    | ready p => exact (World.ready_untold hc hr).elim
    | running =>
      obtain ⟨w', h, -⟩ := Lazy.seqAt_taken (o := l) n (depth + 1) (by rw [hc])
      rw [World.told?_running hc] at hr
      cases hr
      rw [hc] at h
      exact ⟨w', h⟩
    | delegated o =>
      rw [World.told?_delegated hc] at hr
      cases hr
      have hslot : (w.lazyCell l).slot ≠ .running := by
        rw [hc]
        nofun
      have hne := World.ne_of_running (hw l o hc).2 hslot
      have ho : (w.slotted l .running).lazyCell o = w.lazyCell o := World.lazyCell_slotted_of_ne _ hne
      obtain ⟨w', h, -⟩ := Lazy.seqAt_taken (o := o) (w := w.slotted l .running) n depth
        (by rw [ho]; exact (hw l o hc).2)
      rw [ho] at h
      refine ⟨w'.kept l _, Lazy.seqAt_keeps (by rw [hc]) ?_⟩
      exact (Lazy.realize_delegated (by rw [hc])).trans h
  · rw [World.told?_realized (r := r') (by rw [hc])] at hr
    cases hr
    exact ⟨w, Lazy.seqAt_told (by rw [hc])⟩

/-- The action was run to an outcome in the second world, where it is proper, and answers the same in
every world that follows. -/
structure Answered (x : Act (Option Seq)) (r : Realized) (w w' : World) : Prop where
  evolves : Evolves w w'
  size : w.lazies.size ≤ w'.lazies.size
  formed : w'.Formed
  outcome : ∀ o, r = .ok o → Seq.AllFormed w'.lazies.size o
  again : ∀ m v, 2 ≤ m → Evolves w' v → ∃ v', x m v = Act.ended r.answer v' ∧ Evolves v v'

/-- A call that came back with an outcome told it, and that stays told. -/
theorem Value.seq?_answered {v : Value} {r : Realized} (hw : Orderly w) (hf : w.Formed)
    (hv : v.Formed w.lazies.size) (h : v.seq? n w = Act.ended r.answer w') :
    Answered v.seq? r w w' := by
  have hforms := Value.forms_seq? hv n w hf (Nat.le_refl _)
  rw [h] at hforms
  obtain ⟨hsize, hformed, hout⟩ : w.lazies.size ≤ w'.lazies.size ∧ w'.Formed ∧
      ∀ o, r = .ok o → Seq.AllFormed w'.lazies.size o := by
    cases r with
    | ok o =>
      refine ⟨hforms.1, hforms.2.1, ?_⟩
      rintro _ ⟨⟩
      exact hforms.2.2
    | error e => exact ⟨hforms.1, hforms.2, nofun⟩
  by_cases hl : ∃ l, v = .lazy l
  · obtain ⟨l, rfl⟩ := hl
    have hev : Evolves w w' := .call (.refl w) h r.answer_ne_exhausted
    have htold : w'.told? l = some r := by
      have hcalled : Called w l n n (l.seq? n w) := seq?_called hw
      have hl : l.seq? n w = Act.ended r.answer w' := h
      generalize l.seq? n w = res at hcalled hl
      cases hcalled with
      | answers hs =>
        obtain ⟨hr, rfl⟩ := Act.ended_inj hl
        rw [← Realized.answer_inj hr]
        exact hs.told
      | panics | exhausted => cases r <;> cases hl
    refine ⟨hev, hsize, hformed, hout, fun m u hm hu => ?_⟩
    obtain ⟨depth, rfl⟩ := Nat.exists_eq_add_of_le' hm
    obtain ⟨-, hr⟩ := hu.told (hev.orderly hw) (Nat.lt_of_lt_of_le hv hsize) htold
    obtain ⟨u', hu'⟩ := Lazy.seqAt_tells (n := depth + 2) (hu.orderly (hev.orderly hw)) hr depth
    have hu' : l.seq? (depth + 2) u = Act.ended r.answer u' := hu'
    exact ⟨u', hu', .call (.refl u) hu' r.answer_ne_exhausted⟩
  · have hdirect := Value.seq?_direct fun l hv => hl ⟨l, hv⟩
    rw [hdirect] at h
    obtain ⟨hr, rfl⟩ := Act.ended_inj h
    have hr := Realized.answer_inj hr
    refine ⟨.refl w, hsize, hformed, hout, fun m u _ _ => ⟨u, ?_, .refl u⟩⟩
    rw [hdirect, hr]

theorem Seq.next?_answered {r : Realized} (hw : Orderly w) (hf : w.Formed)
    (hs : s.Formed w.lazies.size) (h : s.next? n w = Act.ended r.answer w') :
    Answered s.next? r w w' := by
  by_cases hc : ∃ x rest, s = .cons x rest
  · obtain ⟨x, rest, rfl⟩ := hc
    exact Value.seq?_answered hw hf hs h
  · have hstep : s.next? = pure s.step? := by
      cases s with
      | cons x rest => exact absurd ⟨x, rest, rfl⟩ hc
      | _ => rfl
    rw [hstep] at h ⊢
    have hr : r = .ok s.step? ∧ w' = w := by
      cases r <;> cases h
      exact ⟨rfl, rfl⟩
    obtain ⟨rfl, rfl⟩ := hr
    refine ⟨.refl _, Nat.le_refl _, hf, ?_, fun m u _ _ => ⟨u, rfl, .refl u⟩⟩
    rintro _ ⟨⟩
    exact hs.step?

namespace Walked

/-- A walk can be taken again in every world that follows, and all that it meets is proper. -/
theorem again (h : Walked n w o ss err w') (hw : Orderly w) (hf : w.Formed)
    (ho : Seq.AllFormed w.lazies.size o) :
    Evolves w w' ∧ w.lazies.size ≤ w'.lazies.size ∧ (∀ s ∈ ss, s.Formed w'.lazies.size) ∧
      ∀ m v, 2 ≤ m → Evolves w' v → ∃ v', Walked m v o ss err v' := by
  induction h with
  | done w => exact ⟨.refl w, Nat.le_refl _, nofun, fun m v _ _ => ⟨v, .done v⟩⟩
  | @failed w w' s e hn =>
    have ha : Answered s.next? (.error e) w w' := Seq.next?_answered hw hf (ho s rfl) hn
    refine ⟨ha.evolves, ha.size, fun t ht => ?_, fun m v hm hv => ?_⟩
    · rw [List.mem_singleton.mp ht]
      exact (ho s rfl).mono ha.size
    · obtain ⟨v', hv', -⟩ := ha.again m v hm hv
      exact ⟨v', .failed hv'⟩
  | @next w w₁ w' s o ss err hn h ih =>
    have ha : Answered s.next? (.ok o) w w₁ := Seq.next?_answered hw hf (ho s rfl) hn
    obtain ⟨hev, hsize, hss, hagain⟩ := ih (ha.evolves.orderly hw) ha.formed (ha.outcome o rfl)
    refine ⟨ha.evolves.trans hev, Nat.le_trans ha.size hsize, fun t ht => ?_, fun m v hm hv => ?_⟩
    · rcases List.mem_cons.mp ht with rfl | ht
      · exact (ho t rfl).mono (Nat.le_trans ha.size hsize)
      · exact hss t ht
    · obtain ⟨v₁, hv₁, hev₁⟩ := ha.again m v hm (hev.trans hv)
      obtain ⟨v', hv'⟩ := hagain m v₁ hm (hv.trans hev₁)
      exact ⟨v', .next hv₁ hv'⟩

/-- Where a sequence is met, the rest of the walk goes on from it. -/
theorem from_met (h : Walked n w o ss err w') (hw : Orderly w) (hf : w.Formed)
    (ho : Seq.AllFormed w.lazies.size o) {i : Nat} (hi : ss[i]? = some s) :
    ∃ u, Evolves w u ∧ Orderly u ∧ u.Formed ∧ s.Formed u.lazies.size ∧
      Walked n u (some s) (ss.drop i) err w' := by
  induction h generalizing i with
  | done w => cases hi
  | @failed w w' t e hn =>
    cases i with
    | zero =>
      cases hi
      exact ⟨w, .refl w, hw, hf, ho s rfl, .failed hn⟩
    | succ i => cases hi
  | @next w w₁ w' t o ss err hn h ih =>
    cases i with
    | zero =>
      cases hi
      exact ⟨w, .refl w, hw, hf, ho s rfl, .next hn h⟩
    | succ i =>
      have ha : Answered t.next? (.ok o) w w₁ := Seq.next?_answered hw hf (ho t rfl) hn
      obtain ⟨u, hu, hrest⟩ := ih (ha.evolves.orderly hw) ha.formed (ha.outcome o rfl) hi
      exact ⟨u, ha.evolves.trans hu, hrest⟩

end Walked

namespace Value.Walks

variable {x : Value}

/-- A walk over a value can be taken again in every world that follows. -/
theorem again (h : x.Walks n w ss err w') (hw : Orderly w) (hf : w.Formed)
    (hx : x.Formed w.lazies.size) :
    w.lazies.size ≤ w'.lazies.size ∧ (∀ s ∈ ss, s.Formed w'.lazies.size) ∧
      ∀ m v, 2 ≤ m → Evolves w' v → ∃ v', x.Walks m v ss err v' := by
  cases h with
  | @failed _ e hs =>
    have ha : Answered x.seq? (.error e) w w' := Value.seq?_answered hw hf hx hs
    refine ⟨ha.size, nofun, fun m v hm hv => ?_⟩
    obtain ⟨v', hv', -⟩ := ha.again m v hm hv
    exact ⟨v', .failed hv'⟩
  | @seq w₁ _ o _ _ hs h =>
    have ha : Answered x.seq? (.ok o) w w₁ := Value.seq?_answered hw hf hx hs
    obtain ⟨hev, hsize, hss, hagain⟩ := h.again (ha.evolves.orderly hw) ha.formed (ha.outcome o rfl)
    refine ⟨Nat.le_trans ha.size hsize, hss, fun m v hm hv => ?_⟩
    obtain ⟨v₁, hv₁, hev₁⟩ := ha.again m v hm (hev.trans hv)
    obtain ⟨v', hv'⟩ := hagain m v₁ hm (hv.trans hev₁)
    exact ⟨v', .seq hv₁ hv'⟩

/-- Where a sequence is met, the rest of the walk goes on from it. -/
theorem from_met (h : x.Walks n w ss err w') (hw : Orderly w) (hf : w.Formed)
    (hx : x.Formed w.lazies.size) {i : Nat} (hi : ss[i]? = some s) :
    ∃ u, Evolves w u ∧ Orderly u ∧ u.Formed ∧ s.Formed u.lazies.size ∧
      Walked n u (some s) (ss.drop i) err w' := by
  cases h with
  | failed => cases hi
  | @seq w₁ _ o _ _ hs h =>
    have ha : Answered x.seq? (.ok o) w w₁ := Value.seq?_answered hw hf hx hs
    obtain ⟨u, hu, hrest⟩ := h.from_met (ha.evolves.orderly hw) ha.formed (ha.outcome o rfl) hi
    exact ⟨u, ha.evolves.trans hu, hrest⟩

end Value.Walks

/-- A walk over a value tells how the value is read, in the world in which it starts and in every
world that follows it: how many elements there are, which ones, and which error comes behind them. The
same holds of each sequence that is met, from its place on. -/
theorem readings_agree {x : Value} (hw : Reached w) (hf : w.Formed) (hx : x.Formed w.lazies.size)
    (hs : x.isSeqable = true) (h : x.Walks n w ss err w') (hn : ss.length + 1 < n) :
    x.ReadAs n w (ss.map Seq.first) err ∧
    (∀ m v, ss.length + 1 < m → Evolves w' v → x.ReadAs m v (ss.map Seq.first) err) ∧
    ∀ i s, ss[i]? = some s → ∃ u, Evolves w u ∧ Walked n u (some s) (ss.drop i) err w' ∧
      s.ReadAs n u ((ss.map Seq.first).drop i) err ∧
      ∀ m v, ss.length + 1 < m → Evolves w' v → s.ReadAs m v ((ss.map Seq.first).drop i) err := by
  have hw := hw.orderly
  obtain ⟨hsize, hss, hagain⟩ := h.again hw hf hx
  have hx' := hx.mono hsize
  refine ⟨h.readAs hs hx' hss hn, fun m v hm hv => ?_, fun i s hi => ?_⟩
  · obtain ⟨v', hv'⟩ := hagain m v (by omega) hv
    exact hv'.readAs hs hx' hss hm
  · obtain ⟨u, hu, hu', hfu, hsu, hrest⟩ := h.from_met hw hf hx hi
    have hmet : Seq.AllFormed u.lazies.size (some s) := fun _ ht => Option.some.inj ht ▸ hsu
    obtain ⟨-, hsize, hss, hagain⟩ := hrest.again hu' hfu hmet
    have hs' := hsu.mono hsize
    have hlen : (ss.drop i).length ≤ ss.length := by
      rw [List.length_drop]
      exact Nat.sub_le _ _
    rw [← List.map_drop]
    refine ⟨u, hu, hrest, hrest.readAs hs' hss (by omega), fun m v hm hv => ?_⟩
    obtain ⟨v', hv'⟩ := hagain m v (by omega) hv
    exact hv'.readAs hs' hss (by omega)

/-- A world with a lazy sequence of one element behind which there is an error. -/
def brokenOff : World := { lazies := #[⟨.ready (.cell (.int 2) (.fail .format)), none⟩] }

theorem reached_brokenOff : Reached brokenOff :=
  ⟨{}, rfl, .make (n := 0) (l := ⟨0⟩) (p := .cell (.int 2) (.fail .format)) (.refl _) rfl⟩

theorem formed_brokenOff : brokenOff.Formed :=
  World.Formed.push (w := {}) (p := .cell (.int 2) (.fail .format)) (fun _ => ⟨nofun, nofun⟩) trivial

/-- One element in front of that sequence. -/
def brokenCons : Seq := .cons (.int 1) (.lazy ⟨0⟩)

/-- Two elements are handed out before the error is met: counting fails with it, and so does asking
for the third element, but not asking for the second. -/
theorem readings_agree_brokenOff :
    (Value.seq brokenCons).count.Ends 4 brokenOff (.error (.error .format)) ∧
      (Value.seq brokenCons).second.Ends 4 brokenOff (.ok (.int 2)) ∧
      (Value.seq brokenCons).third.Ends 4 brokenOff (.error (.error .format)) := by
  have hwalk : ∃ w', (Value.seq brokenCons).Walks 4 brokenOff
      [brokenCons, .cons (.int 2) (.lazy ⟨1⟩)] (some .format) w' :=
    ⟨_, .seq rfl (.next rfl (.failed rfl))⟩
  obtain ⟨w', hwalk⟩ := hwalk
  have hx : (Value.seq brokenCons).Formed brokenOff.lazies.size := Nat.zero_lt_one
  obtain ⟨hread, -, -⟩ := readings_agree reached_brokenOff formed_brokenOff hx rfl hwalk (by decide)
  exact ⟨hread.count, hread.second, hread.third⟩

end LispCore
