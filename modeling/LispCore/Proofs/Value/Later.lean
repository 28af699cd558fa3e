import LispCore.Proofs.Lazy.Delegation
import LispCore.Proofs.Value.Passing
/-!
Readings are kept. A world advances when outcomes stay, and producers stay or were run to the outcome
that they come to; then all that is read stays (`Advances.keeps`). Asking a sequence whose producer was
taken runs nothing: it answers what it tells, which is noted when it was not kept yet
(`Lazy.seqAt_taken`).
-/

namespace LispCore

/-- A sequence whose producer was taken by an outer one has no outcome of its own until then, and the
outer one has been realized or is gone. -/
def Orderly (w : World) : Prop :=
  ∀ l o, w.lazyCell l = ⟨.delegated o, none⟩ →
    o.id < w.lazies.size ∧ (w.lazyCell o).slot = .running

/-- All that is read in the first world is read in the second. -/
def Keeps (inside : Nat → Datum) (w w' : World) : Prop :=
  ∀ k s d, Means inside w k s d → Means inside w' k s d

/-- In the second world, the outcome is what has become of what the producer comes to in the first,
unless that is a panic. -/
def Yields (w w' : World) (p : Producer) (r : Realized) : Prop :=
  ∀ k u, Comes w k p u → (∀ text, u ≠ .panic text) → u.Becomes w' r

/-- Outcomes stay, and a producer is still there or was run to an outcome that it yields. -/
structure Advances (w w' : World) : Prop where
  size : w.lazies.size ≤ w'.lazies.size
  told : ∀ l r, l.id < w.lazies.size → w.told? l = some r → w'.told? l = some r
  ready : ∀ l p, w.lazyCell l = ⟨.ready p, none⟩ →
    w'.lazyCell l = ⟨.ready p, none⟩ ∨ ∃ r, w'.told? l = some r ∧ Yields w w' p r

/-- No producer that would panic is gone in the second world. -/
def Unbroken (w w' : World) : Prop :=
  ∀ l p, w.lazyCell l = ⟨.ready p, none⟩ →
    w'.lazyCell l = ⟨.ready p, none⟩ ∨ ∀ k text, ¬Comes w k p (.panic text)

variable {w w₀ w₁ w' : World} {owner next l o : Lazy} {p q : Producer} {r : Realized}
  {n depth rounds : Nat}

/-! ### Told outcomes -/

namespace World

theorem told?_realized (h : (w.lazyCell l).realized = some r) : w.told? l = some r := by
  unfold told?
  rcases hc : w.lazyCell l with ⟨slot, realized⟩
  rw [hc] at h
  rw [show realized = some r from h]

theorem told?_running (h : w.lazyCell l = ⟨.running, none⟩) :
    w.told? l = some (.error .producerPanicked) := by
  unfold told?
  rw [h]

theorem told?_delegated (h : w.lazyCell l = ⟨.delegated o, none⟩) :
    w.told? l = some ((w.lazyCell o).realized.getD (.error .producerPanicked)) := by
  unfold told?
  rw [h]

theorem told?_eq_none : w.told? l = none ↔ ∃ p, w.lazyCell l = ⟨.ready p, none⟩ := by
  unfold told?
  rcases w.lazyCell l with ⟨_ | _ | _, _ | _⟩ <;> simp

/-- A sequence that was taken is not one that was not. -/
theorem ne_of_running (ho : (w.lazyCell o).slot = .running) (hl : (w.lazyCell l).slot ≠ .running) :
    o ≠ l := fun h => hl (h ▸ ho)

theorem lt_of_ready (h : w.lazyCell l = ⟨.ready p, none⟩) : l.id < w.lazies.size :=
  lt_of_slot_ne_running (by rw [h]; nofun)

/-- What is told depends on the cells of a sequence and of the one that took its producer. -/
theorem told?_congr (hc : w'.lazyCell l = w.lazyCell l)
    (ho : ∀ o, w.lazyCell l = ⟨.delegated o, none⟩ → w'.lazyCell o = w.lazyCell o) :
    w'.told? l = w.told? l := by
  unfold told?
  rw [hc]
  rcases hl : w.lazyCell l with ⟨_ | _ | o, _ | _⟩ <;> simp only
  rw [ho o hl]

end World

/-- Keeping an outcome changes nothing for those that do not have it from there. -/
theorem World.told?_kept {m : Lazy} (hm : m ≠ l) (hd : w.lazyCell m ≠ ⟨.delegated l, none⟩) :
    (w.kept l r).told? m = w.told? m := by
  refine World.told?_congr (World.lazyCell_kept_of_ne r hm) fun o ho => ?_
  refine World.lazyCell_kept_of_ne r ?_
  rintro rfl
  exact hd ho

/-! ### Orderly worlds -/

/-- A sequence that was not taken by its own realization is taken, by that or by one under way. -/
theorem Orderly.slotted {slot : Slot} (hw : Orderly w) (hl : (w.lazyCell l).slot ≠ .running)
    (hs : ∀ o, slot = .delegated o → o.id < w.lazies.size ∧ (w.lazyCell o).slot = .running) :
    Orderly (w.slotted l slot) := by
  intro m o hm
  have ho : o.id < w.lazies.size ∧ (w.lazyCell o).slot = .running := by
    by_cases hml : m = l
    · rw [hml, World.lazyCell_slotted_self _ (World.lt_of_slot_ne_running hl)] at hm
      exact hs o (congrArg LazyCell.slot hm)
    · rw [World.lazyCell_slotted_of_ne _ hml] at hm
      exact hw m o hm
  rw [World.size_slotted, World.lazyCell_slotted_of_ne _ (World.ne_of_running ho.2 hl)]
  exact ho

/-- An outcome is kept. -/
theorem Orderly.kept (hw : Orderly w) (l : Lazy) (r : Realized) : Orderly (w.kept l r) := by
  intro m o hm
  have hc : w.lazyCell m = ⟨.delegated o, none⟩ := by
    by_cases hml : m = l
    · subst hml
      have hs := w.slot_kept m r m
      rw [hm] at hs
      have hlt : m.id < w.lazies.size := World.lt_of_slot_ne_running (by rw [← hs]; nofun)
      rw [World.lazyCell_kept_self r hlt] at hm
      cases congrArg LazyCell.realized hm
    · exact (World.lazyCell_kept_of_ne r hml).symm.trans hm
  rw [World.size_kept, World.slot_kept]
  exact hw m o hc

/-- A run of a producer delegates no sequence. -/
theorem Orderly.produce (hw : Orderly w) (p : Producer) : Orderly (w.produce p) := by
  intro m o hm
  obtain ⟨hlt, -⟩ := World.delegated_of_produce (o := o) (by rw [hm])
  rw [World.lazyCell_produce _ hlt] at hm
  obtain ⟨ho, hs⟩ := hw m o hm
  rw [World.size_produce, World.lazyCell_produce _ ho]
  exact ⟨Nat.lt_add_right _ ho, hs⟩

/-! ### Readings are kept -/

theorem Advances.keeps (h : Advances w w') (inside : Nat → Datum) : Keeps inside w w' := by
  intro k
  induction k using Nat.strongRecOn with
  | ind k ih =>
    intro s d hm
    cases hm with
    | atom ha => exact .atom ha
    | marker hi hs hm => exact .marker hi hs (ih _ hi _ _ hm)
    | sequential hi hv hs hm => exact .sequential hi hv hs (ih _ hi _ _ hm)
    | map hi hd hl hm => exact .map hi hd hl (ih _ hi _ _ hm)
    | noEntries => exact .noEntries
    | entry hi hk hv hm => exact .entry hi (ih _ hi _ _ hk) (ih _ hi _ _ hv) (ih _ hi _ _ hm)
    | direct hi hv hm => exact .direct hi hv (ih _ hi _ _ hm)
    | told hi hl hr hm =>
      exact .told hi (Nat.lt_of_lt_of_le hl h.size) (h.told _ _ hl hr) (ih _ hi _ _ hm)
    | @ready i _ l p ds f hi hl hm =>
      rcases h.ready l p hl with hl' | ⟨r, hr, hy⟩
      · exact .ready hi hl' (ih _ hi _ _ hm)
      · have hlt := Nat.lt_of_lt_of_le (World.lt_of_ready hl) h.size
        obtain ⟨u, hu, hne, hread⟩ := hm.becomes
        exact .told hi hlt hr (hread w' r (hy i u hu hne) fun j hj => ih j (Nat.lt_trans hj hi))
    | failed => exact .failed
    | done => exact .done
    | cons hi hx hm => exact .cons hi (ih _ hi _ _ hx) (ih _ hi _ _ hm)
    | step hi hs hx hm => exact .step hi hs (ih _ hi _ _ hx) (ih _ hi _ _ hm)
    | give hi hm => exact .give hi (ih _ hi _ _ hm)
    | fail => exact .fail
    | log hi hm => exact .log hi (ih _ hi _ _ hm)
    | defer hi hm => exact .defer hi (ih _ hi _ _ hm)
    | @cell i _ _ _ _ _ _ hi hx hm =>
      have hlt : i < k := by omega
      exact .cell hi (ih _ hlt _ _ hx) (ih _ hlt _ _ hm)

/-! ### Asking a sequence whose producer was taken -/

/-- Some sequences that were asked for after a panic have that noted as their outcome. -/
structure Noted (w w' : World) : Prop where
  size : w'.lazies.size = w.lazies.size
  cell : ∀ l, w'.lazyCell l = w.lazyCell l ∨
    w.lazyCell l = ⟨.running, none⟩ ∧ w'.lazyCell l = ⟨.running, some (.error .producerPanicked)⟩

theorem Noted.refl (w : World) : Noted w w := ⟨rfl, fun _ => .inl rfl⟩

/-- What the owner of a delegated sequence tells stays. -/
theorem Noted.getD (h : Noted w w') (l : Lazy) :
    (w'.lazyCell l).realized.getD (.error .producerPanicked) =
      (w.lazyCell l).realized.getD (.error .producerPanicked) := by
  rcases h.cell l with hc | ⟨hc, hc'⟩
  · rw [hc]
  · rw [hc, hc']
    rfl

theorem Noted.told? (h : Noted w w') (l : Lazy) : w'.told? l = w.told? l := by
  rcases h.cell l with hc | ⟨hc, hc'⟩
  · rcases hl : w.lazyCell l with ⟨slot, _ | r⟩
    · rw [hl] at hc
      cases slot with
      | ready p => rw [World.told?_eq_none.mpr ⟨p, hc⟩, World.told?_eq_none.mpr ⟨p, hl⟩]
      | running => rw [World.told?_running hc, World.told?_running hl]
      | delegated o => rw [World.told?_delegated hc, World.told?_delegated hl, h.getD]
    · rw [World.told?_realized (r := r) (by rw [hc, hl]), World.told?_realized (by rw [hl])]
  · rw [World.told?_running hc, World.told?_realized (by rw [hc'])]

theorem Noted.slot (h : Noted w w') (l : Lazy) :
    (w'.lazyCell l).slot = (w.lazyCell l).slot := by
  rcases h.cell l with hc | ⟨hc, hc'⟩
  · rw [hc]
  · rw [hc, hc']

/-- Only what was running has an outcome that it did not have. -/
theorem Noted.of_slot (h : Noted w w') (hl : (w.lazyCell l).slot ≠ .running) :
    w'.lazyCell l = w.lazyCell l :=
  (h.cell l).resolve_right fun hc => hl (by rw [hc.1])

theorem Noted.of_unrealized (h : Noted w w') (hl : (w'.lazyCell l).realized = none) :
    w'.lazyCell l = w.lazyCell l := by
  refine (h.cell l).resolve_right fun hc => ?_
  rw [hc.2] at hl
  cases hl

theorem Noted.orderly (h : Noted w w') (hw : Orderly w) : Orderly w' := by
  intro l o hl
  have hc := h.of_unrealized (l := l) (by rw [hl])
  obtain ⟨ho, hs⟩ := hw l o (hc.symm.trans hl)
  exact ⟨h.size ▸ ho, (h.slot o).trans hs⟩

theorem Noted.ready (h : Noted w w') (hl : w.lazyCell l = ⟨.ready p, none⟩) :
    w'.lazyCell l = ⟨.ready p, none⟩ := (h.of_slot (by rw [hl]; nofun)).trans hl

theorem Noted.advances (h : Noted w w') : Advances w w' :=
  ⟨Nat.le_of_eq h.size.symm, fun l _ _ hr => (h.told? l).trans hr, fun _ _ hl => .inl (h.ready hl)⟩

theorem Noted.unbroken (h : Noted w w') : Unbroken w w' := fun _ _ hl => .inl (h.ready hl)

/-- A sequence whose producer was taken and that is not being realized answers what it tells. -/
theorem Lazy.seqAt_taken (n depth : Nat) (hs : (w.lazyCell o).slot = .running) : ∃ w',
    Lazy.seqAt (depth + 1) o n w =
      Act.ended (Realized.answer ((w.lazyCell o).realized.getD (.error .producerPanicked))) w' ∧
    Noted w w' := by
  rcases hc : w.lazyCell o with ⟨slot, _ | r⟩
  · rw [hc] at hs
    cases hs
    let w₁ : World := { w.slotted o .running with notices := w.notices.push .realizedAfterPanic }
    refine ⟨w₁.kept o (.error .producerPanicked), ?_, ?_, fun m => ?_⟩
    · exact Lazy.seqAt_keeps (by rw [hc]) (Lazy.realize_running (by rw [hc]))
    · exact (w₁.size_kept o _).trans (w.size_slotted o .running)
    · by_cases hm : m = o
      · subst hm
        rcases Nat.lt_or_ge m.id w.lazies.size with hlt | hle
        · have hlt' : m.id < w₁.lazies.size := (w.size_slotted m .running).symm ▸ hlt
          refine .inr ⟨hc, ?_⟩
          rw [World.lazyCell_kept_self _ hlt']
          show (⟨((w.slotted m .running).lazyCell m).slot, _⟩ : LazyCell) = _
          rw [World.lazyCell_slotted_self _ hlt]
        · have hle' : w₁.lazies.size ≤ m.id := (w.size_slotted m .running).symm ▸ hle
          exact .inl ((World.lazyCell_modify_of_le _ hle').trans (World.lazyCell_modify_of_le _ hle))
      · exact .inl ((World.lazyCell_kept_of_ne _ hm).trans (World.lazyCell_slotted_of_ne _ hm))
  · exact ⟨w, Lazy.seqAt_told (by rw [hc]; rfl), .refl w⟩

end LispCore
