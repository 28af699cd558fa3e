import LispCore.Proofs.Lazy.Moments
import LispCore.Proofs.Lazy.Refinement
/-!
Delegation is one hop. At every moment of a call a sequence is delegated only to one that was taken itself
(`World.OneHop`), so a call that waits for another sequence waits for one that answers at once
(`Steady`, `Steady.move`).
-/

namespace LispCore

/-! ### Worlds -/

/-- Sequences are delegated to sequences that were taken themselves, outcomes are kept for sequences that
were taken, and producers return sequences that are there. -/
structure World.OneHop (w : World) : Prop where
  hop : ∀ l o, (w.lazyCell l).slot = .delegated o →
    o.id < w.lazies.size ∧ (w.lazyCell o).slot = .running
  told : ∀ l r, (w.lazyCell l).realized = some r → (w.lazyCell l).slot = .running
  closed : ∀ l p m, (w.lazyCell l).slot = .ready p → p.mentioned? = some m → m.id < w.lazies.size

/-- No outcome is lost. -/
structure World.Onward (w w' : World) : Prop where
  size : w.lazies.size ≤ w'.lazies.size
  told : ∀ l r, (w.lazyCell l).realized = some r → (w'.lazyCell l).realized = some r

namespace World

variable {w w' w'' : World} {l m : Lazy} {p : Producer}

theorem Onward.refl (w : World) : w.Onward w := ⟨Nat.le_refl _, fun _ _ h => h⟩

theorem Onward.trans (h : w.Onward w') (h' : w'.Onward w'') : w.Onward w'' :=
  ⟨h.size.trans h'.size, fun l r hr => h'.told l r (h.told l r hr)⟩

/-- Giving away a slot changes no outcome. -/
theorem realized_slotted (w : World) (l : Lazy) (slot : Slot) (m : Lazy) :
    ((w.slotted l slot).lazyCell m).realized = (w.lazyCell m).realized := by
  by_cases hm : m = l
  · subst hm
    rcases Nat.lt_or_ge m.id w.lazies.size with hlt | hle
    · rw [lazyCell_slotted_self slot hlt]
    · exact congrArg LazyCell.realized (lazyCell_modify_of_le _ hle)
  · rw [lazyCell_slotted_of_ne slot hm]

/-- A sequence without a producer has none after its slot was taken. -/
theorem slot_slotted_running (w : World) (l m : Lazy) :
    ((w.slotted l .running).lazyCell m).slot =
      if m = l then .running else (w.lazyCell m).slot := by
  split_ifs with hm
  · subst hm
    rcases Nat.lt_or_ge m.id w.lazies.size with hlt | hle
    · rw [lazyCell_slotted_self _ hlt]
    · have hout : (w.lazyCell m).slot = .running :=
        Classical.byContradiction fun h => absurd (lt_of_slot_ne_running h) (Nat.not_lt.mpr hle)
      exact (congrArg LazyCell.slot (lazyCell_modify_of_le _ hle)).trans hout
  · rw [lazyCell_slotted_of_ne _ hm]

theorem onward_slotted (w : World) (l : Lazy) (slot : Slot) : w.Onward (w.slotted l slot) where
  size := (w.size_slotted l slot).ge
  told m _ h := (w.realized_slotted l slot m).trans h

theorem onward_produce (w : World) (p : Producer) : w.Onward (w.produce p) where
  size := by
    rw [size_produce]
    exact Nat.le_add_right ..
  told l r h := by
    rw [lazyCell_produce p (lt_of_realized h)]
    exact h

/-- An outcome is kept, unless another one was. -/
theorem onward_kept {r : Realized} (h : ∀ r', (w.lazyCell l).realized = some r' → r' = r) :
    w.Onward (w.kept l r) where
  size := (w.size_kept l r).ge
  told m r' hr := by
    by_cases hm : m = l
    · subst hm
      rw [lazyCell_kept_self r (lt_of_realized hr), h r' hr]
    · rw [lazyCell_kept_of_ne r hm]
      exact hr

/-- A run of a producer changes no cell but that of the sequence that it makes. -/
theorem lazyCell_produce_cases (w : World) (p : Producer) (l : Lazy) :
    (w.produce p).lazyCell l = w.lazyCell l ∨
      ∃ q, p.makes? = some q ∧ (w.produce p).lazyCell l = ⟨.ready q, none⟩ := by
  by_cases hlt : l.id < w.lazies.size
  · exact .inl (lazyCell_produce p hlt)
  by_cases hl : l = w.nextLazy ∧ ∃ q, p.makes? = some q
  · obtain ⟨rfl, q, hq⟩ := hl
    exact .inr ⟨q, hq, lazyCell_produce_made hq⟩
  · have hle : w.lazies.size ≤ l.id := Nat.le_of_not_lt hlt
    have hle' : (w.produce p).lazies.size ≤ l.id := by
      rw [size_produce]
      cases hq : p.makes? with
      | none => exact hle
      | some q =>
        have hne : l.id ≠ w.lazies.size := fun h => hl ⟨by cases l; exact congrArg Lazy.mk h, q, hq⟩
        exact Nat.lt_of_le_of_ne hle hne.symm
    left
    rw [lazyCell, lazyCell, Array.getD_eq_getD_getElem?, Array.getD_eq_getD_getElem?,
      Array.getElem?_eq_none hle, Array.getElem?_eq_none hle']

namespace OneHop

theorem running (h : w.OneHop) (l : Lazy) : (w.slotted l .running).OneHop where
  hop m o hm := by
    rw [slot_slotted_running] at hm
    split_ifs at hm
    obtain ⟨ho, hs⟩ := h.hop m o hm
    refine ⟨(w.size_slotted l _).symm ▸ ho, ?_⟩
    rw [slot_slotted_running, hs, ite_self]
  told m r hm := by
    rw [realized_slotted] at hm
    rw [slot_slotted_running, h.told m r hm, ite_self]
  closed m p o hm hp := by
    rw [slot_slotted_running] at hm
    split_ifs at hm
    exact (w.size_slotted l _).symm ▸ h.closed m p o hm hp

theorem retaken (h : w.OneHop) (l : Lazy) : (w.retaken l).OneHop :=
  ⟨(h.running l).hop, (h.running l).told, (h.running l).closed⟩

/-- A sequence whose producer has not run is delegated to one that is being realized. -/
theorem claim (h : w.OneHop) (hm : w.lazyCell m = ⟨.ready p, none⟩) (hl : l.id < w.lazies.size)
    (hs : (w.lazyCell l).slot = .running) : (w.slotted m (.delegated l)).OneHop := by
  have hmem : m.id < w.lazies.size := lt_of_slot_ne_running (by rw [hm]; nofun)
  have hself : (w.slotted m (.delegated l)).lazyCell m = ⟨.delegated l, none⟩ := by
    rw [lazyCell_slotted_self _ hmem, hm]
  have hother : ∀ x, x ≠ m → (w.slotted m (.delegated l)).lazyCell x = w.lazyCell x :=
    fun x hx => lazyCell_slotted_of_ne _ hx
  have hstays : ∀ x, (w.lazyCell x).slot = .running →
      ((w.slotted m (.delegated l)).lazyCell x).slot = .running := by
    intro x hx
    rw [hother x fun hxm => ?_]
    · exact hx
    · rw [hxm, hm] at hx
      cases hx
  constructor
  · intro x o hx
    rw [size_slotted]
    by_cases hxm : x = m
    · rw [hxm, hself] at hx
      cases hx
      exact ⟨hl, hstays l hs⟩
    · rw [hother x hxm] at hx
      exact ⟨(h.hop x o hx).1, hstays o (h.hop x o hx).2⟩
  · intro x r hx
    rw [realized_slotted] at hx
    exact hstays x (h.told x r hx)
  · intro x q y hx hq
    rw [size_slotted]
    by_cases hxm : x = m
    · rw [hxm, hself] at hx
      cases hx
    · rw [hother x hxm] at hx
      exact h.closed x q y hx hq

/-- A producer that returns sequences that are there makes one that does so too. -/
theorem produce (h : w.OneHop) (hp : ∀ m, p.mentioned? = some m → m.id < w.lazies.size) :
    (w.produce p).OneHop := by
  have hsize := (w.onward_produce p).size
  constructor
  · intro x o hx
    rcases w.lazyCell_produce_cases p x with hc | ⟨q, -, hc⟩
    · rw [hc] at hx
      obtain ⟨ho, hs⟩ := h.hop x o hx
      rw [lazyCell_produce p ho]
      exact ⟨ho.trans_le hsize, hs⟩
    · rw [hc] at hx
      cases hx
  · intro x r hx
    rcases w.lazyCell_produce_cases p x with hc | ⟨q, -, hc⟩
    · rw [hc] at hx ⊢
      exact h.told x r hx
    · rw [hc] at hx
      cases hx
  · intro x q y hx hq
    rcases w.lazyCell_produce_cases p x with hc | ⟨q', hq', hc⟩
    · rw [hc] at hx
      exact (h.closed x q y hx hq).trans_le hsize
    · rw [hc] at hx
      cases hx
      exact (hp y (Producer.mentioned_makes hq' hq)).trans_le hsize

theorem kept (h : w.OneHop) (hs : (w.lazyCell l).slot = .running) (r : Realized) :
    (w.kept l r).OneHop where
  hop m o hm := by
    rw [slot_kept] at hm ⊢
    exact (w.size_kept l r).symm ▸ h.hop m o hm
  told m r' hm := by
    rw [slot_kept]
    by_cases hml : m = l
    · rw [hml, hs]
    · rw [lazyCell_kept_of_ne r hml] at hm
      exact h.told m r' hm
  closed m p o hm hp := by
    rw [slot_kept] at hm
    exact (w.size_kept l r).symm ▸ h.closed m p o hm hp

end OneHop

end World

/-! ### Moments -/

namespace World

/-- The sequence was taken and nothing is kept for it yet. -/
structure Open (w : World) (l : Lazy) : Prop where
  lt : l.id < w.lazies.size
  cell : w.lazyCell l = ⟨.running, none⟩

/-- The sequence was taken, and an outcome that is kept for it is this answer. -/
structure Ends (w : World) (l : Lazy) (a : Except Fault (Option Seq)) : Prop where
  lt : l.id < w.lazies.size
  slot : (w.lazyCell l).slot = .running
  told : ∀ r, (w.lazyCell l).realized = some r → a = r.answer

variable {w : World} {l o : Lazy} {p : Producer} {r : Realized} {a : Except Fault (Option Seq)}

theorem Open.ends (h : w.Open l) (a : Except Fault (Option Seq)) : w.Ends l a where
  lt := h.lt
  slot := by rw [h.cell]
  told r hr := by
    rw [h.cell] at hr
    cases hr

theorem Open.produce (h : w.Open l) (p : Producer) : (w.produce p).Open l where
  lt := h.lt.trans_le (w.onward_produce p).size
  cell := (lazyCell_produce p h.lt).trans h.cell

/-- Taking a sequence opens it, if nothing is kept for it. -/
theorem open_slotted (hl : l.id < w.lazies.size) (hr : (w.lazyCell l).realized = none) :
    (w.slotted l .running).Open l where
  lt := (w.size_slotted l _).symm ▸ hl
  cell := by rw [lazyCell_slotted_self _ hl, hr]

/-- Taking a sequence that was taken before changes no cell. -/
theorem Open.slotted (h : w.Open l) (ho : w.Open o) : (w.slotted o .running).Open l := by
  by_cases hlo : l = o
  · subst hlo
    exact open_slotted h.lt (by rw [h.cell])
  · exact ⟨(w.size_slotted o _).symm ▸ h.lt, (lazyCell_slotted_of_ne _ hlo).trans h.cell⟩

theorem Open.claim (h : w.Open l) (ho : w.lazyCell o = ⟨.ready p, none⟩) (slot : Slot) :
    (w.slotted o slot).Open l where
  lt := (w.size_slotted o _).symm ▸ h.lt
  cell := by
    rw [lazyCell_slotted_of_ne]
    · exact h.cell
    · rintro rfl
      rw [h.cell] at ho
      cases ho

/-- When the outcome of another sequence is kept, a sequence that was open ends with it if it is the same. -/
theorem Open.ends_kept (h : w.Open l) (o : Lazy) (r : Realized) : (w.kept o r).Ends l r.answer where
  lt := (w.size_kept o r).symm ▸ h.lt
  slot := by rw [slot_kept, h.cell]
  told r' hr := by
    by_cases hlo : l = o
    · subst hlo
      rw [lazyCell_kept_self r h.lt] at hr
      rw [Option.some.inj hr]
    · rw [lazyCell_kept_of_ne r hlo, h.cell] at hr
      cases hr

end World

/-- The moments of a call: a sequence is asked for, it is realized, and while it is realized another
sequence that was taken before may be asked for, which answers without asking for a third one. -/
inductive Steady : Moment → Prop
  | asked {l : Lazy} {w : World} (h : w.OneHop) (hl : l.id < w.lazies.size) : Steady ⟨[], .ask l, w⟩
  | running {l : Lazy} {p : Producer} {w : World} (h : w.OneHop) (hl : w.Open l)
      (hp : ∀ m, p.mentioned? = some m → m.id < w.lazies.size) : Steady ⟨[l], .run p, w⟩
  | following {l : Lazy} {v : Value} {w : World} (h : w.OneHop) (hl : w.Open l)
      (hv : ∀ m, v = .lazy m → m.id < w.lazies.size) : Steady ⟨[l], .follow v, w⟩
  | waiting {l o : Lazy} {w : World} (h : w.OneHop) (hl : w.Open l) (ho : o.id < w.lazies.size)
      (hs : (w.lazyCell o).slot = .running) : Steady ⟨[l], .ask o, w⟩
  | gone {l o : Lazy} {w : World} (h : w.OneHop) (hl : w.Open l) (ho : w.Open o) :
      Steady ⟨[o, l], .close (.error (.error .producerPanicked)), w⟩
  | heard {l o : Lazy} {r : Realized} {a : Except Fault (Option Seq)} {w : World} (h : w.OneHop)
      (hl : w.Ends l a) (ha : a = r.answer) (ho : (w.lazyCell o).realized = some r) :
      Steady ⟨[l], .back o a, w⟩
  | closing {l : Lazy} {a : Except Fault (Option Seq)} {w : World} (h : w.OneHop) (hl : w.Ends l a) :
      Steady ⟨[l], .close a, w⟩
  | answered {l : Lazy} {a : Except Fault (Option Seq)} {w : World} (h : w.OneHop)
      (ha : ∀ r : Realized, a = r.answer → (w.lazyCell l).realized = some r) :
      Steady ⟨[], .back l a, w⟩

namespace Steady

variable {c d : Moment}

theorem oneHop (h : Steady c) : c.world.OneHop := by
  cases h <;> assumption

/-- What a producer returns is there once it has run. -/
theorem returned_lt {w : World} {p : Producer} {m : Lazy}
    (hp : ∀ m, p.mentioned? = some m → m.id < w.lazies.size)
    (h : p.outcome w.nextLazy = .ok (.lazy m)) : m.id < (w.produce p).lazies.size := by
  rw [World.size_produce]
  rcases Producer.returns_lazy (fun _ => 0) h with ⟨hm, -⟩ | ⟨q, hq, rfl, -⟩
  · exact Nat.lt_add_right _ (hp m hm)
  · simp [hq, World.nextLazy]

/-- A step leads from one of these moments to another one. -/
theorem move (h : Steady c) (hm : Move c d) : Steady d := by
  cases h with
  | asked h hl =>
    cases hm with
    | told hr => exact .answered h fun r' ha => by rw [hr, Realized.answer_inj ha]
    | @take _ _ p _ hc =>
      refine .running (h.running _) (World.open_slotted hl (by rw [hc])) fun m hp => ?_
      rw [World.size_slotted]
      exact h.closed _ p m (by rw [hc]) hp
    | @pass _ _ o _ hc =>
      obtain ⟨ho, hs⟩ := h.hop _ o (by rw [hc])
      refine .waiting (h.running _) (World.open_slotted hl (by rw [hc])) ?_ ?_
      · rw [World.size_slotted]
        exact ho
      · rw [World.slot_slotted_running, hs, ite_self]
    | gone hc =>
      have hends := (World.open_slotted hl (by rw [hc])).ends (.error (.error .producerPanicked))
      exact .closing (h.retaken _) ⟨hends.lt, hends.slot, hends.told⟩
  | running h hl hp =>
    cases hm with
    | returned ho => exact .following (h.produce hp) (hl.produce _) fun m hv => returned_lt hp (hv ▸ ho)
    | failed ho => exact .closing (h.produce hp) ((hl.produce _).ends _)
  | following h hl hv =>
    cases hm with
    | direct | found => exact .closing h (hl.ends _)
    | @claim _ _ m p _ hc =>
      refine .running (h.claim hc hl.lt (by rw [hl.cell])) (hl.claim hc _) fun m' hp => ?_
      rw [World.size_slotted]
      exact h.closed m p m' (by rw [hc]) hp
    | wait hc => exact .waiting h hl (hv _ rfl) (by rw [hc])
    | @waitOuter _ m o _ hc =>
      obtain ⟨ho, hs⟩ := h.hop m o (by rw [hc])
      exact .waiting h hl ho hs
  | waiting h hl ho hs =>
    cases hm with
    | told hr => exact .heard h (hl.ends _) rfl hr
    | take hc | pass hc =>
      rw [hc] at hs
      cases hs
    | gone hc =>
      have hopen : World.Open _ _ := ⟨ho, hc⟩
      have hl' := hl.slotted hopen
      have ho' := hopen.slotted hopen
      exact .gone (h.retaken _) ⟨hl'.lt, hl'.cell⟩ ⟨ho'.lt, ho'.cell⟩
  | gone h hl ho =>
    cases hm with
    | @keep _ _ r _ _ ha =>
      refine .heard (h.kept (by rw [ho.cell]) r) (ha ▸ hl.ends_kept _ r) ha ?_
      rw [World.lazyCell_kept_self r ho.lt]
    | unwind hf => exact absurd rfl (hf _)
  | heard h hl ha ho =>
    cases hm with
    | resume => exact .closing h hl
  | closing h hl =>
    cases hm with
    | @keep _ _ r _ _ ha =>
      refine .answered (h.kept hl.slot r) fun r' ha' => ?_
      rw [World.lazyCell_kept_self r hl.lt, Realized.answer_inj (ha.symm.trans ha')]
    | unwind hf => exact .answered h fun r ha => absurd ha (Realized.answer_ne_error hf)
  | answered => exact absurd hm Move.not_over

/-- A step loses no outcome. -/
theorem onward (h : Steady c) (hm : Move c d) : c.world.Onward d.world := by
  cases hm with
  | told | direct | found | wait | waitOuter | unwind | resume => exact .refl _
  | take | pass | claim => exact World.onward_slotted ..
  | @gone _ l w =>
    have hslot := w.onward_slotted l .running
    exact ⟨hslot.size, hslot.told⟩
  | returned | failed => exact World.onward_produce ..
  | @keep st l r a w ha =>
    refine World.onward_kept fun r' hr => ?_
    cases h with
    | gone _ _ ho =>
      rw [ho.cell] at hr
      cases hr
    | closing _ hl => exact Realized.answer_inj ((hl.told r' hr).symm.trans ha)

/-- All moments that are passed are such, and no outcome is lost on the way. -/
theorem passes (h : Steady c) (hp : Moves c d) : Steady d ∧ c.world.Onward d.world := by
  induction hp with
  | refl => exact ⟨h, .refl _⟩
  | tail _ hm ih => exact ⟨ih.1.move hm, ih.2.trans (ih.1.onward hm)⟩

end Steady

end LispCore
