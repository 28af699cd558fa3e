import LispCore.Proofs.Value.Later
/-!
A call on a lazy sequence. While it is under way, what told an outcome is as it was, and every
sequence whose producer was run passes on to the one that the realization has come to (`Underway`);
running a producer and chasing what it returned keeps that until there is an outcome
(`Underway.chase`). So a call advances the world to one in which the sequence tells what the call
answered, and it only runs out of budget when it takes as many rounds to come to an end
(`seqAt_called`).
-/

namespace LispCore

variable {w w₀ w' : World} {owner next l o : Lazy} {p q : Producer} {r : Realized}
  {n depth rounds : Nat}

/-! ### A realization under way -/

/-- The producer of the owner was taken from the first world and the realization has come to `p`:
what told an outcome is as it was, and the sequences whose producers were run pass on to `p`. -/
structure Underway (w₀ : World) (owner : Lazy) (p : Producer) (w : World) :
    Prop where
  size : w₀.lazies.size ≤ w.lazies.size
  lt : owner.id < w₀.lazies.size
  cell : w.lazyCell owner = ⟨.running, none⟩
  taken : ∃ q, w₀.lazyCell owner = ⟨.ready q, none⟩
  orderly : Orderly w
  told : ∀ l r, l.id < w₀.lazies.size → w₀.told? l = some r → w.lazyCell l = w₀.lazyCell l
  ready : ∀ l q, w₀.lazyCell l = ⟨.ready q, none⟩ → w.lazyCell l = ⟨.ready q, none⟩ ∨
    (l = owner ∨ w.lazyCell l = ⟨.delegated owner, none⟩) ∧ ∃ j, Passes w₀ j q p

namespace Underway

/-- A sequence delegated in the first world is not delegated to the owner. -/
theorem ne_owner (h : Underway w₀ owner p w) (ho : Orderly w₀)
    (hl : w₀.lazyCell l = ⟨.delegated o, none⟩) : o ≠ owner := by
  obtain ⟨q, hq⟩ := h.taken
  refine World.ne_of_running (ho l o hl).2 ?_
  rw [hq]
  nofun

theorem told? (h : Underway w₀ owner p w) (ho : Orderly w₀) (hl : l.id < w₀.lazies.size)
    (hr : w₀.told? l = some r) : w.told? l = some r := by
  refine (World.told?_congr (h.told l r hl hr) fun o hd => ?_).trans hr
  obtain ⟨hlt, hs⟩ := ho l o hd
  obtain ⟨r', hr'⟩ : ∃ r', w₀.told? o = some r' := by
    refine Option.ne_none_iff_exists'.mp fun hn => ?_
    obtain ⟨q, hq⟩ := World.told?_eq_none.mp hn
    rw [hq] at hs
    cases hs
  exact h.told o r' hlt hr'

/-- The realization begins when the producer is taken. -/
theorem start (hw : Orderly w₀) (hc : w₀.lazyCell owner = ⟨.ready p, none⟩) :
    Underway w₀ owner p (w₀.slotted owner .running) := by
  have hlt : owner.id < w₀.lazies.size := World.lt_of_ready hc
  have hself : (w₀.slotted owner .running).lazyCell owner = ⟨.running, none⟩ := by
    rw [World.lazyCell_slotted_self _ hlt, hc]
  have hother : ∀ m, m ≠ owner → (w₀.slotted owner .running).lazyCell m = w₀.lazyCell m :=
    fun m hm => World.lazyCell_slotted_of_ne _ hm
  have horderly : Orderly (w₀.slotted owner .running) := hw.slotted (by rw [hc]; nofun) nofun
  refine ⟨Nat.le_of_eq (w₀.size_slotted ..).symm, hlt, hself, ⟨p, hc⟩, horderly,
    fun l r _ hr => ?_, fun l q hl => ?_⟩
  · refine hother l ?_
    rintro rfl
    exact (World.ready_untold hc hr).elim
  · by_cases hne : l = owner
    · subst hne
      rw [hc] at hl
      cases hl
      exact .inr ⟨.inl rfl, 0, .refl _⟩
    · exact .inl ((hother l hne).trans hl)

/-- A run of a producer makes a sequence and changes no other. -/
theorem produce (h : Underway w₀ owner p w) (q : Producer) :
    Underway w₀ owner p (w.produce q) := by
  have hold : ∀ l, l.id < w.lazies.size → (w.produce q).lazyCell l = w.lazyCell l :=
    fun l hl => World.lazyCell_produce q hl
  have hsize : w.lazies.size ≤ (w.produce q).lazies.size := by
    rw [World.size_produce]
    exact Nat.le_add_right ..
  have hlt : owner.id < w.lazies.size := Nat.lt_of_lt_of_le h.lt h.size
  refine ⟨Nat.le_trans h.size hsize, h.lt, (hold owner hlt).trans h.cell, h.taken,
    h.orderly.produce q, fun l r hl hr => ?_, fun l p' hl => ?_⟩
  · rw [hold l (Nat.lt_of_lt_of_le hl h.size)]
    exact h.told l r hl hr
  · rw [hold l (Nat.lt_of_lt_of_le (World.lt_of_ready hl) h.size)]
    exact h.ready l p' hl

/-- The producer of a sequence on the way is taken. -/
theorem take (h : Underway w₀ owner p w) (hn : w.lazyCell next = ⟨.ready q, none⟩)
    (hpq : Passes w₀ 1 p q) :
    Underway w₀ owner q (w.slotted next (.delegated owner)) := by
  have hlt : next.id < w.lazies.size := World.lt_of_ready hn
  have hself : (w.slotted next (.delegated owner)).lazyCell next = ⟨.delegated owner, none⟩ := by
    rw [World.lazyCell_slotted_self _ hlt, hn]
  have hother : ∀ m, m ≠ next → (w.slotted next (.delegated owner)).lazyCell m = w.lazyCell m :=
    fun m hm => World.lazyCell_slotted_of_ne _ hm
  have hne : owner ≠ next := by
    rintro rfl
    rw [h.cell] at hn
    cases hn
  have howner := (hother owner hne).trans h.cell
  have horderly : Orderly (w.slotted next (.delegated owner)) := by
    refine h.orderly.slotted (by rw [hn]; nofun) fun o ho => ?_
    cases ho
    exact ⟨Nat.lt_of_lt_of_le h.lt h.size, by rw [h.cell]⟩
  refine ⟨by rw [World.size_slotted]; exact h.size, h.lt, howner, h.taken, horderly,
    fun l r hl hr => ?_, fun l q' hl => ?_⟩
  · rw [hother l ?_]
    · exact h.told l r hl hr
    · rintro rfl
      rw [h.told l r hl hr] at hn
      exact (World.ready_untold hn hr).elim
  · by_cases hln : l = next
    · subst hln
      rcases h.ready l q' hl with hr | ⟨ho, -⟩
      · rw [hn] at hr
        cases hr
        exact .inr ⟨.inr hself, 0, .refl _⟩
      · rcases ho with rfl | ho
        · exact absurd rfl hne
        · rw [hn] at ho
          cases ho
    · rw [hother l hln]
      rcases h.ready l q' hl with hr | ⟨ho, hp⟩
      · exact .inl hr
      · obtain ⟨j, hp⟩ := hp
        exact .inr ⟨ho, 1 + j, hp.trans hpq⟩

end Underway

/-! ### The end of a realization -/

/-- The world advanced to one in which a sequence tells this outcome. -/
structure Settles (w₀ w : World) (l : Lazy) (r : Realized) : Prop where
  advances : Advances w₀ w
  orderly : Orderly w
  told : w.told? l = some r

/-- The world advanced to one in which a sequence tells this outcome, and nothing panicked. -/
structure Completes (w₀ w : World) (l : Lazy) (r : Realized) : Prop extends Settles w₀ w l r where
  unbroken : Unbroken w₀ w

/-- An outcome that is told of the owner and of all that is delegated to it settles them. -/
theorem Underway.settles (h : Underway w₀ owner p w) (hw : Orderly w₀)
    (hsize : w.lazies.size ≤ w'.lazies.size) (ho : Orderly w')
    (hready : ∀ l q, w.lazyCell l = ⟨.ready q, none⟩ → w'.lazyCell l = ⟨.ready q, none⟩)
    (htold : ∀ l, l ≠ owner → w.lazyCell l ≠ ⟨.delegated owner, none⟩ → w'.told? l = w.told? l)
    (howner : w'.told? owner = some r)
    (hdelegated : ∀ l, w.lazyCell l = ⟨.delegated owner, none⟩ → w'.told? l = some r)
    (hy : Yields w₀ w' p r) : Settles w₀ w' owner r := by
  refine ⟨⟨Nat.le_trans h.size hsize, fun l r' hl hr => ?_, fun l q hl => ?_⟩, ho, howner⟩
  · rw [htold l]
    · exact h.told? hw hl hr
    · rintro rfl
      obtain ⟨q, hq⟩ := h.taken
      exact (World.ready_untold hq hr).elim
    · intro hd
      rw [h.told l r' hl hr] at hd
      exact h.ne_owner hw hd rfl
  · rcases h.ready l q hl with hr | ⟨hl, hp⟩
    · exact .inl (hready l q hr)
    · refine .inr ⟨r, ?_, fun k u hu hne => ?_⟩
      · rcases hl with rfl | hl
        · exact howner
        · exact hdelegated l hl
      · obtain ⟨j, hp⟩ := hp
        obtain ⟨i, -, hu⟩ := hp k u hu
        exact hy i u hu hne

/-- A realization that unwinds leaves its sequence with an error. -/
theorem Underway.unwinds {text : String} (h : Underway w₀ owner p w) (hw : Orderly w₀)
    (hp : ∀ k u, Comes w₀ k p u → u = .panic text) :
    Settles w₀ w owner (.error .producerPanicked) := by
  refine h.settles hw (Nat.le_refl _) h.orderly (fun _ _ hl => hl) (fun _ _ _ => rfl)
    (World.told?_running h.cell) (fun l hl => ?_) fun k u hu hne => absurd (hp k u hu) (hne text)
  rw [World.told?_delegated hl, h.cell]
  rfl

/-- A realization that has an outcome keeps it. -/
theorem Underway.keeps (h : Underway w₀ owner p w) (hw : Orderly w₀) (hn : Noted w w')
    (hy : ∀ k u, Comes w₀ k p u → u.Becomes (w'.kept owner r) r) :
    Completes w₀ (w'.kept owner r) owner r := by
  have hlt : owner.id < w'.lazies.size := hn.size ▸ Nat.lt_of_lt_of_le h.lt h.size
  have hself : ((w'.kept owner r).lazyCell owner).realized = some r := by
    rw [World.lazyCell_kept_self _ hlt]
  -- a cell that is not running is as it was before the noting and the keeping
  have hsame : ∀ m slot, w.lazyCell m = ⟨slot, none⟩ → slot ≠ .running →
      (w'.kept owner r).lazyCell m = ⟨slot, none⟩ := by
    intro m slot hm hs
    have hne : m ≠ owner := by
      rintro rfl
      rw [h.cell] at hm
      cases hm
      exact hs rfl
    rw [World.lazyCell_kept_of_ne r hne, hn.of_slot (by rw [hm]; exact hs), hm]
  refine ⟨h.settles hw ?_ ((hn.orderly h.orderly).kept owner r) (fun l q hl => hsame l _ hl nofun)
    (fun l hl hd => ?_) (World.told?_realized hself) (fun l hl => ?_) fun k u hu _ => hy k u hu,
    fun l q hl => ?_⟩
  · rw [World.size_kept]
    exact Nat.le_of_eq hn.size.symm
  · refine (World.told?_kept hl fun hd' => hd ?_).trans (hn.told? l)
    exact (hn.of_unrealized (by rw [hd'])).symm.trans hd'
  · rw [World.told?_delegated (hsame l _ hl nofun), hself]
    rfl
  · refine (h.ready l q hl).imp (fun hr => hsame l _ hr nofun) fun hp k text hu => ?_
    obtain ⟨-, j, hp⟩ := hp
    obtain ⟨i, -, hu⟩ := hp k _ hu
    exact nomatch hy i _ hu

/-! ### Chasing -/

/-- How the part of a realization from `p` on ends: with an outcome to keep, with the panic that `p`
comes to, or for want of rounds or depth. -/
inductive Chased (w₀ : World) (owner : Lazy) (depth rounds : Nat) (p : Producer) :
    EStateM.Result Fault World (Option Seq) → Prop
  | answers {r : Realized} {w : World} (h : Completes w₀ (w.kept owner r) owner r) :
      Chased w₀ owner depth rounds p (Act.ended r.answer w)
  | panics {text : String} {w : World} (h : Settles w₀ w owner (.error .producerPanicked))
      (hp : ∀ k u, Comes w₀ k p u → u = .panic text) :
      Chased w₀ owner depth rounds p (.error (.panic text) w)
  | exhausted {w : World} (h : 0 < depth → ∀ u, ¬Comes w₀ rounds p u) :
      Chased w₀ owner depth rounds p (.error .exhausted w)

/-- What a producer passes on to is chased in one round more. -/
theorem Chased.pass {res : EStateM.Result Fault World (Option Seq)}
    (h : Chased w₀ owner depth rounds q res) (hpq : Passes w₀ 1 p q) :
    Chased w₀ owner depth (rounds + 1) p res := by
  cases h with
  | answers h => exact .answers h
  | panics h hp =>
    refine .panics h fun k u hu => ?_
    obtain ⟨i, -, hu⟩ := hpq k u hu
    exact hp i u hu
  | exhausted h =>
    refine .exhausted fun hd u hu => ?_
    obtain ⟨i, hi, hu⟩ := hpq (rounds + 1) u hu
    cases hi
    exact h hd u hu

/-- A sequence that tells an outcome answers it, unless there is no depth left. -/
theorem Lazy.chase_tells (owner : Lazy) (n depth rounds : Nat) (hw : Orderly w)
    (hr : w.told? next = some r) :
    (∃ w', Lazy.chase (Lazy.seqAt depth) owner (rounds + 1) (.lazy next) n w =
      Act.ended r.answer w' ∧ Noted w w') ∨
    depth = 0 ∧ Lazy.chase (Lazy.seqAt depth) owner (rounds + 1) (.lazy next) n w =
      .error .exhausted w := by
  rcases hc : w.lazyCell next with ⟨slot, _ | r'⟩
  · cases slot with
    | ready p =>
      exact (World.ready_untold hc hr).elim
    | running =>
      rw [World.told?_running hc] at hr
      cases hr
      rw [Lazy.chase_running hc]
      cases depth with
      | zero => exact .inr ⟨rfl, rfl⟩
      | succ depth =>
        obtain ⟨w', hw', hn⟩ := Lazy.seqAt_taken (o := next) n depth (by rw [hc])
        rw [hc] at hw'
        exact .inl ⟨w', hw', hn⟩
    | delegated o =>
      rw [World.told?_delegated hc] at hr
      cases hr
      rw [Lazy.chase_delegated hc]
      cases depth with
      | zero => exact .inr ⟨rfl, rfl⟩
      | succ depth => exact .inl (Lazy.seqAt_taken n depth (hw next o hc).2)
  · have hr' : (w.lazyCell next).realized = some r' := by rw [hc]
    rw [World.told?_realized hr'] at hr
    cases hr
    exact .inl ⟨w, Lazy.chase_told hr', .refl w⟩

namespace Underway

/-- A producer on the way is run, and what it returned is dealt with by `f`. -/
theorem run {f : Value → Act (Option Seq)} (h : Underway w₀ owner p w) (hw : Orderly w₀)
    (hf : ∀ v, p.outcome w.nextLazy = .ok v →
      Chased w₀ owner depth rounds p (f v n (w.produce p))) :
    Chased w₀ owner depth rounds p ((p.run >>= f) n w) := by
  rw [Act.bind_apply, p.run_eq]
  cases ho : p.outcome w.nextLazy with
  | ok v => exact hf v ho
  | error e =>
    cases e with
    | error e =>
      refine .answers (r := .error e) ((h.produce p).keeps hw (.refl _) fun k u hu => ?_)
      rw [hu.eq_of_fail ho]
      exact .outcome _
    | panic text =>
      have hp : ∀ k u, Comes w₀ k p u → u = .panic text := fun k u hu => hu.eq_of_panic ho
      exact .panics ((h.produce p).unwinds hw hp) hp
    | exhausted => exact absurd ho (p.outcome_ne_exhausted _)

/-- A producer passes on to the sequence that it returned. -/
theorem passesOn {made : Lazy} (h : Underway w₀ owner p w) (hp : p.outcome made = .ok (.lazy next))
    (hmade : ∀ q, p.makes? = some q → w.lazyCell made = ⟨.ready q, none⟩)
    (hn : w.lazyCell next = ⟨.ready q, none⟩) : Passes w₀ 1 p q := by
  rcases passes_lazy (w := w₀) hp with hp | ⟨rfl, q', hq', hp⟩
  · refine hp.trans fun k u hu => ?_
    cases hu with
    | direct hv => exact absurd rfl (hv next)
    | told hl hr =>
      rw [h.told next _ hl hr] at hn
      exact (World.ready_untold hn hr).elim
    | ready hl hu =>
      rcases h.ready next _ hl with hr | ⟨ho, -⟩
      · rw [hn] at hr
        cases hr
        exact ⟨_, rfl, hu⟩
      · rcases ho with rfl | ho
        · rw [h.cell] at hn
          cases hn
        · rw [ho] at hn
          cases hn
  · rw [hmade q' hq'] at hn
    cases hn
    exact hp

/-- A producer comes to the outcome that is told of the sequence that it returned. -/
theorem comes_told {made : Lazy} {k : Nat} {u : Upshot} (h : Underway w₀ owner p w)
    (hw : Orderly w₀) (hp : p.outcome made = .ok (.lazy next))
    (hmade : ∀ q, p.makes? = some q → w.lazyCell made = ⟨.ready q, none⟩)
    (hr : w.told? next = some r) (hu : Comes w₀ k p u) : u = .outcome r := by
  rcases passes_lazy (w := w₀) hp with hp | ⟨rfl, q, hq, -⟩
  · obtain ⟨i, -, hi⟩ := hp k u hu
    cases hi with
    | direct hv => exact absurd rfl (hv next)
    | told hl hr' =>
      rw [h.told? hw hl hr'] at hr
      cases hr
      rfl
    | @ready _ _ q _ hl =>
      -- the producer of that sequence was run in this call: the way is a circle
      rcases h.ready next q hl with hn | ⟨-, j, hback⟩
      · exact (World.ready_untold hn hr).elim
      · exact absurd hu (((hp.trans (passes_ready hl)).trans hback).vain k u)
  · exact (World.ready_untold (hmade q hq) hr).elim

/-- What a producer returned is chased to an outcome. -/
theorem chase (hw : Orderly w₀) : ∀ {rounds : Nat} {p : Producer} {v : Value} {w : World}
    {made : Lazy}, Underway w₀ owner p w → w₀.lazies.size ≤ made.id →
    p.outcome made = .ok v →
    (∀ q, p.makes? = some q → w.lazyCell made = ⟨.ready q, none⟩) →
    Chased w₀ owner depth rounds p (Lazy.chase (Lazy.seqAt depth) owner rounds v n w)
  | 0, _, _, _, _, _, _, hp, _ => .exhausted fun _ _ hu => absurd (hu.pos_of_ok hp) (Nat.lt_irrefl 0)
  | rounds + 1, p, v, w, made, h, hnew, hp, hmade => by
    have hne : made ≠ owner := by
      rintro rfl
      exact absurd h.lt (Nat.not_lt_of_le hnew)
    by_cases hv : ∃ m, v = .lazy m
    · obtain ⟨next, rfl⟩ := hv
      cases hr : w.told? next with
      | none =>
        obtain ⟨q, hq⟩ := World.told?_eq_none.mp hr
        have hpq := h.passesOn hp hmade hq
        have htake := h.take hq hpq
        rw [Lazy.chase_ready hq]
        refine (htake.run hw fun v' hv' => ?_).pass hpq
        exact (htake.produce q).chase hw htake.size hv' fun q' hq' => World.lazyCell_produce_made hq'
      | some r =>
        rcases Lazy.chase_tells owner n depth rounds h.orderly hr with
          ⟨w', hres, hn⟩ | ⟨hd, hres⟩
        · rw [hres]
          refine .answers (h.keeps hw hn fun k u hu => ?_)
          rw [h.comes_told hw hp hmade hr hu]
          exact .outcome r
        · rw [hres]
          exact .exhausted fun hlt => absurd hd (Nat.ne_of_gt hlt)
    · have hv : ∀ m, v ≠ .lazy m := fun m hm => hv ⟨m, hm⟩
      rw [Lazy.chase_direct hv]
      refine .answers (h.keeps hw (.refl w) fun k u hu => hu.becomes_direct hv hp fun q hq => ?_)
      rw [World.lazyCell_kept_of_ne _ hne]
      exact hmade q hq

end Underway

/-! ### A call -/

/-- How a call ends: with an outcome that the sequence tells from then on, with the panic that it comes
to, or for want of budget or depth. -/
inductive Called (w₀ : World) (l : Lazy) (n depth : Nat) :
    EStateM.Result Fault World (Option Seq) → Prop
  | answers {r : Realized} {w : World} (h : Completes w₀ w l r) :
      Called w₀ l n depth (Act.ended r.answer w)
  | panics {text : String} {w : World} (h : Settles w₀ w l (.error .producerPanicked))
      (hl : ∀ k u, Comes w₀ k (.give (.lazy l)) u → u = .panic text) :
      Called w₀ l n depth (.error (.panic text) w)
  | exhausted {w : World} (h : 2 ≤ depth → ∀ u, ¬Comes w₀ (n + 1) (.give (.lazy l)) u) :
      Called w₀ l n depth (.error .exhausted w)

/-- A sequence whose producer was taken keeps the outcome of the one that took it. -/
theorem Noted.completes (hw : Orderly w₀) (hc : w₀.lazyCell l = ⟨.delegated o, none⟩)
    (hn : Noted (w₀.slotted l .running) w')
    (hr : (w₀.lazyCell o).realized.getD (.error .producerPanicked) = r) :
    Completes w₀ (w'.kept l r) l r := by
  have hslot : (w₀.lazyCell l).slot ≠ .running := by
    rw [hc]
    nofun
  have hlt : l.id < w'.lazies.size := by
    rw [hn.size, World.size_slotted]
    exact World.lt_of_slot_ne_running hslot
  have hself : ((w'.kept l r).lazyCell l).realized = some r := by
    rw [World.lazyCell_kept_self _ hlt]
  have hfirst : ∀ m, m ≠ l → (w₀.slotted l .running).lazyCell m = w₀.lazyCell m :=
    fun m hm => World.lazyCell_slotted_of_ne _ hm
  -- nobody is delegated to a sequence that was delegated itself
  have hnobody : ∀ m o', w₀.lazyCell m = ⟨.delegated o', none⟩ → o' ≠ l :=
    fun m o' hm => World.ne_of_running (hw m o' hm).2 hslot
  have htold : ∀ m, (w'.kept l r).told? m = w₀.told? m := by
    intro m
    by_cases hm : m = l
    · subst hm
      rw [World.told?_realized hself, World.told?_delegated hc, hr]
    · have hd : w'.lazyCell m ≠ ⟨.delegated l, none⟩ := by
        intro hd
        rw [hn.of_unrealized (by rw [hd]), hfirst m hm] at hd
        exact hnobody m l hd rfl
      rw [World.told?_kept hm hd, hn.told?]
      exact World.told?_congr (hfirst m hm) fun o' ho' => hfirst o' (hnobody m o' ho')
  have hready : ∀ m p, w₀.lazyCell m = ⟨.ready p, none⟩ →
      (w'.kept l r).lazyCell m = ⟨.ready p, none⟩ := by
    intro m p hm
    have hne : m ≠ l := by
      rintro rfl
      rw [hc] at hm
      cases hm
    rw [World.lazyCell_kept_of_ne r hne, hn.ready ((hfirst m hne).trans hm)]
  refine ⟨⟨⟨?_, fun m r' _ hr' => (htold m).trans hr', fun m p hm => .inl (hready m p hm)⟩, ?_,
    World.told?_realized hself⟩, fun m p hm => .inl (hready m p hm)⟩
  · rw [World.size_kept, hn.size, World.size_slotted]
  · exact (hn.orderly (hw.slotted hslot nofun)).kept l r

/-- A realization that ran producers ends the call. -/
theorem Chased.called (hc : w₀.lazyCell l = ⟨.ready p, none⟩)
    (h : Chased w₀ l depth n p (Lazy.realize (Lazy.seqAt depth) l n w₀)) :
    Called w₀ l n (depth + 1) (Lazy.seqAt (depth + 1) l n w₀) := by
  have hr : (w₀.lazyCell l).realized = none := by rw [hc]
  generalize hres : Lazy.realize (Lazy.seqAt depth) l n w₀ = res at h
  cases h with
  | answers h =>
    rw [Lazy.seqAt_keeps hr hres]
    exact .answers h
  | panics h hp =>
    rw [Lazy.seqAt_unwinds (by rintro e ⟨⟩) hr hres]
    refine .panics h fun k u hu => ?_
    obtain ⟨i, -, hu⟩ := passes_ready hc k u hu
    exact hp i u hu
  | exhausted h =>
    rw [Lazy.seqAt_unwinds (by rintro e ⟨⟩) hr hres]
    refine .exhausted fun hd u hu => ?_
    obtain ⟨i, hi, hu⟩ := passes_ready hc (n + 1) u hu
    cases hi
    exact h (Nat.le_of_succ_le_succ hd) u hu

/-- A sequence that was delegated answers what the one that took its producer tells. -/
theorem called_delegated (hw : Orderly w₀) (hc : w₀.lazyCell l = ⟨.delegated o, none⟩) :
    ∀ depth, Called w₀ l n (depth + 1) (Lazy.seqAt (depth + 1) l n w₀)
  | 0 => by
    have hres : Lazy.realize (Lazy.seqAt 0) l n w₀ = .error .exhausted _ :=
      Lazy.realize_delegated (by rw [hc])
    rw [Lazy.seqAt_unwinds (by rintro e ⟨⟩) (by rw [hc]) hres]
    exact .exhausted fun h => absurd h (by decide)
  | depth + 1 => by
    have hs := (hw l o hc).2
    have hne : o ≠ l := World.ne_of_running hs (by rw [hc]; nofun)
    have hcell := World.lazyCell_slotted_of_ne (w := w₀) .running hne
    obtain ⟨w', hw', hn⟩ := Lazy.seqAt_taken n depth (hcell.symm ▸ hs)
    rw [hcell] at hw'
    rw [Lazy.seqAt_keeps (by rw [hc]) ((Lazy.realize_delegated (by rw [hc])).trans hw')]
    exact .answers (hn.completes hw hc rfl)

/-- A call on a lazy sequence, in any world that is orderly. -/
theorem seqAt_called (hw : Orderly w₀) : ∀ depth : Nat,
    Called w₀ l n depth (Lazy.seqAt depth l n w₀)
  | 0 => .exhausted fun h => absurd h (Nat.not_succ_le_zero _)
  | depth + 1 => by
    rcases hc : w₀.lazyCell l with ⟨slot, _ | r⟩
    · rcases slot with p | _ | o
      · have hstart : Underway w₀ l p (w₀.slotted l .running) := .start hw hc
        refine Chased.called hc ?_
        rw [Lazy.realize_ready (by rw [hc])]
        refine hstart.run hw fun v hv => ?_
        exact (hstart.produce p).chase hw hstart.size hv fun q hq => World.lazyCell_produce_made hq
      · obtain ⟨w', hw', hn⟩ := Lazy.seqAt_taken (o := l) n depth (by rw [hc])
        rw [hw', hc]
        exact .answers ⟨⟨hn.advances, hn.orderly hw, (hn.told? l).trans (World.told?_running hc)⟩,
          hn.unbroken⟩
      · exact called_delegated hw hc depth
    · rw [Lazy.seqAt_told (by rw [hc])]
      have hn := Noted.refl w₀
      exact .answers ⟨⟨hn.advances, hw, World.told?_realized (by rw [hc])⟩, hn.unbroken⟩

end LispCore
