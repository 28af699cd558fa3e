import LispCore.Proofs.Lazy.Settled
/-!
One call on a lazy sequence of a family. `Lazy.chase` and `Lazy.seqAt` step as their cells say
(`chase_ready`, `seqAt_keeps` and the like). While a sequence is realized all others are settled
(`Busy`); running a producer and chasing what it returned keeps that and ends with what the naive
reading gives (`Busy.run`, `Busy.chase`), so a call between settled sequences ends among settled
sequences with that answer (`seqAt_answers`).
-/

namespace LispCore

/-! ### Steps -/

namespace Lazy

variable {ask : Lazy → Act (Option Seq)} {owner next l o : Lazy} {n depth rounds : Nat} {w w' : World}
  {p : Producer} {r : Realized}

theorem chase_direct {v : Value} (hv : ∀ m, v ≠ .lazy m) :
    chase ask owner (rounds + 1) v n w = Act.ended (Realized.answer v.directSeq) w := by
  rw [← Act.ofExcept_apply v.directSeq n w]
  cases v with
  | lazy m => exact absurd rfl (hv m)
  | _ => rfl

theorem chase_told (h : (w.lazyCell next).realized = some r) :
    chase ask owner (rounds + 1) (.lazy next) n w = Act.ended r.answer w := by
  rw [chase, Act.bind_of_ok (cell_apply next), h]
  exact Act.ofExcept_apply r n w

theorem chase_ready (h : w.lazyCell next = ⟨.ready p, none⟩) :
    chase ask owner (rounds + 1) (.lazy next) n w =
      (p.run >>= chase ask owner rounds) n (w.slotted next (.delegated owner)) := by
  rw [chase, Act.bind_of_ok (cell_apply next), h]
  rfl

theorem chase_running (h : w.lazyCell next = ⟨.running, none⟩) :
    chase ask owner (rounds + 1) (.lazy next) n w = ask next n w := by
  rw [chase, Act.bind_of_ok (cell_apply next), h]

theorem chase_delegated (h : w.lazyCell next = ⟨.delegated o, none⟩) :
    chase ask owner (rounds + 1) (.lazy next) n w = ask o n w := by
  rw [chase, Act.bind_of_ok (cell_apply next), h]

theorem realize_ready (h : (w.lazyCell l).slot = .ready p) :
    realize ask l n w = (p.run >>= chase ask l n) n (w.slotted l .running) := by
  rw [realize, Act.bind_of_ok (cell_apply l), Act.bind_of_ok (setSlot_apply l .running), h]
  rfl

theorem realize_delegated (h : (w.lazyCell l).slot = .delegated o) :
    realize ask l n w = ask o n (w.slotted l .running) := by
  rw [realize, Act.bind_of_ok (cell_apply l), Act.bind_of_ok (setSlot_apply l .running), h]

theorem realize_running (h : (w.lazyCell l).slot = .running) :
    realize ask l n w = .error (.error .producerPanicked)
      { w.slotted l .running with notices := w.notices.push .realizedAfterPanic } := by
  rw [realize, Act.bind_of_ok (cell_apply l), Act.bind_of_ok (setSlot_apply l .running), h]
  rfl

theorem seqAt_told (h : (w.lazyCell l).realized = some r) :
    seqAt (depth + 1) l n w = Act.ended r.answer w := by
  rw [seqAt, Act.bind_of_ok (cell_apply l), h]
  exact Act.ofExcept_apply r n w

/-- An outcome is kept, also when it is an error. -/
theorem seqAt_keeps (h : (w.lazyCell l).realized = none)
    (hr : realize (seqAt depth) l n w = Act.ended r.answer w') :
    seqAt (depth + 1) l n w = Act.ended r.answer (w'.kept l r) := by
  have ha : Act.attempt (realize (seqAt depth) l) n w = .ok r w' := by
    cases r with
    | ok s => exact Act.attempt_of_ok hr
    | error e => exact Act.attempt_of_error hr
  rw [seqAt, Act.bind_of_ok (cell_apply l), h]
  refine (Act.bind_of_ok ha).trans ((Act.bind_of_ok (keep_apply l r)).trans ?_)
  exact Act.ofExcept_apply r n _

/-- A panic unwinds the call, and so does want of budget; nothing is kept. -/
theorem seqAt_unwinds {f : Fault} (hf : ∀ e, f ≠ .error e) (h : (w.lazyCell l).realized = none)
    (hr : realize (seqAt depth) l n w = .error f w') : seqAt (depth + 1) l n w = .error f w' := by
  have ha : Act.attempt (realize (seqAt depth) l) n w = .error f w' := by
    rw [Act.attempt, hr]
    cases f with
    | error e => exact absurd rfl (hf e)
    | panic | exhausted => rfl
  rw [seqAt, Act.bind_of_ok (cell_apply l), h]
  exact Act.bind_of_error ha

end Lazy

/-! ### Asking a sequence that was taken -/

variable {family : List Producer} {before : Array String} {b b' b₀ : Book}
  {opened : Lazy → Prop} {w : World} {owner l o cur : Lazy} {n depth rounds : Nat}

/-- A settled sequence that was taken answers with what is kept for it, or with an error after a
panic, which is kept then. -/
theorem Tracks.ask (h : Tracks family before b opened w) (ho : o.id < w.lazies.size)
    (hn : ¬opened o) (hs : (w.lazyCell o).slot = .running) :
    ∃ r w', Lazy.seqAt (depth + 1) o n w = Act.ended r.answer w' ∧ Tells b o r ∧
      Tracks family before b opened w' ∧ w'.lazies.size = w.lazies.size ∧
      ∀ m, m ≠ o → w'.lazyCell m = w.lazyCell m := by
  cases h.settled o ho hn with
  | ready p hc | delegated _ hc =>
    rw [hc] at hs
    cases hs
  | told r hc ht =>
    have hr : (w.lazyCell o).realized = some r := by rw [hc]
    exact ⟨r, w, Lazy.seqAt_told hr, ht, h, rfl, fun _ _ => rfl⟩
  | unwound j text hc hj =>
    have hr : (w.lazyCell o).realized = none := by rw [hc]
    let w₁ : World := { w.slotted o .running with notices := w.notices.push .realizedAfterPanic }
    have hcell : w₁.lazyCell o = ⟨.running, none⟩ := by
      rw [show w₁.lazyCell o = (w.slotted o .running).lazyCell o from rfl,
        World.lazyCell_slotted_self _ ho, hr]
    have hne : ∀ m, m ≠ o → w₁.lazyCell m = w.lazyCell m := fun m hm =>
      World.lazyCell_slotted_of_ne .running hm
    have hsize : w₁.lazies.size = w.lazies.size := w.size_slotted o .running
    have ht : Tells b o (.error .producerPanicked) := .panicked hj
    refine ⟨.error .producerPanicked, w₁.kept o (.error .producerPanicked), ?_, ht, ?_, ?_, ?_⟩
    · exact Lazy.seqAt_keeps hr (Lazy.realize_running hs)
    · have htouch : Tracks family before b (fun m => opened m ∨ m = o) w₁ :=
        h.touch o hsize rfl hne fun _ => by rw [hcell]
      exact htouch.kept (hsize ▸ ho) (by rw [hcell]) ht fun _ hm => hm
    · exact (w₁.size_kept o _).trans hsize
    · exact fun m hm => (World.lazyCell_kept_of_ne _ hm).trans (hne m hm)

/-! ### A realization -/

/-- A sequence is being realized and all others are settled. The producers that have run since the
call began belong to sequences that this one leads to. -/
structure Busy (family : List Producer) (before : Array String) (b₀ : Book) (owner : Lazy) (b : Book)
    (w : World) : Prop where
  tracks : Tracks family before b (· = owner) w
  lt : owner.id < w.lazies.size
  cell : w.lazyCell owner = ⟨.running, none⟩
  grows : b₀.Grows b
  led : ∀ j ∈ b.ran, j ∉ b₀.ran → Leads b.ended owner j

/-- The realization has come to this sequence: no producer that has run since the call began ended
with a panic, and no sequence behind it is delegated to the one that is being realized. -/
structure Reaches (family : List Producer) (b₀ : Book) (owner : Lazy) (b : Book) (w : World)
    (cur : Lazy) : Prop where
  leads : Leads b.ended owner cur
  returned : ∀ j ∈ b.ran, j ∉ b₀.ran → ∃ v, b.ended j (.ok v)
  behind : ∀ l, (w.lazyCell l).slot = .delegated owner → b.weight family cur ≤ b.weight family l

/-- The realization ended with what the naive reading gives. -/
def Lands (family : List Producer) (before : Array String) (b₀ : Book) (owner : Lazy)
    (res : EStateM.Result Fault World (Option Seq)) : Prop :=
  ∃ a w b r, res = Act.ended a w ∧ Busy family before b₀ owner b w ∧ Reads b.ended owner r ∧
    r.Gives (· ∈ b₀.ran) a

/-- The outcome that is told of a sequence on the way is that of the realization. -/
theorem Reaches.lands (hc : Reaches family b₀ owner b w cur) {m : Lazy} {r : Realized}
    (hm : Leads b.ended owner m) (ht : Tells b m r) {w' : World}
    (hw : Busy family before b₀ owner b w') :
    Lands family before b₀ owner (Act.ended r.answer w') := by
  cases ht with
  | reading hr => exact ⟨_, w', b, _, rfl, hw, hm.reads hr, .returns r⟩
  | @panicked j text hr =>
    obtain ⟨-, hj⟩ := hr.leads
    refine ⟨_, w', b, _, rfl, hw, hm.reads hr, .panicked (Classical.byContradiction fun hnew => ?_)⟩
    obtain ⟨v, hv⟩ := hc.returned j hj.1 hnew
    cases b.ended_unique _ _ _ hj hv

/-- Asking a sequence that was taken leaves the realization as it is. -/
theorem Busy.ask (h : Busy family before b₀ owner b w) (ho : o.id < w.lazies.size)
    (hn : o ≠ owner) (hs : (w.lazyCell o).slot = .running) :
    ∃ r w', Lazy.seqAt (depth + 1) o n w = Act.ended r.answer w' ∧ Tells b o r ∧
      Busy family before b₀ owner b w' := by
  obtain ⟨r, w', hr, ht, htracks, hsize, hcell⟩ := h.tracks.ask ho hn hs
  refine ⟨r, w', hr, ht, htracks, hsize ▸ h.lt, ?_, h.grows, h.led⟩
  rw [hcell owner hn.symm]
  exact h.cell

/-- The producer of the sequence that the realization has come to is run, and what it returned is
dealt with by `f`. -/
theorem Busy.run {p : Producer} {f : Value → Act (Option Seq)}
    (h : Busy family before b₀ owner b w) (hp : b.started[cur.id]? = some p) (hl : cur ∉ b.ran)
    (hs : cur = owner ∨ ∀ q, (w.lazyCell cur).slot ≠ .ready q)
    (hc : Reaches family b₀ owner b w cur)
    (hf : ∀ v b w, Busy family before b₀ owner b w → Reaches family b₀ owner b w cur →
      b.ended cur (.ok v) → b.started[cur.id]? = some p → Lands family before b₀ owner (f v n w)) :
    Lands family before b₀ owner ((p.run >>= f) n w) := by
  have hgrows : b.Grows (b.run cur p) := Book.grows_run hl
  have hends : (b.run cur p).ended cur (p.outcome w.nextLazy) := by
    rw [World.nextLazy, h.tracks.size]
    exact Book.ended_run hp
  have hleads : Leads (b.run cur p).ended owner cur := hc.leads.mono hgrows.ended
  have hbusy : Busy family before b₀ owner (b.run cur p) (w.produce p) := by
    refine ⟨h.tracks.produce hp hl hs, ?_, ?_, h.grows.trans hgrows, fun j hj hnew => ?_⟩
    · rw [World.size_produce]
      exact Nat.lt_add_right _ h.lt
    · rw [World.lazyCell_produce p h.lt]
      exact h.cell
    · rcases List.mem_cons.mp hj with rfl | hj
      · exact hleads
      · exact (h.led j hj hnew).mono hgrows.ended
  have hrun := p.run_eq n w
  rw [Act.bind_apply, hrun]
  cases ho : p.outcome w.nextLazy with
  | error e =>
    rw [ho] at hends
    cases e with
    | error e => exact ⟨_, _, _, _, rfl, hbusy, hleads.reads (.error hends), .returns (.error e)⟩
    | panic text =>
      have hnew : cur ∉ b₀.ran := fun hmem => hl (h.grows.ran cur hmem)
      exact ⟨_, _, _, _, rfl, hbusy, hleads.reads (.panic hends), .unwinds hnew⟩
    | exhausted => exact absurd ho (p.outcome_ne_exhausted _)
  | ok v =>
    rw [ho] at hends
    refine hf v _ _ hbusy ⟨hleads, fun j hj hnew => ?_, fun m hm => ?_⟩ hends (Book.started_run hp)
    · rcases List.mem_cons.mp hj with rfl | hj
      · exact ⟨v, hends⟩
      · obtain ⟨v', hv'⟩ := hc.returned j hj hnew
        exact ⟨v', hgrows.ended _ _ hv'⟩
    · obtain ⟨hm, hslot⟩ := World.delegated_of_produce hm
      obtain ⟨q, hq⟩ : ∃ q, b.started[m.id]? = some q :=
        ⟨_, List.getElem?_eq_getElem (h.tracks.size ▸ hm)⟩
      have hle := hc.behind m hslot
      rw [Book.weight_eq hp, Book.weight_eq hq] at hle
      rw [Book.weight_eq (Book.started_run hp), Book.weight_eq (Book.started_run hq)]
      exact hle

/-- What a producer returned is followed to the end of the naive reading. -/
theorem Busy.chase (hf : Acyclic family) : ∀ {rounds : Nat} {cur : Lazy} {v : Value} {b : Book}
    {w : World}, Busy family before b₀ owner b w → Reaches family b₀ owner b w cur →
    b.ended cur (.ok v) → b.weight family cur < rounds →
    Lands family before b₀ owner (Lazy.chase (Lazy.seqAt (depth + 1)) owner rounds v n w)
  | 0, _, _, _, _, _, _, _, hlt => absurd hlt (Nat.not_lt_zero _)
  | rounds + 1, cur, v, b, w, h, hc, he, hlt => by
    by_cases hv : ∃ m, v = .lazy m
    · obtain ⟨next, rfl⟩ := hv
      obtain ⟨hin, hless⟩ := h.tracks.book.weight_lt hf he
      have hin : next.id < w.lazies.size := h.tracks.size ▸ hin
      have hled : Leads b.ended owner next := hc.leads.step he
      have hne : next ≠ owner := by
        rintro rfl
        exact absurd hless (Nat.not_lt_of_le (h.tracks.book.weight_le_of_leads hf hc.leads))
      cases h.tracks.settled next hin hne with
      | ready p hcell hp hl =>
        rw [Lazy.chase_ready hcell]
        have hself : (w.slotted next (.delegated owner)).lazyCell next =
            ⟨.delegated owner, none⟩ := by
          rw [World.lazyCell_slotted_self _ hin, hcell]
        have hother : ∀ m, m ≠ next →
            (w.slotted next (.delegated owner)).lazyCell m = w.lazyCell m :=
          fun m hm => World.lazyCell_slotted_of_ne _ hm
        have howner := hother owner hne.symm
        have hbusy : Busy family before b₀ owner b (w.slotted next (.delegated owner)) := by
          refine ⟨?_, ?_, howner.trans h.cell, h.grows, h.led⟩
          · have hopen := h.tracks.slotted next (.delegated owner) (by rw [hcell]; nofun)
            refine hopen.close (.delegated owner hself ?_ ?_ hled) fun m hm => hm
            · rw [World.size_slotted]
              exact h.lt
            · rw [howner, h.cell]
          · rw [World.size_slotted]
            exact h.lt
        refine hbusy.run hp hl (.inr fun q => by rw [hself]; nofun) ⟨hled, hc.returned, ?_⟩ ?_
        · intro m hm
          by_cases hmn : m = next
          · rw [hmn]
          · rw [hother m hmn] at hm
            exact Nat.le_of_lt (Nat.lt_of_lt_of_le hless (hc.behind m hm))
        · intro v b' w' hb' hc' he' hp'
          refine hb'.chase hf hc' he' ?_
          rw [Book.weight_eq hp']
          rw [Book.weight_eq hp] at hless
          omega
      | told r hcell ht =>
        have hr : (w.lazyCell next).realized = some r := by rw [hcell]
        rw [Lazy.chase_told hr]
        exact hc.lands hled ht h
      | unwound j text hcell =>
        rw [Lazy.chase_running hcell]
        obtain ⟨r, w', hr, ht, hbusy⟩ := h.ask hin hne (by rw [hcell])
        rw [hr]
        exact hc.lands hled ht hbusy
      | delegated o hcell ho hs hlead =>
        rw [Lazy.chase_delegated hcell]
        have hno : o ≠ owner := by
          rintro rfl
          exact absurd hless (Nat.not_lt_of_le (hc.behind next (by rw [hcell])))
        obtain ⟨r, w', hr, ht, hbusy⟩ := h.ask ho hno hs
        rw [hr]
        exact hc.lands hled (ht.leads hlead) hbusy
    · have hv : ∀ m, v ≠ .lazy m := fun m hm => hv ⟨m, hm⟩
      rw [Lazy.chase_direct hv]
      exact ⟨_, w, b, _, rfl, h, hc.leads.reads (.value he hv), .returns _⟩

/-! ### A call -/

abbrev Idle (family : List Producer) (before : Array String) (b : Book) (w : World) : Prop :=
  Tracks family before b (fun _ => False) w

/-- The call gave what the naive reading says, and left all sequences settled. Only producers of
sequences that this one leads to were run. -/
def Answers (family : List Producer) (before : Array String) (b₀ : Book) (l : Lazy)
    (res : EStateM.Result Fault World (Option Seq)) : Prop :=
  ∃ a w b r, res = Act.ended a w ∧ Idle family before b w ∧ b₀.Grows b ∧
    (∀ j ∈ b.ran, j ∉ b₀.ran → Leads b.ended l j) ∧ Reads b.ended l r ∧ r.Gives (· ∈ b₀.ran) a

/-- A realization ends with the outcome kept, or unwound. -/
theorem Lands.answers (h : Lands family before b₀ l (Lazy.realize (Lazy.seqAt depth) l n w))
    (hc : (w.lazyCell l).realized = none) :
    Answers family before b₀ l (Lazy.seqAt (depth + 1) l n w) := by
  obtain ⟨a, w', b, r, hres, hbusy, hr, hg⟩ := h
  have hslot : (w'.lazyCell l).slot = .running := by rw [hbusy.cell]
  cases hg with
  | returns r =>
    refine ⟨_, _, b, _, Lazy.seqAt_keeps hc hres, ?_, hbusy.grows, hbusy.led, hr, .returns r⟩
    exact hbusy.tracks.kept hbusy.lt hslot (.reading hr) fun _ hm => .inr hm
  | panicked hj =>
    refine ⟨_, _, b, _, Lazy.seqAt_keeps (r := .error .producerPanicked) hc hres, ?_, hbusy.grows,
      hbusy.led, hr, .panicked hj⟩
    exact hbusy.tracks.kept hbusy.lt hslot (.panicked hr) fun _ hm => .inr hm
  | unwinds hj =>
    have hend : Lazy.seqAt (depth + 1) l n w = Act.ended (.error (.panic _)) w' :=
      Lazy.seqAt_unwinds (by rintro e ⟨⟩) hc hres
    refine ⟨_, _, b, _, hend, ?_, hbusy.grows, hbusy.led, hr, .unwinds hj⟩
    exact hbusy.tracks.close (.unwound _ _ hbusy.cell hr) fun _ hm => .inr hm

/-- What is told of a sequence is what it gives once those that ran are known. -/
theorem Tells.gives {r : Realized} (h : Tells b l r) :
    ∃ rd, Reads b.ended l rd ∧ rd.Gives (· ∈ b.ran) r.answer := by
  cases h with
  | reading h => exact ⟨_, h, .returns r⟩
  | panicked h => exact ⟨_, h, .panicked h.leads.2.1⟩

/-- A call among settled sequences gives what the naive reading says and leaves all sequences
settled. -/
theorem seqAt_answers (depth : Nat) (hf : Acyclic family) (h : Idle family before b₀ w)
    (hl : l.id < w.lazies.size) (hn : maxHops family < n) :
    Answers family before b₀ l (Lazy.seqAt (depth + 2) l n w) := by
  have hstays : ∀ j ∈ b₀.ran, j ∉ b₀.ran → Leads b₀.ended l j := fun j hj hn => absurd hj hn
  have htaken : (w.lazyCell l).slot = .running →
      Answers family before b₀ l (Lazy.seqAt (depth + 2) l n w) := by
    intro hs
    obtain ⟨r, w', hr, ht, hidle, -⟩ := h.ask hl not_false hs
    obtain ⟨rd, hrd, hg⟩ := ht.gives
    exact ⟨_, w', b₀, rd, hr, hidle, .refl b₀, hstays, hrd, hg⟩
  -- what holds once the sequence has been taken
  have htake : (w.lazyCell l).slot ≠ .running → (w.lazyCell l).realized = none →
      Busy family before b₀ l b₀ (w.slotted l .running) := by
    intro hs hr
    refine ⟨(h.slotted l .running hs).mono fun m hm => hm.resolve_left not_false, ?_, ?_, .refl b₀,
      hstays⟩
    · rw [World.size_slotted]
      exact hl
    · rw [World.lazyCell_slotted_self _ hl, hr]
  cases h.settled l hl not_false with
  | told r hc | unwound j text hc => exact htaken (by rw [hc])
  | ready p hc hp hran =>
    have hbusy := htake (by rw [hc]; nofun) (by rw [hc])
    refine Lands.answers ?_ (by rw [hc])
    rw [Lazy.realize_ready (by rw [hc])]
    refine hbusy.run hp hran (.inl rfl) ⟨.refl l, fun j hj hn => absurd hj hn, fun m hm => ?_⟩ ?_
    · -- nobody is delegated to a sequence that was ready
      by_cases hml : m = l
      · rw [hml]
      · have hm' : (w.lazyCell m).slot = .delegated l := by
          rw [← World.lazyCell_slotted_of_ne .running hml]
          exact hm
        have hlt : m.id < w.lazies.size := World.lt_of_slot_ne_running (by rw [hm']; nofun)
        cases h.settled m hlt not_false with
        | delegated o hmc ho hs =>
          rw [hmc] at hm'
          cases hm'
          rw [hc] at hs
          cases hs
        | ready _ hmc | told _ hmc | unwound _ _ hmc =>
          rw [hmc] at hm'
          cases hm'
    · intro v b' w' hb' hc' he' hp'
      exact hb'.chase hf hc' he' (Nat.lt_of_le_of_lt (hb'.tracks.book.weight_le l) hn)
  | delegated o hc ho hs hlead =>
    have hbusy := htake (by rw [hc]; nofun) (by rw [hc])
    have hne : o ≠ l := by
      rintro rfl
      rw [hc] at hs
      cases hs
    refine Lands.answers ?_ (by rw [hc])
    rw [Lazy.realize_delegated (by rw [hc])]
    have hslot := (World.lazyCell_slotted_of_ne (w := w) .running hne).symm ▸ hs
    obtain ⟨r, w', hr, ht, hbusy'⟩ := hbusy.ask (by rw [World.size_slotted]; exact ho) hne hslot
    obtain ⟨rd, hrd, hg⟩ := (ht.leads hlead).gives
    exact ⟨_, w', b₀, rd, hr, hbusy', hrd, hg⟩

end LispCore
