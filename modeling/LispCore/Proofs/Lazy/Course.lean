import LispCore.Proofs.Lazy.OneHop
/-!
What has been realized after some calls. In a `Course` of calls the sequences whose outcome is kept are
those that have returned (`Course.returned`), and a sequence that was delegated to another one goes along
with it (`Tied`): either it still is delegated to it, or both have the same outcome. So a sequence is
realized once it, or the one that it was delegated to, has returned, and from then on its calls give what
was returned (`delegation_is_one_hop`).
-/

namespace LispCore

/-! ### One call -/

/-- A sequence that was delegated to another one goes along with it. -/
inductive Tied (l o : Lazy) : Moment → Prop
  | delegated {c : Moment} (h : (c.world.lazyCell l).slot = .delegated o) : Tied l o c
  | alike {c : Moment} (r : Realized) (hl : (c.world.lazyCell l).realized = some r)
      (ho : (c.world.lazyCell o).realized = some r) : Tied l o c
  | waiting {w : World} : Tied l o ⟨[l], .ask o, w⟩
  | gone {w : World} : Tied l o ⟨[o, l], .close (.error (.error .producerPanicked)), w⟩
  | heard {r : Realized} {a : Except Fault (Option Seq)} {w : World} (ha : a = r.answer)
      (ho : (w.lazyCell o).realized = some r) : Tied l o ⟨[l], .back o a, w⟩
  | closing {r : Realized} {a : Except Fault (Option Seq)} {w : World} (ha : a = r.answer)
      (ho : (w.lazyCell o).realized = some r) : Tied l o ⟨[l], .close a, w⟩

section

variable {c d : Moment} {l o : Lazy}

/-- A delegated sequence stays delegated until it is asked for itself. -/
theorem tied_of_delegated (hm : Move c d) (hs : Steady c)
    (h : (c.world.lazyCell l).slot = .delegated o) : Tied l o d := by
  have hkeep : ∀ {m : Lazy} (slot : Slot), (c.world.lazyCell m).slot ≠ .delegated o →
      ((c.world.slotted m slot).lazyCell l).slot = .delegated o := by
    intro m slot hne
    have hlm : l ≠ m := by
      rintro rfl
      exact hne h
    rw [World.lazyCell_slotted_of_ne slot hlm]
    exact h
  cases hm with
  | told | direct | found | wait | waitOuter | unwind | resume => exact .delegated h
  | take hc | claim hc => exact .delegated (hkeep _ (by rw [hc]; nofun))
  | gone hc =>
    have hslot := hkeep .running (by rw [hc]; nofun)
    exact .delegated hslot
  | @pass st m o' w hc =>
    by_cases hlm : l = m
    · subst hlm
      rw [hc] at h
      cases h
      -- Only who called asks for a delegated sequence.
      cases hs with
      | asked => exact .waiting
      | waiting _ _ _ hs =>
        rw [hc] at hs
        cases hs
    · refine .delegated ?_
      rw [World.lazyCell_slotted_of_ne _ hlm]
      exact h
  | @returned st p v w | @failed st p f w =>
    have hlt : l.id < w.lazies.size := World.lt_of_slot_ne_running (by rw [h]; nofun)
    refine .delegated ?_
    rw [World.lazyCell_produce p hlt]
    exact h
  | @keep st m r a w =>
    refine .delegated ?_
    rw [World.slot_kept]
    exact h

theorem Tied.move (h : Tied l o c) (hs : Steady c) (hm : Move c d) : Tied l o d := by
  have hon := hs.onward hm
  cases h with
  | delegated h => exact tied_of_delegated hm hs h
  | alike r hl ho => exact .alike r (hon.told l r hl) (hon.told o r ho)
  | waiting =>
    cases hs with
    | waiting _ _ _ hrun =>
      cases hm with
      | told hr => exact .heard rfl hr
      | gone => exact .gone
      | take hc | pass hc =>
        rw [hc] at hrun
        cases hrun
  | gone =>
    cases hs with
    | gone _ _ ho =>
      cases hm with
      | @keep _ _ r _ _ ha =>
        refine .heard ha ?_
        rw [World.lazyCell_kept_self r ho.lt]
      | unwind hf => exact absurd rfl (hf _)
  | heard ha ho =>
    cases hm with
    | resume => exact .closing ha ho
  | closing ha ho =>
    cases hs with
    | closing _ hl =>
      cases hm with
      | @keep _ _ r _ _ ha' =>
        obtain rfl := Realized.answer_inj (ha.symm.trans ha')
        refine .alike _ ?_ (hon.told o _ ho)
        rw [World.lazyCell_kept_self _ hl.lt]
      | unwind hf => exact absurd ha (Realized.answer_ne_error hf)

theorem Tied.moves (h : Tied l o c) (hs : Steady c) (hp : Moves c d) : Tied l o d := by
  induction hp with
  | refl => exact h
  | tail hp hm ih => exact ih.move (hs.passes hp).1 hm

/-- Between calls a sequence that was delegated still is, or has the outcome of the other one. -/
theorem Tied.of_answered {m : Lazy} {a : Except Fault (Option Seq)} {w : World}
    (h : Tied l o ⟨[], .back m a, w⟩) : (w.lazyCell l).slot = .delegated o ∨
      ∃ r, (w.lazyCell l).realized = some r ∧ (w.lazyCell o).realized = some r := by
  cases h with
  | delegated h => exact .inl h
  | alike r hl ho => exact .inr ⟨r, hl, ho⟩

/-- When the outcome of a sequence is kept, it has returned at that moment. -/
theorem Move.realized {r : Realized} (hm : Move c d) (h : (d.world.lazyCell l).realized = some r) :
    (c.world.lazyCell l).realized = some r ∨ d.doing = .back l r.answer := by
  cases hm with
  | told | direct | found | wait | waitOuter | unwind | resume => exact .inl h
  | @take _ m _ w | @pass _ m _ w | @gone _ m w | @claim _ _ m _ w =>
    exact .inl ((w.realized_slotted m _ l).symm.trans h)
  | @returned _ p _ w | @failed _ p _ w =>
    rcases w.lazyCell_produce_cases p l with hc | ⟨q, -, hc⟩
    · exact .inl (hc ▸ h)
    · rw [hc] at h
      cases h
  | @keep _ m r' a w ha =>
    by_cases hlm : l = m
    · subst hlm
      rw [World.lazyCell_kept_self r' (w.size_kept l r' ▸ World.lt_of_realized h)] at h
      obtain rfl := Option.some.inj h
      exact .inr (congrArg (Doing.back l) ha)
    · rw [World.lazyCell_kept_of_ne r' hlm] at h
      exact .inl h

theorem Moves.realized {r : Realized} (hp : Moves c d) (h : (d.world.lazyCell l).realized = some r) :
    (c.world.lazyCell l).realized = some r ∨ ∃ e, Moves c e ∧ e.doing = .back l r.answer := by
  induction hp with
  | refl => exact .inl h
  | tail hp hm ih =>
    rcases hm.realized h with hr | hd
    · exact ih hr
    · exact .inr ⟨_, hp.tail hm, hd⟩

theorem Steady.back {st : List Lazy} {r : Realized} {w : World}
    (h : Steady ⟨st, .back l r.answer, w⟩) : (w.lazyCell l).realized = some r := by
  cases h with
  | heard _ _ ha ho => rw [ho, Realized.answer_inj ha]
  | answered _ ha => exact ha r rfl

end

/-! ### What is known of a sequence -/

/-- The outcome is kept for the sequence, or for the one that it is delegated to. -/
def World.Realizes (w : World) (l : Lazy) (r : Realized) : Prop :=
  (w.lazyCell l).realized = some r ∨
    ∃ o, (w.lazyCell l).slot = .delegated o ∧ (w.lazyCell o).realized = some r

namespace Lazy

variable {n : Nat} {l : Lazy} {r : Realized} {w : World}

theorem isRealized_keeps (l : Lazy) (n : Nat) (w : World) : ∃ b, l.isRealized n w = .ok b w := by
  rw [isRealized, Act.bind_of_ok (cell_apply l)]
  cases (w.lazyCell l).realized with
  | some r => exact ⟨true, rfl⟩
  | none =>
    cases (w.lazyCell l).slot with
    | ready p | running => exact ⟨false, rfl⟩
    | delegated o => exact ⟨(w.lazyCell o).realized.isSome, rfl⟩

theorem isRealized_iff : l.isRealized n w = .ok true w ↔ ∃ r, w.Realizes l r := by
  rw [isRealized, Act.bind_of_ok (cell_apply l)]
  cases hr : (w.lazyCell l).realized with
  | some r => exact ⟨fun _ => ⟨r, .inl hr⟩, fun _ => rfl⟩
  | none =>
    have hown : ∀ r, w.Realizes l r ↔
        ∃ o, (w.lazyCell l).slot = .delegated o ∧ (w.lazyCell o).realized = some r := by
      intro r
      rw [World.Realizes, hr]
      exact or_iff_right nofun
    simp only [hown]
    cases hs : (w.lazyCell l).slot with
    | ready p | running =>
      constructor
      · rintro ⟨⟩
      · rintro ⟨r, o, ⟨⟩, -⟩
    | delegated o =>
      have hcell : (do return (← o.cell).realized.isSome : Act Bool) n w =
          .ok (w.lazyCell o).realized.isSome w := rfl
      constructor
      · intro h
        have hsome : (w.lazyCell o).realized.isSome = true := by
          injection hcell.symm.trans h
        obtain ⟨r, hr⟩ := Option.isSome_iff_exists.mp hsome
        exact ⟨r, o, rfl, hr⟩
      · rintro ⟨r, _, ⟨⟩, hr⟩
        refine hcell.trans ?_
        rw [hr]
        rfl

/-- A call gives what was returned and runs no producer. -/
structure Retells (n : Nat) (l : Lazy) (r : Realized) (w : World) : Prop where
  answers : ∃ w', l.seq? n w = Act.ended r.answer w' ∧ w'.produced = w.produced
  quiet : ∀ c, Moves ⟨[], .ask l, w⟩ c → ∀ p, c.doing ≠ .run p

end Lazy

/-- The moments of a call that runs nothing: the outcome is known of the sequence that is asked for. -/
inductive Quiet : Moment → Prop
  | ask {st : List Lazy} {l : Lazy} {r : Realized} {w : World} (h : w.OneHop) (hk : w.Realizes l r) :
      Quiet ⟨st, .ask l, w⟩
  | back {st : List Lazy} {l : Lazy} {a : Except Fault (Option Seq)} {w : World} :
      Quiet ⟨st, .back l a, w⟩
  | close {st : List Lazy} {a : Except Fault (Option Seq)} {w : World} : Quiet ⟨st, .close a, w⟩

theorem Quiet.move {c d : Moment} (h : Quiet c) (hm : Move c d) : Quiet d := by
  cases h with
  | @ask st l r w h hk =>
    cases hm with
    | told => exact .back
    | gone => exact .close
    | @take _ _ _ _ hc =>
      rcases hk with hr | ⟨o, hs, -⟩
      · rw [hc] at hr
        cases hr
      · rw [hc] at hs
        cases hs
    | @pass _ _ o _ hc =>
      rcases hk with hr | ⟨o', hs, hr⟩
      · rw [hc] at hr
        cases hr
      · rw [hc] at hs
        cases hs
        exact .ask (h.running l) (.inl ((w.realized_slotted l .running o).trans hr))
  | back =>
    cases hm with
    | resume => exact .close
  | close =>
    cases hm with
    | keep | unwind => exact .back

theorem World.Realizes.retells {n : Nat} {l : Lazy} {r : Realized} {w : World} (hk : w.Realizes l r)
    (h : w.OneHop) (hn : 2 ≤ n) : l.Retells n r w := by
  obtain ⟨depth, rfl⟩ : ∃ depth, n = depth + 2 := ⟨n - 2, by omega⟩
  constructor
  · have hbudget : l.seq? (depth + 2) w = Lazy.seqAt (depth + 2) l (depth + 2) w :=
      Act.bind_of_ok (Act.budget_apply ..)
    rw [hbudget]
    cases hr : (w.lazyCell l).realized with
    | some r' =>
      rcases hk with hr' | ⟨o, hs, -⟩
      · rw [hr] at hr'
        rw [Lazy.seqAt_told hr, Option.some.inj hr']
        exact ⟨w, rfl, rfl⟩
      · rw [h.told l r' hr] at hs
        cases hs
    | none =>
      rcases hk with hr' | ⟨o, hs, hro⟩
      · rw [hr] at hr'
        cases hr'
      · have hask : Lazy.seqAt (depth + 1) o (depth + 2) (w.slotted l .running) =
            Act.ended r.answer (w.slotted l .running) :=
          Lazy.seqAt_told ((w.realized_slotted l .running o).trans hro)
        exact ⟨_, Lazy.seqAt_keeps hr ((Lazy.realize_delegated hs).trans hask), rfl⟩
  · intro c hc
    have hquiet : Quiet c := by
      induction hc with
      | refl => exact .ask h hk
      | tail _ hm ih => exact ih.move hm
    cases hquiet <;> exact nofun

/-! ### Calls -/

/-- Calls one after the other, each on a sequence that is there by then: some ask for the sequence, and are
listed with the world that they begin in, the others ask whether it is realized. -/
inductive Course (n : Nat) (w : World) : List (Lazy × World) → World → Prop
  | none : Course n w [] w
  | seq {calls : List (Lazy × World)} {w₁ w₂ : World} {l : Lazy} {a : Except Fault (Option Seq)}
      (h : Course n w calls w₁) (hl : l.id < w₁.lazies.size) (ha : l.seq? n w₁ = Act.ended a w₂) :
      Course n w (calls ++ [(l, w₁)]) w₂
  | isRealized {calls : List (Lazy × World)} {w₁ w₂ : World} {l : Lazy} {b : Bool}
      (h : Course n w calls w₁) (hl : l.id < w₁.lazies.size) (hb : l.isRealized n w₁ = .ok b w₂) :
      Course n w calls w₂

def Along (calls : List (Lazy × World)) (c : Moment) : Prop :=
  ∃ l w, (l, w) ∈ calls ∧ Moves ⟨[], .ask l, w⟩ c

/-- A call on the sequence, perhaps one made inside the realization of another sequence, has returned. -/
def Returned (calls : List (Lazy × World)) (l : Lazy) (r : Realized) : Prop :=
  ∃ c, Along calls c ∧ c.doing = .back l r.answer

/-- The sequence was delegated to another one at some moment. -/
def WasDelegated (calls : List (Lazy × World)) (l o : Lazy) : Prop :=
  ∃ c, Along calls c ∧ (c.world.lazyCell l).slot = .delegated o

/-- A call on the sequence, or on one that it was delegated to, has returned. -/
def ReturnedFor (calls : List (Lazy × World)) (l : Lazy) (r : Realized) : Prop :=
  Returned calls l r ∨ ∃ o, WasDelegated calls l o ∧ Returned calls o r

/-- What holds between calls. -/
structure Attested (calls : List (Lazy × World)) (w : World) : Prop where
  oneHop : w.OneHop
  steady : ∀ c, Along calls c → Steady c ∧ c.world.Onward w
  returned : ∀ l r, (w.lazyCell l).realized = some r → Returned calls l r
  delegated : ∀ l o, (w.lazyCell l).slot = .delegated o → WasDelegated calls l o
  tied : ∀ l o, WasDelegated calls l o → (w.lazyCell l).slot = .delegated o ∨
    ∃ r, (w.lazyCell l).realized = some r ∧ (w.lazyCell o).realized = some r

section

variable {family : List Producer} {n : Nat} {w w' w'' : World} {calls more : List (Lazy × World)}
  {l : Lazy} {r : Realized} {a : Except Fault (Option Seq)} {c : Moment}

theorem along_append : Along (calls ++ more) c ↔ Along calls c ∨ Along more c := by
  simp [Along, or_and_right, exists_or]

theorem along_single : Along [(l, w)] c ↔ Moves ⟨[], .ask l, w⟩ c := by
  simp [Along]

theorem Returned.mono (h : Returned calls l r) : Returned (calls ++ more) l r :=
  let ⟨c, hc, hd⟩ := h
  ⟨c, along_append.mpr (.inl hc), hd⟩

theorem WasDelegated.mono {o : Lazy} (h : WasDelegated calls l o) :
    WasDelegated (calls ++ more) l o :=
  let ⟨c, hc, hd⟩ := h
  ⟨c, along_append.mpr (.inl hc), hd⟩

theorem ReturnedFor.mono (h : ReturnedFor calls l r) : ReturnedFor (calls ++ more) l r :=
  h.imp Returned.mono fun ⟨o, hd, hr⟩ => ⟨o, hd.mono, hr.mono⟩

namespace Attested

theorem start (hf : Acyclic family) (hw : Unasked family w) : Attested [] w := by
  have hsize : w.lazies.size = family.length := by
    rw [show w.lazies = _ from hw, List.size_toArray, List.length_map]
  have hcell : ∀ l, (∃ p ∈ family, w.lazyCell l = ⟨.ready p, none⟩) ∨
      w.lazyCell l = ⟨.running, none⟩ := by
    intro l
    by_cases hl : l.id < family.length
    · refine .inl ⟨family[l.id], List.getElem_mem hl, ?_⟩
      simp [World.lazyCell, show w.lazies = _ from hw, hl]
    · have hle : w.lazies.size ≤ l.id := by omega
      refine .inr ?_
      rw [World.lazyCell, Array.getD_eq_getD_getElem?, Array.getElem?_eq_none hle]
      rfl
  have hslot : ∀ l o, (w.lazyCell l).slot ≠ .delegated o := by
    intro l o h
    rcases hcell l with ⟨p, -, hc⟩ | hc <;> rw [hc] at h <;> cases h
  have hreal : ∀ l r, (w.lazyCell l).realized ≠ some r := by
    intro l r h
    rcases hcell l with ⟨p, -, hc⟩ | hc <;> rw [hc] at h <;> cases h
  constructor
  · refine ⟨fun l o h => absurd h (hslot l o), fun l r h => absurd h (hreal l r), ?_⟩
    intro l p m hs hp
    rcases hcell l with ⟨q, hq, hc⟩ | hc
    · rw [hc] at hs
      cases hs
      rw [hsize]
      exact hf.closed p hq m hp
    · rw [hc] at hs
      cases hs
  · rintro c ⟨l, w, ⟨⟩, -⟩
  · exact fun l r h => absurd h (hreal l r)
  · exact fun l o h => absurd h (hslot l o)
  · rintro l o ⟨c, ⟨l', w', ⟨⟩, -⟩, -⟩

/-- One more call. -/
theorem next (h : Attested calls w) (hl : l.id < w.lazies.size)
    (hend : Moves ⟨[], .ask l, w⟩ ⟨[], .back l a, w'⟩) : Attested (calls ++ [(l, w)]) w' := by
  have hstart : Steady ⟨[], .ask l, w⟩ := .asked h.oneHop hl
  have hlast : Along (calls ++ [(l, w)]) ⟨[], .back l a, w'⟩ :=
    along_append.mpr (.inr (along_single.mpr hend))
  constructor
  · exact (hstart.passes hend).1.oneHop
  · intro c hc
    rcases along_append.mp hc with hc | hc
    · obtain ⟨hs, hon⟩ := h.steady c hc
      exact ⟨hs, hon.trans (hstart.passes hend).2⟩
    · have hc := along_single.mp hc
      have hs := (hstart.passes hc).1
      exact ⟨hs, (hs.passes (hc.on_the_way hend)).2⟩
  · intro m r hr
    rcases hend.realized hr with hr | ⟨c, hc, hd⟩
    · exact (h.returned m r hr).mono
    · exact ⟨c, along_append.mpr (.inr (along_single.mpr hc)), hd⟩
  · exact fun m o hs => ⟨_, hlast, hs⟩
  · rintro m o ⟨c, hc, hd⟩
    rcases along_append.mp hc with hc | hc
    · have htied : Tied m o ⟨[], .ask l, w⟩ := by
        rcases h.tied m o ⟨c, hc, hd⟩ with hs | ⟨r, hm, ho⟩
        · exact .delegated hs
        · exact .alike r hm ho
      exact (htied.moves hstart hend).of_answered
    · have hc := along_single.mp hc
      have htied : Tied m o c := .delegated hd
      exact (htied.moves (hstart.passes hc).1 (hc.on_the_way hend)).of_answered

/-- What has returned is kept. -/
theorem kept (h : Attested calls w) (hr : Returned calls l r) : (w.lazyCell l).realized = some r := by
  obtain ⟨⟨st, doing, w₁⟩, hc, hd⟩ := hr
  obtain ⟨hs, hon⟩ := h.steady _ hc
  cases hd
  exact hon.told l r hs.back

theorem realizes_iff (h : Attested calls w) : w.Realizes l r ↔ ReturnedFor calls l r := by
  constructor
  · rintro (hr | ⟨o, hs, hr⟩)
    · exact .inl (h.returned l r hr)
    · exact .inr ⟨o, h.delegated l o hs, h.returned o r hr⟩
  · rintro (hr | ⟨o, hd, hr⟩)
    · exact .inl (h.kept hr)
    · have hro := h.kept hr
      rcases h.tied l o hd with hs | ⟨r', hl, ho⟩
      · exact .inr ⟨o, hs, hro⟩
      · rw [hro] at ho
        exact .inl (Option.some.inj ho ▸ hl)

end Attested

theorem Course.append (h : Course n w calls w') (h' : Course n w' more w'') :
    Course n w (calls ++ more) w'' := by
  induction h' with
  | none =>
    rw [List.append_nil]
    exact h
  | seq _ hl ha ih =>
    rw [← List.append_assoc]
    exact ih.seq hl ha
  | isRealized _ hl hb ih => exact ih.isRealized hl hb

theorem Course.exists_calls (h : Course n w calls w') : ∃ cs, Calls n w cs w' := by
  induction h with
  | none => exact ⟨[], .none⟩
  | seq _ hl ha ih =>
    obtain ⟨cs, hcs⟩ := ih
    exact ⟨_, hcs.next hl ha⟩
  | @isRealized calls w₁ w₂ l b _ hl hb ih =>
    obtain ⟨b', hb'⟩ := l.isRealized_keeps n w₁
    cases hb.symm.trans hb'
    exact ih

theorem Reading.Gives.ne_exhausted {rd : Reading} {before : Lazy → Prop} (h : rd.Gives before a) :
    a ≠ .error .exhausted := by
  cases h with
  | returns r => exact r.answer_ne_exhausted
  | unwinds | panicked => exact nofun

/-- Given enough budget a call comes to an end. -/
theorem Course.ends (hf : Acyclic family) (hn : maxHops family + 2 ≤ n) (hw : Unasked family w)
    (h : Course n w calls w') (hl : l.id < w'.lazies.size) (ha : l.seq? n w' = Act.ended a w'') :
    Moves ⟨[], .ask l, w'⟩ ⟨[], .back l a, w''⟩ := by
  obtain ⟨cs, hcs⟩ := h.exists_calls
  obtain ⟨b, hb⟩ := (hcs.next hl ha).ran hf hn hw
  obtain ⟨rd, before, -, hg⟩ := hb.reads.of_mem (List.mem_append_right cs List.mem_cons_self)
  have hseq : Lazy.seqAt n l n w' = Act.ended a w'' := ha
  exact Lazy.moves_seqAt n n [] l w' a w'' hseq hg.ne_exhausted

theorem Course.attested (hf : Acyclic family) (hn : maxHops family + 2 ≤ n) (hw : Unasked family w)
    (h : Course n w calls w') : Attested calls w' := by
  induction h with
  | none => exact .start hf hw
  | seq h hl ha ih => exact ih.next hl (h.ends hf hn hw hl ha)
  | @isRealized calls w₁ w₂ l b _ hl hb ih =>
    obtain ⟨b', hb'⟩ := l.isRealized_keeps n w₁
    cases hb.symm.trans hb'
    exact ih

/-- The moments of a call are those on the way to its answer. -/
theorem Course.on_the_way (hf : Acyclic family) (hn : maxHops family + 2 ≤ n) (hw : Unasked family w)
    (h : Course n w calls w') {w₁ : World} (hm : (l, w₁) ∈ calls) :
    ∃ a w₂, l.seq? n w₁ = Act.ended a w₂ ∧
      ∀ c, Moves ⟨[], .ask l, w₁⟩ c → Moves c ⟨[], .back l a, w₂⟩ := by
  induction h with
  | none => cases hm
  | seq h hl ha ih =>
    rcases List.mem_append.mp hm with hm | hm
    · exact ih hm
    · cases List.mem_singleton.mp hm
      exact ⟨_, _, ha, fun c hc => hc.on_the_way (h.ends hf hn hw hl ha)⟩
  | isRealized _ _ _ ih => exact ih hm

end

/-- Delegation is one hop, and realization only grows. Whatever an acyclic family of lazy sequences is, and
in whatever order its members, and the sequences made on the way, are asked for and asked about, given
enough budget: at every moment of every call a sequence that is delegated to is one that was taken itself.
Between calls a sequence is realized exactly when a call on it, or on the one that it was delegated to, has
returned; then it stays so, and every call on it runs no producer and gives what was returned. -/
theorem delegation_is_one_hop {family : List Producer} (hf : Acyclic family) :
    ∃ N, ∀ n, N ≤ n → ∀ w calls w', Unasked family w → Course n w calls w' →
      (∀ l w₁, (l, w₁) ∈ calls → ∃ a w₂, l.seq? n w₁ = Act.ended a w₂ ∧
        ∀ c, Moves ⟨[], .ask l, w₁⟩ c → Moves c ⟨[], .back l a, w₂⟩) ∧
      (∀ c, Along calls c → ∀ l o, (c.world.lazyCell l).slot = .delegated o →
        (c.world.lazyCell o).slot = .running) ∧
      (∀ l, l.isRealized n w' = .ok true w' ↔ ∃ r, ReturnedFor calls l r) ∧
      ∀ l r, ReturnedFor calls l r → ∀ more w'', Course n w' more w'' →
        l.isRealized n w'' = .ok true w'' ∧ l.Retells n r w'' := by
  refine ⟨maxHops family + 2, fun n hn w calls w' hw hc => ?_⟩
  have hatt := hc.attested hf hn hw
  refine ⟨fun l w₁ hm => hc.on_the_way hf hn hw hm, fun c hc l o hs => ?_, fun l => ?_, ?_⟩
  · exact ((hatt.steady c hc).1.oneHop.hop l o hs).2
  · rw [Lazy.isRealized_iff]
    exact exists_congr fun r => hatt.realizes_iff
  · intro l r hr more w'' hmore
    have hatt' := (hc.append hmore).attested hf hn hw
    have hrealizes : w''.Realizes l r := hatt'.realizes_iff.mpr hr.mono
    exact ⟨Lazy.isRealized_iff.mpr ⟨r, hrealizes⟩, hrealizes.retells hatt'.oneHop (by omega)⟩

/-- A sequence is delegated to one that returns it, and is realized with it, without being asked for. -/
theorem delegation_is_one_hop_outer :
    let family : List Producer := [.log "inner" (.give .nil), .give (.lazy ⟨0⟩)]
    Acyclic family ∧ ∃ n w w', Unasked family w ∧ Course n w [(⟨1⟩, w)] w' ∧
      (w'.lazyCell ⟨0⟩).slot = .delegated ⟨1⟩ ∧ (w'.lazyCell ⟨1⟩).slot = .running ∧
      ∃ r, ReturnedFor [(⟨1⟩, w)] ⟨0⟩ r ∧ Lazy.Retells n ⟨0⟩ r w' := by
  intro family
  have hf : Acyclic family := by
    refine .of_lt fun i p m hp hm => ?_
    rcases i with _ | _ | i
    · cases hp
      cases hm
    · cases hp
      cases hm
      decide
    · cases hp
  obtain ⟨N, hN⟩ := delegation_is_one_hop hf
  let w : World := { lazies := (family.map fun p => ⟨.ready p, none⟩).toArray }
  let w' : World :=
    { lazies := #[⟨.delegated ⟨1⟩, none⟩, ⟨.running, some (.ok none)⟩], produced := #["inner"] }
  have hc : Course (N + 5) w [(⟨1⟩, w)] w' := Course.none.seq (a := .ok none) (by decide) rfl
  obtain ⟨-, -, hrealized, htold⟩ := hN (N + 5) (Nat.le_add_right ..) w _ w' rfl hc
  obtain ⟨r, hr⟩ := (hrealized ⟨0⟩).mp rfl
  exact ⟨hf, N + 5, w, w', rfl, hc, rfl, rfl, r, hr, (htold ⟨0⟩ r hr [] w' .none).2⟩

end LispCore
