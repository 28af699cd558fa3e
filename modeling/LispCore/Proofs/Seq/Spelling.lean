import LispCore.Proofs.Seq.Agreement
import LispCore.Proofs.Value.Walks
/-!
The elements of a sequence, whenever it is walked. `Spells` reads off a world, without realizing
anything, the elements that come one after the other and what comes behind them, as far as that is
known. A reading stays in every world that follows (`Evolves.spells`), so the elements do not depend
on when they are asked for, or on what else is realized meanwhile. Where no lazy sequence leads back
to itself, everything can be read as deep as one likes (`World.Grounded.spells`), and so a walk meets
what is read (`Value.Walks.spells`).
-/

namespace LispCore

/-- What comes behind some elements: nothing more, an error, a panic, or anything but a panic. -/
inductive Behind where
  | nothing
  | error (e : Error)
  | panic (text : String)
  | anything

/-- How a walk ends that is told of by an optional error. -/
def Behind.of : Option Error → Behind
  | none => .nothing
  | some e => .error e

/-- From where a realization has ended, these elements come, and then this, when each realization may
take so many rounds. -/
inductive Spells (n : Nat) (w : World) : Upshot → List Value → Behind → Prop
  | anything {u : Upshot} (hu : ∀ text, u ≠ .panic text) : Spells n w u [] .anything
  | panic {text : String} : Spells n w (.panic text) [] (.panic text)
  | failed {e : Error} : Spells n w (.outcome (.error e)) [] (.error e)
  | done : Spells n w (.outcome (.ok none)) [] .nothing
  | cons {x v : Value} {u : Upshot} {xs : List Value} {b : Behind} (hu : Comes w (n + 1) (.give v) u)
      (h : Spells n w u xs b) : Spells n w (.outcome (.ok (some (.cons x v)))) (x :: xs) b
  | step {s : Seq} {xs : List Value} {b : Behind} (hs : ∀ x v, s ≠ .cons x v)
      (h : Spells n w (.outcome (.ok s.step?)) xs b) :
      Spells n w (.outcome (.ok (some s))) (s.first :: xs) b
  | cell {x : Value} {p : Producer} {u : Upshot} {xs : List Value} {b : Behind} (hu : Comes w n p u)
      (h : Spells n w u xs b) : Spells n w (.cell x p) (x :: xs) b

/-- The elements of the value are these, and then comes this. -/
def Value.Spells (v : Value) (n : Nat) (w : World) (xs : List Value) (b : Behind) : Prop :=
  ∃ u, Comes w (n + 1) (.give v) u ∧ LispCore.Spells n w u xs b

/-- No lazy sequence leads back to itself: what producers give was made before. -/
structure World.Grounded (w : World) : Prop where
  formed : w.Formed
  earlier : ∀ l p, (w.lazyCell l).slot = .ready p → p.Formed l.id

variable {n m k : Nat} {w w₁ w' : World} {u u' : Upshot} {p : Producer} {v x : Value}
  {xs : List Value} {b : Behind} {r : Realized} {s : Seq} {o : Option Seq}

/-! ### Readings stay -/

/-- Nothing panicked on the way to the second world, or no panic is spoken of. -/
def Behind.Quiet (b : Behind) (w w' : World) : Prop := Unbroken w w' ∨ ∀ text, b ≠ .panic text

namespace Spells

theorem mono (h : Spells n w u xs b) (hn : n ≤ m) : Spells m w u xs b := by
  induction h with
  | anything hu => exact .anything hu
  | panic => exact .panic
  | failed => exact .failed
  | done => exact .done
  | cons hu _ ih => exact .cons (hu.mono (Nat.succ_le_succ hn)) ih
  | step hs _ ih => exact .step hs ih
  | cell hu _ ih => exact .cell (hu.mono hn) ih

/-- What comes behind the elements may be left open. -/
theorem left_open (h : Spells n w u xs b) (hb : ∀ text, b ≠ .panic text) :
    Spells n w u xs .anything := by
  induction h with
  | anything hu => exact .anything hu
  | panic => exact absurd rfl (hb _)
  | failed | done => exact .anything nofun
  | cons hu _ ih => exact .cons hu (ih hb)
  | step hs _ ih => exact .step hs (ih hb)
  | cell hu _ ih => exact .cell hu (ih hb)

/-- Behind a panic nothing comes. -/
theorem panics {text : String} (h : Spells n w (.panic text) xs b) : b = .panic text := by
  cases h with
  | anything hu => exact absurd rfl (hu text)
  | panic => rfl

/-- What has become of an element in front of a lazy sequence is read as that element was. -/
theorem becomes (h : Spells n w u xs b) (hb : u.Becomes w r) : Spells n w (.outcome r) xs b := by
  cases hb with
  | outcome => exact h
  | cell hl =>
    cases h with
    | anything => exact .anything nofun
    | cell hu h => exact .cons (.ready hl hu) h

end Spells

/-- Where a producer comes to, or what has become of that, it comes to in a later world. -/
theorem Comes.later (ha : Advances w w') (h : Comes w k p u)
    (hq : Unbroken w w' ∨ ∀ text, u ≠ .panic text) :
    ∃ u', Comes w' k p u' ∧ (u' = u ∨ ∃ r, u.Becomes w' r ∧ u' = .outcome r) := by
  induction h with
  | fail => exact ⟨_, .fail, .inl rfl⟩
  | panic => exact ⟨_, .panic, .inl rfl⟩
  | direct hv => exact ⟨_, .direct hv, .inl rfl⟩
  | cell => exact ⟨_, .cell, .inl rfl⟩
  | stream => exact ⟨_, .stream, .inl rfl⟩
  | told hl hr =>
    exact ⟨_, .told (Nat.lt_of_lt_of_le hl ha.size) (ha.told _ _ hl hr), .inl rfl⟩
  | log _ ih =>
    obtain ⟨u', hu, hb⟩ := ih hq
    exact ⟨u', .log hu, hb⟩
  | defer _ ih =>
    obtain ⟨u', hu, hb⟩ := ih hq
    exact ⟨u', .defer hu, hb⟩
  | @ready k l p u hl h ih =>
    rcases ha.ready l p hl with hl' | ⟨r, hr, hy⟩
    · obtain ⟨u', hu, hb⟩ := ih hq
      exact ⟨u', .ready hl' hu, hb⟩
    · have hne : ∀ text, u ≠ .panic text := by
        rcases hq with hq | hq
        · rintro text rfl
          rcases hq l p hl with hl' | hp
          · exact World.ready_untold hl' hr
          · exact hp k text h
        · exact hq
      have hlt := Nat.lt_of_lt_of_le (World.lt_of_ready hl) ha.size
      exact ⟨_, .told hlt hr, .inr ⟨r, hy k u h hne, rfl⟩⟩

/-- What is read in a world is read in one to which it advances. -/
theorem Spells.later (ha : Advances w w') (h : Spells n w u xs b) (hq : b.Quiet w w') :
    Spells n w' u xs b := by
  -- the next realization may end where it would have, or has been done and left an outcome
  have hnext {k : Nat} {p : Producer} {u : Upshot} {xs : List Value} {b : Behind}
      (hu : Comes w k p u) (h : Spells n w' u xs b) (hq : b.Quiet w w') :
      ∃ u', Comes w' k p u' ∧ Spells n w' u' xs b := by
    obtain ⟨u', hu', rfl | ⟨r, hr, rfl⟩⟩ := hu.later ha <| hq.imp_right fun hb text hp => by
      subst hp
      exact hb text h.panics
    · exact ⟨_, hu', h⟩
    · exact ⟨_, hu', h.becomes hr⟩
  induction h with
  | anything hu => exact .anything hu
  | panic => exact .panic
  | failed => exact .failed
  | done => exact .done
  | cons hu _ ih =>
    obtain ⟨u', hu', h'⟩ := hnext hu (ih hq) hq
    exact .cons hu' h'
  | step hs _ ih => exact .step hs (ih hq)
  | cell hu _ ih =>
    obtain ⟨u', hu', h'⟩ := hnext hu (ih hq) hq
    exact .cell hu' h'

/-- What is read in a world is read in every world that follows. -/
theorem Evolves.spells (h : Evolves w w') (hw : Orderly w) (hb : ∀ text, b ≠ .panic text)
    (hs : Spells n w u xs b) : Spells n w' u xs b :=
  (h.carries (P := fun w => Spells n w u xs b) hw hs fun _ ha hs => hs.later ha (.inr hb)).1

/-! ### Asking for what is read -/

/-- A value that was asked for its sequence answered what is read. -/
theorem Spells.answered (hw : Orderly w) (hu : Comes w (m + 1) (.give v) u) (h : Spells m w u xs b)
    (hs : v.seq? n w = Act.ended r.answer w') : Spells m w' (.outcome r) xs b ∧ Evolves w w' := by
  by_cases hv : ∃ l, v = .lazy l
  · obtain ⟨l, rfl⟩ := hv
    have hev : Evolves w w' := .call (.refl w) hs r.answer_ne_exhausted
    have hcalled : Called w l n n (l.seq? n w) := seq?_called hw
    have hs : l.seq? n w = Act.ended r.answer w' := hs
    generalize l.seq? n w = res at hcalled hs
    cases hcalled with
    | answers hc =>
      obtain ⟨hr, rfl⟩ := Act.ended_inj hs
      obtain rfl := Realized.answer_inj hr
      refine ⟨?_, hev⟩
      have hlater := h.later hc.advances (.inl hc.unbroken)
      cases hu with
      | direct hv => exact absurd rfl (hv l)
      | told hl hr =>
        have htold := hc.advances.told l _ hl hr
        rw [hc.told] at htold
        cases htold
        exact hlater
      | @ready _ _ p _ hl hu =>
        rcases hc.advances.ready l p hl with hl' | ⟨r', hr, hy⟩
        · have htold := hc.told
          exact (World.ready_untold hl' htold).elim
        · rw [hc.told] at hr
          cases hr
          refine hlater.becomes (hy m u hu ?_)
          rintro text rfl
          rcases hc.unbroken l p hl with hl' | hp
          · have htold := hc.told
            exact World.ready_untold hl' htold
          · exact hp m text hu
    | panics | exhausted => cases r <;> cases hs
  · have hv : ∀ l, v ≠ .lazy l := fun l hl => hv ⟨l, hl⟩
    rw [Value.seq?_direct hv] at hs
    obtain ⟨hr, rfl⟩ := Act.ended_inj hs
    obtain rfl := Realized.answer_inj hr
    cases hu with
    | direct => exact ⟨h, .refl w⟩
    | told => exact absurd rfl (hv _)
    | ready => exact absurd rfl (hv _)

/-- Within the budget, a value that is asked for its sequence answers what is read. -/
theorem Spells.answers (hw : Orderly w) (hn : 2 ≤ n) (hm : m ≤ n)
    (hu : Comes w (m + 1) (.give v) u) (hne : ∀ text, u ≠ .panic text) :
    ∃ r w', v.seq? n w = Act.ended (Realized.answer r) w' := by
  by_cases hv : ∃ l, v = .lazy l
  · obtain ⟨l, rfl⟩ := hv
    have hcalled : Called w l n n (l.seq? n w) := seq?_called hw
    show ∃ r w', l.seq? n w = _
    generalize l.seq? n w = res at hcalled
    cases hcalled with
    | answers => exact ⟨_, _, rfl⟩
    | panics _ hl => exact absurd (hl _ u hu) (hne _)
    | exhausted hx => exact absurd (hu.mono (Nat.succ_le_succ hm)) (hx hn u)
  · exact ⟨_, w, Value.seq?_direct (fun l hl => hv ⟨l, hl⟩) n w⟩

/-! ### Everything can be read -/

/-- What may come of the realization that ended there is proper. -/
def Upshot.Formed (made : Nat) : Upshot → Prop
  | .outcome r => ∀ o, r = .ok o → Seq.AllFormed made o
  | .cell _ p => p.Formed made
  | .panic _ => True

theorem World.Formed.told {l : Lazy} (hw : w.Formed) (hr : w.told? l = some r) :
    (Upshot.outcome r).Formed w.lazies.size := by
  rintro o rfl
  unfold World.told? at hr
  rcases hc : w.lazyCell l with ⟨_ | _ | l', _ | r⟩ <;> rw [hc] at hr
  · cases hr
  · exact (hw l).kept o (by rw [hc, ← Option.some.inj hr])
  · cases hr
  · exact (hw l).kept o (by rw [hc, ← Option.some.inj hr])
  · refine (hw l').kept o ?_
    cases hr' : (w.lazyCell l').realized with
    | none =>
      simp only [hr', Option.getD_none] at hr
      cases hr
    | some r =>
      simp only [hr', Option.getD_some] at hr
      rw [Option.some.inj hr]
  · exact (hw l).kept o (by rw [hc, ← Option.some.inj hr])

namespace World.Grounded

/-- Where no lazy sequence was made, none leads back to itself. -/
theorem of_empty (h : w.lazies = #[]) : w.Grounded := by
  have hcell (l : Lazy) : w.lazyCell l = ⟨.running, none⟩ := by
    rw [World.lazyCell, h]
    rfl
  refine ⟨fun l => ⟨fun p hp => ?_, fun o ho => ?_⟩, fun l p hp => ?_⟩
  · rw [hcell] at hp
    cases hp
  · rw [hcell] at ho
    cases ho
  · rw [hcell] at hp
    cases hp

/-- A lazy sequence that is made of what there is leads to what was made before. -/
theorem push (hg : w.Grounded) (hp : p.Formed w.lazies.size) :
    World.Grounded { w with lazies := w.lazies.push ⟨.ready p, none⟩ } := by
  refine ⟨hg.formed.push hp, fun l q hq => ?_⟩
  have hl := hg.earlier l q
  rw [World.lazyCell, Array.getD_eq_getD_getElem?] at hq hl
  rw [Array.getElem?_push] at hq
  split at hq
  · rename_i hid
    cases hq
    exact hid ▸ hp
  · exact hl hq

/-- A producer of what was made before ends somewhere. -/
theorem comes (hg : w.Grounded) : ∀ {made : Nat} {p : Producer}, made ≤ w.lazies.size →
    p.Formed made → ∃ k u, Comes w k p u ∧ u.Formed w.lazies.size := by
  intro made
  induction made using Nat.strongRecOn with
  | ind made ih =>
    intro p hmade hp
    induction p with
    | fail e => exact ⟨0, _, .fail, nofun⟩
    | panic text => exact ⟨0, _, .panic, trivial⟩
    | cell x p => exact ⟨1, _, .cell, Producer.Formed.mono hmade (p := p) hp⟩
    | stream line item i => exact ⟨1, _, .stream, trivial⟩
    | log line p ihp =>
      obtain ⟨k, u, hu, hf⟩ := ihp hp
      exact ⟨k, u, .log hu, hf⟩
    | defer p ihp =>
      obtain ⟨k, u, hu, hf⟩ := ihp hp
      exact ⟨k + 1, u, .defer hu, hf⟩
    | give v =>
      have hv : v.Formed w.lazies.size := Value.Formed.mono hmade hp
      by_cases hl : ∃ l, v = .lazy l
      · obtain ⟨l, rfl⟩ := hl
        cases hr : w.told? l with
        | some r => exact ⟨1, _, .told hv hr, hg.formed.told hr⟩
        | none =>
          obtain ⟨q, hq⟩ := World.told?_eq_none.mp hr
          have hlt : l.id < made := hp
          have hfq := hg.earlier l q (congrArg LazyCell.slot hq)
          obtain ⟨k, u, hu, hf⟩ := ih l.id hlt (Nat.le_of_lt hv) hfq
          exact ⟨k + 1, u, .ready hq hu, hf⟩
      · exact ⟨1, _, .direct fun l h => hl ⟨l, h⟩, fun o ho => hv.directSeq ho⟩

/-- From wherever a realization ended, as many elements can be read as one likes, unless they end
before. -/
theorem spells (hg : w.Grounded) (hf : u.Formed w.lazies.size) (j : Nat) : ∃ n xs b,
    Spells n w u xs b ∧ xs.length ≤ j ∧ (b = .anything → xs.length = j) := by
  induction j generalizing u with
  | zero =>
    cases u with
    | panic text => exact ⟨0, [], _, .panic, Nat.le_refl 0, nofun⟩
    | outcome | cell => exact ⟨0, [], _, .anything nofun, Nat.le_refl 0, fun _ => rfl⟩
  | succ j ih =>
    -- one element more than what comes after the next realization
    have hnext {p : Producer} (hp : p.Formed w.lazies.size) : ∃ n u xs b, Comes w n p u ∧
        Spells n w u xs b ∧ xs.length ≤ j ∧ (b = .anything → xs.length = j) := by
      obtain ⟨k, u, hu, hf⟩ := hg.comes (Nat.le_refl _) hp
      obtain ⟨n, xs, b, hs, hlen⟩ := ih hf
      exact ⟨max k n, u, xs, b, hu.mono (Nat.le_max_left k n), hs.mono (Nat.le_max_right k n), hlen⟩
    have hlonger {xs : List Value} {b : Behind} (x : Value)
        (h : xs.length ≤ j ∧ (b = .anything → xs.length = j)) :
        (x :: xs).length ≤ j + 1 ∧ (b = .anything → (x :: xs).length = j + 1) :=
      ⟨Nat.succ_le_succ h.1, fun hb => congrArg Nat.succ (h.2 hb)⟩
    cases u with
    | panic text => exact ⟨0, [], _, .panic, Nat.zero_le _, nofun⟩
    | cell x p =>
      obtain ⟨n, u, xs, b, hu, hs, hlen⟩ := hnext (p := p) hf
      exact ⟨n, x :: xs, b, .cell hu hs, hlonger x hlen⟩
    | outcome r =>
      rcases r with e | _ | s
      · exact ⟨0, [], _, .failed, Nat.zero_le _, nofun⟩
      · exact ⟨0, [], _, .done, Nat.zero_le _, nofun⟩
      · have hs := hf _ rfl s rfl
        by_cases hc : ∃ x v, s = .cons x v
        · obtain ⟨x, v, rfl⟩ := hc
          obtain ⟨n, u, xs, b, hu, hs, hlen⟩ := hnext (p := .give v) hs
          exact ⟨n, x :: xs, b, .cons (hu.mono (Nat.le_succ n)) hs, hlonger x hlen⟩
        · have hrest : (Upshot.outcome (.ok s.step?)).Formed w.lazies.size := by
            rintro _ ⟨⟩
            exact hs.step?
          obtain ⟨n, xs, b, h, hlen⟩ := ih hrest
          exact ⟨n, s.first :: xs, b, .step (fun x v h => hc ⟨x, v, h⟩) h, hlonger _ hlen⟩

/-- As many elements of a value can be read as one likes, unless they end before. -/
theorem value_spells (hg : w.Grounded) (hv : v.Formed w.lazies.size) (j : Nat) : ∃ n xs b,
    v.Spells n w xs b ∧ xs.length ≤ j ∧ (b = .anything → xs.length = j) := by
  obtain ⟨k, u, hu, hf⟩ := hg.comes (p := .give v) (Nat.le_refl _) hv
  obtain ⟨n, xs, b, hs, hlen⟩ := hg.spells hf j
  exact ⟨max k n, xs, b, ⟨u, hu.mono (by omega), hs.mono (Nat.le_max_right k n)⟩, hlen⟩

end World.Grounded

/-! ### A walk meets what is read -/

/-- Going on by `next?` meets the first element that is read, if any is. -/
theorem Spells.next? (hw : Orderly w) (h : Spells m w (.outcome (.ok (some s))) xs b)
    (hn : s.next? n w = Act.ended r.answer w') : xs = [] ∧ b = .anything ∨
      ∃ ys, xs = s.first :: ys ∧ Spells m w' (.outcome r) ys b ∧ Evolves w w' := by
  cases h with
  | anything => exact .inl ⟨rfl, rfl⟩
  | cons hu h => exact .inr ⟨_, rfl, h.answered hw hu hn⟩
  | @step _ ys _ hs h =>
    have hstep : s.next? = pure s.step? := by
      cases s with
      | cons x v => exact absurd rfl (hs x v)
      | _ => rfl
    rw [hstep] at hn
    cases r with
    | error e => cases hn
    | ok o =>
      cases hn
      exact .inr ⟨ys, rfl, h, .refl w⟩

/-- A walk that ends meets what is read, when it is read further than the walk goes. -/
theorem Walked.spells {ss : List Seq} {err : Option Error} (h : Walked n w o ss err w')
    (hw : Orderly w) (hs : Spells m w (.outcome (.ok o)) xs b)
    (hlen : b = .anything → ss.length < xs.length) : xs = ss.map Seq.first ∧ b = .of err := by
  induction h generalizing xs with
  | done =>
    cases hs with
    | anything => exact absurd (hlen rfl) (Nat.lt_irrefl 0)
    | done => exact ⟨rfl, rfl⟩
  | @failed w w' s e hn =>
    rcases hs.next? (r := .error e) hw hn with ⟨rfl, rfl⟩ | ⟨ys, rfl, hs, -⟩
    · exact absurd (hlen rfl) (Nat.not_lt_zero _)
    · cases hs with
      | anything => exact absurd (hlen rfl) (Nat.lt_irrefl 1)
      | failed => exact ⟨rfl, rfl⟩
  | @next w w₁ w' s o ss err hn h ih =>
    rcases hs.next? (r := .ok o) hw hn with ⟨rfl, rfl⟩ | ⟨ys, rfl, hs, hev⟩
    · exact absurd (hlen rfl) (Nat.not_lt_zero _)
    · obtain ⟨rfl, rfl⟩ := ih (hev.orderly hw) hs fun hb => Nat.lt_of_succ_lt_succ (hlen hb)
      exact ⟨rfl, rfl⟩

/-- The elements of a value that can be walked over are those that the walk meets, and then it ends as
the walk does. -/
theorem Value.Walks.spells {ss : List Seq} {err : Option Error} (h : v.Walks n w ss err w')
    (hw : Orderly w) (hg : w.Grounded) (hv : v.Formed w.lazies.size) :
    ∃ m, v.Spells m w (ss.map Seq.first) (.of err) := by
  obtain ⟨m, xs, b, ⟨u, hu, hs⟩, -, hlen⟩ := hg.value_spells hv (ss.length + 1)
  have hlen (hb : b = .anything) : ss.length < xs.length := by rw [hlen hb]; exact Nat.lt_succ_self _
  refine ⟨m, u, hu, ?_⟩
  cases h with
  | @failed w' e hq =>
    obtain ⟨hs', -⟩ := hs.answered (r := .error e) hw hu hq
    cases hs' with
    | anything => exact absurd (hlen rfl) (Nat.not_lt_zero _)
    | failed => exact hs
  | @seq w₁ w' o _ _ hq h =>
    obtain ⟨hs', hev⟩ := hs.answered (r := .ok o) hw hu hq
    obtain ⟨rfl, rfl⟩ := h.spells (hev.orderly hw) hs' hlen
    exact hs

/-! ### Pulls -/

/-- A pull hands out the element that is met, and what comes after it. -/
theorem Walk.pull_onto (hn : s.next? n w = Act.ended r.answer w') :
    (Walk.onto (.ok (some s))).pull n w = .ok (some (.ok s.first), .onto r) w' := by
  cases r with
  | ok o => exact Act.bind_of_ok (Act.attempt_of_ok hn)
  | error e => exact Act.bind_of_ok (Act.attempt_of_error hn)

/-- The first of some pulls hands out an item, the others the items after it. -/
theorem Walk.pulls_succ {walk : Walk} {j : Nat} {items : List (Option (Except Error Value))}
    (h : walk.pulls (j + 1) n w = .ok items w') : ∃ item rest w₁ items',
      walk.pull n w = .ok (item, rest) w₁ ∧ rest.pulls j n w₁ = .ok items' w' ∧
        items = item :: items' := by
  obtain ⟨⟨item, rest⟩, w₁, hpull, h⟩ := Act.ok_of_bind h
  obtain ⟨items', w₂, hrest, h⟩ := Act.ok_of_bind h
  cases h
  exact ⟨item, rest, w₁, items', hpull, hrest, rfl⟩

/-- A pull that hands out an element has asked for what comes after it. -/
theorem Walk.pull_ok {y : Value} {rest : Walk}
    (h : (Walk.onto r).pull n w = .ok (some (.ok y), rest) w') :
    ∃ s r', r = .ok (some s) ∧ s.first = y ∧ s.next? n w = Act.ended (Realized.answer r') w' ∧
      rest = .onto r' := by
  rcases r with e | _ | s
  · cases h
  · cases h
  · obtain ⟨r', w₁, ha, h⟩ := Act.ok_of_bind h
    rcases Act.ok_of_attempt ha with ⟨o, rfl, hn⟩ | ⟨e, rfl, hn⟩
    · cases h
      exact ⟨s, .ok o, rfl, rfl, hn, rfl⟩
    · cases h
      exact ⟨s, .error e, rfl, rfl, hn, rfl⟩

/-- What as many pulls hand out is what is read. -/
theorem Walk.pulls_spells : ∀ {j : Nat} {w : World} {r : Realized} {xs ys : List Value},
    (Walk.onto r).pulls j n w = .ok (ys.map fun y => some (.ok y)) w' → Orderly w →
    Spells m w (.outcome r) xs b → xs.length ≤ j → (b = .anything → xs.length = j) →
      xs = ys ∧ ∀ text, b ≠ .panic text
  | 0, _, _, xs, ys, hp, _, hs, hlen, _ => by
    obtain rfl := List.eq_nil_of_length_eq_zero (Nat.le_zero.mp hlen)
    cases ys with
    | cons => cases hp
    | nil =>
      refine ⟨rfl, ?_⟩
      rintro text rfl
      cases hs
  | j + 1, w, r, xs, ys, hp, hw, hs, hlen, hb => by
    obtain ⟨item, rest, w₁, items, hpull, hrest, hitems⟩ := pulls_succ hp
    cases ys with
    | nil => cases hitems
    | cons y ys =>
      obtain ⟨rfl, rfl⟩ := List.cons.inj hitems
      obtain ⟨s, r', rfl, rfl, hn, rfl⟩ := pull_ok hpull
      rcases hs.next? hw hn with ⟨rfl, rfl⟩ | ⟨xs, rfl, hs, hev⟩
      · exact absurd (hb rfl) (Nat.succ_ne_zero j).symm
      · obtain ⟨rfl, hb⟩ := pulls_spells hrest (hev.orderly hw) hs (Nat.le_of_succ_le_succ hlen)
          fun h => Nat.succ.inj (hb h)
        exact ⟨rfl, hb⟩

/-- The elements that as many pulls hand out are the first of the value. -/
theorem Value.spells_of_pulls {ys : List Value}
    (h : (Walk.of v >>= Walk.pulls ys.length) n w = .ok (ys.map fun y => some (.ok y)) w')
    (hw : Orderly w) (hg : w.Grounded) (hv : v.Formed w.lazies.size) :
    ∃ m, v.Spells m w ys .anything := by
  obtain ⟨walk, w₁, hof, hpulls⟩ := Act.ok_of_bind h
  obtain ⟨o, w₁, hs, ho⟩ := Act.ok_of_bind hof
  cases ho
  obtain ⟨m, xs, b, ⟨u, hu, hxs⟩, hlen, hb⟩ := hg.value_spells hv ys.length
  obtain ⟨hxs', hev⟩ := hxs.answered (r := .ok o) hw hu hs
  have hpulls : (Walk.onto (.ok o)).pulls ys.length n w₁ = .ok (ys.map fun y => some (.ok y)) w' :=
    hpulls
  obtain ⟨rfl, hne⟩ := Walk.pulls_spells hpulls (hev.orderly hw) hxs' hlen hb
  exact ⟨m, u, hu, hxs.left_open hne⟩

end LispCore
