import LispCore.Proofs.Value.Means
/-!
What producers come to. `Comes` reads off a world, without running anything, where the realization
that runs a producer ends: with an outcome, with an element in front of a lazy sequence yet to be
made, or with a panic. It counts the producers on the way, so a producer that comes back to itself
comes to nothing (`Passes.vain`), and a finite reading is one of a producer that comes to something
(`Means.becomes`).
-/

namespace LispCore

/-- Where a realization ends: with an outcome, with an element in front of a lazy sequence that is yet
to be made, or with a panic. -/
inductive Upshot where
  | outcome (r : Realized)
  | cell (x : Value) (p : Producer)
  | panic (text : String)

/-- The realization that runs the producer in this world ends here, after so many rounds at most. -/
inductive Comes (w : World) : Nat → Producer → Upshot → Prop
  | fail {k : Nat} {e : Error} : Comes w k (.fail e) (.outcome (.error e))
  | panic {k : Nat} {text : String} : Comes w k (.panic text) (.panic text)
  | log {k : Nat} {line : String} {p : Producer} {u : Upshot} (h : Comes w k p u) :
      Comes w k (.log line p) u
  | direct {k : Nat} {v : Value} (hv : ∀ l, v ≠ .lazy l) :
      Comes w (k + 1) (.give v) (.outcome v.directSeq)
  | told {k : Nat} {l : Lazy} {r : Realized} (hl : l.id < w.lazies.size) (hr : w.told? l = some r) :
      Comes w (k + 1) (.give (.lazy l)) (.outcome r)
  | ready {k : Nat} {l : Lazy} {p : Producer} {u : Upshot} (hl : w.lazyCell l = ⟨.ready p, none⟩)
      (h : Comes w k p u) : Comes w (k + 1) (.give (.lazy l)) u
  | defer {k : Nat} {p : Producer} {u : Upshot} (h : Comes w k p u) : Comes w (k + 1) (.defer p) u
  | cell {k : Nat} {x : Value} {p : Producer} : Comes w (k + 1) (.cell x p) (.cell x p)
  | stream {k i : Nat} {line : Nat → String} {item : Nat → Value} :
      Comes w (k + 1) (.stream line item i) (.cell (item i) (.stream line item (i + 1)))

/-- In this world, the realization that ended there has left this outcome. -/
inductive Upshot.Becomes (w : World) : Upshot → Realized → Prop
  | outcome (r : Realized) : Becomes w (.outcome r) r
  | cell {x : Value} {p : Producer} {l : Lazy} (hl : w.lazyCell l = ⟨.ready p, none⟩) :
      Becomes w (.cell x p) (.ok (some (.cons x (.lazy l))))

variable {w w' : World} {next made : Lazy} {p q : Producer} {u : Upshot} {r : Realized}
  {i j k : Nat} {v : Value}

/-- A ready sequence tells nothing. -/
theorem World.ready_untold (h : w.lazyCell next = ⟨.ready p, none⟩) (hr : w.told? next = some r) :
    False := by
  unfold told? at hr
  rw [h] at hr
  cases hr

namespace Comes

theorem mono (h : Comes w k p u) (hk : k ≤ j) : Comes w j p u := by
  induction h generalizing j with
  | fail => exact .fail
  | panic => exact .panic
  | log _ ih => exact .log (ih hk)
  | direct hv =>
    match j, hk with
    | _ + 1, _ => exact .direct hv
  | told hl hr =>
    match j, hk with
    | _ + 1, _ => exact .told hl hr
  | ready hl _ ih =>
    match j, hk with
    | _ + 1, hk => exact .ready hl (ih (Nat.le_of_succ_le_succ hk))
  | defer _ ih =>
    match j, hk with
    | _ + 1, hk => exact .defer (ih (Nat.le_of_succ_le_succ hk))
  | cell =>
    match j, hk with
    | _ + 1, _ => exact .cell
  | stream =>
    match j, hk with
    | _ + 1, _ => exact .stream

/-! ### What a run tells of the way -/

/-- A producer that returns something needs a round. -/
theorem pos_of_ok (hp : p.outcome made = .ok v) (h : Comes w k p u) : 0 < k := by
  induction h with
  | fail | panic => cases hp
  | log _ ih => exact ih hp
  | direct | told | ready | defer | cell | stream => exact Nat.succ_pos _

theorem eq_of_fail {e : Error} (hp : p.outcome made = .error (.error e)) (h : Comes w k p u) :
    u = .outcome (.error e) := by
  induction h with
  | fail =>
    cases hp
    rfl
  | log _ ih => exact ih hp
  | panic | direct | told | ready | defer | cell | stream => cases hp

theorem eq_of_panic {text : String} (hp : p.outcome made = .error (.panic text))
    (h : Comes w k p u) : u = .panic text := by
  induction h with
  | panic =>
    cases hp
    rfl
  | log _ ih => exact ih hp
  | fail | direct | told | ready | defer | cell | stream => cases hp

/-- A producer that returns no lazy sequence ends with the sequence of what it returns, when the lazy
sequence that it made is there. -/
theorem becomes_direct (hv : ∀ l, v ≠ .lazy l) (hp : p.outcome made = .ok v)
    (hm : ∀ q, p.makes? = some q → w'.lazyCell made = ⟨.ready q, none⟩) (h : Comes w k p u) :
    u.Becomes w' v.directSeq := by
  induction h with
  | fail | panic => cases hp
  | log _ ih => exact ih hp hm
  | direct =>
    cases hp
    exact .outcome _
  | told | ready | defer =>
    cases hp
    exact absurd rfl (hv _)
  | cell | stream =>
    cases hp
    exact .cell (hm _ rfl)

end Comes

/-! ### Producers on the way -/

/-- After so many rounds, the realization that runs the one producer has come to the other. -/
def Passes (w : World) (j : Nat) (p q : Producer) : Prop :=
  ∀ k u, Comes w k p u → ∃ i, k = i + j ∧ Comes w i q u

theorem Passes.refl (p : Producer) : Passes w 0 p p := fun k _ h => ⟨k, rfl, h⟩

theorem Passes.trans {p' : Producer} (h : Passes w i p q) (h' : Passes w j q p') :
    Passes w (j + i) p p' := by
  intro k u hu
  obtain ⟨m, rfl, hm⟩ := h k u hu
  obtain ⟨l, rfl, hl⟩ := h' m u hm
  exact ⟨l, Nat.add_assoc .., hl⟩

/-- A producer that comes back to itself comes to nothing. -/
theorem Passes.vain (h : Passes w (j + 1) p p) : ∀ k u, ¬Comes w k p u := by
  intro k
  induction k using Nat.strongRecOn with
  | ind k ih =>
    intro u hk
    obtain ⟨i, rfl, hi⟩ := h k u hk
    exact ih i (by omega) u hi

theorem passes_log (line : String) (p : Producer) : Passes w 0 (.log line p) p := by
  rintro k u (_ | _ | h)
  exact ⟨k, rfl, h⟩

/-- A sequence that was not realized passes on to its producer. -/
theorem passes_ready (hl : w.lazyCell next = ⟨.ready p, none⟩) :
    Passes w 1 (.give (.lazy next)) p := by
  intro k u h
  cases h with
  | direct hv => exact absurd rfl (hv next)
  | told _ hr => exact (World.ready_untold hl hr).elim
  | ready hl' h =>
    rw [hl] at hl'
    cases hl'
    exact ⟨_, rfl, h⟩

/-- A producer that returns a lazy sequence passes on to that one, or makes it. -/
theorem passes_lazy : ∀ {p : Producer}, p.outcome made = .ok (.lazy next) →
    Passes w 0 p (.give (.lazy next)) ∨ next = made ∧ ∃ q, p.makes? = some q ∧ Passes w 1 p q
  | .give _, h => by
    cases h
    exact .inl (.refl _)
  | .defer q, h => by
    cases h
    refine .inr ⟨rfl, q, rfl, fun k u hk => ?_⟩
    cases hk with
    | defer hk => exact ⟨_, rfl, hk⟩
  | .log line p, h => by
    rcases passes_lazy (p := p) h with hp | ⟨hn, q, hq, hp⟩
    · exact .inl ((passes_log line p).trans hp)
    · exact .inr ⟨hn, q, hq, (passes_log line p).trans hp⟩
  | .fail _, h | .panic _, h | .cell .., h | .stream .., h => nomatch h

/-! ### Finite readings -/

/-- A producer of which there is a reading comes to what is read: what has become of it is read as
low, where lower readings are kept. -/
theorem Means.becomes {inside : Nat → Datum} : ∀ {k : Nat} {p : Producer} {ds : List Datum} {f : Bool},
    Means inside w k (.producer p) (.items ds f) → ∃ u, Comes w k p u ∧ (∀ text, u ≠ .panic text) ∧
      ∀ w' r, u.Becomes w' r →
        (∀ i < k, ∀ s d, Means inside w i s d → Means inside w' i s d) →
          Means inside w' k (.outcome r) (.items ds f) := by
  intro k
  induction k using Nat.strongRecOn with
  | ind k ih =>
    intro p ds f h
    -- what is passed on is read lower
    have hpass {i : Nat} {q : Producer} (hi : i < k) (h : Means inside w i (.producer q) (.items ds f)) :
        ∃ u, Comes w i q u ∧ (∀ text, u ≠ .panic text) ∧ ∀ w' r, u.Becomes w' r →
          (∀ i < k, ∀ s d, Means inside w i s d → Means inside w' i s d) →
            Means inside w' k (.outcome r) (.items ds f) := by
      obtain ⟨u, hu, hne, hr⟩ := ih i hi h
      refine ⟨u, hu, hne, fun w' r hb hlow => ?_⟩
      exact (hr w' r hb fun j hj => hlow j (Nat.lt_trans hj hi)).mono (Nat.le_of_lt hi)
    have houtcome {i : Nat} {r : Realized} (hi : i < k) (h : Means inside w i (.outcome r) (.items ds f)) :
        (∀ text, Upshot.outcome r ≠ .panic text) ∧ ∀ w' r', (Upshot.outcome r).Becomes w' r' →
          (∀ i < k, ∀ s d, Means inside w i s d → Means inside w' i s d) →
            Means inside w' k (.outcome r') (.items ds f) := by
      refine ⟨nofun, ?_⟩
      rintro w' _ ⟨_⟩ hlow
      exact (hlow i hi _ _ h).mono (Nat.le_of_lt hi)
    cases h with
    | fail =>
      refine ⟨_, .fail, nofun, ?_⟩
      rintro w' _ ⟨_⟩ -
      exact .failed
    | log hi h =>
      obtain ⟨u, hu, hr⟩ := hpass hi h
      exact ⟨u, .log (hu.mono (Nat.le_of_lt hi)), hr⟩
    | defer hi h =>
      obtain ⟨u, hu, hr⟩ := hpass hi h
      obtain ⟨k, rfl⟩ := Nat.exists_eq_add_of_lt hi
      exact ⟨u, .defer (hu.mono (Nat.le_add_right ..)), hr⟩
    | @cell i _ x q d ds f hi hx h =>
      obtain ⟨k, rfl⟩ := Nat.exists_eq_add_of_lt (Nat.lt_of_succ_lt hi)
      refine ⟨_, .cell, nofun, ?_⟩
      intro w' r hb hlow
      cases hb with
      | cell hl =>
        have hlt : i < i + k + 1 := by omega
        exact .cons hi ((hlow i hlt _ _ hx).mono (Nat.le_succ i))
          (.ready (Nat.lt_succ_self i) hl (hlow i hlt _ _ h))
    | @give i _ v _ _ hi h =>
      obtain ⟨k, rfl⟩ := Nat.exists_eq_add_of_lt hi
      cases h with
      | direct hj hv h => exact ⟨_, .direct hv, houtcome (Nat.lt_trans hj hi) h⟩
      | told hj hl hr h => exact ⟨_, .told hl hr, houtcome (Nat.lt_trans hj hi) h⟩
      | @ready j _ l q _ _ hj hl h =>
        obtain ⟨u, hu, hr⟩ := hpass (Nat.lt_trans hj hi) h
        exact ⟨u, .ready hl (hu.mono (by omega)), hr⟩

end LispCore
