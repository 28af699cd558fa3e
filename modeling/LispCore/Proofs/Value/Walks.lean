import LispCore.Proofs.Value.Evolves
import LispCore.Value.Equality
/-!
Walks over finite values. A pull hands out the next element that the value comes to, or the error,
or nothing (`pull_gives`). So a drained value gives elements that come to the elements of its datum
(`toArray_gives`), comparing two walks compares their data (`sameWalks_gives`), and so does the
comparison of sequential values, whose known lengths are those of their data (`sameItems_gives`).
-/

namespace LispCore

variable {inside : Nat → Datum} {w w' : World} {n k : Nat} {ds es : List Datum} {f g : Bool}

/-- The walk at what a realization ended with. -/
def Walk.onto : Realized → Walk
  | .ok s => { current := s }
  | .error e => { failed := some e }

/-- What is pulled from a walk whose elements left and end are these. -/
inductive Pulled (inside : Nat → Datum) (k : Nat) (w : World) :
    List Datum → Bool → Option (Except Error Value) × Walk → Prop
  | done (walk : Walk) : Pulled inside k w [] false (none, walk)
  | failed (e : Error) (walk : Walk) : Pulled inside k w [] true (some (.error e), walk)
  | next {i : Nat} {x : Value} {r : Realized} {d : Datum} {ds : List Datum} {f : Bool} (hi : i < k)
      (hx : Means inside w i (.value x) d) (h : Means inside w i (.outcome r) (.items ds f)) :
      Pulled inside k w (d :: ds) f (some (.ok x), .onto r)

theorem attempt_seq?_gives {v : Value} (hw : Orderly w) (hn : 2 ≤ n) (hk : k < n)
    (h : Means inside w k (.rest v) (.items ds f)) :
    Gives (Act.attempt v.seq?) n w fun r w' =>
      ∃ i < k, Means inside w' i (.outcome r) (.items ds f) := by
  obtain ⟨r, w', hr, hev, h⟩ := seq?_answers hw hn hk h
  refine ⟨r, w', ?_, hev, h⟩
  cases r with
  | ok s => exact Act.attempt_of_ok hr
  | error e => exact Act.attempt_of_error hr

/-- A walk over a finite value stands at what the value comes to. -/
theorem attempt_walk_gives {v : Value} (hw : Orderly w) (hn : 2 ≤ n) (hk : k < n)
    (h : Means inside w k (.rest v) (.items ds f)) :
    Gives (Act.attempt (Walk.of v)) n w fun x w' => ∃ r : Realized,
      x = r.map (fun s => { current := s }) ∧
        ∃ i < k, Means inside w' i (.outcome r) (.items ds f) := by
  obtain ⟨r, w', hr, hev, h⟩ := seq?_answers hw hn hk h
  refine ⟨_, w', ?_, hev, r, rfl, h⟩
  cases r with
  | ok s => exact Act.attempt_of_ok (Act.bind_of_ok hr)
  | error e => exact Act.attempt_of_error (Act.bind_of_error hr)

theorem pull_gives {r : Realized} (hw : Orderly w) (hn : 2 ≤ n) (hk : k < n)
    (h : Means inside w k (.outcome r) (.items ds f)) :
    Gives (Walk.onto r).pull n w fun res w' => Pulled inside k w' ds f res := by
  cases h with
  | failed => exact .pure (.failed _ _)
  | done => exact .pure (.done _)
  | @cons i _ x v d ds f hi hx h =>
    have hin : i < n := Nat.lt_trans hi hk
    refine (attempt_seq?_gives hw hn hin h).bind fun r w' hev hr => ?_
    obtain ⟨j, hj, hr⟩ := hr
    have hnext := Pulled.next hi (hev.means hw hx) (hr.mono (Nat.le_of_lt hj))
    cases r with
    | ok s => exact .pure hnext
    | error e => exact .pure hnext
  | @step i _ s d ds f hi hs hx h =>
    have hnext : s.next? = pure s.step? := by
      cases s with
      | cons x v => exact absurd rfl (hs x v)
      | _ => rfl
    refine ⟨_, w, ?_, .refl w, .next hi hx h⟩
    show ((Act.attempt s.next?) >>= _) n w = _
    rw [hnext]
    rfl

/-! ### Draining -/

/-- How collecting elements ends: with values that come to them, or with the error. -/
def Collected (inside : Nat → Datum) (k : Nat) (w : World) (out : Array Value) (ds : List Datum)
    (f : Bool) (a : Except Fault (Array Value)) : Prop :=
  f = true ∧ (∃ e, a = .error (.error e)) ∨ f = false ∧ ∃ xs : List Value,
    a = .ok (out ++ xs.toArray) ∧ List.Forall₂ (fun x d => Means inside w k (.value x) d) xs ds

theorem collect_gives (hn : 2 ≤ n) : ∀ {rounds k : Nat} {w : World} {ds : List Datum} {f : Bool}
    {r : Realized} (out : Array Value), Orderly w → k < rounds → k < n →
    Means inside w k (.outcome r) (.items ds f) →
    ∃ a w', Walk.collect rounds out (.onto r) n w = Act.ended a w' ∧ Evolves w w' ∧
      Collected inside k w' out ds f a
  | 0, _, _, _, _, _, _, _, hk, _, _ => absurd hk (Nat.not_lt_zero _)
  | rounds + 1, k, w, _, _, _, out, hw, hk, hkn, h => by
    obtain ⟨res, w₁, hres, hev, hp⟩ := pull_gives hw hn hkn h
    rw [Walk.collect, Act.bind_of_ok hres]
    cases hp with
    | done walk => exact ⟨.ok out, w₁, rfl, hev, .inr ⟨rfl, [], by simp, .nil⟩⟩
    | failed e walk => exact ⟨.error (.error e), w₁, rfl, hev, .inl ⟨rfl, e, rfl⟩⟩
    | @next i x r d ds f hi hx h =>
      have hrounds : i < rounds := by omega
      obtain ⟨a, w₂, hres', hev', ha⟩ := collect_gives hn (out.push x) (hev.orderly hw) hrounds
        (Nat.lt_trans hi hkn) h
      refine ⟨a, w₂, hres', hev.trans hev', ?_⟩
      rcases ha with ⟨hf, ha⟩ | ⟨hf, xs, rfl, hall⟩
      · exact .inl ⟨hf, ha⟩
      · have hx' := (hev'.means (hev.orderly hw) hx).mono (Nat.le_of_lt hi)
        exact .inr ⟨hf, x :: xs, by simp, .cons hx' (hall.imp fun _ _ h => h.mono (Nat.le_of_lt hi))⟩

/-- A finite value is drained to values that come to its elements, or to an error. -/
theorem toArray_gives {v : Value} (hw : Orderly w) (hn : 2 ≤ n) (hk : k < n)
    (h : Means inside w k (.rest v) (.items ds f)) :
    ∃ a w', v.toArray n w = Act.ended a w' ∧ Evolves w w' ∧ Collected inside k w' #[] ds f a := by
  obtain ⟨r, w₁, hr, hev, i, hi, h⟩ := seq?_answers hw hn hk h
  rw [Value.toArray, Act.bind_of_ok (Act.budget_apply n w)]
  cases r with
  | error e =>
    cases h with
    | failed =>
      have hwalk : Walk.of v n w = .error (.error e) w₁ := Act.bind_of_error hr
      exact ⟨.error (.error e), w₁, Act.bind_of_error hwalk, hev, .inl ⟨rfl, e, rfl⟩⟩
  | ok s =>
    have hwalk : Walk.of v n w = .ok (.onto (.ok s)) w₁ := Act.bind_of_ok hr
    obtain ⟨a, w₂, hres, hev', ha⟩ := collect_gives hn #[] (hev.orderly hw) (by omega) (by omega)
      (h.mono (Nat.le_of_lt hi))
    exact ⟨a, w₂, (Act.bind_of_ok hwalk).trans hres, hev.trans hev', ha⟩

/-! ### Comparing -/

/-- The test tells whether values come to equal data, when their readings are this low. -/
def Decides (inside : Nat → Datum) (same : Value → Value → Act Bool) (n k : Nat) : Prop :=
  ∀ w x y d e, Orderly w → Means inside w k (.value x) d → Means inside w k (.value y) e →
    Gives (same x y) n w fun b _ => b = d.same e

variable {same : Value → Value → Act Bool}

theorem Decides.mono {i : Nat} (h : Decides inside same n k) (hi : i ≤ k) :
    Decides inside same n i :=
  fun w x y d e hw hx hy => h w x y d e hw (hx.mono hi) (hy.mono hi)

/-- Two walks are compared as the data of what is left of them. -/
theorem sameWalks_gives (hn : 2 ≤ n) : ∀ {rounds k : Nat} {w : World} {ds es : List Datum}
    {f g : Bool} {r r' : Realized}, Decides inside same n k → Orderly w → k < rounds → k < n →
    Means inside w k (.outcome r) (.items ds f) → Means inside w k (.outcome r') (.items es g) →
    Gives (Value.sameWalks same rounds (.onto r) (.onto r')) n w fun b _ =>
      b = (Datum.items ds f).same (.items es g)
  | 0, _, _, _, _, _, _, _, _, _, _, hk, _, _, _ => absurd hk (Nat.not_lt_zero _)
  | rounds + 1, k, w, _, _, _, _, _, _, hs, hw, hk, hkn, h, h' => by
    refine (pull_gives hw hn hkn h).bind fun res w₁ hev hp => ?_
    have hw₁ := hev.orderly hw
    refine (pull_gives hw₁ hn hkn (hev.means hw h')).bind fun res' w₂ hev' hp' => ?_
    have hw₂ := hev'.orderly hw₁
    cases hp with
    | done =>
      cases hp' with
      | done | failed | next => exact .pure (by simp [Datum.same, Datum.sameAll])
    | failed =>
      cases hp' with
      | done | failed | next => exact .pure (by simp [Datum.same])
    | @next i x r d ds f hi hx h =>
      cases hp' with
      | done => exact .pure (by simp [Datum.same, Datum.sameAll])
      | failed => exact .pure (by simp [Datum.same])
      | @next j y r' e es g hj hy h' =>
        have hx := (hev'.means hw₁ hx).mono (Nat.le_of_lt hi)
        have hy := hy.mono (Nat.le_of_lt hj)
        refine (hs w₂ x y d e hw₂ hx hy).bind fun b w₃ hev₃ hb => ?_
        subst hb
        cases hde : d.same e with
        | false => exact .pure (by simp [Datum.same, Datum.sameAll, hde])
        | true =>
          have hw₃ := hev₃.orderly hw₂
          have h := (hev₃.means hw₂ (hev'.means hw₁ h)).mono (Nat.le_max_left i j)
          have h' := (hev₃.means hw₂ h').mono (Nat.le_max_right i j)
          have hij : max i j < k := Nat.max_lt.mpr ⟨hi, hj⟩
          refine (sameWalks_gives hn (hs.mono (Nat.le_of_lt hij)) hw₃ (by omega) (by omega) h
            h').mono fun b _ _ hb => ?_
          rw [hb]
          simp [Datum.same, Datum.sameAll, hde]

/-- Values that are known to have different numbers of elements come to different data. -/
theorem Means.same_of_counts {a b : Value} {m m' : Nat} (ha : a.isSequential = true)
    (hb : b.isSequential = true) (hsa : a.Shaped) (hsb : b.Shaped) (hm : a.knownCount? = some m)
    (hm' : b.knownCount? = some m') (h : Means inside w k (.rest a) (.items ds f))
    (h' : Means inside w k (.rest b) (.items es g)) (hne : m ≠ m') :
    (Datum.items ds f).same (.items es g) = false := by
  obtain ⟨-, hds⟩ := h.counted ha hsa hm
  obtain ⟨-, hes⟩ := h'.counted hb hsb hm'
  rw [Bool.eq_false_iff]
  intro hsame
  cases Datum.same_iff.mp hsame with
  | items hall =>
    rw [hall.length_eq, hes] at hds
    exact hne hds.symm

/-- Sequential values are compared as their data. -/
theorem sameItems_gives {a b : Value} (hs : Decides inside same n k) (hw : Orderly w) (hn : 2 ≤ n)
    (hk : k < n) (ha : a.isSequential = true) (hb : b.isSequential = true) (hsa : a.Shaped)
    (hsb : b.Shaped) (h : Means inside w k (.rest a) (.items ds f))
    (h' : Means inside w k (.rest b) (.items es g)) :
    Gives (Value.sameItems same a b) n w fun b _ => b = (Datum.items ds f).same (.items es g) := by
  unfold Value.sameItems
  extract_lets walks
  have hwalks : Gives (walks ()) n w fun b _ => b = (Datum.items ds f).same (.items es g) := by
    refine (attempt_walk_gives hw hn hk h).bind fun xs w₁ hev hxs => ?_
    obtain ⟨r, rfl, i, hi, h⟩ := hxs
    have hw₁ := hev.orderly hw
    have hwalk := attempt_walk_gives hw₁ hn hk (hev.means hw h')
    cases r with
    | error e =>
      cases h with
      | failed => exact hwalk.bind fun ys w₂ _ _ => .pure (by simp [Datum.same])
    | ok s =>
      refine hwalk.bind fun ys w₂ hev' hys => ?_
      obtain ⟨r', rfl, j, hj, h'⟩ := hys
      cases r' with
      | error e =>
        cases h' with
        | failed => exact .pure (by simp [Datum.same])
      | ok t =>
        have h := (hev'.means hw₁ h).mono (Nat.le_of_lt hi)
        exact sameWalks_gives hn hs (hev'.orderly hw₁) hk hk h (h'.mono (Nat.le_of_lt hj))
  split
  · rename_i m m' hm hm'
    by_cases hne : m = m'
    · rw [if_neg (by simp [hne])]
      exact hwalks
    · rw [if_pos (by simp [hne])]
      exact .pure (Means.same_of_counts ha hb hsa hsb hm hm' h h' hne).symm
  · exact hwalks

/-- Lists are compared as the data of their elements. -/
theorem sameLists_gives (hs : Decides inside same n k) : ∀ {xs ys : List Value} {ds es : List Datum}
    {w : World}, Orderly w → List.Forall₂ (fun x d => Means inside w k (.value x) d) xs ds →
    List.Forall₂ (fun y e => Means inside w k (.value y) e) ys es →
    Gives (Value.sameLists same xs ys) n w fun b _ => b = Datum.sameAll ds es
  | [], [], _, _, _, _, .nil, .nil => .pure (by simp [Datum.sameAll])
  | [], _ :: _, _, _, _, _, .nil, .cons _ _ => .pure (by simp [Datum.sameAll])
  | _ :: _, [], _, _, _, _, .cons _ _, .nil => .pure (by simp [Datum.sameAll])
  | x :: xs, y :: ys, _, _, w, hw, .cons (b := d) hx hxs, .cons (b := e) hy hys => by
    refine (hs w x y d e hw hx hy).bind fun b w₁ hev hb => ?_
    subst hb
    cases hde : d.same e with
    | false => exact .pure (by simp [Datum.sameAll, hde])
    | true =>
      refine (sameLists_gives hs (hev.orderly hw) (hxs.imp fun _ _ h => hev.means hw h)
        (hys.imp fun _ _ h => hev.means hw h)).mono fun b _ _ hb => ?_
      rw [hb]
      simp [Datum.sameAll, hde]

end LispCore
