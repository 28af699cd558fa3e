import LispCore.Proofs.Seq.Agreement
/-!
The rest as a value. `more` gives what is left as a value that is never nil, and realizes nothing for
it. The sequence of that value is what `next?` gives, be it a sequence, the end or an error
(`Seq.standsFor_more`). So a walk by `more` is the walk by `next?`, step for step (`takeMore_eq`), and
behind every sequence that is met the rest tells in every world that follows what came next
(`rests_tell_next`).
-/

namespace LispCore

variable {n : Nat} {w w₁ w' : World} {o : Option Seq} {s : Seq} {out : Array Value}

/-- The value is not nil, and asking for its sequence is the action. -/
structure Value.StandsFor (r : Value) (next : Act (Option Seq)) : Prop where
  ne_nil : r ≠ .nil
  seq?_eq : r.seq? = next

/-- What `next?` gives as a value; the empty list stands for the end and for an error alike. -/
def Seq.nextOrEmpty (s : Seq) : Act Value := do
  match ← Act.attempt s.next? with
  | .ok (some t) => return .seq t
  | _ => return Value.emptyList

/-- Takes as many elements after those taken before, going on by `more`; gives them with the sequence
behind them. -/
def Value.takeMore : Nat → Array Value → Value → Act (Array Value × Option Seq)
  | 0, out, v => do return (out, ← v.seq?)
  | k + 1, out, v => do
    match ← v.seq? with
    | some s => takeMore k (out.push s.first) s.more
    | none => return (out, none)

/-! ### One step -/

/-- What is neither a list nor a cell goes on without an effect, and its rest is the sequence behind
the element, or the empty list. -/
theorem Seq.more_of_step? (hlist : ∀ l, s ≠ .list l) (hcons : ∀ x rest, s ≠ .cons x rest) :
    s.next? = pure s.step? ∧
      s.more = (match s.step? with | some t => .seq t | none => Value.emptyList) := by
  cases s with
  | list l => exact absurd rfl (hlist l)
  | cons x rest => exact absurd rfl (hcons x rest)
  | _ => exact ⟨rfl, rfl⟩

/-- Where `more` asks for what comes next, the empty list never stands for an error: the sequences that
can fail are not asked. -/
theorem Seq.nextOrEmpty_eq (hlist : ∀ l, s ≠ .list l) (hcons : ∀ x rest, s ≠ .cons x rest) :
    s.nextOrEmpty = pure s.more := by
  obtain ⟨hnext, hmore⟩ := Seq.more_of_step? hlist hcons
  have hattempt : Act.attempt (pure s.step?) = pure (.ok s.step?) := rfl
  rw [Seq.nextOrEmpty, hnext, hattempt, pure_bind, hmore]
  cases s.step? <;> rfl

/-- The rest of a sequence stands for what comes next. -/
theorem Seq.standsFor_more (s : Seq) : s.more.StandsFor s.next? := by
  by_cases hlist : ∃ l, s = .list l
  · obtain ⟨l, rfl⟩ := hlist
    exact ⟨nofun, rfl⟩
  by_cases hcons : ∃ x rest, s = .cons x rest
  · -- the rest of a cell is asked as it is, but for nil
    obtain ⟨x, rest, rfl⟩ := hcons
    cases rest with
    | nil => exact ⟨nofun, rfl⟩
    | _ => exact ⟨nofun, rfl⟩
  obtain ⟨hnext, hmore⟩ :=
    Seq.more_of_step? (fun l h => hlist ⟨l, h⟩) fun x rest h => hcons ⟨x, rest, h⟩
  rw [hnext, hmore]
  cases s.step? with
  | none => exact ⟨nofun, rfl⟩
  | some t => exact ⟨nofun, rfl⟩

/-- A value whose sequence is had gives its rest in the same world. -/
theorem Value.more_of_seq? {x : Value} (h : x.seq? n w = .ok o w₁) :
    ∃ r, x.more n w = .ok r w₁ ∧ r.StandsFor (o.elim (pure none) Seq.next?) := by
  cases o with
  | none => exact ⟨emptyList, Act.bind_of_ok h, nofun, rfl⟩
  | some s => exact ⟨s.more, Act.bind_of_ok h, s.standsFor_more⟩

theorem Value.next?_of_seq? {x : Value} (h : x.seq? n w = .ok o w₁) :
    x.next? n w = o.elim (pure none) Seq.next? n w₁ := by
  cases o <;> exact Act.bind_of_ok h

/-! ### Walks -/

/-- A walk by `more` is a walk by `next?`: it takes the same elements, realizes the same, and ends,
fails or panics in the same place. -/
theorem Value.takeMore_eq (k : Nat) (out : Array Value) (v : Value) :
    v.takeMore k out = v.seq? >>= Seq.take k out := by
  induction k generalizing out v with
  | zero => exact bind_congr fun o => by cases o <;> rfl
  | succ k ih =>
    refine bind_congr fun o => ?_
    cases o with
    | none => rfl
    | some s =>
      show s.more.takeMore k (out.push s.first) = s.next? >>= Seq.take k (out.push s.first)
      rw [ih, s.standsFor_more.seq?_eq]

/-- What is met after some elements is proper. -/
theorem Seq.take_met {k : Nat} {out' : Array Value} {o' : Option Seq} (hw : Orderly w) (hf : w.Formed)
    (ho : Seq.AllFormed w.lazies.size o) (h : Seq.take k out o n w = .ok (out', o') w') :
    Orderly w' ∧ w'.Formed ∧ Seq.AllFormed w'.lazies.size o' := by
  induction k generalizing out o w with
  | zero =>
    cases h
    exact ⟨hw, hf, ho⟩
  | succ k ih =>
    cases o with
    | none =>
      cases h
      exact ⟨hw, hf, ho⟩
    | some s =>
      obtain ⟨o₁, w₁, hnext, h⟩ := Act.ok_of_bind h
      have ha : Answered s.next? (.ok o₁) w w₁ := Seq.next?_answered hw hf (ho s rfl) hnext
      exact ih (ha.evolves.orderly hw) ha.formed (ha.outcome o₁ rfl) h

/-- The rest of a value whose sequence is had is not nil and takes no realization of its own, and its
sequence is what comes next. Going on by `more` from one sequence to the next is going on by `next?`,
also where a walk fails or never ends, and the rest of each sequence that is met tells what came next
in every world that follows. -/
theorem rests_tell_next {x : Value} (hw : Reached w) (hf : w.Formed) (hx : x.Formed w.lazies.size)
    (hs : x.seq? n w = .ok o w₁) :
    (∃ r, x.more n w = .ok r w₁ ∧ r ≠ .nil ∧ r.seq? n w₁ = x.next? n w) ∧
    (∀ k, x.takeMore k #[] = x.seq? >>= Seq.take k #[]) ∧
    ∀ k out s w', (x.seq? >>= Seq.take k #[]) n w = .ok (out, some s) w' →
      s.more ≠ .nil ∧ s.more.seq? = s.next? ∧
      ∀ (r : Realized) w'', s.next? n w' = Act.ended r.answer w'' →
        ∀ m v, 2 ≤ m → Evolves w'' v →
          ∃ v', s.more.seq? m v = Act.ended r.answer v' ∧ Evolves v v' := by
  have hw := hw.orderly
  obtain ⟨r, hr, hne, hseq⟩ := Value.more_of_seq? hs
  refine ⟨⟨r, hr, hne, ?_⟩, fun k => x.takeMore_eq k #[], fun k out s w' hk => ?_⟩
  · rw [hseq, Value.next?_of_seq? hs]
  · have hsr := s.standsFor_more
    refine ⟨hsr.ne_nil, hsr.seq?_eq, fun r w'' hnext m v hm hv => ?_⟩
    have ha : Answered x.seq? (.ok o) w w₁ := Value.seq?_answered hw hf hx hs
    rw [Act.bind_of_ok hs] at hk
    obtain ⟨hw', hf', hmet⟩ := Seq.take_met (ha.evolves.orderly hw) ha.formed (ha.outcome o rfl) hk
    rw [hsr.seq?_eq]
    exact (Seq.next?_answered hw' hf' (hmet s rfl) hnext).again m v hm hv

/-- The rest of the cell in front of the broken sequence is that sequence, unrealized, and a walk by
`more` meets the error behind the second element. -/
theorem rests_tell_next_brokenOff :
    (Value.seq brokenCons).more 4 brokenOff = .ok (.lazy ⟨0⟩) brokenOff ∧
    (∃ w, (Value.seq brokenCons).takeMore 1 #[] 4 brokenOff =
      .ok (#[.int 1], some (.cons (.int 2) (.lazy ⟨1⟩))) w) ∧
    ∃ w, (Value.seq brokenCons).takeMore 2 #[] 4 brokenOff = .error (.error .format) w := by
  have hx : (Value.seq brokenCons).Formed brokenOff.lazies.size := Nat.zero_lt_one
  obtain ⟨⟨r, hr, -, -⟩, hwalk, -⟩ :=
    rests_tell_next (n := 4) reached_brokenOff formed_brokenOff hx rfl
  have hr' : (Value.seq brokenCons).more 4 brokenOff = .ok (.lazy ⟨0⟩) brokenOff := rfl
  rw [hwalk 1, hwalk 2]
  exact ⟨hr', ⟨_, rfl⟩, ⟨_, rfl⟩⟩

end LispCore
