import LispCore.Proofs.Print.Pieces
import LispCore.Proofs.Value.Settles
/-!
Rendering of finite values. Writing a finite value to a sink that takes everything comes to an end, and
only an error of a sequence inside the value ends it early (`writeAt_writes`). So a value in which
nothing has failed always has a text (`render_gives`).
-/

namespace LispCore

variable {α β : Type} {inside : Nat → Datum} {w w' : World} {n k : Nat} {ds : List Datum} {f : Bool}
  {P Q : Prop} {o : RenderOptions} {limit : Option Nat}

/-- Writing to a sink that takes everything comes to an end, and not with an error if this holds. -/
def Writes (x : Writing Unit) (n : Nat) (w : World) (P : Prop) : Prop :=
  ∀ s : Sink, s.cap = none → Gives (x s) n w fun p _ => p.2.cap = none ∧ (P → p.1 = .ok ())

namespace Writes

variable {x y : Writing Unit}

theorem mono (h : Writes x n w P) (hq : Q → P) : Writes x n w Q :=
  fun s hs => (h s hs).mono fun _ _ _ hp => ⟨hp.1, fun hQ => hp.2 (hq hQ)⟩

theorem pure : Writes (Pure.pure ()) n w P := fun _ hs => .pure ⟨hs, fun _ => rfl⟩

theorem put (piece : String) : Writes (Writing.put piece) n w P := by
  intro s hs
  have hfits : s.fits piece = true := by
    rw [Sink.fits, hs]
  rw [Writing.put, if_pos hfits]
  exact .pure ⟨hs, fun _ => rfl⟩

theorem bind {f : Unit → Writing Unit} (hx : Writes x n w P)
    (hf : ∀ w', Evolves w w' → Writes (f ()) n w' P) : Writes (x >>= f) n w P := by
  intro s hs
  rw [Writing.bind_apply]
  refine (hx s hs).bind fun p w' hev hp => ?_
  obtain ⟨r, s'⟩ := p
  cases r with
  | ok => exact hf w' hev s' hp.1
  | error e => exact .pure ⟨hp.1, fun hP => nomatch hp.2 hP⟩

theorem puts : ∀ (pieces : List String) {w : World}, Writes (Writing.puts pieces) n w P
  | [], _ => pure
  | piece :: pieces, _ => (put piece).bind fun _ _ => puts pieces

/-- An action that writes nothing comes first. -/
theorem act {x : Act α} {f : α → Writing Unit}
    (h : Gives (Act.attempt x) n w fun r w' => match r with
      | .ok a => Writes (f a) n w' P
      | .error _ => ¬P) : Writes (Writing.act x >>= f) n w P := by
  intro s hs
  rw [Writing.bind_apply]
  show Gives ((Act.attempt x >>= fun r => Pure.pure (r, s)) >>= _) n w _
  rw [bind_assoc]
  refine h.bind fun r w' hev hr => ?_
  rw [pure_bind]
  cases r with
  | ok a => exact hr s hs
  | error e => exact .pure ⟨hs, fun hP => absurd hP hr⟩

theorem ofExcept {r : Except Error α} {f : α → Writing Unit} (h : match r with
      | .ok a => Writes (f a) n w P
      | .error _ => ¬P) : Writes (Writing.ofExcept r >>= f) n w P := by
  intro s hs
  rw [Writing.bind_apply]
  show Gives (Pure.pure (r, s) >>= _) n w _
  rw [pure_bind]
  cases r with
  | ok a => exact h s hs
  | error e => exact .pure ⟨hs, fun hP => absurd hP h⟩

end Writes

theorem Gives.attempt {x : Act α} {P : α → World → Prop} (h : Gives x n w P) :
    Gives (Act.attempt x) n w fun r w' => ∃ a, r = .ok a ∧ P a w' := by
  obtain ⟨a, w', hx, hev, hp⟩ := h
  exact ⟨.ok a, w', Act.attempt_of_ok hx, hev, a, rfl, hp⟩

/-! ### What has not failed -/

namespace Datum.Whole

variable {d e : Datum} {s : Nat} {es : List (Datum × Datum)}

theorem not_failed (h : (Datum.items ds f).Whole) : f = false := by
  cases h
  rfl

theorem head (h : (Datum.items (d :: ds) f).Whole) : d.Whole := by
  cases h with
  | items h => exact h d (List.mem_cons_self ..)

theorem tail (h : (Datum.items (d :: ds) f).Whole) : (Datum.items ds f).Whole := by
  cases h with
  | items h => exact .items fun d hd => h d (List.mem_cons_of_mem _ hd)

theorem entry {x : Datum × Datum} (h : (Datum.table (x :: es)).Whole) : x.1.Whole ∧ x.2.Whole := by
  cases h with
  | table hk hv => exact ⟨hk x (List.mem_cons_self ..), hv x (List.mem_cons_self ..)⟩

theorem entries {x : Datum × Datum} (h : (Datum.table (x :: es)).Whole) :
    (Datum.table es).Whole := by
  cases h with
  | table hk hv =>
    exact .table (fun e he => hk e (List.mem_cons_of_mem _ he))
      fun e he => hv e (List.mem_cons_of_mem _ he)

theorem inner (h : (Datum.marker s d).Whole) : d.Whole := by
  cases h with
  | marker h => exact h

end Datum.Whole

/-! ### Values -/

/-- Finite values are written, when their readings are this low. -/
def Prints (inside : Nat → Datum) (write : Value → Writing Unit) (n k : Nat) : Prop :=
  ∀ w v d, Orderly w → Means inside w k (.value v) d → Writes (write v) n w d.Whole

variable {write : Value → Writing Unit}

theorem Prints.mono {i : Nat} (h : Prints inside write n k) (hi : i ≤ k) :
    Prints inside write n i :=
  fun w v d hw hv => h w v d hw (hv.mono hi)

/-- The elements that are left are written up to the end, the limit, or an error. -/
theorem writeItems_writes (hn : 2 ≤ n) : ∀ {rounds k : Nat} {w : World} {ds : List Datum} {f : Bool}
    {r : Realized} (i : Nat), Prints inside write n k → Orderly w → k < rounds → k < n →
    Means inside w k (.outcome r) (.items ds f) →
      Writes (Print.writeItems write limit rounds i (.onto r)) n w (Datum.items ds f).Whole
  | 0, _, _, _, _, _, _, _, _, hk, _, _ => absurd hk (Nat.not_lt_zero _)
  | rounds + 1, k, w, _, f, _, i, hp, hw, hk, hkn, h => by
    refine .act ((pull_gives hw hn hkn h).attempt.mono fun r w₁ hev hr => ?_)
    obtain ⟨⟨item, walk⟩, rfl, hitem⟩ := hr
    have hw₁ := hev.orderly hw
    cases hitem with
    | done => exact .pure
    | failed e walk =>
      have hfails : ∀ w', Writes (do
          if limit = some i then Writing.put "..."
          else
            write (← Writing.ofExcept (.error e))
            Print.writeItems write limit rounds (i + 1) walk) n w' (Datum.items [] true).Whole := by
        intro w'
        split
        · exact .put _
        · exact .ofExcept fun h => Bool.false_ne_true h.not_failed.symm
      dsimp only
      split
      · exact (Writes.put " ").bind fun w' _ => hfails w'
      · exact hfails w₁
    | @next j x r d ds _ hj hx h =>
      have hnext : ∀ w', Evolves w₁ w' → Writes (do
          if limit = some i then Writing.put "..."
          else
            write (← Writing.ofExcept (.ok x))
            Print.writeItems write limit rounds (i + 1) (.onto r)) n w'
              (Datum.items (d :: ds) f).Whole := by
        intro w' hev'
        split
        · exact .put _
        · have hx' := (hev'.means hw₁ hx).mono (Nat.le_of_lt hj)
          refine .ofExcept (((hp w' x d (hev'.orderly hw₁) hx').mono fun h => h.head).bind
            fun w'' hev'' => ?_)
          exact (writeItems_writes hn (i + 1) (hp.mono (Nat.le_of_lt hj))
            (hev''.orderly (hev'.orderly hw₁)) (by omega) (by omega)
            ((hev'.trans hev'').means hw₁ h)).mono fun h => h.tail
      dsimp only
      split
      · exact (Writes.put " ").bind fun w' hev' => hnext w' hev'
      · exact hnext w₁ (.refl w₁)

/-- A finite sequential value is written between brackets. -/
theorem writeSequence_writes {v : Value} (opening closing : String) (hp : Prints inside write n k)
    (hw : Orderly w) (hn : 2 ≤ n) (hk : k < n) (h : Means inside w k (.rest v) (.items ds f)) :
    Writes (Print.writeSequence write limit opening closing v) n w (Datum.items ds f).Whole := by
  refine .act ((attempt_walk_gives hw hn hk h).mono fun x w₁ hev hx => ?_)
  obtain ⟨r, rfl, i, hi, h⟩ := hx
  have hw₁ := hev.orderly hw
  cases r with
  | error e =>
    cases h with
    | failed => exact fun h => Bool.false_ne_true h.not_failed.symm
  | ok s =>
    refine (Writes.put opening).bind fun w₂ hev₂ => .act ⟨.ok n, w₂, rfl, .refl w₂, ?_⟩
    have hi := h.mono (Nat.le_of_lt hi)
    exact (writeItems_writes hn 0 hp (hev₂.orderly hw₁) hk hk (hev₂.means hw₁ hi)).bind
      fun _ _ => .put closing

/-- The entries of a finite map are written up to the end, the limit, or an error. -/
theorem writeEntries_writes (hp : Prints inside write n k) : ∀ {xs : List (Value × Value)}
    {es : List (Datum × Datum)} {w : World} (i : Nat), Orderly w → Means.Entries inside w k xs es →
      Writes (Print.writeEntries write limit i xs) n w (Datum.table es).Whole
  | [], _, _, _, _, h => by
    cases h
    exact .pure
  | x :: xs, _, w, i, hw, h => by
    obtain ⟨e, es, ⟨hk, hv⟩, hxs, rfl⟩ := List.forall₂_cons_left_iff.mp h
    have hentry : ∀ w₁, Evolves w w₁ → Writes (do
        if limit = some i then Writing.put "..."
        else
          write x.1
          Writing.put " "
          write x.2
          Print.writeEntries write limit (i + 1) xs) n w₁ (Datum.table (e :: es)).Whole := by
      intro w₁ hev₁
      split
      · exact .put _
      · refine ((hp w₁ x.1 e.1 (hev₁.orderly hw) (hev₁.means hw hk)).mono fun h => h.entry.1).bind
          fun w₂ hev₂ => (Writes.put " ").bind fun w₃ hev₃ => ?_
        have hev := (hev₁.trans hev₂).trans hev₃
        refine ((hp w₃ x.2 e.2 (hev.orderly hw) (hev.means hw hv)).mono fun h => h.entry.2).bind
          fun w₄ hev₄ => ?_
        have hev := hev.trans hev₄
        exact (writeEntries_writes hp (i + 1) (hev.orderly hw) (hev.entries hw hxs)).mono
          fun h => h.entries
    rw [Print.writeEntries]
    split
    · exact (Writes.put ", ").bind fun w' hev => hentry w' hev
    · exact hentry w (.refl w)

/-- A finite value is written. -/
theorem writeAt_writes (hn : 2 ≤ n) : ∀ {depth k : Nat}, k < depth → k < n →
    Prints inside (Print.writeAt o depth) n k
  | 0, _, hk, _ => absurd hk (Nat.not_lt_zero _)
  | depth + 1, k, hk, hkn => by
    intro w v d hw h
    cases h with
    | atom ha =>
      cases v <;> cases ha
      case atom.var.refl v => exact .act ⟨.ok (w.varCell v).label.text, w, rfl, .refl w, .puts _⟩
      all_goals exact .puts _
    | @marker i _ s v d hi _ h =>
      have hp : Prints inside (Print.writeAt o depth) n i := writeAt_writes hn (by omega) (by omega)
      refine (Writes.put _).bind fun w₁ hev₁ => ?_
      refine ((hp w₁ v d (hev₁.orderly hw) (hev₁.means hw h)).mono fun h => h.inner).bind
        fun _ _ => .put _
    | @map i _ m es hi _ hl h =>
      have hp : Prints inside (Print.writeAt o depth) n i := writeAt_writes hn (by omega) (by omega)
      refine (Writes.put _).bind fun w₁ hev₁ => ?_
      exact (writeEntries_writes hp 0 (hev₁.orderly hw) (hev₁.entries hw h.entries)).bind
        fun _ _ => .put _
    | @sequential i _ v ds f hi hv _ h =>
      have hp : Prints inside (Print.writeAt o depth) n i := writeAt_writes hn (by omega) (by omega)
      have hin : i < n := Nat.lt_trans hi hkn
      cases v <;> cases hv <;> exact writeSequence_writes _ _ hp hw hn hin h

/-- Rendering a finite value comes to an end, and succeeds when nothing in it has failed. -/
theorem render_gives {v : Value} {d : Datum} (hw : Orderly w) (hn : 2 ≤ n) (hk : k < n)
    (h : Means inside w k (.value v) d) :
    Gives (v.render {} {}) n w fun p _ => d.Whole → p.1 = .ok () := by
  have hwrite : Writes (Print.write {} v) n w d.Whole :=
    .act ⟨.ok n, w, rfl, .refl w, writeAt_writes hn hk hk w v d hw h⟩
  exact (hwrite {} rfl).mono fun _ _ _ hp => hp.2

end LispCore
