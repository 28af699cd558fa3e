import LispCore.Proofs.Print.Outline
/-!
Writing to a sink with a cap. A sink refuses a piece that would take it past its cap, and nothing is written
after a refusal, so as far as the text fits an action does the same as in a sink that takes everything, and
otherwise fails with a part of the text written (`Capped`). That carries over from putting a piece to writing
any value, one lemma for each way of putting actions together. So a finite value, of which sequences may
fail, is rendered into such a sink as its outline says (`rendering_into_capped`).
-/

namespace LispCore

variable {α β : Type} {n rounds i depth : Nat} {w w' w₁ : World} {text full : String} {cap : Nat}
  {limit : Option Nat} {write : Value → Writing Unit} {v : Value} {o : RenderOptions}

/-! ### Actions that write -/

/-- In a sink that takes everything the action ends so, with this text in the sink. In one with a cap it
ends the same way when the text fits, and otherwise the sink refuses a piece and has a part of the text. -/
structure Capped.Run (x : Writing α) (n : Nat) (w : World) (text : String) (r : Except Error α)
    (full : String) (w' : World) : Prop where
  extends_text : ∃ rest, full = text ++ rest
  fits : ∀ cap, full.utf8ByteSize ≤ cap → x ⟨text, some cap⟩ n w = .ok (r, ⟨full, some cap⟩) w'
  refused : ∀ cap, text.utf8ByteSize ≤ cap → cap < full.utf8ByteSize → ∃ held rest v,
    x ⟨text, some cap⟩ n w = .ok (.error .format, ⟨held, some cap⟩) v ∧ full = held ++ rest

/-- However the action ends in a sink that takes everything, a cap makes no other difference than to cut
the text off. -/
def Capped (x : Writing α) : Prop := ∀ n w w' text r s, x ⟨text, none⟩ n w = .ok (r, s) w' →
  s.cap = none ∧ Capped.Run x n w text r s.text w'

namespace Capped

/-- An action that does not write. -/
theorem silent {x : Writing α} {y : Act (Except Error α)} (hx : ∀ s, x s = do return (← y, s)) :
    Capped x := by
  intro n w w' text r s h
  rw [hx] at h
  obtain ⟨r', w₁, hy, h⟩ := Act.ok_of_bind h
  cases h
  refine ⟨rfl, ⟨"", String.append_empty.symm⟩, fun cap _ => ?_,
    fun cap hle hlt => absurd hlt (Nat.not_lt.mpr hle)⟩
  rw [hx, Act.bind_of_ok hy]
  rfl

theorem pure (a : α) : Capped (Pure.pure a) := silent (y := Pure.pure (.ok a)) fun _ => rfl

theorem act (x : Act α) : Capped (Writing.act x) := silent (y := Act.attempt x) fun _ => rfl

theorem ofExcept (r : Except Error α) : Capped (Writing.ofExcept r) :=
  silent (y := Pure.pure r) fun _ => rfl

theorem put (piece : String) : Capped (Writing.put piece) := by
  intro n w w' text r s h
  rw [Writing.put_apply] at h
  cases h
  refine ⟨rfl, ⟨piece, rfl⟩, fun cap hle => ?_, fun cap hle hlt => ⟨text, piece, w, ?_, rfl⟩⟩
  · have hfits : Sink.fits ⟨text, some cap⟩ piece = true := by
      rw [String.utf8ByteSize_append] at hle
      exact decide_eq_true hle
    rw [Writing.put, if_pos hfits]
    rfl
  · have hfits : ¬Sink.fits ⟨text, some cap⟩ piece = true := by
      rw [String.utf8ByteSize_append] at hlt
      exact fun h => Nat.not_le.mpr hlt (of_decide_eq_true h)
    rw [Writing.put, if_neg hfits]
    rfl

theorem bind {x : Writing α} {f : α → Writing β} (hx : Capped x) (hf : ∀ a, Capped (f a)) :
    Capped (x >>= f) := by
  intro n w w' text r s h
  rw [Writing.bind_apply] at h
  obtain ⟨⟨r₁, s₁⟩, w₁, hrun, h⟩ := Act.ok_of_bind h
  obtain ⟨hcap, ⟨rest, hrest⟩, hfits, hrefused⟩ := hx n w w₁ text r₁ s₁ hrun
  obtain ⟨text₁, cap₁⟩ := s₁
  obtain rfl : cap₁ = none := hcap
  -- a piece that the first action could not put ends both
  have hstop (cap : Nat) (hle : text.utf8ByteSize ≤ cap) (hlt : cap < text₁.utf8ByteSize) : ∃ held rest v,
      (x >>= f) ⟨text, some cap⟩ n w = .ok (.error .format, ⟨held, some cap⟩) v ∧ text₁ = held ++ rest := by
    obtain ⟨held, rest, v, hrun, hheld⟩ := hrefused cap hle hlt
    refine ⟨held, rest, v, ?_, hheld⟩
    rw [Writing.bind_apply]
    exact Act.bind_of_ok hrun
  cases r₁ with
  | error e =>
    cases h
    refine ⟨rfl, ⟨rest, hrest⟩, fun cap hle => ?_, hstop⟩
    rw [Writing.bind_apply]
    exact Act.bind_of_ok (hfits cap hle)
  | ok a =>
    obtain ⟨hcap, ⟨rest', hrest'⟩, hfits', hrefused'⟩ := hf a n w₁ w' text₁ r s h
    have hlonger : text₁.utf8ByteSize ≤ s.text.utf8ByteSize := by
      rw [hrest', String.utf8ByteSize_append]
      exact Nat.le_add_right ..
    refine ⟨hcap, ⟨rest ++ rest', ?_⟩, fun cap hle => ?_, fun cap hle hlt => ?_⟩
    · rw [hrest', ← String.append_assoc]
      exact congrArg (· ++ rest') hrest
    · rw [Writing.bind_of_ok (hfits cap (Nat.le_trans hlonger hle))]
      exact hfits' cap hle
    · rcases Nat.lt_or_ge cap text₁.utf8ByteSize with hlt₁ | hle₁
      · obtain ⟨held, rest, v, hrun, hheld⟩ := hstop cap hle hlt₁
        refine ⟨held, rest ++ rest', v, hrun, ?_⟩
        rw [hrest', hheld, String.append_assoc]
      · obtain ⟨held, rest, v, hrun, hheld⟩ := hrefused' cap hle₁ hlt
        exact ⟨held, rest, v, (Writing.bind_of_ok (hfits cap hle₁)).trans hrun, hheld⟩

theorem puts : ∀ pieces : List String, Capped (Writing.puts pieces)
  | [] => pure ()
  | piece :: pieces => (put piece).bind fun _ => puts pieces

/-- An entry behind its separator, or the sign that more follow. -/
theorem entry {y : Writing Unit} (sep : String) (hy : Capped y) : Capped (
    if 0 < i then Writing.put sep >>= fun _ => if limit = some i then Writing.put "..." else y
    else if limit = some i then Writing.put "..." else y) := by
  have hafter : Capped (if limit = some i then Writing.put "..." else y) := by
    split_ifs
    · exact .put _
    · exact hy
  split
  · exact (put sep).bind fun _ => hafter
  · exact hafter

end Capped

/-! ### Writing values -/

namespace Print

theorem capped_writeItems (hwrite : ∀ v, Capped (write v)) : ∀ (rounds i : Nat) (walk : Walk),
    Capped (writeItems write limit rounds i walk)
  | 0, _, _ => .act Act.exhausted
  | rounds + 1, i, walk => by
    refine (Capped.act walk.pull).bind fun (item, rest) => ?_
    cases item with
    | none => exact .pure ()
    | some item =>
      refine .entry " " ((Capped.ofExcept item).bind fun x => (hwrite x).bind fun _ => ?_)
      exact capped_writeItems hwrite rounds (i + 1) rest

theorem capped_writeSequence (hwrite : ∀ v, Capped (write v)) (opening closing : String) (v : Value) :
    Capped (writeSequence write limit opening closing v) := by
  refine (Capped.act (Walk.of v)).bind fun walk => (Capped.put opening).bind fun _ =>
    (Capped.act Act.budget).bind fun rounds => ?_
  exact (capped_writeItems hwrite rounds 0 walk).bind fun _ => .put closing

theorem capped_writeEntries (hwrite : ∀ v, Capped (write v)) : ∀ (es : List (Value × Value)) (i : Nat),
    Capped (writeEntries write limit i es)
  | [], _ => .pure ()
  | e :: es, i => by
    rw [writeEntries]
    refine .entry ", " ((hwrite e.1).bind fun _ => (Capped.put " ").bind fun _ =>
      (hwrite e.2).bind fun _ => ?_)
    exact capped_writeEntries hwrite es (i + 1)

theorem capped_writeAt (o : RenderOptions) : ∀ (depth : Nat) (v : Value), Capped (writeAt o depth v)
  | 0, _ => .act Act.exhausted
  | depth + 1, v => by
    have hwrite := capped_writeAt o depth
    cases v with
    | list | vector | view | seq | lazy => exact capped_writeSequence hwrite _ _ _
    | map m =>
      exact (Capped.put _).bind fun _ => (capped_writeEntries hwrite m.toList 0).bind fun _ => .put _
    | var v => exact (Capped.act (varName v)).bind fun name => .puts ["#'", name]
    | reduced s v => exact (Capped.put _).bind fun _ => (hwrite v).bind fun _ => .put _
    | _ => exact .puts _

theorem capped_write (o : RenderOptions) (v : Value) : Capped (Print.write o v) :=
  (Capped.act Act.budget).bind fun depth => capped_writeAt o depth v

end Print

/-! ### The result -/

/-- Rendering into a sink with a cap. A finite value, in which sequences may have failed, has an outline,
and what the outline comes to is what is rendered into a sink that takes everything, with the error of a
sequence if one breaks it off. Into a sink with a cap a beginning of that text is rendered, whatever the
options. Rendering succeeds just when printing does and the text fits. When the text does not fit it fails
for want of room, and otherwise with the error of the sequence, which may be the same when its producer
was refused room somewhere else. -/
theorem rendering_into_capped {inside : Nat → Datum} {d : Datum} (hw : Reached w)
    (h : ComesTo inside w v d) :
    ∃ f : Outline, v.HasOutline w f ∧ (d.Whole → f.Sound) ∧ ∀ o : RenderOptions, ∃ text error,
      f.output o = ⟨text, error⟩ ∧ (∀ e, error = some e → f.Refuses e) ∧ ∃ N, ∀ n ≥ N,
        (∃ w', v.render o {} n w = .ok (error.elim (.ok ()) .error, ⟨text, none⟩) w') ∧
        (∃ w', v.print o n w = Act.ofExcept (error.elim (.ok text) .error) n w') ∧
        ∀ cap, ∃ outcome held w', v.render o { cap := some cap } n w = .ok (outcome, ⟨held, some cap⟩) w' ∧
          (∃ rest, text = held ++ rest) ∧ (text.utf8ByteSize ≤ cap → held = text) ∧
          (outcome = .ok () ↔ (∃ w', v.print o n w = .ok text w') ∧ text.utf8ByteSize ≤ cap) ∧
          (outcome = .error .format ↔ cap < text.utf8ByteSize ∨ error = some .format) ∧
          ∀ e, text.utf8ByteSize ≤ cap → error = some e → outcome = .error e := by
  obtain ⟨f, hf, hfin, hsound⟩ := h.outlined
  refine ⟨f, hf, hsound, fun o => ?_⟩
  have hwritten := hf.writes (o := o) hw.orderly (.inr hfin)
  rcases hout : f.output o with ⟨text, error⟩
  rw [hout] at hwritten
  have hrefuses : ∀ e, error = some e → f.Refuses e := by
    rintro e rfl
    exact Outline.refuses_of_output (congrArg Output.error hout)
  obtain ⟨N, hrender⟩ := hwritten.render
  obtain ⟨N', hprint⟩ := hwritten.print
  refine ⟨text, error, rfl, hrefuses, max N N', fun n hn => ?_⟩
  obtain ⟨w₁, hrender, -⟩ := hrender n (by omega)
  obtain ⟨w₂, hprint, -⟩ := hprint n (by omega)
  obtain ⟨-, -, hfits, hrefused⟩ := Print.capped_write o v n w w₁ "" _ _ hrender
  refine ⟨⟨w₁, by cases error <;> exact hrender⟩, ⟨w₂, by cases error <;> exact hprint⟩, fun cap => ?_⟩
  rcases Nat.lt_or_ge cap text.utf8ByteSize with hlt | hle
  · obtain ⟨held, rest, w₃, hrun, hheld⟩ := hrefused cap (Nat.zero_le cap) hlt
    have hnot := Nat.not_le.mpr hlt
    exact ⟨.error .format, held, w₃, hrun, ⟨rest, hheld⟩, fun hle => absurd hle hnot,
      ⟨nofun, fun h => absurd h.2 hnot⟩, ⟨fun _ => .inl hlt, fun _ => rfl⟩, fun _ hle => absurd hle hnot⟩
  · refine ⟨_, text, w₁, hfits cap hle, ⟨"", String.append_empty.symm⟩, fun _ => rfl, ?_⟩
    have hnot := Nat.not_lt.mpr hle
    cases error with
    | none =>
      exact ⟨⟨fun _ => ⟨⟨w₂, hprint⟩, hle⟩, fun _ => rfl⟩,
        ⟨nofun, fun h => h.elim (absurd · hnot) nofun⟩, nofun⟩
    | some e =>
      refine ⟨⟨nofun, fun ⟨⟨w₃, hok⟩, _⟩ => ?_⟩, ⟨fun h => .inr ?_, fun h => ?_⟩, fun e' _ he => ?_⟩
      · cases hprint.symm.trans hok
      · cases h
        rfl
      · rcases h with h | h
        · exact absurd h hnot
        · cases h
          rfl
      · cases he
        rfl

/-- An atom is cut between its pieces: there is room for the quote, and none for what stands in it. -/
example (w : World) : (Value.str "abc").render {} { cap := some 1 } 1 w =
    .ok (.error .format, ⟨"\"", some 1⟩) w := rfl

/-- A sequence that fails behind two elements. -/
def unboundBehind : World := { lazies := #[⟨.ready (.cell (.int 2) (.fail (.unboundVar "x"))), none⟩] }

/-- Three bytes are not enough for the text in front of the failure, and five are. -/
theorem rendering_into_capped_failing : ∃ N, ∀ n ≥ N,
    (∃ held w', (Value.seq (.cons (.int 1) (.lazy ⟨0⟩))).render {} { cap := some 3 } n unboundBehind =
      .ok (.error .format, ⟨held, some 3⟩) w') ∧
    ∃ w', (Value.seq (.cons (.int 1) (.lazy ⟨0⟩))).render {} { cap := some 5 } n unboundBehind =
      .ok (.error (.unboundVar "x"), ⟨"(1 2 ", some 5⟩) w' := by
  have hreached : Reached unboundBehind :=
    ⟨{}, rfl, .make (n := 0) (l := ⟨0⟩) (p := .cell (.int 2) (.fail (.unboundVar "x"))) (.refl _) rfl⟩
  have hmeans : ComesTo (fun _ => .atom .nil) unboundBehind (.seq (.cons (.int 1) (.lazy ⟨0⟩)))
      (.items [.atom (.int 1), .atom (.int 2)] true) := by
    refine ⟨6, .sequential (i := 5) (by decide) rfl trivial (.direct (i := 4) (by decide) nofun ?_)⟩
    refine .cons (i := 3) (by decide) (.atom rfl) (.ready (i := 2) (by decide) rfl ?_)
    exact .cell (i := 0) (by decide) (.atom rfl) .fail
  obtain ⟨f, -, -, hall⟩ := rendering_into_capped hreached hmeans
  obtain ⟨text, error, -, -, N, hN⟩ := hall {}
  refine ⟨max N 10, fun n hn => ?_⟩
  obtain ⟨k, rfl⟩ := Nat.exists_eq_add_of_le' (Nat.le_trans (Nat.le_max_right N 10) hn)
  obtain ⟨⟨w₁, hrender⟩, -, hcapped⟩ := hN (k + 10) (by omega)
  have hrun : (Value.seq (.cons (.int 1) (.lazy ⟨0⟩))).render {} {} (k + 10) unboundBehind =
      .ok (.error (.unboundVar "x"), ⟨"(1 2 ", none⟩) _ := rfl
  have hends := hrender.symm.trans hrun
  cases error with
  | none => cases hends
  | some e =>
    cases hends
    obtain ⟨_, held, w₂, hsmall, -, -, -, hformat, -⟩ := hcapped 3
    obtain ⟨_, _, w₃, hlarge, -, hheld, -, -, hown⟩ := hcapped 5
    cases hformat.mpr (.inl (by decide))
    cases hown _ (by decide) rfl
    cases hheld (by decide)
    exact ⟨⟨held, w₂, hsmall⟩, w₃, hlarge⟩

/-- A sequence whose producer was refused room somewhere else. -/
def refusedElsewhere : World := { lazies := #[⟨.ready (.fail .format), none⟩] }

/-- Without a text there is nothing that could take more than the room there is, and yet rendering fails
for want of room, as the sequence does: it is a finite value, and its text is the same without a cap. -/
theorem refused_with_room_left : Reached refusedElsewhere ∧
    ComesTo (fun _ => .atom .nil) refusedElsewhere (.lazy ⟨0⟩) (.items [] true) ∧
    (∃ w', (Value.lazy ⟨0⟩).render {} {} 4 refusedElsewhere =
      .ok (.error .format, ⟨"", none⟩) w') ∧
    ¬100 < ("" : String).utf8ByteSize ∧
    ∃ w', (Value.lazy ⟨0⟩).render {} { cap := some 100 } 4 refusedElsewhere =
      .ok (.error .format, ⟨"", some 100⟩) w' := by
  have hreached : Reached refusedElsewhere :=
    ⟨{}, rfl, .make (n := 0) (l := ⟨0⟩) (p := .fail .format) (.refl _) rfl⟩
  have hmeans : ComesTo (fun _ => .atom .nil) refusedElsewhere (.lazy ⟨0⟩) (.items [] true) :=
    ⟨2, .sequential (i := 1) (by decide) rfl trivial (.ready (i := 0) (by decide) rfl .fail)⟩
  exact ⟨hreached, hmeans, ⟨_, rfl⟩, by decide, _, rfl⟩

end LispCore
