import LispCore.Collection.Basic
import LispCore.Proofs.Lazy.Strand
import LispCore.Proofs.Print.Finite
import LispCore.Reduce
/-!
What traversals ask of a strand. A value may stand for a part of it: some elements put in front, and
the cells from some number on (`Shows`). An action `Asks` for so many cells when it ends, with just
those cells realized that were not before. `seq?` asks for the first element, and each step of a walk
for one more; a fold and a rendering ask for as many as they call back, and one more.
-/

namespace LispCore

/-! ### Writing, step by step -/

section

variable {n rounds i : Nat} {w w' : World} {s : Sink} {text : String}
  {write : Value → Writing Unit} {limit : Option Nat} {walk rest : Walk} {x : Value}

theorem Print.writeItems_past (h : walk.pull n w = .ok (none, rest) w') :
    Print.writeItems write limit (rounds + 1) i walk s n w = (pure () : Writing Unit) s n w' := by
  rw [writeItems, Writing.bind_of_ok (Writing.act_of_ok h)]

/-- Behind an element that is handed out comes its separator, and then the element or the sign that
more follows. -/
theorem Print.writeItems_pulled (h : walk.pull n w = .ok (some (.ok x), rest) w') :
    Print.writeItems write limit (rounds + 1) i walk ⟨text, none⟩ n w =
      (if limit = some i then Writing.put "..."
        else do
          write x
          writeItems write limit rounds (i + 1) rest : Writing Unit)
        ⟨text ++ if 0 < i then " " else "", none⟩ n w' := by
  rw [writeItems, Writing.bind_of_ok (Writing.act_of_ok h)]
  by_cases hi : 0 < i
  · simp only [if_pos hi]
    rw [Writing.bind_of_ok (Writing.put_apply ..)]
    rfl
  · simp only [if_neg hi, String.append_empty]
    rfl

end

/-! ### Parts of a strand -/

/-- The part of a strand that a value stands for: these elements, and then the cells from `cell` on. -/
structure Place where
  leading : List Value
  cell : Nat

namespace Place

/-- The part with one more element in front. -/
def put (pl : Place) (x : Value) : Place := ⟨x :: pl.leading, pl.cell⟩

/-- The part without its first element. -/
def tail (pl : Place) : Place := ⟨pl.leading.tail, pl.cell⟩

/-- How many cells must have been realized to tell whether there is an element at an index. -/
def need (pl : Place) (index : Nat) : Nat :=
  if index < pl.leading.length then 0 else pl.cell + (index - pl.leading.length) + 1

variable {pl : Place} {x : Value} {i p q : Nat}

@[simp] theorem need_cell : (⟨[], i⟩ : Place).need p = i + p + 1 := rfl

@[simp] theorem need_put_zero : (pl.put x).need 0 = 0 := if_pos (Nat.succ_pos _)

@[simp] theorem need_put_succ : (pl.put x).need (p + 1) = pl.need p := by
  simp only [need, put, List.length_cons, Nat.add_lt_add_iff_right, Nat.add_sub_add_right]

theorem need_mono (h : p ≤ q) : pl.need p ≤ pl.need q := by
  unfold need
  split <;> split <;> omega

end Place

/-- Ends with a result when no more of a strand than the first `m` cells is realized, just those that
were not. -/
def Strand.Asks {α : Type} (S : Strand) (t : Trail) (before : List String) (x : Act α) (n : Nat)
    (w : World) (m : Nat) (P : Trail → α → Prop) : Prop :=
  ∃ a t' w', x n w = .ok a w' ∧ t.Grows t' ∧ t'.asked = max t.asked m ∧ S.Progress t' before w' ∧
    P t' a

namespace Strand

section

variable (S : Strand)

/-- The part whose first element is known, if it has one. -/
def opened : Place → Option Place
  | ⟨[], i⟩ => if S.Inner i then some (.put ⟨[], i + 1⟩ (S.item i)) else none
  | pl => some pl

inductive Shows (t : Trail) : Value → Place → Prop
  | cell {i : Nat} (hi : i ≤ t.asked) (hw : S.Within i) : Shows t (.lazy (t.id i)) ⟨[], i⟩
  | cons {y rest : Value} {pl : Place} (h : Shows t rest pl) :
      Shows t (.seq (.cons y rest)) (pl.put y)

/-- A sequence, or none, stands for a part whose first element is known, or for none as the last cell
has been realized. -/
inductive Front (t : Trail) : Option Seq → Option Place → Prop
  | more {y rest : Value} {pl : Place} (h : S.Shows t rest pl) :
      Front t (some (.cons y rest)) (some (pl.put y))
  | past (h : ∀ i, t.asked ≤ i → ¬S.Within i) : Front t none none

/-- How many cells a walk asks for that tells whether there is an element at an index, once the first
has been asked for. -/
def behind (pl : Place) (p : Nat) : Nat := (S.opened pl).elim (pl.need p) (·.need p)

end

variable {S : Strand} {t t' : Trail} {before : List String} {w w' : World} {n m m' : Nat}
  {pl : Place} {v y rest : Value} {o : Option Seq} {part : Option Place}

theorem Shows.mono (hg : t.Grows t') (h : S.Shows t v pl) : S.Shows t' v pl := by
  induction h with
  | cell hi hw =>
    rw [← hg.2 _ hi]
    exact .cell (hi.trans hg.1) hw
  | cons _ ih => exact .cons ih

theorem need_opened {q : Place} {p : Nat} (h : S.opened pl = some q) :
    max (pl.need 0) (q.need p) = pl.need p := by
  obtain ⟨leading, i⟩ := pl
  cases leading with
  | nil =>
    simp only [opened, Option.ite_none_right_eq_some, Option.some.injEq] at h
    obtain ⟨-, rfl⟩ := h
    cases p with
    | zero => simp
    | succ p =>
      rw [Place.need_put_succ]
      simp only [Place.need_cell]
      omega
  | cons x xs =>
    cases h
    have hzero : (⟨x :: xs, i⟩ : Place).need 0 = 0 := if_pos (Nat.succ_pos _)
    rw [hzero, Nat.zero_max]

theorem max_need_behind (pl : Place) (p : Nat) : max (pl.need 0) (S.behind pl p) = pl.need p := by
  unfold behind
  cases h : S.opened pl with
  | none => exact Nat.max_eq_right (Place.need_mono (Nat.zero_le _))
  | some q => exact need_opened h

theorem behind_eq {p : Nat} {q : Place} (h : q ∈ S.opened pl) : S.behind pl p = q.need p := by
  rw [behind, Option.mem_def.mp h]
  rfl

/-! ### Actions that ask -/

namespace Asks

variable {α β : Type} {x x' : Act α} {f : α → Act β} {a : α} {P Q : Trail → α → Prop}
  {R : Trail → β → Prop}

theorem mono (h : S.Asks t before x n w m P) (hP : ∀ t' a, P t' a → Q t' a) :
    S.Asks t before x n w m Q := by
  obtain ⟨a, t', w', hx, hg, hm, hp, ha⟩ := h
  exact ⟨a, t', w', hx, hg, hm, hp, hP t' a ha⟩

theorem pure (hp : S.Progress t before w) (ha : P t a) : S.Asks t before (Pure.pure a) n w 0 P :=
  ⟨a, t, w, rfl, .refl t, (Nat.max_zero _).symm, hp, ha⟩

/-- Once the last cell has been realized, any number of cells may be asked for. -/
theorem past (hp : S.Progress t before w) (ho : ∀ i, t.asked ≤ i → ¬S.Within i)
    (ha : ∀ t', t.Grows t' → P t' a) : S.Asks t before (Pure.pure a) n w m P :=
  have hg : t.Grows { t with asked := max t.asked m } := ⟨Nat.le_max_left .., fun _ _ => rfl⟩
  ⟨a, _, w, rfl, hg, rfl, hp.past ho (Nat.le_max_left ..), ha _ hg⟩

/-- An action that goes on as another one when this one has ended. -/
theorem chain {z : Act β} (hx : S.Asks t before x n w m P)
    (hz : ∀ a t' w', x n w = .ok a w' → t.Grows t' → S.Progress t' before w' → P t' a →
      ∃ y, z n w = y n w' ∧ S.Asks t' before y n w' m' R) :
    S.Asks t before z n w (max m m') R := by
  obtain ⟨a, t₁, w₁, hx, hg, hm, hp, ha⟩ := hx
  obtain ⟨y, hz, b, t₂, w₂, hb, hg', hm', hp', hR⟩ := hz a t₁ w₁ hx hg hp ha
  exact ⟨b, t₂, w₂, hz.trans hb, hg.trans hg', by omega, hp', hR⟩

theorem bind (hx : S.Asks t before x n w m P)
    (hf : ∀ a t' w', x n w = .ok a w' → t.Grows t' → S.Progress t' before w' → P t' a →
      S.Asks t' before (f a) n w' m' R) : S.Asks t before (x >>= f) n w (max m m') R :=
  hx.chain fun a t' w' hx hg hp ha => ⟨f a, Act.bind_of_ok hx, hf a t' w' hx hg hp ha⟩

/-- What comes first asks for nothing. -/
theorem of_eq {y z : Act β} {w₁ : World} (hz : z n w = y n w₁)
    (h : S.Asks t before y n w₁ m R) : S.Asks t before z n w m R := by
  obtain ⟨b, t', w', hb, h⟩ := h
  exact ⟨b, t', w', hz.trans hb, h⟩

theorem after {w₁ : World} (hx : x n w = .ok a w₁) (h : S.Asks t before (f a) n w₁ m R) :
    S.Asks t before (x >>= f) n w m R := of_eq (Act.bind_of_ok hx) h

/-- What is returned at the end. -/
theorem map (hx : S.Asks t before x n w m P) {g : α → β} (hR : ∀ t' a, P t' a → R t' (g a)) :
    S.Asks t before (do return g (← x)) n w m R := by
  rw [← Nat.max_zero m]
  exact hx.bind fun a t' w' _ _ hp ha => .pure hp (hR t' a ha)

theorem attempt (hx : S.Asks t before x n w m P) :
    S.Asks t before (Act.attempt x) n w m fun t' r => ∃ a, r = .ok a ∧ P t' a := by
  obtain ⟨a, t', w', hx, hg, hm, hp, ha⟩ := hx
  exact ⟨.ok a, t', w', Act.attempt_of_ok hx, hg, hm, hp, a, rfl, ha⟩

end Asks

/-- The sequence of a value is asked for its first element. -/
theorem Shows.seq? (h : S.Shows t v pl) (hp : S.Progress t before w) (hn : 0 < n) :
    S.Asks t before v.seq? n w (pl.need 0) fun t' o => S.Front t' o (S.opened pl) := by
  cases h with
  | cell hi hw =>
    obtain ⟨t', w', hs, hg, hm, hp'⟩ := hp.ask hi hw hn
    refine ⟨_, t', w', hs, hg, by simpa using hm, hp', ?_⟩
    rename_i i
    by_cases hin : S.Inner i
    · rw [opened, result, if_pos hin, if_pos hin]
      exact .more (.cell (by omega) (within_succ.mpr hin))
    · rw [opened, result, if_neg hin, if_neg hin]
      exact .past fun j hj => not_within_of_lt hin (by omega)
  | cons h => exact .pure hp (.more h)

/-- A walk is over, or its next element is known. -/
theorem Front.known {α : Type} {a : α} {P : Trail → α → Prop} (h : S.Front t o part)
    (hp : S.Progress t before w) (hm : ∀ pl ∈ part, m = pl.need 0)
    (ha : ∀ t', t.Grows t' → P t' a) : S.Asks t before (pure a) n w m P := by
  cases h with
  | more h =>
    rw [hm _ rfl, Place.need_put_zero]
    exact .pure hp (ha t (.refl t))
  | past h => exact .past hp h ha

theorem Front.pull (h : S.Shows t rest pl) (hp : S.Progress t before w) (hn : 0 < n) :
    S.Asks t before (Walk.pull ⟨some (.cons y rest), none⟩) n w (pl.need 0) fun t' r =>
      ∃ o, r = (some (.ok y), ⟨o, none⟩) ∧ S.Front t' o (S.opened pl) := by
  rw [← Nat.max_zero (pl.need 0)]
  refine (h.seq? hp hn).attempt.bind fun r t' w' _ _ hp' hr => ?_
  obtain ⟨o, rfl, ho⟩ := hr
  exact .pure hp' ⟨o, rfl, ho⟩

/-- A part passes over as many elements as it is told to. -/
theorem Front.skip? (hn : 0 < n) : ∀ {p : Nat} {t : Trail} {w : World} {o : Option Seq}
    {part : Option Place} {m : Nat}, S.Front t o part → S.Progress t before w →
    (∀ pl ∈ part, m = pl.need p) → S.Asks t before (Seq.skip? p o) n w m fun _ _ => True
  | 0, _, _, _, _, _, h, hp, hm => h.known hp hm fun _ _ => trivial
  | p + 1, _, _, _, _, _, h, hp, hm => by
    cases h with
    | past h => exact .past hp h fun _ _ => trivial
    | more h =>
      rw [hm _ rfl, Place.need_put_succ, ← S.max_need_behind]
      exact (h.seq? hp hn).bind fun o t' w' _ _ hp' ho => ho.skip? hn hp' fun _ hq => behind_eq hq

theorem Front.pulls (hn : 0 < n) : ∀ {p : Nat} {t : Trail} {w : World} {o : Option Seq}
    {part : Option Place} {m : Nat}, S.Front t o part → S.Progress t before w →
    (∀ pl ∈ part, m = pl.need p) →
      S.Asks t before (Walk.pulls p ⟨o, none⟩) n w m fun _ _ => True
  | 0, _, _, _, _, _, h, hp, hm => h.known hp hm fun _ _ => trivial
  | p + 1, _, _, _, _, _, h, hp, hm => by
    cases h with
    | past h =>
      refine .after (Act.pure_apply ..) ?_
      exact ((Front.past h).pulls hn hp nofun).map fun _ _ _ => trivial
    | more h =>
      rw [hm _ rfl, Place.need_put_succ, ← S.max_need_behind]
      refine (Front.pull h hp hn).bind fun r t' w' _ _ hp' hr => ?_
      obtain ⟨o, rfl, ho⟩ := hr
      exact (ho.pulls hn hp' fun _ hq => behind_eq hq).map fun _ _ _ => trivial

/-! ### Folding and rendering -/

section

variable (S : Strand)

/-- Whatever had been realized of the sequence, just that has been realized afterwards. -/
def Spares (w w' : World) : Prop := ∀ t before, S.Progress t before w → S.Progress t before w'

/-- On what a walk hands out, a step function gives the early-stop marker at this call and not before,
unless the walk is over by then, and it spares the sequence. -/
def StopsAt (step : Step) (n : Nat) : (call : Nat) → Value → Walk → World → Prop
  | 0, _, _, _ => False
  | call + 1, acc, walk, w => ∀ x rest w₁, walk.pull n w = .ok (some (.ok x), rest) w₁ →
      ∃ acc' w₂, step acc x n w₁ = .ok acc' w₂ ∧ S.Spares w₁ w₂ ∧
        if call = 0 then acc'.isReduced = true
        else acc'.isReduced = false ∧ StopsAt step n call acc' rest w₂

/-- The first elements that a walk hands out can be written to a sink that takes everything, and that
spares the sequence. -/
def Writable (write : Value → Writing Unit) (n : Nat) : (count : Nat) → Walk → World → Prop
  | 0, _, _ => True
  | count + 1, walk, w => ∀ x rest w₁, walk.pull n w = .ok (some (.ok x), rest) w₁ → ∀ text,
      ∃ text' w₂, write x ⟨text, none⟩ n w₁ = .ok (.ok (), ⟨text', none⟩) w₂ ∧ S.Spares w₁ w₂ ∧
        Writable write n count rest w₂

end

/-- A fold asks for one element more than it calls its step function. -/
theorem Front.fold (hn : 0 < n) {step : Step} : ∀ {call rounds count : Nat} {acc : Value}
    {t : Trail} {w : World} {o : Option Seq} {part : Option Place} {m : Nat}, call ≤ rounds →
    S.Front t o part → S.Progress t before w → S.StopsAt step n call acc ⟨o, none⟩ w →
    (∀ pl ∈ part, m = pl.need call) →
      S.Asks t before (Fold.run step rounds count acc ⟨o, none⟩) n w m
        fun _ fold => ∃ v, fold.outcome = .ok v
  | 0, _, _, _, _, _, _, _, _, _, _, _, hs, _ => hs.elim
  | _ + 1, 0, _, _, _, _, _, _, _, hr, _, _, _, _ => absurd hr (Nat.not_succ_le_zero _)
  | call + 1, rounds + 1, _, _, _, _, _, _, _, hr, h, hp, hs, hm => by
    cases h with
    | past h =>
      refine .after (Act.pure_apply ..) ?_
      exact .past hp h fun _ _ => ⟨_, rfl⟩
    | more h =>
      rw [hm _ rfl, Place.need_put_succ, ← S.max_need_behind]
      refine (Front.pull h hp hn).bind fun r t₁ w₁ hpull _ hp₁ hfront => ?_
      obtain ⟨o, rfl, ho⟩ := hfront
      obtain ⟨acc', w₂, hstep, hspare, hstop⟩ := hs _ _ _ hpull
      have hp₂ := hspare _ _ hp₁
      refine .after (Act.attempt_of_ok hstep) ?_
      cases call with
      | zero =>
        rw [if_pos rfl] at hstop
        simp only [hstop, if_true]
        exact ho.known hp₂ (fun _ hq => behind_eq hq) fun _ _ => ⟨_, rfl⟩
      | succ call =>
        rw [if_neg (Nat.succ_ne_zero _)] at hstop
        simp only [hstop.1, Bool.false_eq_true, if_false]
        exact ho.fold hn (Nat.le_of_succ_le_succ hr) hp₂ hstop.2 fun _ hq => behind_eq hq

/-- A rendering asks for one element more than it may show. -/
theorem Front.items (hn : 0 < n) {write : Value → Writing Unit} {limit : Nat} :
    ∀ {left rounds i : Nat} {t : Trail} {w : World} {o : Option Seq} {part : Option Place} {m : Nat}
    {text : String}, i + left = limit → left < rounds →
    S.Front t o part → S.Progress t before w → S.Writable write n left ⟨o, none⟩ w →
    (∀ pl ∈ part, m = pl.need (left + 1)) →
      S.Asks t before (Print.writeItems write (some limit) rounds i ⟨o, none⟩ ⟨text, none⟩) n w m
        fun _ r => ∃ text', r = (.ok (), ⟨text', none⟩)
  | _, 0, _, _, _, _, _, _, _, _, hr, _, _, _, _ => absurd hr (Nat.not_lt_zero _)
  | left, rounds + 1, i, _, _, _, _, _, _, hi, hr, h, hp, hs, hm => by
    cases h with
    | past h =>
      refine .of_eq (Print.writeItems_past (Act.pure_apply ..)) ?_
      exact .past hp h fun _ _ => ⟨_, rfl⟩
    | @more y rest pl h =>
      rw [hm _ rfl, Place.need_put_succ, ← S.max_need_behind]
      refine (Front.pull (y := y) h hp hn).chain fun r t₁ w₁ hpull _ hp₁ hfront => ?_
      obtain ⟨o, rfl, ho⟩ := hfront
      refine ⟨_, Print.writeItems_pulled hpull, ?_⟩
      cases left with
      | zero =>
        rw [if_pos (congrArg some (hi.symm.trans (Nat.add_zero i)))]
        exact ho.known hp₁ (fun _ hq => behind_eq hq) fun _ _ => ⟨_, rfl⟩
      | succ left =>
        have hne : some limit ≠ some i := fun heq => by
          cases heq
          omega
        rw [if_neg hne]
        obtain ⟨text', w₂, hwrite, hspare, hrest⟩ := hs _ _ _ hpull _
        refine .of_eq (Writing.bind_of_ok hwrite) ?_
        exact ho.items hn (by omega) (Nat.lt_of_succ_lt_succ hr) (hspare _ _ hp₁) hrest
          fun _ hq => behind_eq hq

end Strand

end LispCore
