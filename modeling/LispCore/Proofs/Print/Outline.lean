import LispCore.Proofs.Map.Settles
import LispCore.Proofs.Seq.Demand
import LispCore.Proofs.Seq.Unfolding
/-!
What values are written as. An outline is what is left of a value for writing when nothing is realized
any more: a word, the entries of a collection, of which there may be no end, or the error with which a
sequence fails (`Value.HasOutline`). What an outline comes to under some options is a text and perhaps
the error that breaks it off (`Outline.output`), and that is what rendering the value writes, whatever is
realized meanwhile (`Value.HasOutline.writes`). Every finite value has an outline (`ComesTo.outlined`).
-/

namespace LispCore

/-! ### Outputs -/

/-- What comes of writing: the text, and the error that broke it off if one did. -/
structure Output where
  text : String := ""
  error : Option Error := none
deriving DecidableEq

namespace Output

def outcome (a : Output) : Except Error Unit :=
  match a.error with
  | none => .ok ()
  | some e => .error e

/-- One after the other; nothing follows an error. -/
def followed (a b : Output) : Output :=
  match a.error with
  | none => ⟨a.text ++ b.text, b.error⟩
  | some _ => a

/-- Entries from number `i` on, as many as are left. Each but the very first stands behind a separator,
and where the limit is reached there is a sign that more follow. -/
def entries (sep : String) (limit : Option Nat) (out : Nat → Output) : (i left : Nat) → Output
  | _, 0 => {}
  | i, left + 1 => { text := if 0 < i then sep else "" : Output }.followed <|
    if limit = some i then { text := "..." } else (out i).followed (entries sep limit out (i + 1) left)

@[simp] theorem nothing_followed (a : Output) : ({} : Output).followed a = a := by
  simp [followed]

theorem followed_assoc (a b c : Output) : (a.followed b).followed c = a.followed (b.followed c) := by
  obtain ⟨ta, ea⟩ := a
  obtain ⟨tb, eb⟩ := b
  cases ea <;> cases eb <;> simp [followed, String.append_assoc]

@[simp] theorem error_followed (a b : Output) : (a.followed b).error = a.error.or b.error := by
  obtain ⟨text, error⟩ := a
  cases error <;> rfl

/-- Up to the limit and not at it is before it. -/
theorem lt_limit {limit : Option Nat} {i : Nat} (hi : ∀ k, limit = some k → i ≤ k) (hne : limit ≠ some i) :
    ∀ k, limit = some k → i < k := fun k hk => Nat.lt_of_le_of_ne (hi k hk) fun h => hne (h ▸ hk)

/-- An error among some entries is one of an entry before the limit. -/
theorem error_entries {sep : String} {limit : Option Nat} {out : Nat → Output} {e : Error} : ∀ {i left : Nat},
    (∀ k, limit = some k → i ≤ k) → (entries sep limit out i left).error = some e →
      ∃ j < i + left, (∀ k, limit = some k → j < k) ∧ (out j).error = some e
  | _, 0, _, h => nomatch h
  | i, left + 1, hi, h => by
    rw [entries, error_followed, Option.none_or] at h
    split_ifs at h with hlimit
    have hlt := lt_limit hi hlimit
    rw [error_followed, Option.or_eq_some_iff] at h
    rcases h with h | ⟨-, h⟩
    · exact ⟨i, by omega, hlt, h⟩
    · obtain ⟨j, hj, hk, h⟩ := error_entries hlt h
      exact ⟨j, by omega, hk, h⟩

/-- Something between brackets. -/
def enclosed (opening closing : String) (a : Output) : Output :=
  { text := opening : Output }.followed (a.followed { text := closing })

end Output

/-- What a value is for writing. -/
inductive Outline where
  /-- What is written in one piece, readably or not. -/
  | word (text : Bool → String)
  /-- A sequence that fails. -/
  | refused (e : Error)
  /-- Elements between brackets, perhaps without end. -/
  | items (opening closing : String) (size : Option Nat) (item : Nat → Outline)
  /-- The entries of a map. -/
  | table (size : Nat) (key val : Nat → Outline)
  | marked (inner : Outline)

namespace Outline

/-- How many elements are looked at: all, or one more than the limit when there is no end. -/
def looked (limit size : Option Nat) : Nat := size.getD (limit.elim 0 (· + 1))

def output (o : RenderOptions) : Outline → Output
  | word text => { text := text o.readably }
  | refused e => { error := some e }
  | items opening closing size item => .enclosed opening closing <|
    .entries " " o.limit (fun i => (item i).output o) 0 (looked o.limit size)
  | table size key val => .enclosed "\x7b" "\x7d" <|
    .entries ", " o.limit (fun i => ((key i).output o).followed
      ({ text := " " : Output }.followed ((val i).output o))) 0 size
  | marked inner => .enclosed "#reduced[" "]" (inner.output o)

def Finite : Outline → Prop
  | word _ | refused _ => True
  | items _ _ size item => ∃ k, size = some k ∧ ∀ i < k, (item i).Finite
  | table size key val => ∀ i < size, (key i).Finite ∧ (val i).Finite
  | marked inner => inner.Finite

def Refuses (e : Error) : Outline → Prop
  | word _ => False
  | refused e' => e' = e
  | items _ _ size item => ∃ i, (∀ k, size = some k → i < k) ∧ (item i).Refuses e
  | table size key val => ∃ i < size, (key i).Refuses e ∨ (val i).Refuses e
  | marked inner => inner.Refuses e

/-- No sequence fails. -/
def Sound (f : Outline) : Prop := ∀ e, ¬f.Refuses e

/-- How many elements are looked at is at most how many there are. -/
theorem lt_of_lt_looked {limit size : Option Nat} {i : Nat} (h : i < looked limit size) :
    ∀ k, size = some k → i < k := by
  rintro k rfl
  exact h

/-- What breaks the output off is the error of a sequence. -/
theorem refuses_of_output {o : RenderOptions} {e : Error} {f : Outline} (h : (f.output o).error = some e) :
    f.Refuses e := by
  induction f with
  | word => cases h
  | refused => exact Option.some.inj h
  | items opening closing size item ih =>
    simp only [output, Output.enclosed, Output.error_followed, Option.none_or, Option.or_none] at h
    obtain ⟨i, hi, -, h⟩ := Output.error_entries (fun k _ => Nat.zero_le k) h
    rw [Nat.zero_add] at hi
    exact ⟨i, lt_of_lt_looked hi, ih i h⟩
  | table size key val ihk ihv =>
    simp only [output, Output.enclosed, Output.error_followed, Option.none_or, Option.or_none] at h
    obtain ⟨i, hi, -, h⟩ := Output.error_entries (fun k _ => Nat.zero_le k) h
    simp only [Output.error_followed, Option.none_or, Option.or_eq_some_iff] at h
    rw [Nat.zero_add] at hi
    exact ⟨i, hi, h.imp (ihk i) fun h => ihv i h.2⟩
  | marked inner ih =>
    simp only [output, Output.enclosed, Output.error_followed, Option.none_or, Option.or_none] at h
    exact ih h

end Outline

namespace Value

/-- An atom is written as what it is printed as by itself. -/
def word (w : World) (v : Value) (readably : Bool) : String :=
  (v.print ⟨readably, none⟩).peek 1 w ""

/-- What the elements of a sequential value are written between. -/
def brackets? : Value → Option (String × String)
  | vector _ | view _ => some ("[", "]")
  | list _ | seq _ | lazy _ => some ("(", ")")
  | _ => none

/-- The value is this for writing, without realizing anything. A sequence that fails behind some elements
has its error for one more. -/
inductive HasOutline (w : World) : Value → Outline → Prop
  | word {v : Value} {a : Atom} (ha : v.atom? = some a) : HasOutline w v (.word (v.word w))
  | refused {v : Value} {opening closing : String} {m : Nat} {e : Error}
      (hv : v.brackets? = some (opening, closing)) (hs : v.Spells m w [] (.error e)) :
      HasOutline w v (.refused e)
  | items {v : Value} {opening closing : String} {m : Nat} {xs : List Value} {item : Nat → Outline}
      (hv : v.brackets? = some (opening, closing)) (hs : v.Spells m w xs .nothing)
      (hx : ∀ i x, xs[i]? = some x → HasOutline w x (item i)) :
      HasOutline w v (.items opening closing (some xs.length) item)
  | broken {v : Value} {opening closing : String} {m : Nat} {xs : List Value} {e : Error}
      {item : Nat → Outline} (hv : v.brackets? = some (opening, closing))
      (hs : v.Spells m w xs (.error e)) (hne : xs ≠ [])
      (hx : ∀ i x, xs[i]? = some x → HasOutline w x (item i)) (he : item xs.length = .refused e) :
      HasOutline w v (.items opening closing (some (xs.length + 1)) item)
  | unbounded {v : Value} {opening closing : String} {x : Nat → Value} {item : Nat → Outline}
      (hv : v.brackets? = some (opening, closing))
      (hs : ∀ j, ∃ m, v.Spells m w ((List.range j).map x) .anything) (hx : ∀ i, HasOutline w (x i) (item i)) :
      HasOutline w v (.items opening closing none item)
  | table {m : Map Value Value} {key val : Nat → Outline}
      (hk : ∀ i e, m.toList[i]? = some e → HasOutline w e.1 (key i))
      (hv : ∀ i e, m.toList[i]? = some e → HasOutline w e.2 (val i)) :
      HasOutline w (.map m) (.table m.toList.length key val)
  | marked {s : Nat} {v : Value} {f : Outline} (h : HasOutline w v f) :
      HasOutline w (.reduced s v) (.marked f)

end Value

variable {α : Type} {n m k i rounds depth left : Nat} {w w₁ w' : World} {v x : Value} {a b out : Output}
  {xs : List Value} {r : Realized} {behind : Behind} {limit : Option Nat} {o : RenderOptions}
  {write : Value → Writing Unit} {outs : Nat → Output} {opening closing : String}

/-! ### Writing to a sink that takes everything -/

/-- Written to a sink that takes everything, the action comes to this, and nothing happens but
realizations. -/
def Puts (x : Writing Unit) (n : Nat) (w : World) (out : Output) : Prop :=
  ∀ text, ∃ w', x ⟨text, none⟩ n w = .ok (out.outcome, ⟨text ++ out.text, none⟩) w' ∧ Unfolds w w'

namespace Puts

variable {y : Writing Unit}

theorem nothing : Puts (pure ()) n w {} := by
  intro text
  refine ⟨w, ?_, .refl w⟩
  rw [String.append_empty]
  rfl

theorem put (piece : String) : Puts (Writing.put piece) n w { text := piece } :=
  fun text => ⟨w, Writing.put_apply piece text n w, .refl w⟩

theorem bind {f : Unit → Writing Unit} (hy : Puts y n w a)
    (hf : ∀ w', Unfolds w w' → Puts (f ()) n w' b) : Puts (y >>= f) n w (a.followed b) := by
  intro text
  obtain ⟨w₁, hrun, hw₁⟩ := hy text
  obtain ⟨ta, ea⟩ := a
  cases ea with
  | none =>
    obtain ⟨w₂, hrun', hw₂⟩ := hf w₁ hw₁ (text ++ ta)
    refine ⟨w₂, ?_, hw₁.trans hw₂⟩
    rw [Writing.bind_of_ok hrun, hrun', String.append_assoc]
    rfl
  | some e =>
    refine ⟨w₁, ?_, hw₁⟩
    rw [Writing.bind_apply]
    exact Act.bind_of_ok hrun

/-- What is not the first is written behind a separator, and at the limit there is only a sign that more
follow. -/
theorem entry {sep : String} (hy : limit ≠ some i → ∀ w', Unfolds w w' → Puts y n w' out) : Puts (
    if 0 < i then Writing.put sep >>= fun _ => if limit = some i then Writing.put "..." else y
    else if limit = some i then Writing.put "..." else y) n w
      ({ text := if 0 < i then sep else "" : Output }.followed
        (if limit = some i then { text := "..." } else out)) := by
  have hafter : ∀ w', Unfolds w w' → Puts (if limit = some i then Writing.put "..." else y) n w'
      (if limit = some i then { text := "..." } else out) := by
    intro w' hw'
    split_ifs with hlimit
    · exact .put _
    · exact hy hlimit w' hw'
  by_cases hi : 0 < i
  · rw [if_pos hi, if_pos hi]
    exact (put sep).bind hafter
  · rw [if_neg hi, if_neg hi, Output.nothing_followed]
    exact hafter w (.refl w)

/-- An action that ends with a result comes first and writes nothing. -/
theorem act {x : Act α} {f : α → Writing Unit} {c : α} (hx : x n w = .ok c w₁) (hw : Unfolds w w₁)
    (hf : Puts (f c) n w₁ out) : Puts (Writing.act x >>= f) n w out := by
  intro text
  obtain ⟨w₂, hrun, hw₂⟩ := hf text
  exact ⟨w₂, (Writing.bind_of_ok (Writing.act_of_ok hx)).trans hrun, hw.trans hw₂⟩

/-- An action that fails breaks off before anything is written. -/
theorem act_failed {x : Act α} {f : α → Writing Unit} {e : Error} (hx : x n w = .error (.error e) w₁)
    (hw : Unfolds w w₁) : Puts (Writing.act x >>= f) n w { error := some e } := by
  intro text
  refine ⟨w₁, ?_, hw⟩
  have hrun : (Writing.act x).runOn ⟨text, none⟩ n w = .ok (.error e, ⟨text, none⟩) w₁ :=
    Act.bind_of_ok (Act.attempt_of_error hx)
  rw [Writing.bind_apply, Act.bind_of_ok hrun, String.append_empty]
  rfl

theorem ofExcept_ok {f : α → Writing Unit} {c : α} (hf : Puts (f c) n w out) :
    Puts (Writing.ofExcept (.ok c) >>= f) n w out := by
  intro text
  exact hf text

theorem ofExcept_error {f : α → Writing Unit} {e : Error} :
    Puts (Writing.ofExcept (.error e) >>= f) n w { error := some e } := by
  intro text
  refine ⟨w, ?_, .refl w⟩
  rw [String.append_empty]
  rfl

end Puts

/-! ### Collections -/

namespace Print

/-- What may come behind the elements of a sequence, when their number is `i`: so many entries, none after the
last, or one for an error. What it is does not matter when the limit comes before. -/
def Leaves (limit : Option Nat) (outs : Nat → Output) (i left : Nat) : Behind → Prop
  | .nothing => left = 0
  | .error e => left = 1 ∧ outs i = { error := some e }
  | .anything => ∃ k, limit = some k ∧ k < i
  | .panic _ => False

theorem Leaves.ne_panic (h : Leaves limit outs i left behind) (text : String) : behind ≠ .panic text := by
  rintro rfl
  exact h

/-- An item is written behind its separator, unless the limit has been reached. -/
theorem writeItems_item {walk rest : Walk} {item : Except Error Value}
    (hp : walk.pull n w = .ok (some item, rest) w₁) (hw : Unfolds w w₁)
    (hx : limit ≠ some i → ∀ w', Unfolds w₁ w' → Puts (do
      write (← Writing.ofExcept item)
      writeItems write limit rounds (i + 1) rest) n w' out) :
    Puts (writeItems write limit (rounds + 1) i walk) n w
      ({ text := if 0 < i then " " else "" : Output }.followed
        (if limit = some i then { text := "..." } else out)) := by
  rw [writeItems]
  exact .act hp hw (.entry hx)

/-- The elements that are left are written from number `i` on. -/
theorem writeItems_puts (hn : 2 ≤ n) (hm : m ≤ n) (hw : Orderly w) (hs : Spells m w (.outcome r) xs behind)
    (hr : xs.length < rounds) (hi : ∀ k, limit = some k → i ≤ k)
    (hl : Leaves limit outs (i + xs.length) left behind)
    (hx : ∀ j x, xs[j]? = some x → (∀ k, limit = some k → i + j < k) →
      ∀ w', Unfolds w w' → Puts (write x) n w' (outs (i + j))) :
    Puts (writeItems write limit rounds i (.onto r)) n w (.entries " " limit outs i (xs.length + left)) := by
  obtain ⟨rounds, rfl⟩ := Nat.exists_eq_succ_of_ne_zero (Nat.ne_zero_of_lt hr)
  induction xs generalizing rounds i w r with
  | nil =>
    rw [List.length_nil, Nat.add_zero] at hl
    cases hs with
    | anything =>
      obtain ⟨k, hk, hlt⟩ := hl
      exact absurd hlt (Nat.not_lt.mpr (hi k hk))
    | done =>
      obtain rfl : left = 0 := hl
      rw [writeItems]
      exact .act rfl (.refl w) .nothing
    | @failed e =>
      obtain ⟨rfl, he⟩ := hl
      rw [List.length_nil, Nat.zero_add, Output.entries]
      have hpull : (Walk.onto (.error e)).pull n w = .ok (some (.error e), .onto (.ok none)) w := rfl
      refine writeItems_item hpull (.refl w) fun _ w' _ => ?_
      rw [he]
      exact Puts.ofExcept_error
  | cons x xs ih =>
    obtain ⟨r', w₁, hpull, ha, hs'⟩ := hs.pull hw hn hm hl.ne_panic
    have hw₁ := ha.unfolds
    rw [List.length_cons, Nat.add_right_comm, Output.entries]
    refine writeItems_item hpull hw₁ fun hlimit w₂ hw₂ => ?_
    have hlt := Output.lt_limit hi hlimit
    have hfirst := hx 0 x rfl hlt w₂ (hw₁.trans hw₂)
    refine Puts.ofExcept_ok (hfirst.bind fun w₃ hw₃ => ?_)
    obtain ⟨rounds, rfl⟩ := Nat.exists_eq_succ_of_ne_zero (Nat.ne_zero_of_lt (Nat.lt_of_succ_lt_succ hr))
    have hafter := (hw₁.trans hw₂).trans hw₃
    have hbetween := (hw₂.trans hw₃).evolves
    have hl' : Leaves limit outs (i + 1 + xs.length) left behind := by
      rwa [Nat.add_assoc, Nat.add_comm 1]
    refine ih (hafter.evolves.orderly hw) (hbetween.spells (hw₁.evolves.orderly hw) hl.ne_panic hs') hlt hl'
      (fun j y hy hk w' hw' => ?_) rounds (Nat.lt_of_succ_lt_succ hr)
    rw [Nat.succ_add_eq_add_succ] at hk ⊢
    exact hx (j + 1) y hy hk w' (hafter.trans hw')

/-- A sequential value is written between brackets. -/
theorem writeSequence_puts (hn : 2 ≤ n) (hm : m ≤ n) (hw : Orderly w) (hs : v.Spells m w xs behind)
    (hlen : xs.length < n) (hfirst : xs = [] → ∀ e, behind ≠ .error e)
    (hl : Leaves limit outs xs.length left behind)
    (hx : ∀ i x, xs[i]? = some x → (∀ k, limit = some k → i < k) →
      ∀ w', Unfolds w w' → Puts (write x) n w' (outs i)) :
    Puts (writeSequence write limit opening closing v) n w
      (.enclosed opening closing (.entries " " limit outs 0 (xs.length + left))) := by
  obtain ⟨r, w₁, hr, ha, hs'⟩ := hs.seq? hw hn hm hl.ne_panic
  have hw₁ := ha.unfolds
  cases r with
  | error e =>
    cases hs' with
    | anything =>
      obtain ⟨k, -, hk⟩ := hl
      exact absurd hk (Nat.not_lt_zero k)
    | failed => exact absurd rfl (hfirst rfl e)
  | ok s =>
    have hof : Walk.of v n w = .ok (.onto (.ok s)) w₁ := Act.bind_of_ok hr
    refine .act hof hw₁ ((Puts.put opening).bind fun w₂ hw₂ => ?_)
    have hev := hw₁.trans hw₂
    have hbudget : Act.budget n w₂ = .ok n w₂ := rfl
    refine .act hbudget (.refl w₂) (Puts.bind ?_ fun _ _ => .put closing)
    refine writeItems_puts hn hm (hev.evolves.orderly hw)
      (hw₂.evolves.spells (hw₁.evolves.orderly hw) hl.ne_panic hs') hlen (fun k _ => Nat.zero_le k) ?_
      fun j x hj hk w' hw' => ?_
    · rwa [Nat.zero_add]
    · rw [Nat.zero_add] at hk ⊢
      exact hx j x hj hk w' (hev.trans hw')

/-- The entries of a map are written from number `i` on. -/
theorem writeEntries_puts {es : List (Value × Value)} {outs' : Nat → Output}
    (hi : ∀ k, limit = some k → i ≤ k)
    (hx : ∀ j e, es[j]? = some e → (∀ k, limit = some k → i + j < k) → ∀ w', Unfolds w w' →
      Puts (write e.1) n w' (outs (i + j)) ∧ Puts (write e.2) n w' (outs' (i + j))) :
    Puts (writeEntries write limit i es) n w (.entries ", " limit
      (fun i => (outs i).followed ({ text := " " : Output }.followed (outs' i))) i es.length) := by
  induction es generalizing i w with
  | nil => exact .nothing
  | cons e es ih =>
    rw [writeEntries, List.length_cons, Output.entries]
    refine .entry fun hlimit w₁ hw₁ => ?_
    have hlt := Output.lt_limit hi hlimit
    obtain ⟨hkey, -⟩ := hx 0 e rfl hlt w₁ hw₁
    rw [Output.followed_assoc, Output.followed_assoc]
    refine hkey.bind fun w₂ hw₂ => (Puts.put " ").bind fun w₃ hw₃ => ?_
    have hev := (hw₁.trans hw₂).trans hw₃
    refine (hx 0 e rfl hlt w₃ hev).2.bind fun w₄ hw₄ => ?_
    refine ih hlt fun j e' he hk w' hw' => ?_
    rw [Nat.add_assoc, Nat.add_comm 1] at hk ⊢
    exact hx (j + 1) e' he hk w' ((hev.trans hw₄).trans hw')

/-- An atom is written in the same pieces whatever the limit. -/
theorem writeAt_atom {a : Atom} (ha : v.atom? = some a) (hv : w'.vars = w.vars) :
    Puts (writeAt o (depth + 1) v) n w' { text := v.word w o.readably } := by
  obtain ⟨pieces, hpieces⟩ : ∃ pieces, ∀ limit depth w', w'.vars = w.vars → ∀ s n,
      writeAt ⟨o.readably, limit⟩ (depth + 1) v s n w' = Writing.puts pieces s n w' := by
    cases v <;> cases ha
    case var u =>
      refine ⟨["#'", (w.varCell u).label.text], fun limit depth w' hv s n => ?_⟩
      rw [World.varCell, ← hv]
      rfl
    case char c =>
      exact ⟨if o.readably then ["\\", charName c] else [c.toString], fun _ _ _ _ _ _ => rfl⟩
    case str s =>
      exact ⟨if o.readably then stringPieces s else [s], fun _ _ _ _ _ _ => rfl⟩
    all_goals exact ⟨_, fun _ _ _ _ _ _ => rfl⟩
  have hword : v.word w o.readably = String.join pieces := by
    have hrender : v.render ⟨o.readably, none⟩ {} 1 w =
        .ok (.ok (), ⟨"" ++ String.join pieces, none⟩) w :=
      (hpieces none 0 w rfl {} 1).trans (Writing.puts_apply ..)
    rw [Value.word, Act.peek, Value.print, Act.bind_of_ok hrender, String.empty_append]
    rfl
  rw [hword]
  intro text
  exact ⟨w', (hpieces o.limit depth w' hv ⟨text, none⟩ n).trans (Writing.puts_apply ..), .refl w'⟩

end Print

/-! ### Values -/

/-- With enough budget the value is written as this, in every world that realizations lead to. -/
def Value.WrittenAs (o : RenderOptions) (w : World) (v : Value) (out : Output) : Prop :=
  ∃ N, ∀ n ≥ N, ∀ depth ≥ N, ∀ w', Unfolds w w' → Puts (Print.writeAt o depth v) n w' out

/-- There is a budget that is enough for several values. -/
theorem Value.WrittenAs.common {P : Nat → Prop}
    (h : ∀ i x, xs[i]? = some x → P i → x.WrittenAs o w (outs i)) : ∃ N, ∀ n ≥ N, ∀ depth ≥ N,
      ∀ i x, xs[i]? = some x → P i → ∀ w', Unfolds w w' → Puts (Print.writeAt o depth x) n w' (outs i) := by
  have hone : ∀ i ∈ List.range xs.length, ∃ N, ∀ k ≥ N, ∀ x, xs[i]? = some x → P i → ∀ n ≥ k, ∀ depth ≥ k,
      ∀ w', Unfolds w w' → Puts (Print.writeAt o depth x) n w' (outs i) := by
    intro i hi
    have hget := List.getElem?_eq_getElem (List.mem_range.mp hi)
    by_cases hp : P i
    · obtain ⟨N, hN⟩ := h i _ hget hp
      refine ⟨N, fun k hk x hx _ n hn depth hd => ?_⟩
      cases hget.symm.trans hx
      exact hN n (Nat.le_trans hk hn) depth (Nat.le_trans hk hd)
    · exact ⟨0, fun _ _ _ _ hp' => absurd hp' hp⟩
  obtain ⟨N, hN⟩ := exists_bound hone
  refine ⟨N, fun n hn depth hd i x hx hp => ?_⟩
  have hi := (List.getElem?_eq_some_iff.mp hx).1
  exact hN N (Nat.le_refl N) i (List.mem_range.mpr hi) x hx hp n hn depth hd

theorem Print.writeAt_brackets (hv : v.brackets? = some (opening, closing)) (o : RenderOptions)
    (depth : Nat) : Print.writeAt o (depth + 1) v =
      Print.writeSequence (Print.writeAt o depth) o.limit opening closing v := by
  cases v <;> cases hv <;> rfl

/-- A sequential value is written as its elements are, as far as the limit goes. -/
theorem Value.Spells.writtenAs (outs : Nat → Output) (left : Nat) (hw : Orderly w)
    (hv : v.brackets? = some (opening, closing)) (hs : v.Spells m w xs behind)
    (hfirst : xs = [] → ∀ e, behind ≠ .error e)
    (hl : Print.Leaves o.limit outs xs.length left behind)
    (hx : ∀ i x, xs[i]? = some x → (∀ k, o.limit = some k → i < k) → x.WrittenAs o w (outs i)) :
    v.WrittenAs o w (.enclosed opening closing (.entries " " o.limit outs 0 (xs.length + left))) := by
  obtain ⟨N, hN⟩ := WrittenAs.common hx
  refine ⟨N + m + xs.length + 2, fun n hn depth hd w' hw' => ?_⟩
  obtain ⟨depth, rfl⟩ := Nat.exists_eq_succ_of_ne_zero (Nat.ne_zero_of_lt hd)
  rw [Print.writeAt_brackets hv]
  refine Print.writeSequence_puts (by omega) (by omega) (hw'.evolves.orderly hw)
    (hw'.spells hw hl.ne_panic hs) (by omega) hfirst hl fun i x hi hk w'' hw'' => ?_
  exact hN n (by omega) depth (by omega) i x hi hk w'' (hw'.trans hw'')

/-- A sequence that fails is refused before anything is written. -/
theorem Value.Spells.refused {e : Error} (hw : Orderly w) (hv : v.brackets? = some (opening, closing))
    (hs : v.Spells m w [] (.error e)) : v.WrittenAs o w { error := some e } := by
  refine ⟨m + 2, fun n hn depth hd w' hw' => ?_⟩
  obtain ⟨depth, rfl⟩ := Nat.exists_eq_succ_of_ne_zero (Nat.ne_zero_of_lt hd)
  rw [Print.writeAt_brackets hv]
  have hs := hw'.spells hw (Behind.of_ne_panic (some e)) hs
  obtain ⟨r, w₁, hr, ha, hs⟩ := hs.seq? (n := n) (hw'.evolves.orderly hw) (by omega) (by omega)
    (Behind.of_ne_panic (some e))
  cases hs with
  | failed => exact .act_failed (Act.bind_of_error hr) ha.unfolds

/-- A map is written as its keys and values are. -/
theorem Value.writtenAs_map {m : Map Value Value} (outs outs' : Nat → Output)
    (hk : ∀ i (e : Value × Value), m.toList[i]? = some e → e.1.WrittenAs o w (outs i))
    (hv : ∀ i (e : Value × Value), m.toList[i]? = some e → e.2.WrittenAs o w (outs' i)) :
    (Value.map m).WrittenAs o w (.enclosed "\x7b" "\x7d" (.entries ", " o.limit
      (fun i => (outs i).followed ({ text := " " : Output }.followed (outs' i))) 0 m.toList.length)) := by
  have hkeys (i : Nat) (x : Value) (hx : (m.toList.map (·.1))[i]? = some x) (_ : True) :
      x.WrittenAs o w (outs i) := by
    rw [List.getElem?_map, Option.map_eq_some_iff] at hx
    obtain ⟨e, hi, rfl⟩ := hx
    exact hk i e hi
  have hvals (i : Nat) (x : Value) (hx : (m.toList.map (·.2))[i]? = some x) (_ : True) :
      x.WrittenAs o w (outs' i) := by
    rw [List.getElem?_map, Option.map_eq_some_iff] at hx
    obtain ⟨e, hi, rfl⟩ := hx
    exact hv i e hi
  obtain ⟨N, hN⟩ := WrittenAs.common hkeys
  obtain ⟨N', hN'⟩ := WrittenAs.common hvals
  refine ⟨N + N' + 1, fun n hn depth hd w' hw' => ?_⟩
  obtain ⟨depth, rfl⟩ := Nat.exists_eq_succ_of_ne_zero (Nat.ne_zero_of_lt hd)
  refine (Puts.put "\x7b").bind fun w₁ hw₁ => Puts.bind ?_ fun _ _ => .put "\x7d"
  refine Print.writeEntries_puts (fun k _ => Nat.zero_le k) fun i e hi _ w₂ hw₂ => ?_
  have hev := (hw'.trans hw₁).trans hw₂
  rw [Nat.zero_add]
  refine ⟨hN n (by omega) depth (by omega) i e.1 ?_ trivial w₂ hev,
    hN' n (by omega) depth (by omega) i e.2 ?_ trivial w₂ hev⟩
  · rw [List.getElem?_map, hi]
    rfl
  · rw [List.getElem?_map, hi]
    rfl

theorem Value.WrittenAs.marked {s : Nat} (h : v.WrittenAs o w out) :
    (Value.reduced s v).WrittenAs o w (.enclosed "#reduced[" "]" out) := by
  obtain ⟨N, hN⟩ := h
  refine ⟨N + 1, fun n hn depth hd w' hw' => ?_⟩
  obtain ⟨depth, rfl⟩ := Nat.exists_eq_succ_of_ne_zero (Nat.ne_zero_of_lt hd)
  refine (Puts.put "#reduced[").bind fun w₁ hw₁ => ?_
  exact (hN n (by omega) depth (by omega) w₁ (hw'.trans hw₁)).bind fun _ _ => .put "]"

namespace Value.HasOutline

variable {f : Outline}

/-- What a value is for writing is what is written, if the collections end or are cut off by a limit. -/
theorem writes (hw : Orderly w) (h : v.HasOutline w f) (hf : o.limit.isSome ∨ f.Finite) :
    v.WrittenAs o w (f.output o) := by
  induction h with
  | word ha =>
    refine ⟨1, fun n _ depth hd w' hw' => ?_⟩
    obtain ⟨depth, rfl⟩ := Nat.exists_eq_succ_of_ne_zero (Nat.ne_zero_of_lt hd)
    exact Print.writeAt_atom ha hw'.vars
  | refused hv hs => exact hs.refused hw hv
  | @items v opening closing m xs item hv hs _ ih =>
    refine hs.writtenAs (fun i => (item i).output o) 0 hw hv nofun rfl fun i x hi _ => ?_
    refine ih i x hi (hf.imp_right ?_)
    rintro ⟨k, hk, hfin⟩
    cases hk
    exact hfin i (List.getElem?_eq_some_iff.mp hi).1
  | @broken v opening closing m xs e item hv hs hne _ he ih =>
    refine hs.writtenAs (fun i => (item i).output o) 1 hw hv (fun h => absurd h hne)
      ⟨rfl, congrArg (Outline.output o) he⟩ fun i x hi _ => ?_
    refine ih i x hi (hf.imp_right ?_)
    rintro ⟨k, hk, hfin⟩
    cases hk
    exact hfin i (Nat.lt_succ_of_lt (List.getElem?_eq_some_iff.mp hi).1)
  | @unbounded v opening closing x item hv hs _ ih =>
    rcases hf with hlimit | ⟨k, hk, -⟩
    · obtain ⟨k, hk⟩ := Option.isSome_iff_exists.mp hlimit
      -- one element more than the limit decides
      obtain ⟨m, hs⟩ := hs (k + 1)
      have hlen : ((List.range (k + 1)).map x).length = k + 1 := by simp
      have hwritten : v.WrittenAs o w (.enclosed opening closing
          (.entries " " o.limit (fun i => (item i).output o) 0
            (((List.range (k + 1)).map x).length + 0))) := by
        refine hs.writtenAs _ 0 hw hv (fun _ _ => nofun) ⟨k, hk, ?_⟩ fun i y hi _ => ?_
        · rw [hlen]
          exact Nat.lt_succ_self k
        · obtain ⟨hi', rfl⟩ := List.getElem?_eq_some_iff.mp hi
          simpa using ih i (.inl hlimit)
      rw [hlen] at hwritten
      rw [Outline.output, Outline.looked, hk]
      rwa [hk] at hwritten
    · cases hk
  | @table m key val _ _ ihk ihv =>
    have hfin (i : Nat) {e : Value × Value} (hi : m.toList[i]? = some e) :
        (o.limit.isSome ∨ (key i).Finite) ∧ (o.limit.isSome ∨ (val i).Finite) := by
      rcases hf with hlimit | hfin
      · exact ⟨.inl hlimit, .inl hlimit⟩
      · have hi := hfin i (List.getElem?_eq_some_iff.mp hi).1
        exact ⟨.inr hi.1, .inr hi.2⟩
    exact Value.writtenAs_map (fun i => (key i).output o) (fun i => (val i).output o)
      (fun i e hi => ihk i e hi (hfin i hi).1) fun i e hi => ihv i e hi (hfin i hi).2
  | marked _ ih => exact (ih hf).marked

end Value.HasOutline

/-! ### Rendering -/

namespace Value.WrittenAs

/-- Rendered into a sink that takes everything, the value comes to what it is written as. -/
theorem render (h : v.WrittenAs o w out) : ∃ N, ∀ n ≥ N, ∃ w',
    v.render o {} n w = .ok (out.outcome, ⟨out.text, none⟩) w' ∧ Unfolds w w' := by
  obtain ⟨N, hN⟩ := h
  refine ⟨N, fun n hn => ?_⟩
  have hbudget : Act.budget n w = .ok n w := rfl
  have hputs : Puts (Print.write o v) n w out := .act hbudget (.refl w) (hN n hn n hn w (.refl w))
  obtain ⟨w', hrun, hw'⟩ := hputs ""
  rw [String.empty_append] at hrun
  exact ⟨w', hrun, hw'⟩

/-- Printing gives the text, or the error that broke it off. -/
theorem print (h : v.WrittenAs o w out) : ∃ N, ∀ n ≥ N, ∃ w',
    v.print o n w = Act.ofExcept (out.outcome.map fun _ => out.text) n w' ∧ Unfolds w w' := by
  obtain ⟨N, hN⟩ := h.render
  refine ⟨N, fun n hn => ?_⟩
  obtain ⟨w', hrun, hw'⟩ := hN n hn
  refine ⟨w', ?_, hw'⟩
  rw [Value.print, Act.bind_of_ok hrun]
  obtain ⟨text, error⟩ := out
  cases error <;> rfl

end Value.WrittenAs

/-! ### Finite values -/

/-- The value has an outline that ends, and that is sound when nothing has failed in what it comes to. -/
def Outlined (w : World) (v : Value) (d : Datum) : Prop :=
  ∃ f, v.HasOutline w f ∧ f.Finite ∧ (d.Whole → f.Sound)

/-- Elements that can be read so come to these, and then there may be an error. -/
def OutlinedAll (w : World) (reads : Nat → List Value → Behind → Prop) (ds : List Datum)
    (failed : Bool) : Prop :=
  ∃ m xs err, reads m xs (.of err) ∧ failed = err.isSome ∧ List.Forall₂ (Outlined w) xs ds

variable {inside : Nat → Datum} {s : Subject} {d : Datum} {ds : List Datum} {failed : Bool}

/-- The outlines of some values are those of entries, and any other one may come next. -/
theorem exists_items (last : Outline) (h : List.Forall₂ (Outlined w) xs ds) : ∃ item : Nat → Outline,
    (∀ i (x : Value), xs[i]? = some x → x.HasOutline w (item i)) ∧ (∀ i < xs.length, (item i).Finite) ∧
      ((∀ d ∈ ds, d.Whole) → ∀ i < xs.length, (item i).Sound) ∧ item xs.length = last := by
  induction h with
  | nil => exact ⟨fun _ => last, nofun, nofun, nofun, rfl⟩
  | cons hx _ ih =>
    obtain ⟨f, hf, hfin, hs⟩ := hx
    obtain ⟨item, hitem, hfins, hsound, hlast⟩ := ih
    refine ⟨fun i => Nat.casesOn i f item, fun i x hi => ?_, fun i hi => ?_, fun hd i hi => ?_, hlast⟩
    · cases i with
      | zero =>
        cases hi
        exact hf
      | succ i => exact hitem i x hi
    · cases i with
      | zero => exact hfin
      | succ i => exact hfins i (Nat.lt_of_succ_lt_succ hi)
    · cases i with
      | zero => exact hs (hd _ (List.mem_cons_self ..))
      | succ i => exact hsound (fun d h => hd d (List.mem_cons_of_mem _ h)) i (Nat.lt_of_succ_lt_succ hi)

theorem OutlinedAll.sequential (hv : v.brackets? = some (opening, closing))
    (h : OutlinedAll w (fun m xs b => v.Spells m w xs b) ds failed) : Outlined w v (.items ds failed) := by
  obtain ⟨m, xs, err, hs, rfl, hall⟩ := h
  cases err with
  | none =>
    obtain ⟨item, hitem, hfin, hsound, -⟩ := exists_items (.refused .format) hall
    refine ⟨_, .items hv hs hitem, ⟨_, rfl, hfin⟩, fun hd => ?_⟩
    cases hd with
    | items hd =>
      rintro e ⟨i, hi, he⟩
      exact hsound hd i (hi _ rfl) e he
  | some e =>
    by_cases hne : xs = []
    · subst hne
      exact ⟨_, .refused hv hs, trivial, fun hd => nomatch hd⟩
    · obtain ⟨item, hitem, hfin, -, hlast⟩ := exists_items (.refused e) hall
      refine ⟨_, .broken hv hs hne hitem hlast, ⟨_, rfl, fun i hi => ?_⟩, fun hd => nomatch hd⟩
      rcases Nat.lt_or_eq_of_le (Nat.le_of_lt_succ hi) with hi | rfl
      · exact hfin i hi
      · rw [hlast]
        trivial

theorem Outlined.map {m : Map Value Value} {es : List (Datum × Datum)}
    (h : List.Forall₂ (fun x e => Outlined w x.1 e.1 ∧ Outlined w x.2 e.2) m.toList es) :
    Outlined w (.map m) (.table es) := by
  have hkeys : List.Forall₂ (Outlined w) (m.toList.map (·.1)) (es.map (·.1)) :=
    List.forall₂_map_left_iff.mpr (List.forall₂_map_right_iff.mpr (h.imp fun _ _ h => h.1))
  have hvals : List.Forall₂ (Outlined w) (m.toList.map (·.2)) (es.map (·.2)) :=
    List.forall₂_map_left_iff.mpr (List.forall₂_map_right_iff.mpr (h.imp fun _ _ h => h.2))
  obtain ⟨key, hkey, hkfin, hksound, -⟩ := exists_items (.refused .format) hkeys
  obtain ⟨val, hval, hvfin, hvsound, -⟩ := exists_items (.refused .format) hvals
  simp only [List.getElem?_map, Option.map_eq_some_iff, List.length_map, List.forall_mem_map] at *
  refine ⟨_, .table (fun i e hi => hkey i _ ⟨e, hi, rfl⟩) (fun i e hi => hval i _ ⟨e, hi, rfl⟩),
    fun i hi => ⟨hkfin i hi, hvfin i hi⟩, fun hd => ?_⟩
  cases hd with
  | table hk hv =>
    rintro e ⟨i, hi, he | he⟩
    · exact hksound hk i hi e he
    · exact hvsound hv i hi e he

theorem Value.exists_brackets (hv : v.isSequential = true) :
    ∃ opening closing, v.brackets? = some (opening, closing) := by
  cases v <;> cases hv <;> exact ⟨_, _, rfl⟩

/-- Whatever is read as a datum has outlines. -/
theorem Means.outlined (h : Means inside w k s d) : match s, d with
    | .value v, d => Outlined w v d
    | .rest v, .items ds failed => OutlinedAll w (fun m xs b => v.Spells m w xs b) ds failed
    | .outcome r, .items ds failed => OutlinedAll w (fun m xs b => Spells m w (.outcome r) xs b) ds failed
    | .producer p, .items ds failed =>
      OutlinedAll w (fun m xs b => ∃ u, Comes w m p u ∧ Spells m w u xs b) ds failed
    | .entries xs, .table es => List.Forall₂ (fun x e => Outlined w x.1 e.1 ∧ Outlined w x.2 e.2) xs es
    | _, _ => True := by
  induction h with
  | atom ha => exact ⟨_, .word ha, trivial, fun _ _ he => he⟩
  | marker _ _ _ ih =>
    obtain ⟨f, hf, hfin, hs⟩ := ih
    exact ⟨_, .marked hf, hfin, fun hd => hs hd.inner⟩
  | sequential _ hv _ _ ih =>
    obtain ⟨opening, closing, hv⟩ := Value.exists_brackets hv
    exact ih.sequential hv
  | map _ _ _ _ ih => exact .map ih
  | noEntries => exact .nil
  | entry _ _ _ _ ihk ihv ih => exact .cons ⟨ihk, ihv⟩ ih
  | direct _ hv _ ih =>
    obtain ⟨m, xs, err, hs, hall⟩ := ih
    exact ⟨m, xs, err, ⟨_, .direct hv, hs⟩, hall⟩
  | told _ hl hr _ ih =>
    obtain ⟨m, xs, err, hs, hall⟩ := ih
    exact ⟨m, xs, err, ⟨_, .told hl hr, hs⟩, hall⟩
  | ready _ hl _ ih =>
    obtain ⟨m, xs, err, ⟨u, hu, hs⟩, hall⟩ := ih
    exact ⟨m, xs, err, ⟨u, .ready hl hu, hs⟩, hall⟩
  | @failed _ e => exact ⟨0, [], some e, .failed, rfl, .nil⟩
  | done => exact ⟨0, [], none, .done, rfl, .nil⟩
  | cons _ _ _ ihx ih =>
    obtain ⟨m, xs, err, ⟨u, hu, hs⟩, hf, hall⟩ := ih
    exact ⟨m, _ :: xs, err, .cons hu hs, hf, .cons ihx hall⟩
  | step _ hne _ _ ihx ih =>
    obtain ⟨m, xs, err, hs, hf, hall⟩ := ih
    exact ⟨m, _ :: xs, err, .step hne hs, hf, .cons ihx hall⟩
  | give _ _ ih =>
    obtain ⟨m, xs, err, ⟨u, hu, hs⟩, hall⟩ := ih
    exact ⟨m + 1, xs, err, ⟨u, hu, hs.mono (Nat.le_succ m)⟩, hall⟩
  | @fail _ e => exact ⟨0, [], some e, ⟨_, .fail, .failed⟩, rfl, .nil⟩
  | log _ _ ih =>
    obtain ⟨m, xs, err, ⟨u, hu, hs⟩, hall⟩ := ih
    exact ⟨m, xs, err, ⟨u, .log hu, hs⟩, hall⟩
  | defer _ _ ih =>
    obtain ⟨m, xs, err, ⟨u, hu, hs⟩, hall⟩ := ih
    exact ⟨m + 1, xs, err, ⟨u, .defer hu, hs.mono (Nat.le_succ m)⟩, hall⟩
  | cell _ _ _ ihx ih =>
    obtain ⟨m, xs, err, ⟨u, hu, hs⟩, hf, hall⟩ := ih
    refine ⟨m + 1, _ :: xs, err, ⟨_, .cell, ?_⟩, hf, .cons ihx hall⟩
    exact .cell (hu.mono (Nat.le_succ m)) (hs.mono (Nat.le_succ m))

/-- A finite value has an outline that ends; nothing in it is refused when nothing in the value has failed. -/
theorem ComesTo.outlined (h : ComesTo inside w v d) : Outlined w v d := h.elim fun _ h => h.outlined

end LispCore
