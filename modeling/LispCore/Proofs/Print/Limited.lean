import LispCore.Proofs.Print.Outline
import LispCore.Proofs.Seq.Uses
/-!
Printing with a limit. The text of an outline shows of each collection as many entries as the limit
allows, and then dots when there are more (`clip`), at every level. Where no sequence fails that is what
is written (`Outline.output_eq`), so printing a value gives the text of its outline, with or without a
limit, and however long its sequences are (`limited_printing`).
-/

namespace LispCore

/-- As many entries as the limit allows, and dots when there are more. -/
def clip (limit : Option Nat) (entries : List String) : List String :=
  match limit with
  | none => entries
  | some n => entries.take n ++ if n < entries.length then ["..."] else []

namespace Outline

/-- The text of an outline in which no sequence fails. -/
def text (readably : Bool) (limit : Option Nat) : Outline → String
  | word text => text readably
  | refused _ => ""
  | items opening closing size item => opening ++ " ".intercalate
    (clip limit ((List.range (looked limit size)).map fun i => (item i).text readably limit)) ++ closing
  | table size key val => "\x7b" ++ ", ".intercalate (clip limit ((List.range size).map fun i =>
    (key i).text readably limit ++ " " ++ (val i).text readably limit)) ++ "\x7d"
  | marked inner => "#reduced[" ++ inner.text readably limit ++ "]"

/-- No collection, at any level, has more entries than this. -/
def Within (n : Nat) : Outline → Prop
  | word _ | refused _ => True
  | items _ _ size item => ∃ k ≤ n, size = some k ∧ ∀ i < k, (item i).Within n
  | table size key val => size ≤ n ∧ ∀ i < size, (key i).Within n ∧ (val i).Within n
  | marked inner => inner.Within n

end Outline

variable {n i left left' k m : Nat} {sep t : String} {ts : List String} {limit remaining : Option Nat}
  {outs : Nat → Output} {texts : Nat → String} {f : Outline} {readably : Bool}

/-! ### Entries up to the limit -/

theorem clip_cons_none : clip none (t :: ts) = t :: clip none ts := rfl

theorem clip_cons_zero : clip (some 0) (t :: ts) = ["..."] := rfl

theorem clip_cons_succ : clip (some (n + 1)) (t :: ts) = t :: clip (some n) ts := by
  simp [clip]

theorem clip_eq_nil : clip limit ts = [] ↔ ts = [] := by
  cases limit with
  | none => rfl
  | some n => cases ts <;> cases n <;> simp [clip]

/-- A limit that is not exceeded makes no difference. -/
theorem clip_of_length_le (h : ts.length ≤ n) : clip (some n) ts = ts := by
  simp [clip, List.take_of_length_le h, Nat.not_lt.mpr h]

/-- Entries without errors are what the limit leaves of their texts, put behind one another with
separators. -/
theorem Output.entries_eq {texts : Nat → String} : ∀ {left i : Nat} {remaining : Option Nat},
    (∀ j < i + left, outs j = ⟨texts j, none⟩) →
    Output.entries sep (remaining.map (i + ·)) outs i left = ⟨if left = 0 then "" else
      (if 0 < i then sep else "") ++ sep.intercalate (clip remaining ((List.range' i left).map texts)), none⟩
  | 0, _, _, _ => rfl
  | left + 1, i, remaining, h => by
    have hfirst : outs i = ⟨texts i, none⟩ := h i (by omega)
    have hrest : ∀ j < i + 1 + left, outs j = ⟨texts j, none⟩ := fun j hj => h j (by omega)
    -- what follows the first entry is the rest behind a separator
    have hcons (rest : Option Nat) (hmap : remaining.map (i + ·) = rest.map (i + 1 + ·))
        (hclip : ∀ ts, clip remaining (texts i :: ts) = texts i :: clip rest ts)
        (hlimit : remaining.map (i + ·) ≠ some i) :
        Output.entries sep (remaining.map (i + ·)) outs i (left + 1) = ⟨(if 0 < i then sep else "") ++
          sep.intercalate (clip remaining ((List.range' i (left + 1)).map texts)), none⟩ := by
      rw [Output.entries, if_neg hlimit, hmap, entries_eq hrest, hfirst, List.range'_succ, List.map_cons,
        hclip]
      cases left with
      | zero => simp [Output.followed, clip_eq_nil.mpr]
      | succ left =>
        have hne : clip rest ((List.range' (i + 1) (left + 1)).map texts) ≠ [] := by
          rw [Ne, clip_eq_nil, List.range'_succ, List.map_cons]
          exact List.cons_ne_nil _ _
        rw [String.intercalate_cons_of_ne_nil hne, if_neg (Nat.succ_ne_zero left), if_pos (Nat.succ_pos i)]
        simp only [Output.followed, String.append_assoc]
    rw [if_neg (Nat.succ_ne_zero left)]
    rcases remaining with _ | _ | k
    · exact hcons none rfl (fun _ => clip_cons_none) (Option.some_ne_none i).symm
    · rw [Output.entries, List.range'_succ, List.map_cons, clip_cons_zero]
      simp [Output.followed]
    · refine hcons (some k) ?_ (fun _ => clip_cons_succ) ?_
      · simp only [Option.map_some, Nat.add_assoc, Nat.add_comm 1]
      · simp

/-- From the first entry on. -/
theorem Output.entries_eq_first {texts : Nat → String} (h : ∀ j < left, outs j = ⟨texts j, none⟩) :
    Output.entries sep limit outs 0 left =
      ⟨sep.intercalate (clip limit ((List.range left).map texts)), none⟩ := by
  have hlimit : limit.map (0 + ·) = limit := by simp
  have hentries : Output.entries sep (limit.map (0 + ·)) outs 0 left = _ :=
    entries_eq fun j hj => h j (Nat.zero_add left ▸ hj)
  rw [hlimit] at hentries
  rw [hentries, List.range_eq_range']
  cases left with
  | zero => simp [clip_eq_nil.mpr]
  | succ left => simp

/-- The output of an outline in which no sequence fails is its text. -/
theorem Outline.output_eq {o : RenderOptions} (hf : f.Sound) :
    f.output o = ⟨f.text o.readably o.limit, none⟩ := by
  induction f with
  | word => rfl
  | refused e => exact absurd rfl (hf e)
  | items opening closing size item ih =>
    have hitems : ∀ j < looked o.limit size,
        (item j).output o = ⟨(item j).text o.readably o.limit, none⟩ := fun j hj =>
      ih j fun e he => hf e ⟨j, lt_of_lt_looked hj, he⟩
    rw [output, Output.entries_eq_first hitems]
    simp [Output.enclosed, Output.followed, text, String.append_assoc]
  | table size key val ihk ihv =>
    have hentries : ∀ j < size, ((key j).output o).followed
        ({ text := " " : Output }.followed ((val j).output o)) =
          ⟨(key j).text o.readably o.limit ++ " " ++ (val j).text o.readably o.limit, none⟩ := by
      intro j hj
      rw [ihk j fun e he => hf e ⟨j, hj, .inl he⟩, ihv j fun e he => hf e ⟨j, hj, .inr he⟩]
      simp [Output.followed, String.append_assoc]
    rw [output, Output.entries_eq_first hentries]
    simp [Output.enclosed, Output.followed, text, String.append_assoc]
  | marked inner ih =>
    rw [output, ih hf]
    simp [Output.enclosed, Output.followed, text, String.append_assoc]

/-! ### Collections within the limit -/

namespace Outline.Within

theorem finite (h : f.Within n) : f.Finite := by
  induction f with
  | word | refused => trivial
  | items opening closing size item ih =>
    obtain ⟨k, -, hk, hitems⟩ := h
    exact ⟨k, hk, fun i hi => ih i (hitems i hi)⟩
  | table size key val ihk ihv => exact fun i hi => ⟨ihk i (h.2 i hi).1, ihv i (h.2 i hi).2⟩
  | marked inner ih => exact ih h

/-- When no collection has more entries than the limit allows, the limit makes no difference. -/
theorem text_eq (h : f.Within n) : f.text readably (some n) = f.text readably none := by
  induction f with
  | word | refused => rfl
  | items opening closing size item ih =>
    obtain ⟨k, hkn, rfl, hitems⟩ := h
    have htexts : (List.range k).map (fun i => (item i).text readably (some n)) =
        (List.range k).map fun i => (item i).text readably none :=
      List.map_congr_left fun i hi => ih i (hitems i (List.mem_range.mp hi))
    simp only [text, looked, Option.getD_some, htexts]
    rw [clip_of_length_le (by simpa using hkn)]
    rfl
  | table size key val ihk ihv =>
    have htexts : (List.range size).map
          (fun i => (key i).text readably (some n) ++ " " ++ (val i).text readably (some n)) =
        (List.range size).map fun i => (key i).text readably none ++ " " ++ (val i).text readably none := by
      refine List.map_congr_left fun i hi => ?_
      obtain ⟨hk, hv⟩ := h.2 i (List.mem_range.mp hi)
      rw [ihk i hk, ihv i hv]
    simp only [text, htexts]
    rw [clip_of_length_le (by simpa using h.1)]
    rfl
  | marked inner ih => rw [text, text, ih h]

end Outline.Within

/-! ### More than the limit -/

/-- How many entries there are behind the limit does not matter. -/
theorem Output.entries_past : ∀ {left left' i : Nat}, i ≤ k → k < i + left → k < i + left' →
    Output.entries sep (some k) outs i left = Output.entries sep (some k) outs i left'
  | 0, _, _, hi, h, _ => by omega
  | _, 0, _, hi, _, h => by omega
  | left + 1, left' + 1, i, hi, h, h' => by
    rw [Output.entries, Output.entries]
    by_cases hk : some k = some i
    · rw [if_pos hk, if_pos hk]
    · have hne : k ≠ i := fun h => hk (congrArg some h)
      have hrest : Output.entries sep (some k) outs (i + 1) left =
          Output.entries sep (some k) outs (i + 1) left' :=
        entries_past (by omega) (by omega) (by omega)
      rw [hrest]

theorem Value.WrittenAs.prints {w : World} {v : Value} {o : RenderOptions} {text : String}
    (h : v.WrittenAs o w ⟨text, none⟩) : ∃ N, ∀ k ≥ N, ∃ w', v.print o k w = .ok text w' :=
  h.print.imp fun _ hN k hk => (hN k hk).imp fun _ hw' => hw'.1

/-- A sequence with more elements than the limit is written as those up to the limit are. -/
theorem Value.Spells.written_past {w : World} {v : Value} {opening closing : String} {xs : List Value}
    {b : Behind}
    (hw : Orderly w) (hv : v.brackets? = some (opening, closing)) (hs : v.Spells m w xs b)
    (hb : ∀ text, b ≠ .panic text) (hlen : n < xs.length) {item : Nat → Outline}
    (hitem : ∀ i x, xs[i]? = some x → i < n → x.HasOutline w (item i)) :
    v.WrittenAs ⟨readably, some n⟩ w (.enclosed opening closing
      (.entries " " (some n) (fun i => (item i).output ⟨readably, some n⟩) 0 (n + 1))) := by
  obtain ⟨u, hu, hs⟩ := hs
  have hopen : v.Spells m w xs .anything := ⟨u, hu, hs.left_open hb⟩
  have hwritten := hopen.writtenAs (o := ⟨readably, some n⟩)
    (fun i => (item i).output ⟨readably, some n⟩) 0 hw hv
    (fun _ _ => nofun) ⟨n, rfl, hlen⟩ fun i x hi hk => (hitem i x hi (hk n rfl)).writes hw (.inl rfl)
  have hpast : Output.entries " " (some n) (fun i => (item i).output ⟨readably, some n⟩) 0 (xs.length + 0) =
      Output.entries " " (some n) (fun i => (item i).output ⟨readably, some n⟩) 0 (n + 1) :=
    Output.entries_past (Nat.zero_le n) (by omega) (by omega)
  rwa [hpast] at hwritten

/-- Sequences with more elements than the limit are printed alike when they begin alike. -/
theorem Value.Spells.print_alike {w : World} {u v : Value} {opening closing : String} {xs ys : List Value}
    {b b' : Behind} {m m' : Nat} (hw : Orderly w) (hu : u.brackets? = some (opening, closing))
    (hv : v.brackets? = some (opening, closing)) (hxs : u.Spells m w xs b) (hys : v.Spells m' w ys b')
    (hb : ∀ text, b ≠ .panic text) (hb' : ∀ text, b' ≠ .panic text)
    (hlen : n < xs.length) (hlen' : n < ys.length)
    (hsame : ∀ i < n, xs[i]? = ys[i]?)
    (hitem : ∀ i x, xs[i]? = some x → i < n → ∃ f, x.HasOutline w f ∧ f.Sound) :
    ∃ text N, ∀ k ≥ N, (∃ w', u.print ⟨readably, some n⟩ k w = .ok text w') ∧
      ∃ w', v.print ⟨readably, some n⟩ k w = .ok text w' := by
  have hchoice : ∀ i, ∃ f, i < n → ∀ x, xs[i]? = some x → x.HasOutline w f ∧ f.Sound := by
    intro i
    by_cases hi : i < n
    · have hget := List.getElem?_eq_getElem (Nat.lt_trans hi hlen)
      obtain ⟨f, hf⟩ := hitem i _ hget hi
      refine ⟨f, fun _ x hx => ?_⟩
      cases hget.symm.trans hx
      exact hf
    · exact ⟨.refused .format, fun h => absurd h hi⟩
  choose item hitem using hchoice
  let o : RenderOptions := ⟨readably, some n⟩
  let entries := Output.entries " " (some n) (fun i => (item i).output o) 0 (n + 1)
  have hu : u.WrittenAs o w (.enclosed opening closing entries) :=
    written_past hw hu hxs hb hlen fun i x hi hin => (hitem i hin x hi).1
  have hv : v.WrittenAs o w (.enclosed opening closing entries) :=
    written_past hw hv hys hb' hlen' fun i x hi hin => (hitem i hin x ((hsame i hin).trans hi)).1
  have hsound : entries.error = none := by
    by_contra hne
    obtain ⟨e, he⟩ := Option.ne_none_iff_exists'.mp hne
    obtain ⟨i, -, hin, he⟩ := Output.error_entries (fun k _ => Nat.zero_le k) he
    have hget := List.getElem?_eq_getElem (Nat.lt_trans (hin n rfl) hlen)
    exact (hitem i (hin n rfl) _ hget).2 e (Outline.refuses_of_output he)
  have hout : Output.enclosed opening closing entries =
      ⟨(Output.enclosed opening closing entries).text, none⟩ := by
    have herror : (Output.enclosed opening closing entries).error = none := by
      simp [Output.enclosed, hsound]
    rw [← herror]
  rw [hout] at hu hv
  obtain ⟨N, hN⟩ := hu.prints
  obtain ⟨N', hN'⟩ := hv.prints
  exact ⟨_, max N N', fun k hk => ⟨hN k (by omega), hN' k (by omega)⟩⟩

/-! ### The result -/

/-- Printing with a limit. A finite value in which nothing has failed has an outline in which nothing
fails, and so may values have whose sequences do not end. Every value with such an outline is printed
with any limit, and the text shows of each collection, at every level, as many entries as the limit
allows and then dots when there are more. When no collection has more, that is the text without a limit.
A sequence without end is printed like any sequence that ends, has more elements than the limit, and
begins with the same ones. -/
theorem limited_printing {w : World} (hw : Reached w) (readably : Bool) (n : Nat) :
    (∀ inside v d, ComesTo inside w v d → d.Whole → ∃ f : Outline, v.HasOutline w f ∧ f.Finite ∧ f.Sound) ∧
    (∀ (v : Value) (f : Outline), v.HasOutline w f → f.Sound →
      (∃ N, ∀ k ≥ N, ∃ w', v.print ⟨readably, some n⟩ k w = .ok (f.text readably (some n)) w') ∧
      (f.Within n → f.text readably (some n) = f.text readably none ∧
        ∃ N, ∀ k ≥ N, ∃ w', v.print ⟨readably, none⟩ k w = .ok (f.text readably none) w')) ∧
    ∀ (u v : Value) (opening closing : String) (x : Nat → Value) (ys : List Value) (m : Nat),
      u.brackets? = some (opening, closing) → v.brackets? = some (opening, closing) →
      (∀ j, ∃ m, u.Spells m w ((List.range j).map x) .anything) → v.Spells m w ys .nothing → n < ys.length →
      (∀ i < n, ys[i]? = some (x i)) → (∀ i < n, ∃ f, (x i).HasOutline w f ∧ f.Sound) →
      ∃ text N, ∀ k ≥ N, (∃ w', u.print ⟨readably, some n⟩ k w = .ok text w') ∧
        ∃ w', v.print ⟨readably, some n⟩ k w = .ok text w' := by
  have hw := hw.orderly
  refine ⟨fun inside v d hv hd => ?_, fun v f hv hf => ⟨?_, fun hn => ⟨hn.text_eq, ?_⟩⟩,
    fun u v opening closing x ys m hu hv hus hvs hlen hsame hx => ?_⟩
  · obtain ⟨f, hf, hfin, hs⟩ := hv.outlined
    exact ⟨f, hf, hfin, hs hd⟩
  · have hwritten := hv.writes (o := ⟨readably, some n⟩) hw (.inl rfl)
    rw [Outline.output_eq hf] at hwritten
    exact hwritten.prints
  · have hwritten := hv.writes (o := ⟨readably, none⟩) hw (.inr hn.finite)
    rw [Outline.output_eq hf] at hwritten
    exact hwritten.prints
  · obtain ⟨m', hus⟩ := hus (n + 1)
    refine hus.print_alike hw hu hv hvs nofun nofun (by simp) hlen (fun i hi => ?_) fun i y hy hi => ?_
    · rw [hsame i hi]
      simp [Nat.lt_succ_of_lt hi]
    · obtain ⟨-, rfl⟩ := List.getElem?_eq_some_iff.mp hy
      simpa using hx i hi

/-- The cells of an unbounded sequence can be read as far as one likes. -/
theorem Spells.of_stream {w : World} (line : Nat → String) (item : Nat → Value) : ∀ j i : Nat,
    Spells 1 w (.cell (item i) (.stream line item (i + 1))) ((List.range' i j).map item) .anything
  | 0, _ => .anything nofun
  | j + 1, i => .cell .stream (of_stream line item j (i + 1))

open Strand in
/-- A vector with the natural numbers in it, and the natural numbers beside a list of three. -/
theorem limited_printing_naturals :
    (∃ N, ∀ k ≥ N, ∃ w', (Value.vector #[.int 7, .lazy ⟨0⟩]).print ⟨true, some 2⟩ k naturalsMade =
      .ok "[7 (0 1 ...)]" w') ∧
    ∃ text N, ∀ k ≥ N, (∃ w', (Value.lazy ⟨0⟩).print ⟨true, some 2⟩ k naturalsMade = .ok text w') ∧
      ∃ w', (Value.list (.cons 0 (.int 0) (.cons 1 (.int 1) (.cons 2 (.int 5) .nil)))).print ⟨true, some 2⟩ k
        naturalsMade = .ok text w' := by
  have hreached : Reached naturalsMade :=
    ⟨{}, rfl, .make (n := 0) (l := ⟨0⟩) (p := naturals.producer 0) (.refl _) rfl⟩
  have hspells (j : Nat) : ∃ m, (Value.lazy ⟨0⟩).Spells m naturalsMade
      ((List.range j).map fun i => .int (Int64.ofNat i)) .anything := by
    rw [List.range_eq_range']
    exact ⟨1, _, .ready rfl .stream, .of_stream (fun i => "cell " ++ toString i) naturals.item j 0⟩
  have hnumber (i : Int64) : (Value.int i).HasOutline naturalsMade
      (.word ((Value.int i).word naturalsMade)) := .word rfl
  obtain ⟨-, hprints, halike⟩ := limited_printing hreached true 2
  constructor
  · have hall : (Value.lazy ⟨0⟩).HasOutline naturalsMade (.items "(" ")" none fun i =>
        .word ((Value.int (Int64.ofNat i)).word naturalsMade)) := .unbounded rfl hspells fun i => hnumber _
    have hvector : (Value.vector #[.int 7, .lazy ⟨0⟩]).HasOutline naturalsMade (.items "[" "]" (some 2) fun
        | 0 => .word ((Value.int 7).word naturalsMade)
        | _ => .items "(" ")" none fun i => .word ((Value.int (Int64.ofNat i)).word naturalsMade)) := by
      have hvalues : (Value.vector #[.int 7, .lazy ⟨0⟩]).Spells 1 naturalsMade [.int 7, .lazy ⟨0⟩] .nothing :=
        ⟨_, .direct nofun, .step nofun (.step nofun .done)⟩
      refine .items rfl hvalues fun i x hi => ?_
      rcases i with _ | _ | i
      · cases hi
        exact hnumber 7
      · cases hi
        exact hall
      · cases hi
    refine (hprints _ _ hvector ?_).1
    rintro e ⟨_ | i, -, he⟩
    · exact he
    · exact he.elim fun _ he => he.2
  · refine halike _ _ "(" ")" naturals.item [.int 0, .int 1, .int 5] 1 rfl rfl hspells
      ⟨_, .direct nofun, .step nofun (.step nofun (.step nofun .done))⟩ (by decide) (fun i hi => ?_)
      fun i hi => ⟨_, hnumber _, fun _ he => he⟩
    rcases i with _ | _ | i
    · rfl
    · rfl
    · omega

end LispCore
