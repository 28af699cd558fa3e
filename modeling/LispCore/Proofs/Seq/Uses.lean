import LispCore.Proofs.Seq.Demand
/-!
Uses of a lazy sequence that comes cell by cell. What is put in front of it realizes nothing; every
other use realizes the cells up to the last one that it must know of, also when there is no last cell.
Uses follow one another on the sequence and on the values that they give (`Strand.Reached`), and a cell
that has been realized is never realized again (`Strand.realized_on_demand`). What a use needs of others
is in `Use.Fits`; a rendering needs nothing more where the elements are scalars (`Shows.fits_print`).
-/

namespace LispCore

/-- A use of a sequence. A reduction comes with the call at which its step function stops it. -/
inductive Use where
  | cons (x : Value)
  | listStar (x : Value) (xs : List Value)
  | conj (x : Value)
  | first
  | more
  | next
  | second
  | third
  | fourth
  | nth (index : Int64)
  | pulls (count : Nat)
  | reduce (init : Value) (step : Step) (call : Nat)
  | print (readably : Bool) (limit : Nat)

namespace Use

/-- Uses a value, and gives what is left of the sequence, if something is, for further use. -/
def run : Use → Value → Act (Option Value)
  | cons x, v => do return some (.seq (← Seq.consOnto x v))
  | listStar x xs, v => do return some (← Value.listStar (x :: xs) v)
  | conj x, v => do return some (← v.conj x)
  | first, v => do
    let _ ← v.first
    return none
  | more, v => do
    match ← v.more with
    | .list _ => return none
    | rest => return some rest
  | next, v => do return (← v.next?).map .seq
  | second, v => do
    let _ ← v.second
    return none
  | third, v => do
    let _ ← v.third
    return none
  | fourth, v => do
    let _ ← v.fourth
    return none
  | nth index, v => do
    let _ ← Act.attempt (v.nth index)
    return none
  | pulls count, v => do
    let _ ← Walk.pulls count (← Walk.of v)
    return none
  | reduce init step _, v => do
    let _ ← v.reduce init step
    return none
  | print readably limit, v => do
    let _ ← v.print ⟨readably, some limit⟩
    return none

/-- How many cells of the sequence must have been realized for a use of this part. -/
def cells : Use → Place → Nat
  | cons _, _ | listStar .., _ | conj _, _ => 0
  | first, pl | more, pl => pl.need 0
  | next, pl | second, pl => pl.need 1
  | third, pl => pl.need 2
  | fourth, pl => pl.need 3
  | nth index, pl => (indexOf? index).elim 0 pl.need
  | pulls count, pl => pl.need count
  | reduce _ _ call, pl => pl.need call
  | print _ limit, pl => pl.need (limit + 1)

/-- The part of the sequence that a use gives. -/
def gives (S : Strand) : Use → Place → Option Place
  | cons x, pl | conj x, pl => some (pl.put x)
  | listStar x xs, pl => some ⟨x :: xs ++ pl.leading, pl.cell⟩
  | more, pl => (S.opened pl).map Place.tail
  | next, pl => (S.opened pl).bind fun q => S.opened q.tail
  | _, _ => none

/-- What a use needs of others. The step function of a reduction stops it at its call, and the elements
that a rendering may show can be written; neither realizes the sequence on its own, and the budget
allows for as many. -/
def Fits (S : Strand) (n : Nat) (v : Value) (w : World) : Use → Prop
  | reduce init step call => call ≤ n ∧ ∀ walk w₁, Walk.of v n w = .ok walk w₁ →
      S.StopsAt step n call init walk w₁
  | print readably limit => limit < n ∧ ∀ walk w₁, Walk.of v n w = .ok walk w₁ →
      S.Writable (Print.writeAt ⟨readably, some limit⟩ (n - 1)) n limit walk w₁
  | _ => True

end Use

namespace Strand

variable {S : Strand} {t : Trail} {before : List String} {w : World} {n : Nat} {pl : Place} {v : Value}

/-! ### One use -/

/-- Putting an element in front runs no producer. -/
theorem Shows.consOnto (h : S.Shows t v pl) (x : Value) :
    Seq.consOnto x v n w = .ok (.cons x v) w := by
  cases h <;> rfl

theorem Shows.consAll : ∀ (xs : List Value) {v : Value} {pl : Place}, S.Shows t v pl →
    ∃ v', Value.consAll xs v n w = .ok v' w ∧ S.Shows t v' ⟨xs.reverse ++ pl.leading, pl.cell⟩
  | [], v, _, h => ⟨v, rfl, h⟩
  | x :: xs, _, pl, h => by
    obtain ⟨v', hv, hs⟩ := (Shows.cons (y := x) h).consAll xs
    refine ⟨v', (Act.bind_of_ok (h.consOnto x)).trans hv, ?_⟩
    rw [List.reverse_cons, List.append_assoc]
    exact hs

theorem Shows.walk (h : S.Shows t v pl) (hp : S.Progress t before w) (hn : 0 < n) :
    S.Asks t before (Walk.of v) n w (pl.need 0) fun t' walk =>
      ∃ o, walk = ⟨o, none⟩ ∧ S.Front t' o (S.opened pl) :=
  (h.seq? hp hn).map fun _ o ho => ⟨o, rfl, ho⟩

/-- What is done with the sequence behind as many elements asks for no more than they do. -/
theorem Shows.skip {α : Type} {f : Option Seq → Act α} (h : S.Shows t v pl)
    (hp : S.Progress t before w) (hn : 0 < n) (p : Nat) (hf : ∀ o, ∃ a, f o = pure a) :
    S.Asks t before (do f (← Seq.skip? p (← v.seq?))) n w (pl.need p) fun _ _ => True := by
  rw [← S.max_need_behind]
  refine (h.seq? hp hn).bind fun o t' w' _ _ hp' ho => ?_
  rw [← Nat.max_zero (S.behind pl p)]
  refine (ho.skip? hn hp' fun _ hq => behind_eq hq).bind fun o' t'' w'' _ _ hp'' _ => ?_
  obtain ⟨a, ha⟩ := hf o'
  rw [ha]
  exact .pure hp'' trivial

theorem Shows.firstAfter (h : S.Shows t v pl) (hp : S.Progress t before w) (hn : 0 < n) (p : Nat) :
    S.Asks t before (v.firstAfter p) n w (pl.need p) fun _ _ => True :=
  h.skip hp hn p fun
    | none => ⟨_, rfl⟩
    | some s => ⟨s.first, rfl⟩

theorem Shows.first (h : S.Shows t v pl) (hp : S.Progress t before w) (hn : 0 < n) :
    S.Asks t before v.first n w (pl.need 0) fun _ _ => True :=
  h.skip hp hn 0 fun
    | none => ⟨_, rfl⟩
    | some s => ⟨s.first, rfl⟩

theorem Shows.elementAt (h : S.Shows t v pl) (hp : S.Progress t before w) (hn : 0 < n) (i : Nat) :
    S.Asks t before (v.elementAt i) n w (pl.need i) fun _ _ => True := by
  have hs := h.skip (f := fun o => pure (o.map Seq.first)) hp hn i fun _ => ⟨_, rfl⟩
  cases h <;> exact hs

theorem Shows.pulls (h : S.Shows t v pl) (hp : S.Progress t before w) (hn : 0 < n) (count : Nat) :
    S.Asks t before ((Use.pulls count).run v) n w (pl.need count) fun _ r => r = none := by
  rw [← S.max_need_behind]
  refine (h.walk hp hn).bind fun walk t' w' _ _ hp' hfront => ?_
  obtain ⟨o, rfl, ho⟩ := hfront
  exact (ho.pulls hn hp' fun _ hq => behind_eq hq).map fun _ _ _ => rfl

/-- The element at an index, or an error when the sequence ends before. -/
theorem Shows.nth (h : S.Shows t v pl) (hp : S.Progress t before w) (hn : 0 < n) (index : Int64) :
    S.Asks t before (Act.attempt (v.nth index)) n w ((indexOf? index).elim 0 pl.need)
      fun _ _ => True := by
  unfold Value.nth
  cases indexOf? index with
  | none => exact .of_eq (Act.attempt_of_error rfl) (.pure hp trivial)
  | some i =>
    have ha := h.elementAt hp hn i
    rw [Option.elim_some, ← Nat.max_zero (pl.need i)]
    refine ha.chain fun o t' w' ho _ hp' _ => ?_
    -- an element that is missing makes an error, which realizes nothing
    cases o with
    | none =>
      refine ⟨pure (.error (.indexOutOfBounds index (v.knownCount?.getD 0))), ?_, .pure hp' trivial⟩
      cases h <;> exact (Act.attempt_bind_of_ok ho).trans (Act.attempt_of_error (Act.fail_apply ..))
    | some x =>
      refine ⟨pure (.ok x), ?_, .pure hp' trivial⟩
      cases h <;> exact (Act.attempt_bind_of_ok ho).trans (Act.attempt_of_ok (Act.pure_apply ..))

/-- A reduction that is stopped ends with a value. -/
theorem Shows.reduce (h : S.Shows t v pl) (hp : S.Progress t before w) (hn : 0 < n) {init : Value}
    {step : Step} {call : Nat} (hc : call ≤ n)
    (hs : ∀ walk w₁, Walk.of v n w = .ok walk w₁ → S.StopsAt step n call init walk w₁) :
    S.Asks t before (v.reduce init step) n w (pl.need call) fun _ _ => True := by
  rw [← S.max_need_behind]
  refine (h.walk hp hn).chain fun walk t' w' hwalk _ hp' hfront => ?_
  obtain ⟨o, rfl, ho⟩ := hfront
  have hof : Fold.of v init step n w = Fold.run step n 0 init ⟨o, none⟩ n w' :=
    Act.bind_of_ok (Act.attempt_of_ok hwalk)
  have hfold : S.Asks t' before (Fold.run step n 0 init ⟨o, none⟩) n w' (S.behind pl call)
      fun _ fold => ∃ x, fold.outcome = .ok x :=
    ho.fold hn hc hp' (hs _ _ hwalk) fun _ hq => behind_eq hq
  refine ⟨do Act.ofExcept (← Fold.run step n 0 init ⟨o, none⟩).outcome, ?_, ?_⟩
  · rw [Value.reduce, Act.bind_apply, hof, ← Act.bind_apply]
  · rw [← Nat.max_zero (S.behind pl call)]
    refine hfold.bind fun fold t'' w'' _ _ hp'' hout => ?_
    obtain ⟨x, hx⟩ := hout
    rw [hx]
    exact .pure hp'' trivial

theorem Shows.writeSequence (h : S.Shows t v pl) (hp : S.Progress t before w) (hn : 0 < n)
    {write : Value → Writing Unit} {limit : Nat} (hl : limit < n)
    (hs : ∀ walk w₁, Walk.of v n w = .ok walk w₁ → S.Writable write n limit walk w₁)
    (opening closing text : String) :
    S.Asks t before (Print.writeSequence write (some limit) opening closing v ⟨text, none⟩) n w
      (pl.need (limit + 1)) fun _ r => ∃ text', r = (.ok (), ⟨text', none⟩) := by
  rw [← S.max_need_behind]
  refine (h.walk hp hn).chain fun walk t' w' hwalk _ hp' hfront => ?_
  obtain ⟨o, rfl, ho⟩ := hfront
  refine ⟨(do
    Print.writeItems write (some limit) n 0 ⟨o, none⟩
    Writing.put closing : Writing Unit) ⟨text ++ opening, none⟩, ?_, ?_⟩
  · rw [Print.writeSequence, Writing.bind_of_ok (Writing.act_of_ok hwalk),
      Writing.bind_of_ok (Writing.put_apply ..),
      Writing.bind_of_ok (Writing.act_of_ok (Act.budget_apply ..))]
  · have hitems : S.Asks t' before (Print.writeItems write (some limit) n 0 ⟨o, none⟩
        ⟨text ++ opening, none⟩) n w' (S.behind pl (limit + 1))
        fun _ r => ∃ text', r = (.ok (), ⟨text', none⟩) :=
      ho.items hn (Nat.zero_add limit) hl hp' (hs _ _ hwalk) fun _ hq => behind_eq hq
    rw [← Nat.max_zero (S.behind pl (limit + 1))]
    refine hitems.chain fun r t'' w'' hr _ hp'' htext => ?_
    obtain ⟨text', rfl⟩ := htext
    exact ⟨_, Writing.bind_of_ok hr, .pure hp'' ⟨_, rfl⟩⟩

/-- A rendering gives a text. -/
theorem Shows.print (h : S.Shows t v pl) (hp : S.Progress t before w) (hn : 0 < n)
    {readably : Bool} {limit : Nat} (hl : limit < n)
    (hs : ∀ walk w₁, Walk.of v n w = .ok walk w₁ →
      S.Writable (Print.writeAt ⟨readably, some limit⟩ (n - 1)) n limit walk w₁) :
    S.Asks t before (v.print ⟨readably, some limit⟩) n w (pl.need (limit + 1)) fun _ _ => True := by
  obtain ⟨d, rfl⟩ : ∃ d, n = d + 1 := ⟨n - 1, by omega⟩
  have hwrite := h.writeSequence hp hn hl hs "(" ")" ""
  have hat : Print.writeAt ⟨readably, some limit⟩ (d + 1) v =
      Print.writeSequence (Print.writeAt ⟨readably, some limit⟩ d) (some limit) "(" ")" v := by
    cases h <;> rfl
  have hrender : v.render ⟨readably, some limit⟩ {} (d + 1) w =
      Print.writeSequence (Print.writeAt ⟨readably, some limit⟩ d) (some limit) "(" ")" v
        ⟨"", none⟩ (d + 1) w := by
    rw [← hat]
    exact Writing.bind_of_ok (Writing.act_of_ok (Act.budget_apply ..))
  rw [← Nat.max_zero (pl.need (limit + 1))]
  refine hwrite.chain fun r t' w' hr _ hp' htext => ?_
  obtain ⟨text, rfl⟩ := htext
  exact ⟨pure text, Act.bind_of_ok (hrender.trans hr), .pure hp' trivial⟩

theorem Shows.next (h : S.Shows t v pl) (hp : S.Progress t before w) (hn : 0 < n) :
    S.Asks t before v.next? n w (pl.need 1) fun t' o =>
      S.Front t' o ((S.opened pl).bind fun q => S.opened q.tail) := by
  rw [← S.max_need_behind]
  refine (h.seq? hp hn).bind fun o t' w' _ _ hp' ho => ?_
  unfold behind
  generalize S.opened pl = part at ho ⊢
  cases ho with
  | past ho => exact .past hp' ho fun _ hg => .past fun i hi => ho i (hg.1.trans hi)
  | more h' =>
    show S.Asks t' before _ n w' (Place.need _ (0 + 1)) _
    rw [Place.need_put_succ]
    exact h'.seq? hp' hn

theorem Front.shows {o : Option Seq} {part : Option Place} (h : S.Front t o part) :
    Option.Rel (S.Shows t) (o.map .seq) part := by
  cases h with
  | more h => exact .some (.cons h)
  | past => exact .none

theorem Shows.more (h : S.Shows t v pl) (hp : S.Progress t before w) (hn : 0 < n) :
    S.Asks t before (Use.more.run v) n w (pl.need 0) fun t' r =>
      Option.Rel (S.Shows t') r ((S.opened pl).map Place.tail) := by
  rw [← Nat.max_zero (pl.need 0)]
  refine (h.seq? hp hn).chain fun o t' w' ho _ hp' hfront => ?_
  generalize S.opened pl = part at hfront ⊢
  cases hfront with
  | past =>
    have hmore : v.more n w = .ok Value.emptyList w' := Act.bind_of_ok ho
    exact ⟨_, Act.bind_of_ok hmore, .pure hp' .none⟩
  | @more y rest pl h' =>
    have hmore : v.more n w = .ok (Seq.cons y rest).more w' := Act.bind_of_ok ho
    refine ⟨_, Act.bind_of_ok hmore, ?_⟩
    cases h' with
    | cell hi hw => exact .pure hp' (.some (.cell hi hw))
    | cons h' => exact .pure hp' (.some (.cons h'))

/-- Every use ends, and asks for no more cells than it must know of. -/
theorem Use.asks {u : Use} (h : S.Shows t v pl) (hp : S.Progress t before w) (hn : 0 < n)
    (hu : u.Fits S n v w) :
    S.Asks t before (u.run v) n w (u.cells pl) fun t' r =>
      Option.Rel (S.Shows t') r (u.gives S pl) := by
  cases u with
  | cons x => exact .after (h.consOnto x) (.pure hp (.some (.cons h)))
  | conj x =>
    have hconj : v.conj x n w = .ok (.seq (.cons x v)) w := by
      cases h <;> rfl
    exact .after hconj (.pure hp (.some (.cons h)))
  | listStar x xs =>
    obtain ⟨v', hv, hs⟩ := h.consAll (x :: xs).reverse (n := n) (w := w)
    rw [List.reverse_reverse] at hs
    have hstar : Value.listStar (x :: xs) v n w = .ok v' w := hv
    exact .after hstar (.pure hp (.some hs))
  | more => exact h.more hp hn
  | next => exact (h.next hp hn).map fun _ _ ho => ho.shows
  | first => exact (h.first hp hn).map fun _ _ _ => .none
  | second => exact (h.firstAfter hp hn 1).map fun _ _ _ => .none
  | third => exact (h.firstAfter hp hn 2).map fun _ _ _ => .none
  | fourth => exact (h.firstAfter hp hn 3).map fun _ _ _ => .none
  | nth index => exact (h.nth hp hn index).map fun _ _ _ => .none
  | pulls count =>
    exact (h.pulls hp hn count).mono fun _ r hr => by
      subst hr
      exact .none
  | reduce init step call => exact (h.reduce hp hn hu.1 hu.2).map fun _ _ _ => .none
  | print readably limit => exact (h.print hp hn hu.1 hu.2).map fun _ _ _ => .none

/-! ### Elements that are written in fixed pieces -/

/-- A value that is written in the same pieces whatever the world is, as scalars are. -/
def InPieces (o : RenderOptions) (x : Value) : Prop :=
  ∃ pieces, ∀ depth, Print.writeAt o (depth + 1) x = Writing.puts pieces

variable {o : RenderOptions}

theorem inPieces_opened (hitem : ∀ i, InPieces o (S.item i))
    (hpl : ∀ x ∈ pl.leading, InPieces o x) :
    ∀ part ∈ S.opened pl, ∀ x ∈ part.leading, InPieces o x := by
  obtain ⟨leading, i⟩ := pl
  intro part hpart
  cases leading with
  | nil =>
    cases (Option.ite_none_right_eq_some.mp hpart).2
    exact List.forall_mem_singleton.mpr (hitem i)
  | cons x xs =>
    cases hpart
    exact hpl

/-- Such elements can be written wherever a walk hands them out. -/
theorem Front.writable (hn : 0 < n) {depth : Nat} (hitem : ∀ i, InPieces o (S.item i)) :
    ∀ {count : Nat} {t : Trail} {w : World} {s : Option Seq} {part : Option Place},
    S.Front t s part → S.Progress t before w →
    (∀ pl ∈ part, ∀ x ∈ pl.leading, InPieces o x) →
      S.Writable (Print.writeAt o (depth + 1)) n count ⟨s, none⟩ w
  | 0, _, _, _, _, _, _, _ => trivial
  | count + 1, t, w, _, _, h, hp, hpart => by
    intro x rest w₁ hpull text
    cases h with
    | past => cases hpull
    | @more y rest' pl h =>
      obtain ⟨r, t', w', hpull', -, -, hp', s', rfl, hs'⟩ := Front.pull (y := y) h hp hn
      cases hpull.symm.trans hpull'
      obtain ⟨pieces, hpieces⟩ := hpart _ rfl x List.mem_cons_self
      have hrest : ∀ z ∈ pl.leading, InPieces o z := fun z hz =>
        hpart _ rfl z (List.mem_cons_of_mem _ hz)
      refine ⟨text ++ String.join pieces, _, by rw [hpieces, Writing.puts_apply],
        fun _ _ h => h, ?_⟩
      exact hs'.writable hn hitem hp' (inPieces_opened hitem hrest)

/-- So every rendering of such elements ends, if the budget allows for as many as may be shown. -/
theorem Shows.fits_print {readably : Bool} {limit : Nat} (h : S.Shows t v pl)
    (hp : S.Progress t before w) (hl : limit + 1 < n)
    (hitem : ∀ i, InPieces ⟨readably, some limit⟩ (S.item i))
    (hpl : ∀ x ∈ pl.leading, InPieces ⟨readably, some limit⟩ x) :
    (Use.print readably limit).Fits S n v w := by
  obtain ⟨d, rfl⟩ : ∃ d, n = d + 2 := ⟨n - 2, by omega⟩
  refine ⟨by omega, fun walk w₁ hwalk => ?_⟩
  obtain ⟨r, t', w', hwalk', -, -, hp', o, rfl, ho⟩ := h.walk hp (Nat.succ_pos _)
  cases hwalk.symm.trans hwalk'
  exact ho.writable (Nat.succ_pos _) hitem hp' (inPieces_opened hitem hpl)

/-! ### One use after the other -/

/-- The first so many cells have been realized since that world, each once, and no other has; all of
them when there are not so many. -/
def RealizedTo (S : Strand) (count : Nat) (w₀ w : World) : Prop :=
  ∃ t : Trail, t.asked = count ∧ S.Progress t (S.watched w₀) w

/-- What uses can lead to: how many cells they asked for, the values held with the parts that they stand
for, and the world. -/
inductive Reached (S : Strand) (n : Nat) (w₀ : World) : Nat → List (Value × Place) → World → Prop
  | start : Reached S n w₀ 0 [(.lazy S.head, ⟨[], 0⟩)] w₀
  | use {asked : Nat} {held : List (Value × Place)} {w w' : World} {v : Value} {pl : Place} {u : Use}
      {r : Option Value} (h : Reached S n w₀ asked held w) (hv : (v, pl) ∈ held)
      (hu : u.Fits S n v w) (hr : u.run v n w = .ok r w') :
      Reached S n w₀ (max asked (u.cells pl)) (r.toList.zip (u.gives S pl).toList ++ held) w'

variable {w₀ w' : World} {asked : Nat} {held : List (Value × Place)} {u : Use}

/-- Uses keep to the cells that they ask for, and to what they hold. -/
theorem Reached.progress (h₀ : S.Unrealized w₀) (hn : 0 < n) (h : S.Reached n w₀ asked held w) :
    ∃ t : Trail, t.asked = asked ∧ S.Progress t (S.watched w₀) w ∧
      ∀ x ∈ held, S.Shows t x.1 x.2 := by
  induction h with
  | start =>
    refine ⟨_, rfl, .start h₀, fun x hx => ?_⟩
    cases List.mem_singleton.mp hx
    rw [← id_origin S.there_zero]
    exact .cell (Nat.le_refl 0) within_zero
  | @use asked held w w' v pl u r h hv hu hr ih =>
    obtain ⟨t, ht, hp, hheld⟩ := ih
    obtain ⟨r', t', w'', hr', hg, hm, hp', hrel⟩ := Use.asks (hheld _ hv) hp hn hu
    cases hr.symm.trans hr'
    refine ⟨t', ht ▸ hm, hp', fun x hx => ?_⟩
    rcases List.mem_append.mp hx with hnew | hold
    · generalize u.gives S pl = part at hnew hrel
      cases hrel with
      | none => cases hnew
      | some hshows =>
        cases List.mem_singleton.mp hnew
        exact hshows
    · exact (hheld x hold).mono hg

/-- Lazy sequences are realized on demand, cell by cell, and never twice. After any uses, every use of a
value that is held ends, also when the sequence is unbounded; before it just the cells that were
asked for have been realized, after it just those and the ones that it asks for itself, and the lines
of the log tell of one run for each cell that was not realized before. -/
theorem realized_on_demand (h₀ : S.Unrealized w₀) (hn : 0 < n) (h : S.Reached n w₀ asked held w)
    (hv : (v, pl) ∈ held) (hu : u.Fits S n v w) :
    S.RealizedTo asked w₀ w ∧ ∃ r w', u.run v n w = .ok r w' ∧
      S.RealizedTo (max asked (u.cells pl)) w₀ w' ∧
      S.watched w' = S.watched w ++ S.lines asked (max asked (u.cells pl)) := by
  obtain ⟨t, rfl, hp, hheld⟩ := h.progress h₀ hn
  obtain ⟨r, t', w', hr, hg, hm, hp', -⟩ := Use.asks (hheld _ hv) hp hn hu
  refine ⟨⟨t, rfl, hp⟩, r, w', hr, ⟨t', hm, hp'⟩, ?_⟩
  rw [hp'.log, hp.log, List.append_assoc, ← hm]
  exact congrArg (S.watched w₀ ++ ·) (lines_append (Nat.zero_le _) hg.1).symm

/-! ### The natural numbers -/

/-- The unbounded sequence of the natural numbers; the runs of its producers are counted in the log. -/
def naturals : Strand where
  producer := .stream (fun i => "cell " ++ toString i) fun i => .int (Int64.ofNat i)
  item i := .int (Int64.ofNat i)
  last? := none
  there i := if i = 0 then some ⟨0⟩ else none
  head := ⟨0⟩
  there_zero := rfl
  apart {i j l} hi hj := by
    have hi : i = 0 := (Option.ite_none_right_eq_some.mp hi).1
    have hj : j = 0 := (Option.ite_none_right_eq_some.mp hj).1
    exact hi.trans hj.symm
  returns_cons _ _ := rfl
  makes _ _ := rfl
  returns_nil := nofun
  own _ := true
  owned _ := rfl

/-- Nothing but the first cell of the natural numbers has been made. -/
def naturalsMade : World := { lazies := #[⟨.ready (naturals.producer 0), none⟩] }

/-- After the third number was asked for, showing two numbers asks for one more cell. -/
theorem realized_on_demand_naturals :
    let w := Use.third.run (.lazy ⟨0⟩) |>.worldAfter 4 naturalsMade
    naturals.RealizedTo 3 naturalsMade w ∧ ∃ r w', (Use.print true 2).run (.lazy ⟨0⟩) 4 w = .ok r w' ∧
      naturals.RealizedTo 4 naturalsMade w' ∧
      naturals.watched w' = naturals.watched w ++ ["cell 3"] := by
  intro w
  have h₀ : naturals.Unrealized naturalsMade := fun _ ht => by
    obtain ⟨rfl, hl⟩ := Option.ite_none_right_eq_some.mp ht
    cases hl
    rfl
  have hthird : naturals.Reached 4 naturalsMade 3 [(.lazy ⟨0⟩, ⟨[], 0⟩)] w :=
    .use (S := naturals) (u := .third) (r := none) .start (List.mem_singleton_self _) trivial rfl
  obtain ⟨t, -, hp, hheld⟩ := hthird.progress h₀ (by decide)
  have hfits : (Use.print true 2).Fits naturals 4 (.lazy ⟨0⟩) w :=
    (hheld _ (List.mem_singleton_self _)).fits_print hp (by decide) (fun _ => ⟨_, fun _ => rfl⟩) nofun
  exact realized_on_demand h₀ (by decide) hthird (List.mem_singleton_self _) hfits

end Strand

end LispCore
