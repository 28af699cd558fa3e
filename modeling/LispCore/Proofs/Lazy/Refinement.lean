import LispCore.Proofs.Lazy.Delegation
/-!
Realization refines the naive reading. Calls on the sequences of a family, in any order, run each
producer once at most and give what the naive reading says (`Refines`); two runs over one family
differ only in the numbers of the sequences made on the way (`Alike`). `realization_refines_naive` puts
the two together.
-/

namespace LispCore

variable {family : List Producer} {n : Nat} {w w' : World} {b b' : Book}

/-! ### Runs -/

/-- The world holds a family of lazy sequences none of which has been asked for. -/
def Unasked (family : List Producer) (w : World) : Prop :=
  w.lazies = (family.map fun p => ⟨.ready p, none⟩).toArray

/-- Calls one after the other, each on a sequence that is there by then, with their answers. -/
inductive Calls (n : Nat) (w : World) : List (Lazy × Except Fault (Option Seq)) → World → Prop
  | none : Calls n w [] w
  | next {cs : List (Lazy × Except Fault (Option Seq))} {w' w'' : World} {l : Lazy}
      {a : Except Fault (Option Seq)} (h : Calls n w cs w') (hl : l.id < w'.lazies.size)
      (ha : l.seq? n w' = Act.ended a w'') : Calls n w (cs ++ [(l, a)]) w''

def Unwound (a : Except Fault (Option Seq)) : Prop := ∃ text, a = .error (.panic text)

/-- Each call gives the naive reading; a producer that panics unwinds the first call on a sequence that
leads to it, and from then on the answer is an error. -/
def AllRead (ends : Endings) (calls : List (Lazy × Except Fault (Option Seq))) : Prop :=
  ∀ earlier l a later, calls = earlier ++ (l, a) :: later → ∃ r, Reads ends l r ∧
    r.Gives (fun j => ∃ c ∈ earlier, Leads ends c.1 j) a

/-- The calls give the naive reading of what is in the book. -/
structure Refines (family : List Producer) (w : World)
    (calls : List (Lazy × Except Fault (Option Seq))) (w' : World) (b : Book) : Prop where
  /-- The book has the producers that the sequences of the world started with. -/
  begins : family <+: b.started
  size : w'.lazies.size = b.started.length
  /-- Each producer has run once at most: what the runs wrote is there once for each. -/
  once : b.ran.Nodup
  produced : w'.produced = w.produced ++ b.lines.toArray
  reads : AllRead b.ends calls
  /-- Once a call has returned, every later call on the sequence, or on one that leads to it, or on one
  that it leads to, returns the same. -/
  shared : ∀ earlier l a later, calls = earlier ++ (l, a) :: later → ¬Unwound a →
    ∀ m a', (m, a') ∈ later → Leads b.ends l m ∨ Leads b.ends m l → a' = a
  /-- Once a call has unwound, every later call on a sequence that leads to the producer that panicked
  returns an error. -/
  panicked : ∀ earlier l text later, calls = earlier ++ (l, .error (.panic text)) :: later →
    ∃ j, Leads b.ends l j ∧ b.ends j (.error (.panic text)) ∧
      ∀ m a', (m, a') ∈ later → Leads b.ends m j → a' = .error (.error .producerPanicked)

/-! ### One run -/

/-- What is read leads to nothing else under more endings. -/
theorem Reads.leads_restrict {ends ends' : Endings} {l j : Lazy} {r : Reading}
    (hr : Reads ends l r) (he : ∀ l o, ends l o → ends' l o) (hu : ends'.Unique)
    (hl : Leads ends' l j) : Leads ends l j ∧ Reads ends j r := by
  induction hl with
  | refl => exact ⟨.refl _, hr⟩
  | inner h _ ih =>
    cases hr with
    | value hv hn => exact absurd (Except.ok.inj (hu _ _ _ (he _ _ hv) h)) (hn _)
    | error hv | panic hv => cases hu _ _ _ (he _ _ hv) h
    | inner hv hm =>
      cases hu _ _ _ (he _ _ hv) h
      obtain ⟨hlead, hread⟩ := ih hm
      exact ⟨.inner hv hlead, hread⟩

theorem Reading.Gives.congr {r : Reading} {a : Except Fault (Option Seq)} {before before' : Lazy → Prop}
    (h : r.Gives before a) (hb : ∀ j, before j ↔ before' j) : r.Gives before' a := by
  cases h with
  | returns r => exact .returns r
  | unwinds h => exact .unwinds fun h' => h ((hb _).mpr h')
  | panicked h => exact .panicked ((hb _).mp h)

/-- The invariant of a run of calls: all sequences are settled, the producers that ran belong to
sequences that those called lead to, and each call gave its naive reading. -/
structure Ran (family : List Producer) (w : World) (calls : List (Lazy × Except Fault (Option Seq)))
    (w' : World) (b : Book) : Prop where
  idle : Idle family w.produced b w'
  led : ∀ j ∈ b.ran, ∃ c ∈ calls, Leads b.ended c.1 j
  reads : AllRead b.ended calls

theorem Ran.start (hf : Acyclic family) (h : Unasked family w) :
    Ran family w [] w ⟨family, [], fun l => l⟩ where
  idle := {
    book := {
      begins := List.prefix_refl _
      fits := fun p hp => ⟨size_le_largest hp, hf.closed p hp⟩
      nodup := List.nodup_nil
      ran_lt := fun _ hl => absurd hl List.not_mem_nil
      made := fun _ hl => absurd hl List.not_mem_nil }
    size := by rw [h, List.size_toArray, List.length_map]
    produced := (Array.append_empty ..).symm
    settled := fun l hl _ => by
      rw [h, List.size_toArray, List.length_map] at hl
      refine .ready family[l.id] ?_ (List.getElem?_eq_getElem hl) List.not_mem_nil
      simp [World.lazyCell, show w.lazies = _ from h, hl] }
  led _ hj := absurd hj List.not_mem_nil
  reads earlier l a later h := by simp at h

/-- Who was called has a reading, so it leads to the same sequences for good. -/
theorem Ran.mem_ran_iff {calls : List (Lazy × Except Fault (Option Seq))}
    (h : Ran family w calls w' b) (hg : b.Grows b') (j : Lazy) :
    j ∈ b.ran ↔ ∃ c ∈ calls, Leads b'.ended c.1 j := by
  constructor
  · intro hj
    obtain ⟨c, hc, hl⟩ := h.led j hj
    exact ⟨c, hc, hl.mono hg.ended⟩
  · rintro ⟨⟨l, a⟩, hc, hl⟩
    obtain ⟨earlier, later, hsplit⟩ := List.append_of_mem hc
    obtain ⟨r, hr, -⟩ := h.reads earlier l a later hsplit
    exact Book.mem_ran_of_reads (hr.leads_restrict hg.ended b'.ended_unique hl).2

/-- One more call. -/
theorem Ran.next {calls : List (Lazy × Except Fault (Option Seq))} {w'' : World} {l : Lazy}
    {a : Except Fault (Option Seq)} (hf : Acyclic family) (hn : maxHops family + 2 ≤ n)
    (h : Ran family w calls w' b) (hl : l.id < w'.lazies.size)
    (ha : l.seq? n w' = Act.ended a w'') : ∃ b', Ran family w (calls ++ [(l, a)]) w'' b' := by
  obtain ⟨depth, rfl⟩ : ∃ depth, n = depth + 2 := ⟨n - 2, by omega⟩
  obtain ⟨a', w₁, b', r, hres, hidle, hgrows, hled, hr, hgives⟩ :=
    seqAt_answers depth hf h.idle hl (show maxHops family < depth + 2 by omega)
  have hseq : l.seq? (depth + 2) w' = Act.ended a' w₁ :=
    (Act.bind_of_ok (Act.budget_apply ..)).trans hres
  obtain ⟨rfl, rfl⟩ := Act.ended_inj (ha.symm.trans hseq)
  refine ⟨b', hidle, fun j hj => ?_, fun earlier m x later hsplit => ?_⟩
  · by_cases hold : j ∈ b.ran
    · obtain ⟨c, hc, hlead⟩ := (h.mem_ran_iff hgrows j).mp hold
      exact ⟨c, List.mem_append_left _ hc, hlead⟩
    · exact ⟨(l, a), List.mem_append_right _ (List.mem_singleton.mpr rfl), hled j hj hold⟩
  · rcases List.eq_nil_or_concat later with rfl | ⟨init, last, rfl⟩
    · -- the new call
      obtain ⟨rfl, hlast⟩ := List.append_inj' hsplit rfl
      cases hlast
      exact ⟨r, hr, hgives.congr (h.mem_ran_iff hgrows)⟩
    · have hcalls : calls = earlier ++ (m, x) :: init := by
        rw [List.concat_eq_append, ← List.cons_append, ← List.append_assoc] at hsplit
        exact (List.append_inj' hsplit rfl).1
      obtain ⟨r', hr', hg'⟩ := h.reads earlier m x init hcalls
      refine ⟨r', hr'.mono hgrows.ended, hg'.congr fun j => ⟨?_, ?_⟩⟩
      · rintro ⟨c, hc, hlead⟩
        exact ⟨c, hc, hlead.mono hgrows.ended⟩
      · rintro ⟨⟨k, y⟩, hc, hlead⟩
        obtain ⟨e₁, e₂, he⟩ := List.append_of_mem hc
        obtain ⟨r₀, hr₀, -⟩ := h.reads e₁ k y (e₂ ++ (m, x) :: init) (by rw [hcalls, he]; simp)
        exact ⟨_, hc, (hr₀.leads_restrict hgrows.ended b'.ended_unique hlead).1⟩

theorem Calls.ran {calls : List (Lazy × Except Fault (Option Seq))} (hf : Acyclic family)
    (hn : maxHops family + 2 ≤ n) (hw : Unasked family w) (h : Calls n w calls w') :
    ∃ b, Ran family w calls w' b := by
  induction h with
  | none => exact ⟨_, .start hf hw⟩
  | next _ hl ha ih =>
    obtain ⟨b, hb⟩ := ih
    exact hb.next hf hn hl ha

section

variable {ends : Endings} {calls earlier later : List (Lazy × Except Fault (Option Seq))}
  {l m : Lazy} {a a' : Except Fault (Option Seq)}

/-- A later call gives its reading after the earlier one. -/
theorem AllRead.later_read (h : AllRead ends calls) (hsplit : calls = earlier ++ (l, a) :: later)
    (hm : (m, a') ∈ later) : ∃ r before, Reads ends m r ∧ r.Gives before a' ∧
      ∀ j, Leads ends l j → before j := by
  obtain ⟨e₁, e₂, rfl⟩ := List.append_of_mem hm
  have hsplit' : calls = (earlier ++ (l, a) :: e₁) ++ (m, a') :: e₂ := by
    rw [hsplit, List.append_assoc, List.cons_append]
  obtain ⟨r, hr, hg⟩ := h _ m a' e₂ hsplit'
  have hmem : (l, a) ∈ earlier ++ (l, a) :: e₁ := List.mem_append_right _ (List.mem_cons_self ..)
  exact ⟨r, _, hr, hg, fun j hj => ⟨(l, a), hmem, hj⟩⟩

theorem AllRead.shared (h : AllRead ends calls) (hu : ends.Unique)
    (hsplit : calls = earlier ++ (l, a) :: later) (hret : ¬Unwound a) (hm : (m, a') ∈ later)
    (hlink : Leads ends l m ∨ Leads ends m l) : a' = a := by
  obtain ⟨r, hr, hg⟩ := h earlier l a later hsplit
  obtain ⟨r', before, hr', hg', hbefore⟩ := h.later_read hsplit hm
  have hsame : r' = r := by
    rcases hlink with hlink | hlink
    · exact hr'.unique hu (hlink.of_reads hu hr)
    · exact hr'.unique hu (hlink.reads hr)
  subst hsame
  cases hg with
  | returns r =>
    cases hg'
    rfl
  | @unwinds j text => exact absurd ⟨text, rfl⟩ hret
  | panicked =>
    cases hg' with
    | panicked => rfl
    | unwinds hnew => exact absurd (hbefore _ hr.leads.1) hnew

theorem AllRead.panicked {text : String} (h : AllRead ends calls) (hu : ends.Unique)
    (hsplit : calls = earlier ++ (l, .error (.panic text)) :: later) :
    ∃ j, Leads ends l j ∧ ends j (.error (.panic text)) ∧
      ∀ m a', (m, a') ∈ later → Leads ends m j → a' = .error (.error .producerPanicked) := by
  obtain ⟨r, hr, hg⟩ := h earlier l _ later hsplit
  obtain ⟨j, rfl⟩ : ∃ j, r = .panics j text := by
    generalize ha : Except.error (Fault.panic text) = a at hg
    cases hg with
    | returns r => cases r <;> cases ha
    | @unwinds j _ =>
      cases ha
      exact ⟨j, rfl⟩
    | panicked => cases ha
  obtain ⟨hlead, hj⟩ := hr.leads
  refine ⟨j, hlead, hj, fun m a' hm hmj => ?_⟩
  obtain ⟨r', before, hr', hg', hbefore⟩ := h.later_read hsplit hm
  have hsame : r' = .panics j text := hr'.unique hu (hmj.reads (.panic hj))
  subst hsame
  cases hg' with
  | panicked => rfl
  | unwinds hnew => exact absurd (hbefore j hlead) hnew

end

/-- What each call gives does not depend on what has run. -/
theorem Ran.allRead {calls : List (Lazy × Except Fault (Option Seq))}
    (h : Ran family w calls w' b) : AllRead b.ends calls := by
  have hle : ∀ l o, b.ended l o → b.ends l o := fun l o he => he.2
  intro earlier l a later hsplit
  obtain ⟨r, hr, hg⟩ := h.reads earlier l a later hsplit
  refine ⟨r, hr.mono hle, hg.congr fun j => ⟨?_, ?_⟩⟩
  · rintro ⟨c, hc, hlead⟩
    exact ⟨c, hc, hlead.mono hle⟩
  · rintro ⟨⟨k, y⟩, hc, hlead⟩
    obtain ⟨e₁, e₂, he⟩ := List.append_of_mem hc
    obtain ⟨r₀, hr₀, -⟩ := h.reads e₁ k y (e₂ ++ (l, a) :: later) (by rw [hsplit, he]; simp)
    exact ⟨_, hc, (hr₀.leads_restrict hle b.ends_unique hlead).1⟩

theorem Ran.refines {calls : List (Lazy × Except Fault (Option Seq))}
    (h : Ran family w calls w' b) : Refines family w calls w' b where
  begins := h.idle.book.begins
  size := h.idle.size
  once := h.idle.book.nodup
  produced := h.idle.produced
  reads := h.allRead
  shared _ _ _ _ hsplit hret _ _ hm hlink := h.allRead.shared b.ends_unique hsplit hret hm hlink
  panicked _ _ _ _ hsplit := h.allRead.panicked b.ends_unique hsplit

/-! ### Two runs -/

/-- Two sequences that were made in two runs with one producer. -/
def MadeAlike (family : List Producer) (b b' : Book) (m m' : Lazy) : Prop :=
  family.length ≤ m.id ∧ family.length ≤ m'.id ∧ b.started[m.id]? = b'.started[m'.id]?

/-- Two answers are the same, but for the numbers of sequences made in the two runs. -/
inductive Alike (family : List Producer) (b b' : Book) :
    Except Fault (Option Seq) → Except Fault (Option Seq) → Prop
  | same (a : Except Fault (Option Seq)) : Alike family b b' a a
  | made (x : Value) {m m' : Lazy} (h : MadeAlike family b b' m m') :
      Alike family b b' (.ok (some (.cons x (.lazy m)))) (.ok (some (.cons x (.lazy m'))))

/-- The ends of two runs of one producer. -/
inductive EndAlike (family : List Producer) (b b' : Book) :
    Except Fault Value → Except Fault Value → Prop
  | plain {o : Except Fault Value} (ho : ∀ m, o ≠ .ok (.lazy m)) : EndAlike family b b' o o
  | cell (x : Value) {m m' : Lazy} (h : MadeAlike family b b' m m') :
      EndAlike family b b' (.ok (.seq (.cons x (.lazy m)))) (.ok (.seq (.cons x (.lazy m'))))
  | inner {m m' : Lazy} (h : b.started[m.id]? = b'.started[m'.id]?) :
      EndAlike family b b' (.ok (.lazy m)) (.ok (.lazy m'))

theorem Producer.endAlike {l l' : Lazy} (hf : family <+: b.started) (hf' : family <+: b'.started) :
    ∀ {p : Producer}, (∀ m, p.mentioned? = some m → m.id < family.length) →
      (∀ q, p.makes? = some q → MadeAlike family b b' l l') →
      EndAlike family b b' (p.outcome l) (p.outcome l')
  | give (.lazy m), hm, _ => by
    have hq := List.getElem?_eq_getElem (hm m rfl)
    refine .inner ?_
    rw [Book.started_of_prefix hf hq, Book.started_of_prefix hf' hq]
  | log _ next, hm, hq => endAlike hf hf' (p := next) hm hq
  | cell first rest, _, hq => .cell first (hq rest rfl)
  | defer inner, _, hq => .inner (hq inner rfl).2.2
  | stream _ item i, _, hq => .cell (item i) (hq _ rfl)
  | fail _, _, _ | panic _, _, _ => .plain nofun
  | give .nil, _, _ | give (.bool _), _, _ | give (.int _), _, _ | give (.float _), _, _
  | give (.char _), _, _ | give (.str _), _, _ | give (.symbol _), _, _ | give (.keyword _), _, _
  | give (.list _), _, _ | give (.vector _), _, _ | give (.view _), _, _ | give (.map _), _, _
  | give (.seq _), _, _ | give (.var _), _, _ | give (.reduced ..), _, _
  | give (.handle _), _, _ => .plain nofun

/-- Two sequences that started with one producer end alike. -/
theorem Book.WellKept.endAlike (h : b.WellKept family) (h' : b'.WellKept family) {l l' : Lazy}
    {o o' : Except Fault Value} (hs : b.started[l.id]? = b'.started[l'.id]?) (he : b.ended l o)
    (he' : b'.ended l' o') : EndAlike family b b' o o' := by
  obtain ⟨hl, p, hp, rfl⟩ := he
  obtain ⟨hl', p', hp', rfl⟩ := he'
  cases Option.some.inj (hp.symm.trans (hs.trans hp'))
  refine Producer.endAlike h.begins h'.begins (h.fits p (List.mem_of_getElem? hp)).closed ?_
  intro q hq
  obtain ⟨hle, hm⟩ := h.made l hl p q hp hq
  obtain ⟨hle', hm'⟩ := h'.made l' hl' p q hp' hq
  exact ⟨hle, hle', hm.trans hm'.symm⟩

/-- Two sequences that started with one producer are read alike. -/
theorem Reads.alike (h : b.WellKept family) (h' : b'.WellKept family) {l : Lazy} {rd : Reading}
    (hr : Reads b.ended l rd) : ∀ {l' : Lazy} {rd' : Reading}, Reads b'.ended l' rd' →
      b.started[l.id]? = b'.started[l'.id]? →
      (∃ r r', rd = .returns r ∧ rd' = .returns r' ∧ Alike family b b' r.answer r'.answer) ∨
      ∃ j j' text, rd = .panics j text ∧ rd' = .panics j' text := by
  induction hr with
  | value he hv =>
    intro l' rd' hr' hs
    cases hr' with
    | value he' hv' =>
      refine .inl ⟨_, _, rfl, rfl, ?_⟩
      cases h.endAlike h' hs he he' with
      | plain => exact .same _
      | cell x hm => exact .made x hm
      | inner => exact absurd rfl (hv _)
    | error he' | panic he' => cases h.endAlike h' hs he he'
    | inner he' =>
      cases h.endAlike h' hs he he' with
      | plain ho => exact absurd rfl (ho _)
      | inner => exact absurd rfl (hv _)
  | error he =>
    intro l' rd' hr' hs
    cases hr' with
    | error he' =>
      cases h.endAlike h' hs he he'
      exact .inl ⟨_, _, rfl, rfl, .same _⟩
    | value he' | panic he' | inner he' => cases h.endAlike h' hs he he'
  | panic he =>
    intro l' rd' hr' hs
    cases hr' with
    | panic he' =>
      cases h.endAlike h' hs he he'
      exact .inr ⟨_, _, _, rfl, rfl⟩
    | value he' | error he' | inner he' => cases h.endAlike h' hs he he'
  | inner he _ ih =>
    intro l' rd' hr' hs
    cases hr' with
    | inner he' hm' =>
      cases h.endAlike h' hs he he' with
      | plain ho => exact absurd rfl (ho _)
      | inner hs' => exact ih hm' hs'
    | value he' hv' =>
      cases h.endAlike h' hs he he' with
      | plain ho => exact absurd rfl (ho _)
      | inner => exact absurd rfl (hv' _)
    | error he' | panic he' => cases h.endAlike h' hs he he'

/-! ### All runs -/

theorem AllRead.of_mem {ends : Endings} {calls : List (Lazy × Except Fault (Option Seq))} {l : Lazy}
    {a : Except Fault (Option Seq)} (h : AllRead ends calls) (hm : (l, a) ∈ calls) :
    ∃ r before, Reads ends l r ∧ r.Gives before a := by
  obtain ⟨earlier, later, hsplit⟩ := List.append_of_mem hm
  obtain ⟨r, hr, hg⟩ := h earlier l a later hsplit
  exact ⟨r, _, hr, hg⟩

/-- When no producer panics, two runs give a member of the family answers that are alike. -/
theorem Ran.alike {w₁ w₁' : World} {calls calls' : List (Lazy × Except Fault (Option Seq))}
    (h : Ran family w calls w' b) (h' : Ran family w₁ calls' w₁' b')
    (hcalm : ∀ j text, ¬b.ends j (.error (.panic text))) {l : Lazy} {a a' : Except Fault (Option Seq)}
    (hl : l.id < family.length) (ha : (l, a) ∈ calls) (ha' : (l, a') ∈ calls') :
    Alike family b b' a a' := by
  obtain ⟨r, before, hr, hg⟩ := h.reads.of_mem ha
  obtain ⟨r', before', hr', hg'⟩ := h'.reads.of_mem ha'
  have hp := List.getElem?_eq_getElem hl
  have hs : b.started[l.id]? = b'.started[l.id]? := by
    rw [Book.started_of_prefix h.idle.book.begins hp,
      Book.started_of_prefix h'.idle.book.begins hp]
  rcases hr.alike h.idle.book h'.idle.book hr' hs with ⟨r, r', rfl, rfl, hsame⟩ | ⟨j, j', t, rfl, rfl⟩
  · cases hg
    cases hg'
    exact hsame
  · exact absurd hr.leads.2.2 (hcalm j t)

/-- Realization with delegation refines the naive reading. Whatever an acyclic family of lazy sequences
is and in whatever order its members, and the sequences made on the way, are asked for, given enough
budget each producer is run once at most and each call gives the naive reading (`Refines`). When no
producer panics, two runs in different orders give a member the same answer, but for the numbers of the
sequences that were made on the way. -/
theorem realization_refines_naive (hf : Acyclic family) :
    ∃ N, ∀ n, N ≤ n → ∀ w calls w', Unasked family w → Calls n w calls w' →
      ∃ b, Refines family w calls w' b ∧
        ∀ n₁, N ≤ n₁ → ∀ w₁ calls₁ w₁', Unasked family w₁ → Calls n₁ w₁ calls₁ w₁' →
          ∃ b₁, Refines family w₁ calls₁ w₁' b₁ ∧
            ((∀ j text, ¬b.ends j (.error (.panic text))) →
              ∀ l a a₁, l.id < family.length → (l, a) ∈ calls → (l, a₁) ∈ calls₁ →
                Alike family b b₁ a a₁) := by
  refine ⟨maxHops family + 2, fun n hn w calls w' hw hc => ?_⟩
  obtain ⟨b, hb⟩ := hc.ran hf hn hw
  refine ⟨b, hb.refines, fun n₁ hn₁ w₁ calls₁ w₁' hw₁ hc₁ => ?_⟩
  obtain ⟨b₁, hb₁⟩ := hc₁.ran hf hn₁ hw₁
  exact ⟨b₁, hb₁.refines, fun hcalm l a a₁ hl ha ha₁ => hb.alike hb₁ hcalm hl ha ha₁⟩

/-- Two sequences share a third one: its producer runs once and all three give its outcome. -/
theorem realization_refines_naive_shared :
    let family : List Producer :=
      [.log "inner" (.give .nil), .give (.lazy ⟨0⟩), .give (.lazy ⟨0⟩)]
    ∃ n w w' b, Calls n w [(⟨1⟩, .ok none), (⟨2⟩, .ok none), (⟨0⟩, .ok none)] w' ∧
      Refines family w [(⟨1⟩, .ok none), (⟨2⟩, .ok none), (⟨0⟩, .ok none)] w' b ∧
      w'.produced = #["inner"] := by
  intro family
  have hless : ∀ m l, Relation.TransGen (Returns family) m l → m.id < l.id := by
    intro m l h
    have hone : ∀ m l, Returns family m l → m.id < l.id := by
      rintro m ⟨_ | _ | _ | i⟩ ⟨p, hp, hm⟩ <;> cases hp <;> cases hm <;> decide
    induction h with
    | single h => exact hone _ _ h
    | tail _ h ih => exact Nat.lt_trans ih (hone _ _ h)
  have hf : Acyclic family := by
    refine ⟨?_, fun l h => Nat.lt_irrefl _ (hless l l h)⟩
    intro p hp m hm
    rcases List.mem_cons.mp hp with rfl | hp
    · cases hm
    · rcases List.mem_cons.mp hp with rfl | hp
      · cases hm
        decide
      · rw [List.mem_singleton.mp hp] at hm
        cases hm
        decide
  obtain ⟨N, hN⟩ := realization_refines_naive hf
  let told : LazyCell := ⟨.running, some (.ok none)⟩
  let w : World := { lazies := (family.map fun p => ⟨.ready p, none⟩).toArray }
  let w₁ : World :=
    { lazies := #[⟨.delegated ⟨1⟩, none⟩, told, ⟨.ready (.give (.lazy ⟨0⟩)), none⟩]
      produced := #["inner"] }
  let w₂ : World := { w₁ with lazies := #[⟨.delegated ⟨1⟩, none⟩, told, told] }
  let w₃ : World := { w₁ with lazies := #[told, told, told] }
  have h₁ : Calls (N + 5) w [(⟨1⟩, .ok none)] w₁ := Calls.none.next (by decide) rfl
  have h₂ : Calls (N + 5) w [(⟨1⟩, .ok none), (⟨2⟩, .ok none)] w₂ := h₁.next (by decide) rfl
  have h₃ : Calls (N + 5) w [(⟨1⟩, .ok none), (⟨2⟩, .ok none), (⟨0⟩, .ok none)] w₃ :=
    h₂.next (by decide) rfl
  obtain ⟨b, hb, -⟩ := hN (N + 5) (Nat.le_add_right ..) w _ _ rfl h₃
  exact ⟨N + 5, w, w₃, b, h₃, hb, rfl⟩

end LispCore
