import LispCore.Proofs.Lazy.Family
/-!
How the cells of lazy sequences agree with a book of what was run. Outside a realization each cell is
ready, keeps what the naive reading tells, was left behind by a panic, or is delegated to a sequence
that leads to it and that has been taken (`Settled`). `Tracks` says so of all sequences but those that
are open at the moment; changing one cell opens it, and it is closed when it is settled again.
-/

namespace LispCore

/-! ### Answers -/

/-- The answer of a call that an outcome is kept for. -/
def Realized.answer : Realized → Except Fault (Option Seq)
  | .ok s => .ok s
  | .error e => .error (.error e)

theorem Realized.answer_ne_exhausted : ∀ r : Realized, r.answer ≠ .error .exhausted
  | .ok _ | .error _ => nofun

theorem Realized.answer_inj {r r' : Realized} (h : r.answer = r'.answer) : r = r' := by
  cases r <;> cases r' <;> cases h <;> rfl

theorem Act.ofExcept_apply (r : Realized) (n : Nat) (w : World) :
    Act.ofExcept r n w = Act.ended r.answer w := by
  cases r <;> rfl

/-- The answer of a call for a reading, when the producers of these sequences ran before the call: the
panic of a producer unwinds the call that runs it and is an error from then on. -/
inductive Reading.Gives (before : Lazy → Prop) : Reading → Except Fault (Option Seq) → Prop
  | returns (r : Realized) : Gives before (.returns r) r.answer
  | unwinds {j : Lazy} {text : String} (h : ¬before j) :
      Gives before (.panics j text) (.error (.panic text))
  | panicked {j : Lazy} {text : String} (h : before j) :
      Gives before (.panics j text) (.error (.error .producerPanicked))

/-- An outcome that may be kept for a sequence. -/
inductive Tells (b : Book) (l : Lazy) : Realized → Prop
  | reading {r : Realized} (h : Reads b.ended l (.returns r)) : Tells b l r
  | panicked {j : Lazy} {text : String} (h : Reads b.ended l (.panics j text)) :
      Tells b l (.error .producerPanicked)

section

variable {b b' : Book} {w w' : World} {l m : Lazy} {r : Realized}

theorem Tells.grows (h : Tells b l r) (hg : b.Grows b') : Tells b' l r := by
  cases h with
  | reading h => exact .reading (h.mono hg.ended)
  | panicked h => exact .panicked (h.mono hg.ended)

theorem Tells.leads (h : Tells b l r) (hl : Leads b.ended l m) : Tells b m r := by
  cases h with
  | reading h => exact .reading (hl.of_reads b.ended_unique h)
  | panicked h => exact .panicked (hl.of_reads b.ended_unique h)

/-! ### Settled sequences -/

/-- A sequence that is not being realized. -/
inductive Settled (b : Book) (w : World) (l : Lazy) : Prop
  /-- Its producer has not run. -/
  | ready (p : Producer) (hc : w.lazyCell l = ⟨.ready p, none⟩) (hp : b.started[l.id]? = some p)
      (hl : l ∉ b.ran)
  /-- Its outcome is kept. -/
  | told (r : Realized) (hc : w.lazyCell l = ⟨.running, some r⟩) (h : Tells b l r)
  /-- Its realization was unwound. -/
  | unwound (j : Lazy) (text : String) (hc : w.lazyCell l = ⟨.running, none⟩)
      (h : Reads b.ended l (.panics j text))
  /-- Its producer ran for another sequence. -/
  | delegated (o : Lazy) (hc : w.lazyCell l = ⟨.delegated o, none⟩) (ho : o.id < w.lazies.size)
      (hs : (w.lazyCell o).slot = .running) (h : Leads b.ended o l)

/-- A sequence stays settled while its cell stays, more is run, and those that were taken stay
taken. -/
theorem Settled.frame (h : Settled b w l) (hg : b.Grows b')
    (hready : ∀ p, w.lazyCell l = ⟨.ready p, none⟩ → l ∉ b.ran → l ∉ b'.ran)
    (hc : w'.lazyCell l = w.lazyCell l) (hsize : w.lazies.size ≤ w'.lazies.size)
    (hrun : ∀ m : Lazy, m.id < w.lazies.size → (w.lazyCell m).slot = .running →
      (w'.lazyCell m).slot = .running) : Settled b' w' l := by
  cases h with
  | ready p hp hs hl =>
    exact .ready p (hc.trans hp) (Book.started_of_prefix hg.started hs) (hready p hp hl)
  | told r hr h => exact .told r (hc.trans hr) (h.grows hg)
  | unwound j text hr h => exact .unwound j text (hc.trans hr) (h.mono hg.ended)
  | delegated o hr ho hs h =>
    exact .delegated o (hc.trans hr) (Nat.lt_of_lt_of_le ho hsize) (hrun o ho hs) (h.mono hg.ended)

end

/-! ### The world and the book -/

/-- The book is that of a family, the world has its sequences and the lines of its runs, and all
sequences are settled but those that are open. -/
structure Tracks (family : List Producer) (before : Array String) (b : Book)
    (opened : Lazy → Prop) (w : World) : Prop where
  book : b.WellKept family
  size : w.lazies.size = b.started.length
  produced : w.produced = before ++ b.lines.toArray
  settled : ∀ l : Lazy, l.id < w.lazies.size → ¬opened l → Settled b w l

namespace Tracks

variable {family : List Producer} {before : Array String} {b : Book} {opened opened' : Lazy → Prop}
  {w w' : World} {l : Lazy} {p : Producer}

/-- Changing one cell opens it. -/
theorem touch (h : Tracks family before b opened w) (l : Lazy)
    (hsize : w'.lazies.size = w.lazies.size) (hproduced : w'.produced = w.produced)
    (hcell : ∀ m, m ≠ l → w'.lazyCell m = w.lazyCell m)
    (hrun : (w.lazyCell l).slot = .running → (w'.lazyCell l).slot = .running) :
    Tracks family before b (fun m => opened m ∨ m = l) w' where
  book := h.book
  size := hsize.trans h.size
  produced := hproduced.trans h.produced
  settled m hm hn := by
    obtain ⟨hopen, hne⟩ := not_or.mp hn
    refine (h.settled m (hsize ▸ hm) hopen).frame (.refl b) (fun _ _ hr => hr) (hcell m hne)
      (Nat.le_of_eq hsize.symm) fun k _ hk => ?_
    by_cases hkl : k = l
    · subst hkl
      exact hrun hk
    · rw [hcell k hkl]
      exact hk

/-- A sequence that is settled need not be open. -/
theorem close (h : Tracks family before b opened w) (hl : Settled b w l)
    (ho : ∀ m, opened m → opened' m ∨ m = l) : Tracks family before b opened' w where
  book := h.book
  size := h.size
  produced := h.produced
  settled m hm hn := by
    by_cases hml : m = l
    · subst hml
      exact hl
    · exact h.settled m hm fun hopen => (ho m hopen).elim hn hml

theorem mono (h : Tracks family before b opened w) (ho : ∀ m, opened m → opened' m) :
    Tracks family before b opened' w where
  book := h.book
  size := h.size
  produced := h.produced
  settled m hm hn := h.settled m hm fun hopen => hn (ho m hopen)

/-- The outcome of a taken sequence is kept. -/
theorem kept (h : Tracks family before b opened w) {r : Realized} (hl : l.id < w.lazies.size)
    (hs : (w.lazyCell l).slot = .running) (ht : Tells b l r)
    (ho : ∀ m, opened m → opened' m ∨ m = l) : Tracks family before b opened' (w.kept l r) := by
  have hc : (w.kept l r).lazyCell l = ⟨.running, some r⟩ := by
    rw [World.lazyCell_kept_self r hl, hs]
  have hk : Tracks family before b (fun m => opened m ∨ m = l) (w.kept l r) :=
    h.touch l (w.size_kept l r) rfl (fun m hm => World.lazyCell_kept_of_ne r hm) fun _ => by rw [hc]
  exact hk.close (.told r hc ht) fun m hm => hm.elim (ho m) .inr

/-- A sequence that nobody has taken is taken. -/
theorem slotted (h : Tracks family before b opened w) (l : Lazy) (slot : Slot)
    (hs : (w.lazyCell l).slot ≠ .running) :
    Tracks family before b (fun m => opened m ∨ m = l) (w.slotted l slot) :=
  h.touch l (w.size_slotted l slot) rfl (fun _ hm => World.lazyCell_slotted_of_ne slot hm)
    fun hr => absurd hr hs

/-- The producer of a sequence that has been taken is run. -/
theorem produce (h : Tracks family before b opened w) (hp : b.started[l.id]? = some p)
    (hl : l ∉ b.ran) (hs : opened l ∨ ∀ q, (w.lazyCell l).slot ≠ .ready q) :
    Tracks family before (b.run l p) opened (w.produce p) where
  book := h.book.run hl hp
  size := by rw [World.size_produce, Book.run, List.length_append, h.size]
  produced := by
    show w.produced ++ p.lines.toArray = _
    rw [h.book.lines_run hp, h.produced, Array.append_assoc]
    exact congrArg (before ++ ·) (List.append_toArray ..)
  settled m hm hn := by
    by_cases hlt : m.id < w.lazies.size
    · refine (h.settled m hlt hn).frame (Book.grows_run hl) ?_ (World.lazyCell_produce p hlt) ?_ ?_
      · intro q hq hm hmem
        rcases List.mem_cons.mp hmem with rfl | hmem
        · exact hs.elim hn fun hs => hs q (by rw [hq])
        · exact hm hmem
      · rw [World.size_produce]
        exact Nat.le_add_right ..
      · intro k hk hr
        rw [World.lazyCell_produce p hk]
        exact hr
    · -- the sequence that the run made
      rw [World.size_produce] at hm
      cases hq : p.makes? with
      | none =>
        rw [hq] at hm
        exact absurd hm hlt
      | some q =>
        rw [hq] at hm
        have hid : m.id = w.lazies.size :=
          Nat.le_antisymm (Nat.le_of_lt_succ hm) (Nat.le_of_not_lt hlt)
        have hmade : m = w.nextLazy := by
          cases m
          exact congrArg Lazy.mk hid
        refine .ready q ?_ ?_ fun hmem => ?_
        · rw [hmade]
          exact World.lazyCell_produce_made hq
        · rw [hid, h.size, Book.run, hq]
          simp
        · have hran : m.id < b.started.length := by
            rcases List.mem_cons.mp hmem with rfl | hmem
            · exact (List.getElem?_eq_some_iff.mp hp).1
            · exact h.book.ran_lt m hmem
          exact hlt (h.size ▸ hran)

end Tracks

end LispCore
