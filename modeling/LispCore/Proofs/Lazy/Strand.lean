import LispCore.Proofs.Lazy.Delegation
/-!
Lazy sequences that come cell by cell. In a strand the producer of a cell returns an element in front
of the unrealized lazy sequence of the next cell, and the producer of the last cell, if there is one,
returns nil. `Progress` says of a world that the cells up to some number have been realized and no
other has, and that the log has the lines of each of their runs once. Asking the next cell for its
sequence realizes that cell and no other (`Progress.ask`).
-/

namespace LispCore

/-! ### One run -/

namespace World

/-- The world in which the producer of a lazy sequence has run and this is kept as the outcome. -/
def realizing (w : World) (l : Lazy) (p : Producer) (r : Realized) : World :=
  ((w.slotted l .running).produce p).kept l r

variable {w : World} {l m : Lazy} {p q : Producer} {r : Realized}

theorem lazyCell_realizing_self (hl : l.id < w.lazies.size) :
    (w.realizing l p r).lazyCell l = ⟨.running, some r⟩ := by
  have hs : l.id < (w.slotted l .running).lazies.size := by rwa [size_slotted]
  have hp : l.id < ((w.slotted l .running).produce p).lazies.size := by
    rw [size_produce]
    omega
  rw [realizing, lazyCell_kept_self r hp, lazyCell_produce p hs, lazyCell_slotted_self _ hl]

theorem lazyCell_realizing_of_ne (hm : m.id < w.lazies.size) (hne : m ≠ l) :
    (w.realizing l p r).lazyCell m = w.lazyCell m := by
  have hs : m.id < (w.slotted l .running).lazies.size := by rwa [size_slotted]
  rw [realizing, lazyCell_kept_of_ne r hne, lazyCell_produce p hs, lazyCell_slotted_of_ne _ hne]

theorem nextLazy_slotted (w : World) (l : Lazy) (slot : Slot) :
    (w.slotted l slot).nextLazy = w.nextLazy := congrArg Lazy.mk (size_slotted ..)

theorem ne_nextLazy (hl : l.id < w.lazies.size) : l ≠ w.nextLazy :=
  fun h => Nat.ne_of_lt hl (congrArg Lazy.id h)

theorem lazyCell_realizing_made (hl : l.id < w.lazies.size) (hq : p.makes? = some q) :
    (w.realizing l p r).lazyCell w.nextLazy = ⟨.ready q, none⟩ := by
  rw [realizing, lazyCell_kept_of_ne r (ne_nextLazy hl).symm, ← nextLazy_slotted w l .running]
  exact lazyCell_produce_made hq

theorem produced_realizing (w : World) (l : Lazy) (p : Producer) (r : Realized) :
    (w.realizing l p r).produced = w.produced ++ p.lines.toArray := rfl

end World

/-- A sequence whose producer returns a value that holds its elements itself is realized by one run of
that producer. -/
theorem Lazy.seq?_ready {l : Lazy} {w : World} {p : Producer} {v : Value} {s : Option Seq} {n : Nat}
    (hn : 0 < n) (hc : w.lazyCell l = ⟨.ready p, none⟩) (ho : p.outcome w.nextLazy = .ok v)
    (hv : ∀ m, v ≠ .lazy m) (hs : v.directSeq = .ok s) :
    l.seq? n w = .ok s (w.realizing l p (.ok s)) := by
  obtain ⟨d, rfl⟩ : ∃ d, n = d + 1 := ⟨n - 1, by omega⟩
  have hrun : p.run (d + 1) (w.slotted l .running) =
      .ok v ((w.slotted l .running).produce p) := by
    rw [Producer.run_eq, World.nextLazy_slotted, ho]
    rfl
  have hchase : realize (seqAt d) l (d + 1) w =
      Act.ended (Realized.answer (.ok s)) ((w.slotted l .running).produce p) := by
    rw [realize_ready (by rw [hc]), Act.bind_of_ok hrun, chase_direct hv, hs]
  exact (Act.bind_of_ok (Act.budget_apply ..)).trans (seqAt_keeps (by rw [hc]) hchase)

/-- Whoever asks again gets what is kept. -/
theorem Lazy.seq?_told {l : Lazy} {w : World} {s : Option Seq} {n : Nat} (hn : 0 < n)
    (h : (w.lazyCell l).realized = some (.ok s)) : l.seq? n w = .ok s w := by
  obtain ⟨d, rfl⟩ : ∃ d, n = d + 1 := ⟨n - 1, by omega⟩
  exact (Act.bind_of_ok (Act.budget_apply ..)).trans (seqAt_told h)

/-! ### Strands -/

/-- A lazy sequence that comes cell by cell; without a last cell it is unbounded. -/
structure Strand where
  /-- What the cells do when they are realized. -/
  producer : Nat → Producer
  /-- The elements, one for each cell but the last. -/
  item : Nat → Value
  last? : Option Nat
  /-- The cells that are there before any is realized. The others are made by the run for the cell
  before them. -/
  there : Nat → Option Lazy
  head : Lazy
  there_zero : there 0 = some head
  apart : ∀ {i j l}, there i = some l → there j = some l → i = j
  returns_cons : ∀ {i}, (∀ e ∈ last?, i < e) → ∀ made, (producer i).outcome made =
    .ok (.seq (.cons (item i) (.lazy ((there (i + 1)).getD made))))
  makes : ∀ {i}, (∀ e ∈ last?, i < e) → there (i + 1) = none →
    (producer i).makes? = some (producer (i + 1))
  returns_nil : ∀ {i}, last? = some i → ∀ made, (producer i).outcome made = .ok .nil
  /-- Tells the lines that these producers write from other lines of the log. -/
  own : String → Bool
  owned : ∀ {i line}, line ∈ (producer i).lines → own line = true

/-- The cells that have been found: those before `asked` have been realized, and the one behind them is
known as well. -/
structure Trail where
  id : Nat → Lazy
  asked : Nat

/-- A trail goes on from another one. -/
def Trail.Grows (t t' : Trail) : Prop := t.asked ≤ t'.asked ∧ ∀ i ≤ t.asked, t'.id i = t.id i

theorem Trail.Grows.refl (t : Trail) : t.Grows t := ⟨Nat.le_refl _, fun _ _ => rfl⟩

theorem Trail.Grows.trans {t t' t'' : Trail} (h : t.Grows t') (h' : t'.Grows t'') : t.Grows t'' :=
  ⟨h.1.trans h'.1, fun i hi => (h'.2 i (hi.trans h.1)).trans (h.2 i hi)⟩

namespace Strand

variable (S : Strand)

def Within (i : Nat) : Prop := ∀ e ∈ S.last?, i ≤ e

/-- The sequence has this cell and an element there. -/
def Inner (i : Nat) : Prop := ∀ e ∈ S.last?, i < e

instance (i : Nat) : Decidable (S.Within i) := inferInstanceAs (Decidable (∀ e ∈ S.last?, i ≤ e))

instance (i : Nat) : Decidable (S.Inner i) := inferInstanceAs (Decidable (∀ e ∈ S.last?, i < e))

/-- The lines of the log that tell of runs. -/
def watched (w : World) : List String := w.produced.toList.filter S.own

/-- The lines of one run for each of the cells from `a` to before `b`. -/
def lines (a b : Nat) : List String :=
  (List.range' a (b - a)).flatMap fun i => if S.Within i then (S.producer i).lines else []

/-- A cell that is there: realized, next to be realized, or there from the start. -/
def Known (t : Trail) (i : Nat) : Prop := S.Within i ∧ (i ≤ t.asked ∨ (S.there i).isSome)

/-- What a cell is realized to. -/
def result (t : Trail) (i : Nat) : Option Seq :=
  if S.Inner i then some (.cons (S.item i) (.lazy (t.id (i + 1)))) else none

def Unrealized (w : World) : Prop :=
  ∀ {i l}, S.Within i → S.there i = some l → w.lazyCell l = ⟨.ready (S.producer i), none⟩

/-- The cells of the trail that lie before `asked` have been realized, one run each since the log had
these lines, and those from there on have not. -/
structure Progress (t : Trail) (before : List String) (w : World) : Prop where
  placed : ∀ {i l}, S.there i = some l → t.id i = l
  apart : ∀ {i j}, S.Known t i → S.Known t j → t.id i = t.id j → i = j
  ran : ∀ {i}, i < t.asked → S.Within i →
    w.lazyCell (t.id i) = ⟨.running, some (.ok (S.result t i))⟩
  waiting : ∀ {i}, t.asked ≤ i → S.Known t i →
    w.lazyCell (t.id i) = ⟨.ready (S.producer i), none⟩
  log : S.watched w = before ++ S.lines 0 t.asked

variable {S} {t t' : Trail} {before : List String} {w w' : World} {i j a b c n : Nat}

theorem within_zero : S.Within 0 := fun _ _ => Nat.zero_le _

theorem within_succ : S.Within (i + 1) ↔ S.Inner i := Iff.rfl

theorem last_of_not_inner (hw : S.Within i) (h : ¬S.Inner i) : S.last? = some i := by
  cases hl : S.last? with
  | none => exact absurd (fun e he => by rw [hl] at he; cases he) h
  | some e =>
    have hie : i ≤ e := hw e hl
    have hei : ¬i < e := fun hlt => h fun e' he' => by
      rw [hl] at he'
      cases he'
      exact hlt
    exact congrArg some (by omega)

theorem not_within_of_lt (h : ¬S.Inner i) (hij : i < j) : ¬S.Within j :=
  fun hj => h fun e he => Nat.lt_of_lt_of_le hij (hj e he)

theorem lines_append (hab : a ≤ b) (hbc : b ≤ c) : S.lines a b ++ S.lines b c = S.lines a c := by
  rw [lines, lines, ← List.flatMap_append]
  have hr : List.range' a (b - a) ++ List.range' b (c - b) = List.range' a (c - a) := by
    have h := @List.range'_append_1 a (b - a) (c - b)
    rwa [show a + (b - a) = b by omega, show b - a + (c - b) = c - a by omega] at h
  rw [hr, lines]

theorem lines_succ (hw : S.Within i) : S.lines i (i + 1) = (S.producer i).lines := by
  simp [lines, hw]

/-- Behind the last cell nothing is run. -/
theorem lines_past (h : ∀ i, a ≤ i → ¬S.Within i) : S.lines a b = [] := by
  rw [lines, List.flatMap_eq_nil_iff]
  intro i hi
  rw [if_neg (h i (List.mem_range'_1.mp hi).1)]

theorem watched_realizing (l : Lazy) (r : Realized) :
    S.watched (w.realizing l (S.producer i) r) = S.watched w ++ (S.producer i).lines := by
  rw [watched, World.produced_realizing, Array.toList_append, List.filter_append]
  exact congrArg (S.watched w ++ ·) (List.filter_eq_self.mpr fun _ => S.owned)

/-! ### From cell to cell -/

variable (S) in
/-- The trail when nothing has been realized. -/
def origin : Trail := ⟨fun i => (S.there i).getD S.head, 0⟩

theorem id_origin {l : Lazy} (h : S.there i = some l) : S.origin.id i = l := by
  show (S.there i).getD S.head = l
  rw [h, Option.getD_some]

namespace Progress

theorem start (h : S.Unrealized w) : S.Progress S.origin (S.watched w) w := by
  have hsome {i : Nat} (hi : S.Known S.origin i) : ∃ l, S.there i = some l := by
    obtain hi | hi := hi.2
    · cases Nat.le_zero.mp hi
      exact ⟨_, S.there_zero⟩
    · exact Option.isSome_iff_exists.mp hi
  refine ⟨id_origin, fun {i j} hi hj hij => ?_, fun hi => absurd hi (Nat.not_lt_zero _),
    fun {i} _ hi => ?_, by simp [lines, origin]⟩
  · obtain ⟨l, hl⟩ := hsome hi
    obtain ⟨m, hm⟩ := hsome hj
    rw [id_origin hl, id_origin hm] at hij
    exact S.apart hl (hij ▸ hm)
  · obtain ⟨l, hl⟩ := hsome hi
    rw [id_origin hl]
    exact h hi.1 hl

/-- Cells that are there have been made. -/
theorem lt_size (h : S.Progress t before w) (hi : S.Known t i) : (t.id i).id < w.lazies.size := by
  rcases Nat.lt_or_ge i t.asked with hlt | hge
  · exact World.lt_of_realized (by rw [h.ran hlt hi.1])
  · exact World.lt_of_slot_ne_running (by rw [h.waiting hge hi]; nofun)

/-- Once the last cell has been realized there is nothing to ask for. -/
theorem past (h : S.Progress t before w) (ho : ∀ i, t.asked ≤ i → ¬S.Within i) (hb : t.asked ≤ b) :
    S.Progress { t with asked := b } before w where
  placed := h.placed
  apart {i j} hi hj hij := by
    have hk {i : Nat} (hi : S.Known { t with asked := b } i) : S.Known t i :=
      ⟨hi.1, .inl (Nat.le_of_not_le fun hle => ho i hle hi.1)⟩
    exact h.apart (hk hi) (hk hj) hij
  ran {i} _ hw := h.ran (Nat.lt_of_not_le fun hle => ho i hle hw) hw
  waiting {i} hi hk := absurd hk.1 (ho i (hb.trans hi))
  log := by
    show S.watched w = before ++ S.lines 0 b
    rw [← lines_append (Nat.zero_le _) hb, lines_past ho, List.append_nil, h.log]

end Progress

variable (S) in
/-- The trail once the next cell has been realized in this world. -/
def advanced (t : Trail) (w : World) : Trail :=
  ⟨Function.update t.id (t.asked + 1) ((S.there (t.asked + 1)).getD w.nextLazy), t.asked + 1⟩

theorem id_advanced_self (t : Trail) (w : World) :
    (S.advanced t w).id (t.asked + 1) = (S.there (t.asked + 1)).getD w.nextLazy :=
  Function.update_self ..

theorem id_advanced_of_ne (h : i ≠ t.asked + 1) : (S.advanced t w).id i = t.id i :=
  Function.update_of_ne h ..

theorem grows_advanced (t : Trail) (w : World) : t.Grows (S.advanced t w) :=
  ⟨Nat.le_succ _, fun _ hi => id_advanced_of_ne (by omega)⟩

/-- What is known next was known before or has just been made. -/
theorem Known.of_advanced (h : S.Known (S.advanced t w) i) :
    S.Known t i ∨ i = t.asked + 1 ∧ S.there i = none := by
  by_cases ht : (S.there i).isSome
  · exact .inl ⟨h.1, .inr ht⟩
  · have hi : i ≤ t.asked + 1 := h.2.resolve_right ht
    rcases Nat.lt_or_eq_of_le hi with hlt | heq
    · exact .inl ⟨h.1, .inl (Nat.le_of_lt_succ hlt)⟩
    · exact .inr ⟨heq, Option.not_isSome_iff_eq_none.mp ht⟩

namespace Progress

/-- What was known keeps its number. -/
theorem id_advanced (h : S.Progress t before w) (hi : S.Known t i) :
    (S.advanced t w).id i = t.id i := by
  by_cases heq : i = t.asked + 1
  · have ht : (S.there i).isSome := hi.2.resolve_left (by omega)
    obtain ⟨l, hl⟩ := Option.isSome_iff_exists.mp ht
    subst heq
    rw [id_advanced_self, hl, h.placed hl, Option.getD_some]
  · exact id_advanced_of_ne heq

theorem result_advanced (hi : i < t.asked) :
    S.result (S.advanced t w) i = S.result t i := by
  rw [result, result, id_advanced_of_ne (by omega)]

/-- What the producer of the next cell returns. -/
theorem outcome_asked (hw : S.Within t.asked) :
    ∃ v, (S.producer t.asked).outcome w.nextLazy = .ok v ∧ (∀ m, v ≠ .lazy m) ∧
      v.directSeq = .ok (S.result (S.advanced t w) t.asked) := by
  by_cases hin : S.Inner t.asked
  · refine ⟨_, S.returns_cons hin _, nofun, ?_⟩
    rw [result, if_pos hin, id_advanced_self]
    rfl
  · refine ⟨.nil, S.returns_nil (last_of_not_inner hw hin) _, nofun, ?_⟩
    rw [result, if_neg hin]
    rfl

/-- Asking the next cell realizes it and no other. -/
theorem ask_next (h : S.Progress t before w) (hw : S.Within t.asked) (hn : 0 < n) :
    ∃ w', (t.id t.asked).seq? n w = .ok (S.result (S.advanced t w) t.asked) w' ∧
      S.Progress (S.advanced t w) before w' := by
  have hknown : S.Known t t.asked := ⟨hw, .inl (Nat.le_refl _)⟩
  have hlt : (t.id t.asked).id < w.lazies.size := h.lt_size hknown
  obtain ⟨v, ho, hv, hs⟩ := outcome_asked (w := w) hw
  refine ⟨_, Lazy.seq?_ready hn (h.waiting (Nat.le_refl _) hknown) ho hv hs, ?_⟩
  have hother {i : Nat} (hi : S.Known t i) (hne : i ≠ t.asked) :
      (w.realizing (t.id t.asked) (S.producer t.asked)
        (.ok (S.result (S.advanced t w) t.asked))).lazyCell (t.id i) = w.lazyCell (t.id i) :=
    World.lazyCell_realizing_of_ne (h.lt_size hi) fun heq => hne (h.apart hi hknown heq)
  -- a cell made by this run has the next number, which no known cell has
  have hmade {i : Nat} (hi : i = t.asked + 1) (ht : S.there i = none) :
      (S.advanced t w).id i = w.nextLazy := by
    rw [hi, id_advanced_self, ← hi, ht, Option.getD_none]
  refine ⟨fun {i l} hl => ?_, fun {i j} hi hj hij => ?_, fun {i} hi hwi => ?_, fun {i} hi hk => ?_, ?_⟩
  · by_cases heq : i = t.asked + 1
    · rw [heq, id_advanced_self, ← heq, hl, Option.getD_some]
    · rw [id_advanced_of_ne heq, h.placed hl]
  · rcases hi.of_advanced with hi | ⟨hi, hi'⟩ <;> rcases hj.of_advanced with hj | ⟨hj, hj'⟩
    · rw [h.id_advanced hi, h.id_advanced hj] at hij
      exact h.apart hi hj hij
    · rw [h.id_advanced hi, hmade hj hj'] at hij
      exact absurd hij (World.ne_nextLazy (h.lt_size hi))
    · rw [h.id_advanced hj, hmade hi hi'] at hij
      exact absurd hij.symm (World.ne_nextLazy (h.lt_size hj))
    · exact hi.trans hj.symm
  · have hk : S.Known t i := ⟨hwi, .inl (Nat.le_of_lt_succ hi)⟩
    rw [h.id_advanced hk]
    rcases Nat.lt_or_eq_of_le (Nat.le_of_lt_succ hi) with hlt' | rfl
    · rw [hother hk hlt'.ne, h.ran hlt' hwi, result_advanced hlt']
    · exact World.lazyCell_realizing_self hlt
  · have hle : t.asked + 1 ≤ i := hi
    rcases hk.of_advanced with hk' | ⟨heq, ht⟩
    · rw [h.id_advanced hk', hother hk' (by omega), h.waiting (by omega) hk']
    · subst heq
      rw [hmade rfl ht]
      exact World.lazyCell_realizing_made hlt (S.makes (within_succ.mp hk.1) ht)
  · rw [watched_realizing, h.log, List.append_assoc, ← lines_succ hw]
    exact congrArg (before ++ ·) (lines_append (Nat.zero_le _) (Nat.le_succ _))

/-- Asking a cell that is found realizes it if it was not, and no other. -/
theorem ask (h : S.Progress t before w) (hi : i ≤ t.asked) (hw : S.Within i) (hn : 0 < n) :
    ∃ t' w', (t.id i).seq? n w = .ok (S.result t' i) w' ∧ t.Grows t' ∧
      t'.asked = max t.asked (i + 1) ∧ S.Progress t' before w' := by
  rcases Nat.lt_or_eq_of_le hi with hlt | rfl
  · exact ⟨t, w, Lazy.seq?_told hn (by rw [h.ran hlt hw]), .refl t, by omega, h⟩
  · obtain ⟨w', hs, hp⟩ := h.ask_next hw hn
    refine ⟨_, w', hs, grows_advanced t w, ?_, hp⟩
    show t.asked + 1 = _
    omega

end Progress

end Strand

end LispCore
