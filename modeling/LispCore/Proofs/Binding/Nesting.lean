import LispCore.Proofs.Binding.Conveyance
import LispCore.Proofs.Binding.Guards
/-!
Manual pushes and pops. A log says who made each frame, and on which chain (`Scene.Logged`); as frames
never change, a frame on a chain still stands on the chain that it was put on (`Scene.Recorded`). So a pop
succeeds just for the var of a manual push, and brings the chain of that push back; whatever fails changes
nothing. On an empty chain calls succeed as long as they nest like brackets (`Nested`, `run_ok_iff`).
-/

namespace LispCore.Binding

/-! ### Brackets -/

/-- A push opens a bracket of its var and a pop closes one. -/
inductive Bracket where
  | opening (v : Var)
  | closing (v : Var)

/-- Brackets that nest, each opening with a closing of the same var. -/
inductive Nested : List Bracket → Prop
  | nil : Nested []
  | pair {as bs : List Bracket} (v : Var) (ha : Nested as) (hb : Nested bs) :
      Nested (.opening v :: (as ++ .closing v :: bs))

/-- The vars whose brackets are open after some more, the innermost first; none where a bracket is closed
that is not the innermost one open. -/
def opened : List Bracket → List Var → Option (List Var)
  | [], vs => some vs
  | .opening v :: bs, vs => opened bs (v :: vs)
  | .closing _ :: _, [] => none
  | .closing v :: bs, u :: vs => if u = v then opened bs vs else none

theorem opened_append : ∀ (as bs : List Bracket) (vs : List Var),
    opened (as ++ bs) vs = (opened as vs).bind (opened bs)
  | [], _, _ => rfl
  | .opening v :: as, bs, vs => opened_append as bs (v :: vs)
  | .closing _ :: _, _, [] => rfl
  | .closing v :: as, bs, u :: vs => by
    rw [List.cons_append, opened, opened]
    split_ifs
    · exact opened_append as bs vs
    · rfl

namespace Nested

variable {as bs mid : List Bracket}

theorem append (ha : Nested as) (hb : Nested bs) : Nested (as ++ bs) := by
  induction ha with
  | nil => exact hb
  | @pair as cs v ha _ _ ih =>
    rw [List.cons_append, List.append_assoc, List.cons_append]
    exact .pair v ha ih

/-- Brackets that nest can be put anywhere between others. -/
theorem insert (hm : Nested mid) {cs : List Bracket} (h : Nested cs) :
    ∀ {as bs : List Bracket}, cs = as ++ bs → Nested (as ++ (mid ++ bs)) := by
  induction h with
  | nil =>
    intro as bs hs
    obtain ⟨rfl, rfl⟩ := List.nil_eq_append_iff.mp hs
    rw [List.append_nil]
    exact hm
  | @pair xs ys v hx hy ihx ihy =>
    intro as bs hs
    cases as with
    | nil =>
      rw [List.nil_append] at hs ⊢
      exact hm.append (hs ▸ .pair v hx hy)
    | cons b as =>
      rw [List.cons_append] at hs
      obtain ⟨rfl, hrest⟩ := List.cons.inj hs
      rcases List.append_eq_append_iff.mp hrest with ⟨front, rfl, hback⟩ | ⟨back, rfl, rfl⟩
      · cases front with
        | nil =>
          rw [List.nil_append] at hback
          rw [List.append_nil, ← hback, List.cons_append, ← List.append_assoc]
          exact .pair v (hx.append hm) hy
        | cons b front =>
          obtain ⟨rfl, rfl⟩ := List.cons.inj hback
          rw [List.cons_append, List.append_assoc, List.cons_append]
          exact .pair v hx (ihy rfl)
      · have hleft : Nested (as ++ (mid ++ back)) := ihx rfl
        rw [List.cons_append, ← List.append_assoc, ← List.append_assoc, List.append_assoc as]
        exact .pair v hleft hy

/-- Brackets that nest leave open what was open. -/
theorem opened_eq (h : Nested as) : ∀ vs, opened as vs = some vs := by
  induction h with
  | nil => exact fun vs => rfl
  | @pair as bs v _ _ iha ihb =>
    intro vs
    rw [opened, opened_append, iha, Option.bind_some, opened, if_pos rfl, ihb]

end Nested

/-- What is open when brackets end can be closed, so that all nests together with what opened the rest. -/
theorem nested_of_opened : ∀ {bs : List Bracket} {us vs : List Var}, opened bs us = some vs →
    Nested ((us.map Bracket.opening).reverse ++ (bs ++ vs.map Bracket.closing))
  | [], us, vs, h => by
    obtain rfl : us = vs := Option.some.inj h
    clear h
    induction us with
    | nil => exact .nil
    | cons u us ih =>
      rw [List.map_cons, List.map_cons, List.reverse_cons, List.append_assoc]
      exact Nested.insert (.pair u .nil .nil) ih rfl
  | .opening v :: bs, us, vs, h => by
    have hrest : Nested (((v :: us).map Bracket.opening).reverse ++ (bs ++ vs.map Bracket.closing)) :=
      nested_of_opened h
    rw [List.map_cons, List.reverse_cons, List.append_assoc] at hrest
    exact hrest
  | .closing v :: bs, u :: us, vs, h => by
    rw [opened] at h
    split_ifs at h with huv
    subst huv
    have hrest := nested_of_opened h
    rw [List.map_cons, List.reverse_cons, List.append_assoc]
    exact Nested.insert (.pair u .nil .nil) hrest rfl

/-- Brackets can go on to nest just when none is closed but the innermost one open. -/
theorem opened_isSome_iff {bs : List Bracket} :
    (opened bs []).isSome ↔ ∃ rest, Nested (bs ++ rest) := by
  constructor
  · intro h
    obtain ⟨vs, hvs⟩ := Option.isSome_iff_exists.mp h
    exact ⟨_, nested_of_opened hvs⟩
  · rintro ⟨rest, h⟩
    have hall := h.opened_eq []
    rw [opened_append] at hall
    obtain ⟨vs, hvs, -⟩ := Option.bind_eq_some_iff.mp hall
    rw [hvs]
    rfl

/-! ### Calls on an empty chain -/

/-- A manual push or pop, or anything that happens between calls and leaves the chain alone. -/
inductive Turn where
  | push (v : Var) (x : Value)
  | pop (v : Var)
  | aside (f : World → World) (hf : ∀ w, (f w).chain = w.chain)

namespace Turn

def act : Turn → Act Unit
  | push v x => Binding.push v x
  | pop v => Binding.pop v
  | aside f _ => modify f

def run : List Turn → Act Unit
  | [] => pure ()
  | t :: ts => do
    t.act
    run ts

def bracket? : Turn → Option Bracket
  | push v _ => some (.opening v)
  | pop v => some (.closing v)
  | aside .. => none

/-- Each push that is come to finds that its var may be bound. -/
def Timely (ts : List Turn) (n : Nat) (w : World) : Prop :=
  ∀ before v x after w', ts = before ++ push v x :: after → run before n w = .ok () w' →
    (w'.varCell v).dynamic = true

variable {t : Turn} {ts : List Turn} {n : Nat} {w w' : World} {vs : List Var}

theorem timely_cons (h : t.act n w = .ok () w') : Timely (t :: ts) n w ↔
    (∀ v x, t = push v x → (w.varCell v).dynamic = true) ∧ Timely ts n w' := by
  constructor
  · refine fun ht => ⟨fun v x htv => ht [] v x ts w (by rw [htv]; rfl) rfl, ?_⟩
    intro before v x after w'' hts hrun
    exact ht (t :: before) v x after w'' (by rw [hts]; rfl) ((Act.bind_of_ok h).trans hrun)
  · rintro ⟨hfirst, hrest⟩ before v x after w'' hts hrun
    cases before with
    | nil =>
      obtain ⟨rfl, -⟩ := List.cons.inj hts
      cases hrun
      exact hfirst v x rfl
    | cons b before =>
      obtain ⟨rfl, rfl⟩ := List.cons.inj hts
      exact hrest before v x after w'' rfl ((Act.bind_of_ok h).symm.trans hrun)

theorem timely_cons_of_not_push (ht : ∀ v x, t ≠ push v x) (h : t.act n w = .ok () w') :
    Timely (t :: ts) n w ↔ Timely ts n w' :=
  (timely_cons h).trans (and_iff_right fun v x htv => absurd htv (ht v x))

theorem run_cons_of_ok (h : t.act n w = .ok () w') : run (t :: ts) n w = run ts n w' :=
  Act.bind_of_ok h

theorem not_run_cons_of_error {e : Fault} (h : t.act n w = .error e w') :
    ¬∃ w'', run (t :: ts) n w = .ok () w'' := by
  rintro ⟨w'', hrun⟩
  cases (Act.bind_of_error h).symm.trans hrun

/-- On a chain of manual frames, turns succeed throughout just when the pushes find that their vars may be
bound and each pop closes what is innermost. -/
theorem run_ok_iff : ∀ {ts : List Turn} {w : World} {vs : List Var},
    w.chain.map (fun f => (f.guarded, f.pushed.map (·.1))) = vs.map (fun v => (false, [v])) →
      ((∃ w', run ts n w = .ok () w') ↔
        Timely ts n w ∧ (opened (ts.filterMap bracket?) vs).isSome)
  | [], w, vs, _ => by
    refine iff_of_true ⟨w, rfl⟩ ⟨fun before v x after w' hts => ?_, rfl⟩
    exact absurd hts.symm (List.append_ne_nil_of_right_ne_nil before (List.cons_ne_nil _ after))
  | push v x :: ts, w, vs, hc => by
    have hpush := push_eq (n := n) (w := w) v x
    by_cases hd : (w.varCell v).dynamic = true
    · rw [if_pos hd] at hpush
      obtain ⟨f, hframed, -, hg, hv⟩ := chain_framed w [(v, x)] false
      have hc' : (framed w [(v, x)] false).chain.map (fun f => (f.guarded, f.pushed.map (·.1))) =
          (v :: vs).map fun v => (false, [v]) := by
        rw [hframed, List.map_cons, List.map_cons, hc, hg, hv]
        rfl
      have hact : (push v x).act n w = .ok () (framed w [(v, x)] false) := hpush
      rw [run_cons_of_ok hact, run_ok_iff hc', timely_cons hact]
      have hfirst : ∀ u y, push v x = push u y → (w.varCell u).dynamic = true := by
        rintro u y ⟨⟩
        exact hd
      rw [and_assoc]
      exact (and_iff_right hfirst).symm
    · rw [if_neg hd] at hpush
      refine iff_of_false (not_run_cons_of_error hpush) fun h => hd ?_
      exact h.1 [] v x ts w rfl rfl
  | pop v :: ts, w, vs, hc => by
    have hpop := pop_eq (n := n) (w := w) v
    cases hw : w.chain with
    | nil =>
      rw [hw] at hpop hc
      obtain rfl : vs = [] := List.map_eq_nil_iff.mp hc.symm
      exact iff_of_false (not_run_cons_of_error hpop) fun h => Bool.false_ne_true h.2
    | cons f below =>
      rw [hw, List.map_cons] at hc
      cases vs with
      | nil => cases hc
      | cons u vs =>
        obtain ⟨hf, hbelow⟩ := List.cons.inj hc
        obtain ⟨hg, hu⟩ := Prod.mk.inj hf
        simp only [hw, hg, hu, Bool.false_eq_true, if_false, List.cons.injEq, and_true] at hpop
        by_cases huv : u = v
        · rw [if_pos huv] at hpop
          have hact : (pop v).act n w = .ok () { w with chain := below } := hpop
          have hopened : opened ((pop v :: ts).filterMap bracket?) (u :: vs) =
              opened (ts.filterMap bracket?) vs := if_pos huv
          rw [run_cons_of_ok hact, run_ok_iff (w := { w with chain := below }) hbelow,
            timely_cons_of_not_push (by rintro _ _ ⟨⟩) hact, hopened]
        · rw [if_neg huv] at hpop
          have hopened : opened ((pop v :: ts).filterMap bracket?) (u :: vs) = none := if_neg huv
          refine iff_of_false (not_run_cons_of_error hpop) fun h => ?_
          rw [hopened] at h
          exact Bool.false_ne_true h.2
  | aside f hf :: ts, w, vs, hc => by
    have hact : (aside f hf).act n w = .ok () (f w) := rfl
    rw [run_cons_of_ok hact, run_ok_iff ((hf w).symm ▸ hc), timely_cons_of_not_push (by rintro _ _ ⟨⟩) hact]
    rfl

end Turn

/-! ### Who made a frame -/

/-- What makes frames: a manual push of a var, or a push whose frame a guard owns. -/
inductive Maker where
  | manual (v : Var)
  | guard

/-- A frame that was made: its number, what made it, and the chain that it was put on. -/
structure Made where
  frame : Nat
  maker : Maker
  base : Chain

def Op.made? (n : Nat) (w : World) : Op → Option Made
  | .push v x =>
    match Binding.push v x n w with
    | .ok _ w' => w'.chain.head?.map fun f => ⟨f.id, .manual v, w.chain⟩
    | .error _ _ => none
  | .pushGuarded pairs =>
    match Binding.pushGuarded pairs n w with
    | .ok g _ => some ⟨g.frame, .guard, w.chain⟩
    | .error _ _ => none
  | _ => none

/-- The record of the innermost frame of a chain. -/
def innermost? (log : List Made) (c : Chain) : Option Made :=
  c.head?.bind fun f => log.find? (·.frame = f.id)

/-- What threads without bindings come to, with all frames that were made on the way, the newest first. -/
inductive Scene.Logged : List Made → Scene → Prop
  | start (w : World) : Logged [] (start w)
  | op {log : List Made} {s : Scene} (h : Logged log s) (i n : Nat) (o : Op) :
      Logged ((o.made? n (s.seen i)).toList ++ log) (s.act i n o)
  | step {log : List Made} {s t : Scene} {i : Nat} (h : Logged log s)
      (hs : Step i (fun _ => True) s t) (hc : KeepsCells s.world t.world)
      (hn : t.world.nextFrame = s.world.nextFrame) : Logged log t

/-- The record of a frame and of the chain below it. -/
inductive Made.Records : Made → Frame → Chain → Prop
  | manual {f : Frame} {below : Chain} {v : Var} (hg : f.guarded = false)
      (hv : f.pushed.map (·.1) = [v]) : Records ⟨f.id, .manual v, below⟩ f below
  | guard {f : Frame} {below : Chain} (hg : f.guarded = true) : Records ⟨f.id, .guard, below⟩ f below

/-- Frames that were made have numbers of their own that were given out, and each frame in sight is one of
them and still stands on the chain that it was put on. -/
structure Scene.Recorded (s : Scene) (log : List Made) : Prop where
  numbered : ∀ m ∈ log, m.frame < s.world.nextFrame
  apart : (log.map (·.frame)).Nodup
  held : ∀ {f below}, s.Holds f below → ∃ m ∈ log, m.Records f below

/-- An operation makes one frame on top of the chain, with the next number, or gives out no number. -/
theorem Op.made?_cases (o : Op) (n : Nat) (w : World) :
    (∃ m f, o.made? n w = some m ∧ m.Records f w.chain ∧ m.frame = w.nextFrame ∧
      (o.run.worldAfter n w).chain = f :: w.chain ∧
      (o.run.worldAfter n w).nextFrame = w.nextFrame + 1) ∨
    o.made? n w = none ∧ (o.run.worldAfter n w).nextFrame = w.nextFrame := by
  cases o with
  | push v x =>
    rw [Op.run, Op.made?, Act.worldAfter, push_eq]
    by_cases hd : (w.varCell v).dynamic = true
    · obtain ⟨f, hc, hid, hg, hv⟩ := chain_framed w [(v, x)] false
      rw [if_pos hd]
      refine .inl ⟨⟨f.id, .manual v, w.chain⟩, f, ?_, .manual hg hv, hid, hc, rfl⟩
      simp only [hc, List.head?_cons, Option.map_some]
    · rw [if_neg hd]
      exact .inr ⟨rfl, rfl⟩
  | pushGuarded pairs =>
    have h := pushGuarded_eq (n := n) (w := w) pairs
    rw [Op.run, Op.made?]
    cases hv : (pairs.map (·.1)).find? fun v => !(w.varCell v).dynamic with
    | none =>
      obtain ⟨f, hc, hid, hg, -⟩ := chain_framed w pairs true
      rw [hv] at h
      rw [Act.worldAfter, Act.bind_of_ok h, h]
      refine .inl ⟨⟨f.id, .guard, w.chain⟩, f, ?_, .guard hg, hid, hc, rfl⟩
      rw [hid]
    | some v =>
      rw [hv] at h
      rw [Act.worldAfter, Act.bind_of_error h, h]
      exact .inr ⟨rfl, rfl⟩
  | pop v =>
    refine .inr ⟨rfl, ?_⟩
    rw [Op.run]
    rcases pop_cases (n := n) (w := w) v with ⟨f, below, -, -, -, h⟩ | ⟨detail, h⟩
    · rw [Act.worldAfter_of_ok h]
    · rw [Act.worldAfter_of_error h]
  | dropGuard g =>
    obtain ⟨notices, h⟩ := dropGuard_eq (n := n) g w
    rw [Op.run, Act.worldAfter_of_ok h]
    exact .inr ⟨rfl, rfl⟩
  | set v x =>
    refine .inr ⟨rfl, ?_⟩
    rw [Op.run]
    rcases set_cases (n := n) (w := w) v x with ⟨cell, -, -, h⟩ | ⟨name, h⟩
    · rw [Act.worldAfter_of_ok h]
    · rw [Act.worldAfter_of_error h]

namespace Scene

variable {s t : Scene} {log : List Made} {f : Frame} {below : Chain} {i : Nat}

/-- A step that gives out no number brings no frame into sight. -/
theorem Step.holds_of_nextFrame {may : BindingGuard → Prop} (h : Step i may s t)
    (hn : t.world.nextFrame = s.world.nextFrame) (hf : t.Holds f below) : s.Holds f below := by
  rcases h.holds hf with hf | ⟨pairs, guarded, hw, -⟩
  · exact hf
  · have hnext : t.world.nextFrame = s.world.nextFrame + 1 := by rw [hw]; rfl
    rw [hn] at hnext
    exact absurd hnext.symm (Nat.succ_ne_self _)

theorem Recorded.step {may : BindingGuard → Prop} (h : s.Recorded log) (hs : Step i may s t)
    (hn : t.world.nextFrame = s.world.nextFrame) : t.Recorded log :=
  ⟨fun m hm => hn ▸ h.numbered m hm, h.apart, fun hf => h.held (hs.holds_of_nextFrame hn hf)⟩

theorem Recorded.op (h : s.Recorded log) (i n : Nat) (o : Op) :
    (s.act i n o).Recorded ((o.made? n (s.seen i)).toList ++ log) := by
  have hs : Step i (fun _ => True) s (s.act i n o) := .op o n fun _ _ => trivial
  rcases o.made?_cases n (s.seen i) with ⟨m, f, hm, hrec, hnum, hc, hnext⟩ | ⟨hm, hnext⟩
  · rw [hm]
    have hlt : ∀ m' ∈ log, m'.frame < m.frame := fun m' hm' => hnum ▸ h.numbered m' hm'
    have hbound : ∀ m' ∈ m :: log, m'.frame < s.world.nextFrame + 1 :=
      List.forall_mem_cons.mpr ⟨hnum ▸ Nat.lt_succ_self _,
        fun m' hm' => Nat.lt_succ_of_lt (h.numbered m' hm')⟩
    refine ⟨hnext ▸ hbound, ?_, fun {g below} hg => ?_⟩
    · refine List.nodup_cons.mpr ⟨fun hmem => ?_, h.apart⟩
      obtain ⟨m', hm', hid⟩ := List.mem_map.mp hmem
      exact Nat.ne_of_lt (hlt m' hm') hid
    · rcases hs.holds hg with hg | ⟨pairs, guarded, -, rfl, hgc, -⟩
      · obtain ⟨m', hm', hrec'⟩ := h.held hg
        exact ⟨m', List.mem_cons_of_mem m hm', hrec'⟩
      · obtain ⟨rfl, -⟩ := List.cons.inj (hgc.trans hc)
        exact ⟨m, List.mem_cons_self, hrec⟩
  · rw [hm]
    exact h.step hs hnext

theorem Logged.reachedBy (h : Logged log s) : s.ReachedBy KeepsCells := by
  induction h with
  | start w => exact .start w
  | op _ i n o ih => exact .step ih (.op o n fun _ _ => trivial) (keepsCells_act _ i n o)
  | step _ hs hc _ ih => exact .step ih hs hc

theorem Logged.recorded (h : Logged log s) : s.Recorded log := by
  induction h with
  | start w => exact ⟨nofun, List.nodup_nil, fun h => absurd h not_holds_start⟩
  | op _ i n o ih => exact ih.op i n o
  | step _ hs _ hn ih => exact ih.step hs hn

/-- The innermost frame of a thread has a record. -/
theorem Recorded.innermost (h : s.Recorded log) (hc : (s.threads i).chain = f :: below) :
    ∃ m, innermost? log (s.threads i).chain = some m ∧ m.Records f below := by
  obtain ⟨m, hm, hrec⟩ := h.held (holds_thread hc)
  have hid : m.frame = f.id := by cases hrec <;> rfl
  have hsome : (log.find? (·.frame = f.id)).isSome :=
    List.find?_isSome.mpr ⟨m, hm, decide_eq_true hid⟩
  obtain ⟨m', hm'⟩ := Option.isSome_iff_exists.mp hsome
  have hid' : m'.frame = f.id := by simpa using List.find?_some hm'
  have heq : m' = m :=
    List.inj_on_of_nodup_map h.apart (List.mem_of_find?_eq_some hm') hm (hid'.trans hid.symm)
  exact ⟨m', by rw [hc, innermost?, List.head?_cons, Option.bind_some, hm'], heq ▸ hrec⟩

/-- A pop takes the innermost frame off if it was made by a manual push of just the var, and the chain is
then that of the push; otherwise it fails. -/
theorem Recorded.pop (h : s.Recorded log) (n : Nat) (v : Var) :
    (∀ frame base, innermost? log (s.threads i).chain = some ⟨frame, .manual v, base⟩ →
      Binding.pop v n (s.seen i) = .ok () { s.seen i with chain := base }) ∧
    ((∀ frame base, innermost? log (s.threads i).chain ≠ some ⟨frame, .manual v, base⟩) →
      ∃ detail, Binding.pop v n (s.seen i) =
        .error (.error (.unbalancedBinding detail)) (s.seen i)) := by
  have hpop := pop_cases (n := n) (w := s.seen i) v
  constructor
  · intro frame base hm
    cases hc : (s.threads i).chain with
    | nil =>
      rw [hc] at hm
      cases hm
    | cons f below =>
      obtain ⟨m, hm', hrec⟩ := h.innermost hc
      obtain rfl := Option.some.inj (hm'.symm.trans hm)
      cases hrec with
      | manual hg hv =>
        rw [pop_eq]
        simp [seen, hc, hg, hv]
  · intro hne
    rcases hpop with ⟨f, below, hc, hg, hv, -⟩ | hfail
    · obtain ⟨m, hm, hrec⟩ := h.innermost hc
      cases hrec with
      | @manual _ _ u _ hu =>
        obtain rfl : u = v := List.singleton_inj.mp (hu.symm.trans hv)
        exact absurd hm (hne _ _)
      | guard hg' =>
        rw [hg] at hg'
        cases hg'
    · exact hfail

end Scene

/-- A push of several vars fails just where one may not be bound, and reports the first of these. -/
theorem pushGuarded_cases (pairs : List (Var × Value)) (n : Nat) (w : World) :
    ((∀ p ∈ pairs, (w.varCell p.1).dynamic = true) →
      pushGuarded pairs n w = .ok ⟨w.nextFrame⟩ (framed w pairs true)) ∧
    ∀ front p back, pairs = front ++ p :: back →
      (∀ q ∈ front, (w.varCell q.1).dynamic = true) → ¬(w.varCell p.1).dynamic = true →
      pushGuarded pairs n w =
        .error (.error (.notDynamic (w.varCell p.1).label.text)) w := by
  have h := pushGuarded_eq (n := n) (w := w) pairs
  constructor
  · intro hd
    have hnone : ((pairs.map (·.1)).find? fun v => !(w.varCell v).dynamic) = none := by
      simpa using hd
    rw [h, hnone]
  · rintro front p back rfl hfront hp
    have hsome : (((front ++ p :: back).map (·.1)).find? fun v => !(w.varCell v).dynamic) =
        some p.1 := by
      refine List.find?_eq_some_iff_append.mpr ⟨by simpa using hp, front.map (·.1),
        back.map (·.1), by simp, ?_⟩
      simpa using hfront
    rw [h, hsome]

/-- Manual pushes and pops form a typed stack, and whatever fails changes nothing. Whatever threads have
done, the innermost frame of a thread has one record of who made it, and on which chain. A pop succeeds
exactly when that is a manual push of just the var, and then the chain is that on which the push put the
frame; with no frame, one that a guard owns or one of another var, it fails. A push fails exactly when a
var may not be bound at that moment, and reports the first of these; a var is set exactly when the
thread has a binding of it. So on an empty chain calls succeed throughout, whatever happens between them
to the flags of vars, exactly when all pushes are of vars that may be bound then and the calls can go on
to nest, each push with a pop of its var. -/
theorem pop_undoes_push {log : List Made} {s : Scene} (h : s.Logged log) (i n : Nat) :
    let w := s.seen i
    (log.map (·.frame)).Nodup ∧ (w.chain ≠ [] → (innermost? log w.chain).isSome) ∧
    (∀ v, (∀ frame base, innermost? log w.chain = some ⟨frame, .manual v, base⟩ →
        pop v n w = .ok () { w with chain := base }) ∧
      ((∀ frame base, innermost? log w.chain ≠ some ⟨frame, .manual v, base⟩) →
        ∃ detail, pop v n w = .error (.error (.unbalancedBinding detail)) w)) ∧
    (∀ v x, ((w.varCell v).dynamic = true → ∃ f w', push v x n w = .ok () w' ∧
        w'.chain = f :: w.chain) ∧
      (¬(w.varCell v).dynamic = true →
        push v x n w = .error (.error (.notDynamic (w.varCell v).label.text)) w)) ∧
    (∀ pairs, ((∀ p ∈ pairs, (w.varCell p.1).dynamic = true) →
        ∃ f w', pushGuarded pairs n w = .ok ⟨f.id⟩ w' ∧ w'.chain = f :: w.chain) ∧
      ∀ front p back, pairs = front ++ p :: back →
        (∀ q ∈ front, (w.varCell q.1).dynamic = true) → ¬(w.varCell p.1).dynamic = true →
        pushGuarded pairs n w =
          .error (.error (.notDynamic (w.varCell p.1).label.text)) w) ∧
    (∀ v x, (v.hasBinding n w = .ok true w ↔
        (w.varCell v).dynamic = true ∧ ∃ f ∈ w.chain, v ∈ f.pushed.map (·.1)) ∧
      (v.hasBinding n w = .ok true w → ∃ w', v.set x n w = .ok () w') ∧
      (¬v.hasBinding n w = .ok true w →
        v.set x n w = .error (.error (.noThreadBinding (w.varCell v).label.text)) w)) ∧
    ∀ ts w₀, w₀.chain = [] → ((∃ w', Turn.run ts n w₀ = .ok () w') ↔
      Turn.Timely ts n w₀ ∧ ∃ rest, Nested (ts.filterMap Turn.bracket? ++ rest)) := by
  intro w
  have hrec := h.recorded
  have hsound := Scene.reachedBy_sound id h.reachedBy
  refine ⟨hrec.apart, fun hne => ?_, hrec.pop n, fun v x => ⟨fun hd => ?_, fun hd => ?_⟩,
    fun pairs => ⟨fun hd => ?_, (pushGuarded_cases pairs n w).2⟩, fun v x => ?_,
    fun ts w₀ hw₀ => ?_⟩
  · obtain ⟨f, below, hc⟩ := List.exists_cons_of_ne_nil hne
    obtain ⟨m, hm, -⟩ := hrec.innermost hc
    rw [show w.chain = (s.threads i).chain from rfl, hm]
    rfl
  · obtain ⟨f, hc, -⟩ := chain_framed w [(v, x)] false
    exact ⟨f, _, (push_eq v x).trans (if_pos hd), hc⟩
  · exact (push_eq v x).trans (if_neg hd)
  · obtain ⟨f, hc, hid, -⟩ := chain_framed w pairs true
    exact ⟨f, _, hid ▸ (pushGuarded_cases pairs n w).1 hd, hc⟩
  · have hsome : (w.chain.cell? v).isSome ↔ ∃ f ∈ w.chain, v ∈ f.pushed.map (·.1) :=
      hsound.cell?_isSome_iff (s.sights_thread i)
    refine ⟨?_, set_of_hasBinding v x, set_of_not_hasBinding v x⟩
    rw [hasBinding_iff, ← hsome]
  · rw [← opened_isSome_iff]
    exact Turn.run_ok_iff (by rw [hw₀]; rfl)

/-- A var is not popped while a guard owns the innermost frame of it; once that is gone it is, also when
its flag has been switched off. -/
theorem pop_undoes_push_switched_off :
    let v : Var := ⟨0⟩
    let start : Scene := .start { vars := #[{ label := .anonymous 0, dynamic := true }] }
    let pushed := start.act 0 0 (.push v (.int 1))
    let s := pushed.act 0 0 (.pushGuarded [(v, .int 2)])
    let off : Scene := { s with world := { s.world with vars := #[{ label := .anonymous 0 }] } }
    let t := off.act 0 0 (.dropGuard ⟨1⟩)
    (∃ detail, pop v 0 (s.seen 0) = .error (.error (.unbalancedBinding detail)) (s.seen 0)) ∧
      v.hasBinding 0 (t.seen 0) = .ok false (t.seen 0) ∧
      pop v 0 (t.seen 0) = .ok () { t.seen 0 with chain := [] } := by
  intro v start pushed s off t
  have hstart : start.Logged [] := .start _
  have hpushed : pushed.Logged [⟨0, .manual v, []⟩] := hstart.op 0 0 (.push v (.int 1))
  have hs : s.Logged [⟨1, .guard, (pushed.threads 0).chain⟩, ⟨0, .manual v, []⟩] :=
    hpushed.op 0 0 (.pushGuarded [(v, .int 2)])
  have hoff : off.Logged [⟨1, .guard, (pushed.threads 0).chain⟩, ⟨0, .manual v, []⟩] :=
    hs.step (i := 0) (.aside _ rfl) (Nat.le_refl _) rfl
  have ht : t.Logged [⟨1, .guard, (pushed.threads 0).chain⟩, ⟨0, .manual v, []⟩] :=
    hoff.op 0 0 (.dropGuard ⟨1⟩)
  obtain ⟨-, -, howned, -⟩ := pop_undoes_push hs 0 0
  obtain ⟨-, -, hpop, -⟩ := pop_undoes_push ht 0 0
  refine ⟨(howned v).2 fun frame base h => ?_, rfl, (hpop v).1 0 [] rfl⟩
  have hguard : innermost? [⟨1, .guard, (pushed.threads 0).chain⟩, ⟨0, .manual v, []⟩]
    (s.seen 0).chain = some ⟨1, .guard, (pushed.threads 0).chain⟩ := rfl
  cases hguard.symm.trans h

end LispCore.Binding
