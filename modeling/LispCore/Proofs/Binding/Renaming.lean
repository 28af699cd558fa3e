import LispCore.Proofs.Binding.Visible
import Mathlib.Data.List.InsertIdx
/-!
Two runs that number their frames and cells differently. A run gives out the next number to each frame
and each cell, so the same operations number them otherwise when others go on in between. A renaming
takes the numbers of one run to those of the other; `Mirrors` says that a chain and the guards on it are
the same in both but for the numbers, with the same values in the cells. Each operation keeps
this and ends in the same way in both runs.
-/

namespace LispCore.Binding

variable {n : Nat}

/-- The numbers that one run gives out in place of those of another. -/
structure Renaming where
  frame : Nat → Nat
  cell : Nat → Nat

namespace Renaming

def onPair (r : Renaming) (p : Var × Nat) : Var × Nat := (p.1, r.cell p.2)

def onTable (r : Renaming) (t : Table Var Nat) : Table Var Nat := ⟨t.entries.map r.onPair⟩

def onFrame (r : Renaming) (f : Frame) : Frame :=
  { f with
    id := r.frame f.id
    pushed := f.pushed.map r.onPair
    visible := r.onTable f.visible }

def onChain (r : Renaming) (c : Chain) : Chain := c.map r.onFrame

def onGuard (r : Renaming) (g : BindingGuard) : BindingGuard := ⟨r.frame g.frame⟩

/-- Nothing is renamed. -/
protected def id : Renaming := ⟨fun a => a, fun a => a⟩

/-- The numbers given out so far are renamed as before, and the next ones to the next ones. -/
def extended (r : Renaming) (w w' : World) : Renaming where
  frame a := if a < w'.nextFrame then r.frame a else w.nextFrame + (a - w'.nextFrame)
  cell a := if a < w'.cells.size then r.cell a else w.cells.size + (a - w'.cells.size)

variable {r : Renaming} {w w' : World}

theorem extended_frame_of_lt {a : Nat} (h : a < w'.nextFrame) :
    (r.extended w w').frame a = r.frame a := if_pos h

theorem extended_cell_of_lt {a : Nat} (h : a < w'.cells.size) :
    (r.extended w w').cell a = r.cell a := if_pos h

theorem extended_nextFrame : (r.extended w w').frame w'.nextFrame = w.nextFrame :=
  (if_neg (Nat.lt_irrefl _)).trans (by rw [Nat.sub_self, Nat.add_zero])

/-- On a frame made earlier a renaming is as before. -/
theorem onFrame_extended {f : Frame} (h : Within w'.nextFrame w'.cells.size f) :
    (r.extended w w').onFrame f = r.onFrame f := by
  have hpair {p : Var × Nat} (hp : p.2 < w'.cells.size) :
      (r.extended w w').onPair p = r.onPair p :=
    congrArg (Prod.mk p.1) (extended_cell_of_lt hp)
  have htable : (r.extended w w').onTable f.visible = r.onTable f.visible :=
    congrArg Table.mk (List.map_congr_left fun e he => hpair (h.visible e he))
  rw [onFrame, onFrame, extended_frame_of_lt h.id, htable,
    List.map_congr_left fun p hp => hpair (h.pushed p hp)]

theorem onChain_extended {c : Chain} (h : ∀ f ∈ c, Within w'.nextFrame w'.cells.size f) :
    (r.extended w w').onChain c = r.onChain c :=
  List.map_congr_left fun f hf => onFrame_extended (h f hf)

theorem onFrame_id (f : Frame) : Renaming.id.onFrame f = f := by
  have hpair : Renaming.id.onPair = fun p => p := rfl
  rw [onFrame, onTable, hpair, List.map_id', List.map_id']
  rfl

theorem onChain_id (c : Chain) : Renaming.id.onChain c = c :=
  List.map_id'' onFrame_id c

/-- New cells are renamed to new cells. -/
theorem map_onPair_numbered (pairs : List (Var × Value)) : ∀ d : Nat,
    (numbered (w'.cells.size + d) pairs).map (r.extended w w').onPair =
      numbered (w.cells.size + d) pairs := by
  induction pairs with
  | nil => exact fun _ => rfl
  | cons p ps ih =>
    intro d
    have hcell : (r.extended w w').cell (w'.cells.size + d) = w.cells.size + d := by
      rw [extended]
      simp only
      rw [if_neg (by omega), Nat.add_sub_cancel_left]
    rw [numbered, numbered, List.map_cons, Nat.add_assoc, ih (d + 1), Nat.add_assoc]
    exact congrArg (· :: _) (congrArg (Prod.mk p.1) hcell)

/-! ### What a chain shows, renamed -/

theorem find?_map_onPair (v : Var) (es : List (Var × Nat)) :
    ((es.map r.onPair).find? (·.1 = v)).map (·.2) = ((es.find? (·.1 = v)).map (·.2)).map r.cell := by
  rw [List.find?_map, Option.map_map, Option.map_map]
  rfl

theorem cell?_onChain (c : Chain) (v : Var) :
    (r.onChain c).cell? v = (c.cell? v).map r.cell := by
  cases c with
  | nil => rfl
  | cons f below => exact find?_map_onPair v f.visible.entries

theorem depth_onChain (c : Chain) : (r.onChain c).depth = c.depth := by
  cases c <;> rfl

theorem map_insertEntry (v : Var) (cell : Nat) : ∀ es : List (Var × Nat),
    (Table.insertEntry v cell es).map r.onPair =
      Table.insertEntry v (r.cell cell) (es.map r.onPair)
  | [] => rfl
  | e :: es => by
    rw [Table.insertEntry, List.map_cons, Table.insertEntry]
    by_cases he : e.1 = v
    · rw [if_pos he, if_pos (show (r.onPair e).1 = v from he)]
      rfl
    · rw [if_neg he, if_neg (show ¬(r.onPair e).1 = v from he), List.map_cons, map_insertEntry v cell es]

theorem onTable_foldl_insert : ∀ (pairs : List (Var × Nat)) (t : Table Var Nat),
    r.onTable (pairs.foldl (fun t p => t.insert p.1 p.2) t) =
      (pairs.map r.onPair).foldl (fun t p => t.insert p.1 p.2) (r.onTable t)
  | [], _ => rfl
  | p :: ps, t => by
    have hinsert : r.onTable (t.insert p.1 p.2) = (r.onTable t).insert p.1 (r.cell p.2) :=
      congrArg Table.mk (map_insertEntry p.1 p.2 t.entries)
    rw [List.foldl_cons, onTable_foldl_insert ps, hinsert]
    rfl

theorem visible_onChain (c : Chain) : (r.onChain c).visible = r.onTable c.visible := by
  cases c <;> rfl

theorem onChain_push (c : Chain) (id : Nat) (pairs : List (Var × Nat)) (guarded : Bool) :
    r.onChain (c.push id pairs guarded) =
      (r.onChain c).push (r.frame id) (pairs.map r.onPair) guarded := by
  rw [Chain.push, Chain.push, onChain, List.map_cons, ← onChain, depth_onChain, visible_onChain,
    ← onTable_foldl_insert]
  rfl

/-- Numbers that the one world has given out are renamed to numbers that the other has given out, and
different ones to different ones. -/
structure Fits (r : Renaming) (w w' : World) : Prop where
  frame_lt : ∀ {a}, a < w'.nextFrame → r.frame a < w.nextFrame
  frame_inj : ∀ {a b}, a < w'.nextFrame → b < w'.nextFrame → r.frame a = r.frame b → a = b
  cell_lt : ∀ {a}, a < w'.cells.size → r.cell a < w.cells.size
  cell_inj : ∀ {a b}, a < w'.cells.size → b < w'.cells.size → r.cell a = r.cell b → a = b

theorem Fits.refl (w : World) : Renaming.id.Fits w w :=
  ⟨fun h => h, fun _ _ h => h, fun h => h, fun _ _ h => h⟩

/-- Numbers given out in step are renamed to each other. -/
theorem Fits.extended (h : r.Fits w w') {v v' : World} (frames cells : Nat)
    (hn : v.nextFrame = w.nextFrame + frames) (hn' : v'.nextFrame = w'.nextFrame + frames)
    (hs : v.cells.size = w.cells.size + cells) (hs' : v'.cells.size = w'.cells.size + cells) :
    (r.extended w w').Fits v v' := by
  constructor
  · intro a ha
    have := @h.frame_lt a
    simp only [Renaming.extended]
    split_ifs <;> omega
  · intro a b ha hb hab
    have hla := @h.frame_lt a
    have hlb := @h.frame_lt b
    have hinj := @h.frame_inj a b
    simp only [Renaming.extended] at hab
    split_ifs at hab with h₁ h₂ <;> first | exact hinj h₁ h₂ hab | omega
  · intro a ha
    have := @h.cell_lt a
    simp only [Renaming.extended]
    split_ifs <;> omega
  · intro a b ha hb hab
    have hla := @h.cell_lt a
    have hlb := @h.cell_lt b
    have hinj := @h.cell_inj a b
    simp only [Renaming.extended] at hab
    split_ifs at hab with h₁ h₂ <;> first | exact hinj h₁ h₂ hab | omega

theorem Fits.frame_bne {a b : Nat} (h : r.Fits w w') (ha : a < w'.nextFrame) (hb : b < w'.nextFrame) :
    (r.frame a != r.frame b) = (a != b) := by
  rw [Bool.eq_iff_iff, bne_iff_ne, bne_iff_ne]
  exact not_congr ⟨h.frame_inj ha hb, congrArg r.frame⟩

variable {id : Nat}

theorem holds_onChain (h : r.Fits w w') (hid : id < w'.nextFrame) :
    ∀ {c : Chain}, (∀ f ∈ c, f.id < w'.nextFrame) → (r.onChain c).holds (r.frame id) = c.holds id
  | [], _ => rfl
  | f :: c, hc => by
    obtain ⟨hf, hc⟩ := List.forall_mem_cons.mp hc
    have hhead : (r.frame f.id == r.frame id) = (f.id == id) := Bool.not_inj (h.frame_bne hf hid)
    have hrest := holds_onChain h hid hc
    simp only [Chain.holds, onChain, List.map_cons, List.any_cons] at hrest ⊢
    rw [hrest]
    exact congrArg (· || _) hhead

theorem dropWhile_onChain (h : r.Fits w w') (hid : id < w'.nextFrame) :
    ∀ {c : Chain}, (∀ f ∈ c, f.id < w'.nextFrame) →
      (r.onChain c).dropWhile (·.id != r.frame id) = r.onChain (c.dropWhile (·.id != id))
  | [], _ => rfl
  | f :: c, hc => by
    obtain ⟨hf, hc⟩ := List.forall_mem_cons.mp hc
    have hbne : ((r.onFrame f).id != r.frame id) = (f.id != id) := h.frame_bne hf hid
    rw [onChain, List.map_cons, List.dropWhile_cons, List.dropWhile_cons, hbne]
    split_ifs
    · exact dropWhile_onChain h hid hc
    · rfl

theorem below_onChain (h : r.Fits w w') (hid : id < w'.nextFrame) {c : Chain}
    (hc : ∀ f ∈ c, f.id < w'.nextFrame) :
    (r.onChain c).below (r.frame id) = r.onChain (c.below id) := by
  rw [Chain.below, dropWhile_onChain h hid hc, Chain.below, onChain, onChain, List.map_tail]

end Renaming

/-! ### A run that mirrors another -/

/-- In one world a chain and its guards are what they are in another world but for the numbers, with
the same values in the cells, and these cells are none of the foreign ones. -/
structure Mirrors (r : Renaming) (foreign : Nat → Prop) (c : Chain) (gs : List BindingGuard)
    (w : World) (c' : Chain) (gs' : List BindingGuard) (w' : World) : Prop where
  vars : w.vars = w'.vars
  chain : c = r.onChain c'
  guards : gs = gs'.map r.onGuard
  within : ∀ f ∈ c', Within w'.nextFrame w'.cells.size f
  guard_lt : ∀ g ∈ gs', g.frame < w'.nextFrame
  fits : r.Fits w w'
  value : ∀ a < w'.cells.size, w.cells.getD (r.cell a) .nil = w'.cells.getD a .nil
  spared : ∀ a < w'.cells.size, ¬foreign (r.cell a)
  foreign_lt : ∀ a, foreign a → a < w.cells.size

namespace Mirrors

variable {r : Renaming} {foreign : Nat → Prop} {c c' : Chain} {gs gs' : List BindingGuard}
  {w w' : World}

theorem varCell (h : Mirrors r foreign c gs w c' gs' w') (v : Var) : w.varCell v = w'.varCell v := by
  rw [World.varCell, World.varCell, h.vars]

/-- The same part of both chains. -/
theorem suffix (h : Mirrors r foreign c gs w c' gs' w') {d d' : Chain} (hd : d = r.onChain d')
    (hsub : ∀ f ∈ d', f ∈ c') : Mirrors r foreign d gs w d' gs' w' :=
  { h with chain := hd, within := fun f hf => h.within f (hsub f hf) }

/-- It does not matter which chains are installed, nor what was reported. -/
theorem beside (h : Mirrors r foreign c gs w c' gs' w') (d d' : Chain) (ns ns' : Array Notice) :
    Mirrors r foreign c gs { w with chain := d, notices := ns } c' gs'
      { w' with chain := d', notices := ns' } :=
  { h with fits := ⟨h.fits.frame_lt, h.fits.frame_inj, h.fits.cell_lt, h.fits.cell_inj⟩ }

/-- One more guard of a frame in both. -/
theorem own (h : Mirrors r foreign c gs w c' gs' w') {g g' : BindingGuard} (hg : g = r.onGuard g')
    (hlt : g'.frame < w'.nextFrame) : Mirrors r foreign c (gs ++ [g]) w c' (gs' ++ [g']) w' :=
  { h with
    guards := by rw [h.guards, hg, List.map_append]; rfl
    guard_lt := fun k hk => by
      rcases List.mem_append.mp hk with hk | hk
      · exact h.guard_lt k hk
      · exact List.mem_singleton.mp hk ▸ hlt }

/-- One guard less in both. -/
theorem drop (h : Mirrors r foreign c gs w c' gs' w') (k : Nat) :
    Mirrors r foreign c (gs.eraseIdx k) w c' (gs'.eraseIdx k) w' :=
  { h with
    guards := by rw [h.guards, List.eraseIdx_map]
    guard_lt := fun g hg => h.guard_lt g (List.mem_of_mem_eraseIdx hg) }

/-- The visible cell of a var has a number that was given out. -/
theorem cell_lt (h : Mirrors r foreign c gs w c' gs' w') {v : Var} {a : Nat}
    (ha : c'.cell? v = some a) : a < w'.cells.size := by
  cases c' with
  | nil => cases ha
  | cons f below =>
    obtain ⟨e, he, rfl⟩ := Option.map_eq_some_iff.mp ha
    exact (h.within f List.mem_cons_self).visible e (List.mem_of_find?_eq_some he)

/-- What a read finds, in corresponding cells. -/
theorem found (h : Mirrors r foreign c gs w c' gs' w') (v : Var) :
    (if (w.varCell v).dynamic then c.cell? v else none) =
      (if (w'.varCell v).dynamic then c'.cell? v else none).map r.cell := by
  rw [h.varCell, h.chain, Renaming.cell?_onChain]
  split_ifs <;> rfl

theorem found_lt (h : Mirrors r foreign c gs w c' gs' w') {v : Var} {a : Nat}
    (ha : (if (w'.varCell v).dynamic then c'.cell? v else none) = some a) : a < w'.cells.size := by
  split_ifs at ha
  exact h.cell_lt ha

/-- What a read finds has the same value. -/
theorem seen (h : Mirrors r foreign c gs w c' gs' w') (v : Var) :
    (if (w.varCell v).dynamic then c.cell? v else none).map (w.cells.getD · .nil) =
      (if (w'.varCell v).dynamic then c'.cell? v else none).map (w'.cells.getD · .nil) := by
  rw [h.found]
  cases ha : if (w'.varCell v).dynamic then c'.cell? v else none with
  | none => rfl
  | some a => exact congrArg some (h.value a (h.found_lt ha))

/-- Both push a frame for the same pairs. -/
theorem framed (h : Mirrors r foreign w.chain gs w w'.chain gs' w') (pairs : List (Var × Value))
    (guarded : Bool) :
    Mirrors (r.extended w w') foreign (framed w pairs guarded).chain gs (framed w pairs guarded)
      (framed w' pairs guarded).chain gs' (framed w' pairs guarded) := by
  have hsize (w : World) : (Binding.framed w pairs guarded).cells.size = w.cells.size + pairs.length := by
    simp [Binding.framed]
  constructor
  · exact h.vars
  · have hnew := @Renaming.map_onPair_numbered r w w' pairs 0
    rw [Nat.add_zero, Nat.add_zero] at hnew
    show w.chain.push w.nextFrame (numbered w.cells.size pairs) guarded =
      (r.extended w w').onChain
        (w'.chain.push w'.nextFrame (numbered w'.cells.size pairs) guarded)
    rw [Renaming.onChain_push, Renaming.onChain_extended h.within, Renaming.extended_nextFrame, hnew,
      ← h.chain]
  · rw [h.guards]
    exact List.map_congr_left fun g hg =>
      congrArg BindingGuard.mk (Renaming.extended_frame_of_lt (h.guard_lt g hg)).symm
  · rw [hsize]
    refine List.forall_mem_cons.mpr ⟨?_, fun f hf => ?_⟩
    · exact within_push (fun f below (hf : w'.chain = f :: below) =>
        h.within f (hf ▸ List.mem_cons_self)) rfl
    · exact (h.within f hf).mono (Nat.le_succ _) (Nat.le_add_right ..)
  · exact fun g hg => Nat.lt_succ_of_lt (h.guard_lt g hg)
  · exact h.fits.extended 1 pairs.length rfl rfl (hsize w) (hsize w')
  · intro a ha
    rw [hsize] at ha
    rcases Nat.lt_or_ge a w'.cells.size with hlt | hge
    · have hcell := h.fits.cell_lt hlt
      have hval := h.value a hlt
      rw [Renaming.extended_cell_of_lt hlt]
      simp only [Binding.framed, Array.getD_eq_getD_getElem?] at hval ⊢
      rw [Array.getElem?_append_left hcell, Array.getElem?_append_left hlt, hval]
    · have hcell : (r.extended w w').cell a = w.cells.size + (a - w'.cells.size) :=
        if_neg (Nat.not_lt_of_le hge)
      rw [hcell]
      simp only [Binding.framed, Array.getD_eq_getD_getElem?]
      rw [Array.getElem?_append_right (Nat.le_add_right ..), Array.getElem?_append_right hge,
        Nat.add_sub_cancel_left]
  · intro a ha
    rcases Nat.lt_or_ge a w'.cells.size with hlt | hge
    · rw [Renaming.extended_cell_of_lt hlt]
      exact h.spared a hlt
    · have hcell : (r.extended w w').cell a = w.cells.size + (a - w'.cells.size) :=
        if_neg (Nat.not_lt_of_le hge)
      rw [hcell]
      exact fun hf => absurd (h.foreign_lt _ hf) (by omega)
  · intro a ha
    rw [hsize]
    exact Nat.lt_add_right _ (h.foreign_lt a ha)

/-- Both set the same binding. -/
theorem set (h : Mirrors r foreign c gs w c' gs' w') {a : Nat} (ha : a < w'.cells.size) (x : Value) :
    Mirrors r foreign c gs { w with cells := w.cells.setIfInBounds (r.cell a) x } c' gs'
      { w' with cells := w'.cells.setIfInBounds a x } where
  vars := h.vars
  chain := h.chain
  guards := h.guards
  within := by simpa using h.within
  guard_lt := h.guard_lt
  fits := by
    refine ⟨h.fits.frame_lt, h.fits.frame_inj, fun hb => ?_, fun hb hd => ?_⟩
    · simpa using h.fits.cell_lt (by simpa using hb)
    · exact h.fits.cell_inj (by simpa using hb) (by simpa using hd)
  value b hb := by
    have hb : b < w'.cells.size := by simpa using hb
    have hval := h.value b hb
    have hra := h.fits.cell_lt ha
    simp only [Array.getD_eq_getD_getElem?, Array.getElem?_setIfInBounds] at hval ⊢
    by_cases hab : a = b
    · subst hab
      simp [ha, hra]
    · have hne : r.cell a ≠ r.cell b := fun he => hab (h.fits.cell_inj ha hb he)
      rw [if_neg hab, if_neg hne]
      exact hval
  spared := by simpa using h.spared
  foreign_lt := by simpa using h.foreign_lt

/-- Both drop the same guard. -/
theorem below (h : Mirrors r foreign c gs w c' gs' w') {g : BindingGuard} (hg : g.frame < w'.nextFrame) :
    Mirrors r foreign (if c.holds (r.frame g.frame) then c.below (r.frame g.frame) else c) gs w
      (if c'.holds g.frame then c'.below g.frame else c') gs' w' := by
  have hids : ∀ f ∈ c', f.id < w'.nextFrame := fun f hf => (h.within f hf).id
  rw [h.chain, Renaming.holds_onChain h.fits hg hids, Renaming.below_onChain h.fits hg hids]
  split_ifs
  · exact h.suffix rfl fun f hf => Chain.mem_of_mem_below hf
  · exact h.suffix rfl fun f hf => hf

end Mirrors

end LispCore.Binding
