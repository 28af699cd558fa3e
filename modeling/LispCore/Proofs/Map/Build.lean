import LispCore.Proofs.Map.Settles
import LispCore.Proofs.Print.Finite
/-!
Building maps from pairs. As long as keys are new, both builders go on from the entries so far
(`appendNew_becomes`, `putNew_becomes`), and at the first key that is equal to an earlier one both refuse
it (`appendNew_refuses`, `putNew_refuses`). A key that is refused is named by its text, and without one
there is a panic (`Act.Refuses`).
-/

namespace LispCore

variable {α β : Type} {inside : Nat → Datum} {w : World} {key : Value}
  {front pairs : List (Value × Value)} {e : Value × Value} {K : Keying Value} {P : Value → Prop}

/-- From here on the first action comes to the second one, run in a world that follows. -/
def Act.Becomes (x : Act α) (w : World) (y : Act α) : Prop :=
  ∃ N, ∀ n ≥ N, ∀ w', Evolves w w' → ∃ w₁, Evolves w' w₁ ∧ x n w' = y n w₁

namespace Act.Becomes

variable {x y z : Act α} {f : α → Act β} {a : α}

theorem refl (x : Act α) (w : World) : x.Becomes w x :=
  ⟨0, fun _ _ w' _ => ⟨w', .refl w', rfl⟩⟩

theorem trans (h : x.Becomes w y) (h' : y.Becomes w z) : x.Becomes w z := by
  obtain ⟨N, h⟩ := h
  obtain ⟨N', h'⟩ := h'
  refine ⟨max N N', fun n hn w' hev => ?_⟩
  obtain ⟨w₁, hev₁, hx⟩ := h n (Nat.le_trans (Nat.le_max_left ..) hn) w' hev
  obtain ⟨w₂, hev₂, hy⟩ := h' n (Nat.le_trans (Nat.le_max_right ..) hn) w₁ (hev.trans hev₁)
  exact ⟨w₂, hev₁.trans hev₂, hx.trans hy⟩

theorem bind (h : x.Becomes w y) (f : α → Act β) : (x >>= f).Becomes w (y >>= f) := by
  obtain ⟨N, h⟩ := h
  refine ⟨N, fun n hn w' hev => ?_⟩
  obtain ⟨w₁, hev₁, hx⟩ := h n hn w' hev
  refine ⟨w₁, hev₁, ?_⟩
  rw [Act.bind_apply, Act.bind_apply, hx]

/-- An action that settles gives way to what follows it. -/
theorem of_settles (h : x.Settles w a) (f : α → Act β) : (x >>= f).Becomes w (f a) := by
  obtain ⟨N, h⟩ := h
  refine ⟨N, fun n hn w' hev => ?_⟩
  obtain ⟨_, w₁, hx, hev₁, rfl⟩ := h n hn w' hev
  exact ⟨w₁, hev₁, Act.bind_of_ok hx⟩

theorem settles (h : x.Becomes w (Pure.pure a)) : x.Settles w a := by
  obtain ⟨N, h⟩ := h
  refine ⟨N, fun n hn w' hev => ?_⟩
  obtain ⟨w₁, hev₁, hx⟩ := h n hn w' hev
  exact ⟨a, w₁, hx, hev₁, rfl⟩

end Act.Becomes

/-! ### Refusing a key -/

/-- Fails because a key is there already. -/
def Act.refuse (key : Value) : Act α := do Act.fail (.duplicateKey (← key.display))

/-- The end of a refusal, by how rendering the key ended: an error with the text, in which an error that
broke it off is shown. When the key failed as a formatter does there is no text, and so a panic. -/
def refusal : Except Error Unit × Sink → Fault
  | (.ok (), sink) => .error (.duplicateKey sink.text)
  | (.error .format, _) => .panic "a Display implementation returned an error unexpectedly: Error"
  | (.error e, sink) => .error (.duplicateKey (sink.text ++ "#error[" ++ e.message ++ "]"))

theorem refuse_bind (key : Value) (f : α → Act β) :
    ((Act.refuse key : Act α) >>= f) = Act.refuse key :=
  bind_assoc ..

/-- From here on the action ends with the refusal of a key, which is rendered last. When nothing in the
key has failed, it has a text. -/
def Act.Refuses (x : Act α) (inside : Nat → Datum) (w : World) (key : Value) : Prop :=
  ∃ N, ∀ n ≥ N, ∀ w', Evolves w w' → ∃ p w₁ w₂, Evolves w' w₁ ∧ key.render {} {} n w₁ = .ok p w₂ ∧
    x n w' = .error (refusal p) w₂ ∧
    ((∃ d, ComesTo inside w key d ∧ d.Whole) → p.1 = .ok ())

theorem refuse_apply {n : Nat} {w w' : World} {p : Except Error Unit × Sink}
    (h : key.render {} {} n w = .ok p w') :
    (Act.refuse key : Act α) n w = .error (refusal p) w' := by
  obtain ⟨r, s⟩ := p
  rw [Act.refuse, Act.bind_apply, Value.display, Act.bind_apply, Value.shown, Act.bind_of_ok h]
  cases r with
  | ok => rfl
  | error e => cases e <;> rfl

/-- An action that comes to a refusal of a finite key refuses it. -/
theorem refuses_of_becomes {x : Act α} (hw : Orderly w) (hkey : ∃ d, ComesTo inside w key d)
    (h : x.Becomes w (Act.refuse key)) : x.Refuses inside w key := by
  obtain ⟨d, hd, hwhole⟩ : ∃ d, ComesTo inside w key d ∧
      ((∃ d, ComesTo inside w key d ∧ d.Whole) → d.Whole) := by
    by_cases hex : ∃ d, ComesTo inside w key d ∧ d.Whole
    · exact ⟨hex.choose, hex.choose_spec.1, fun _ => hex.choose_spec.2⟩
    · exact ⟨hkey.choose, hkey.choose_spec, fun h => absurd h hex⟩
  obtain ⟨k, hd⟩ := hd
  obtain ⟨N, h⟩ := h
  refine ⟨max N (k + 2), fun n hn w' hev => ?_⟩
  obtain ⟨w₁, hev₁, hx⟩ := h n (Nat.le_trans (Nat.le_max_left ..) hn) w' hev
  have hev' := hev.trans hev₁
  obtain ⟨p, w₂, hp, -, htext⟩ := render_gives (n := n) (hev'.orderly hw) (by omega) (by omega)
    (hev'.means hw hd)
  exact ⟨p, w₁, w₂, hev₁, hp, hx.trans (refuse_apply hp), fun hex => htext (hwhole hex)⟩

/-! ### Small maps -/

/-- Pairs with new keys go to the end of the entries. -/
theorem appendNew_becomes (hK : K.Tells inside w P) (rest : List (Value × Value)) :
    ∀ {front : List (Value × Value)} {entries : Array (Value × Value)},
      K.Distinct (entries.toList ++ front) → (∀ e ∈ entries.toList ++ front, P e.1) →
        (Map.appendNew entries (front ++ rest)).Becomes w
          (Map.appendNew (entries ++ front.toArray) rest)
  | [], entries, _, _ => by
    simpa using Act.Becomes.refl (Map.appendNew entries rest) w
  | x :: front, entries, hd, hr => by
    have hindex := hK.index_settles (hK.finite (hr x (by simp))) fun e he =>
      hr e (List.mem_append_left _ he)
    have hnew : (entries.toList.findIdx? fun e => K.same e.1 x.1) = none := by
      rw [List.findIdx?_eq_none_iff]
      exact fun e he => (List.pairwise_append.mp hd).2.2 e he x (List.mem_cons_self ..)
    rw [hnew] at hindex
    have hpush : (entries.push x).toList ++ front = entries.toList ++ x :: front := by
      rw [Array.toList_push, List.append_assoc, List.singleton_append]
    refine (Act.Becomes.of_settles hindex _).trans ?_
    have harray : entries ++ (x :: front).toArray = entries.push x ++ front.toArray := by simp
    rw [harray]
    exact appendNew_becomes hK rest (by rwa [hpush]) (by rwa [hpush])

/-- A pair whose key is there is refused. -/
theorem appendNew_refuses (hw : Orderly w) {entries : Array (Value × Value)}
    (hr : ∀ e ∈ entries.toList, Regular inside w e.1) (he : Regular inside w e.1)
    (hk : (w.keying inside).hasKey e.1 entries.toList = true) (back : List (Value × Value)) :
    (Map.appendNew entries (e :: back)).Becomes w (Act.refuse e.1) := by
  have hindex := (World.tells_keying inside hw).index_settles he.finite hr
  rw [← Keying.hasKey_of_findIdx?] at hk
  obtain ⟨i, hi⟩ := Option.isSome_iff_exists.mp hk
  rw [hi] at hindex
  exact .of_settles hindex _

/-! ### Hashed maps -/

theorem putNew_becomes (hK : K.Tells inside w P) (rest : List (Value × Value)) :
    ∀ {front : List (Value × Value)} {h : HashMap Value Value}, h.Sound K →
      K.Distinct (h.toList ++ front) → (∀ e ∈ h.toList ++ front, P e.1) →
        (h.putNew (front ++ rest)).Becomes w ((h.assocEach K front).putNew rest)
  | [], h, _, _, _ => .refl _ w
  | x :: front, h, hs, hd, hr => by
    have hput := hK.put_settles (fun e he => hr e (List.mem_append_left _ he))
      (hK.finite (hr x (by simp))) x.2
    have hnew : K.hasKey x.1 h.toList = false :=
      Keying.hasKey_eq_false.mpr fun e he =>
        (List.pairwise_append.mp hd).2.2 e he x (List.mem_cons_self ..)
    have hadded : (h.insert K x.1 x.2).2 = true := by
      rw [hs.insert_new hK.coherent, hnew]
      rfl
    have hperm : ((h.assoc K x.1 x.2).toList ++ front).Perm (h.toList ++ x :: front) := by
      have hp := hs.toList_assoc hK.coherent x.1 x.2
      rw [Keying.without_of_not_hasKey hnew] at hp
      exact (hp.append_right front).trans List.perm_middle.symm
    refine (Act.Becomes.of_settles hput _).trans ?_
    show (if (h.insert K x.1 x.2).2 then (h.assoc K x.1 x.2).putNew (front ++ rest) else _).Becomes w _
    rw [if_pos hadded]
    exact putNew_becomes hK rest (hs.assoc hK.coherent x.1 x.2)
      (hK.coherent.distinct_perm hperm.symm hd) fun e he => hr e (hperm.subset he)

theorem putNew_refuses (hw : Orderly w) {h : HashMap Value Value} (hs : h.Sound (w.keying inside))
    (hr : ∀ e ∈ h.toList, Regular inside w e.1) (he : Regular inside w e.1)
    (hk : (w.keying inside).hasKey e.1 h.toList = true) (back : List (Value × Value)) :
    (h.putNew (e :: back)).Becomes w (Act.refuse e.1) := by
  have hadded : (h.insert (w.keying inside) e.1 e.2).2 = false := by
    rw [hs.insert_new (World.lawful_keying inside hw), hk]
    rfl
  refine (Act.Becomes.of_settles ((World.tells_keying inside hw).put_settles hr he.finite e.2) _).trans ?_
  show (if (h.insert (w.keying inside) e.1 e.2).2 then
    (h.assoc (w.keying inside) e.1 e.2).putNew back else Act.refuse e.1).Becomes w _
  rw [hadded]
  exact .refl _ w

/-! ### Pairs -/

/-- Pairs of which no two have equal keys make a small map and a hashed map of themselves. -/
theorem build_settles (hK : K.Tells inside w P) (hd : K.Distinct pairs) (hr : ∀ e ∈ pairs, P e.1) :
    (Map.smallOfPairs pairs).Settles w (.small pairs.toArray) ∧
      (Map.hashedOfPairs pairs).Settles w (.hashed (HashMap.empty.assocEach K pairs)) := by
  have hsmall : (Map.appendNew #[] (pairs ++ [])).Becomes w
      (Map.appendNew (#[] ++ pairs.toArray) []) := appendNew_becomes hK [] hd hr
  have hhashed := putNew_becomes hK [] (h := HashMap.empty) HashMap.sound_empty hd hr
  rw [List.append_nil] at hsmall hhashed
  rw [Array.empty_append] at hsmall
  exact ⟨hsmall.settles.bind (.pure _ w), hhashed.settles.bind (.pure _ w)⟩

/-- Both builders refuse the first key that is equal to an earlier one. -/
theorem build_refuses (hw : Orderly w) (hd : (w.keying inside).Distinct front)
    (hr : ∀ x ∈ front, Regular inside w x.1) (he : Regular inside w e.1)
    (hk : (w.keying inside).hasKey e.1 front = true) (back : List (Value × Value)) :
    (Map.smallOfPairs (front ++ e :: back)).Refuses inside w e.1 ∧
      (Map.hashedOfPairs (front ++ e :: back)).Refuses inside w e.1 := by
  have hK := World.tells_keying inside hw
  obtain ⟨hs, hp⟩ := HashMap.sound_empty.assocEach (m := HashMap.empty) hK.coherent hd
  have hhas : (w.keying inside).hasKey e.1
      (HashMap.empty.assocEach (w.keying inside) front).toList = true := by
    obtain ⟨x, hx, hsame⟩ := Keying.exists_of_hasKey hk
    exact List.any_eq_true.mpr ⟨x, hp.symm.subset hx, hsame⟩
  have hfront : (Map.appendNew #[] (front ++ e :: back)).Becomes w
      (Map.appendNew (#[] ++ front.toArray) (e :: back)) := appendNew_becomes hK (e :: back) hd hr
  have hsmall : (Map.appendNew #[] (front ++ e :: back)).Becomes w (Act.refuse e.1) :=
    hfront.trans (appendNew_refuses hw (by simpa using hr) he (by simpa using hk) back)
  have hhashed := (putNew_becomes hK (e :: back) (h := HashMap.empty) HashMap.sound_empty hd hr).trans
    (putNew_refuses hw hs (fun x hx => hr x (hp.subset hx)) he hhas back)
  constructor
  · refine refuses_of_becomes hw he.finite ?_
    have := hsmall.bind fun entries => pure (Map.small entries)
    rwa [refuse_bind] at this
  · refine refuses_of_becomes hw he.finite ?_
    have := hhashed.bind fun h => pure (Map.hashed h)
    rwa [refuse_bind] at this

end LispCore
