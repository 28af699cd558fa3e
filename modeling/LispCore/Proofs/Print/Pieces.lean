import LispCore.Print.Render
import LispCore.Proofs.Act
/-!
Writing piece by piece. In a sink that takes everything the pieces of an atom come to one text
(`Writing.puts_apply`). For a name that is the text that reads back to it (`join_namePieces`), and for
an integer its decimal numeral (`join_intPieces`).
-/

namespace LispCore

/-! ### Steps -/

section

variable {α β : Type} {n : Nat} {w w' : World} {s s' : Sink} {a : α}

theorem Writing.bind_apply (x : Writing α) (f : α → Writing β) (s : Sink) :
    (x >>= f) s = (x.runOn s >>= fun p => match p.1 with
      | .ok a => f a p.2
      | .error e => pure (.error e, p.2) : Act (Except Error β × Sink)) := by
  refine bind_congr (m := Act) (x := x.runOn s) fun p => ?_
  obtain ⟨r, s⟩ := p
  cases r <;> rfl

theorem Writing.bind_of_ok {x : Writing α} {f : α → Writing β} (h : x s n w = .ok (.ok a, s') w') :
    (x >>= f) s n w = f a s' n w' := by
  rw [Writing.bind_apply]
  exact Act.bind_of_ok h

theorem Writing.act_of_ok {x : Act α} (h : x n w = .ok a w') :
    Writing.act x s n w = .ok (.ok a, s) w' := Act.bind_of_ok (Act.attempt_of_ok h)

theorem Writing.put_apply (piece text : String) (n : Nat) (w : World) :
    Writing.put piece ⟨text, none⟩ n w = .ok (.ok (), ⟨text ++ piece, none⟩) w := rfl

theorem Writing.puts_apply : ∀ (pieces : List String) (text : String) (n : Nat) (w : World),
    Writing.puts pieces ⟨text, none⟩ n w = .ok (.ok (), ⟨text ++ String.join pieces, none⟩) w
  | [], text, n, w => by
    rw [String.join_nil, String.append_empty]
    rfl
  | piece :: pieces, text, n, w => by
    rw [String.join_cons, ← String.append_assoc, ← puts_apply pieces (text ++ piece) n w]
    exact Writing.bind_of_ok (Writing.put_apply ..)

end

/-! ### Atoms -/

namespace Print

theorem join_namePieces {kind : NameKind} (n : Name kind) :
    String.join (namePieces n) = n.text := by
  have hpath : String.join (namePieces.path n) = n.path := by
    unfold namePieces.path Name.path
    cases n.ns <;> simp [String.append_assoc]
  cases kind with
  | symbol => exact hpath
  | keyword => rw [namePieces, String.join_cons, hpath, Name.text]

theorem join_intPieces (i : Int64) : String.join (intPieces i) = toString i.toInt := by
  unfold intPieces
  by_cases hi : i < 0
  · obtain ⟨m, hm⟩ := Int.eq_negSucc_of_lt_zero (Int64.lt_iff_toInt_lt.mp hi)
    simp only [if_pos hi, hm]
    rfl
  · have hpos : 0 ≤ i.toInt := Int.not_lt.mp fun h => hi (Int64.lt_iff_toInt_lt.mpr h)
    obtain ⟨m, hm⟩ := Int.eq_ofNat_of_zero_le hpos
    simp only [if_neg hi, hm]
    rfl

end Print

end LispCore
