import LispCore.Proofs.Print.Pieces
import Mathlib.Tactic.SplitIfs
/-!
Reading printed strings. Beside the escaper stands a reader that undoes an escape at a time and stops at the
first quote that none of them covers. It takes in exactly what one character was escaped to
(`readEscaped_escapeChar`), so it gets through the inside of a printed string to the closing quote and leaves
what stands behind it alone. A printed string is thus told apart from whatever follows it, and no two strings
are printed alike (`strings_delimit_themselves`).
-/

namespace LispCore.Print

/-- The character that is written so behind a backslash. -/
def unescapeChar (c : Char) : Char :=
  if c = 'n' then '\n' else if c = 't' then '\t' else if c = 'r' then '\r' else c

/-- Reads the inside of a string up to its closing quote: the characters, and what stands behind the quote. -/
def readEscaped : List Char → Option (List Char × List Char)
  | [] => none
  | '"' :: rest => some ([], rest)
  | ['\\'] => none
  | '\\' :: c :: rest => (readEscaped rest).map fun r => (unescapeChar c :: r.1, r.2)
  | c :: rest => (readEscaped rest).map fun r => (c :: r.1, r.2)

/-- Reads a string in quotes: the string, and the text behind it. -/
def readString (text : String) : Option (String × String) :=
  match text.toList with
  | '"' :: rest => (readEscaped rest).map fun r => (String.ofList r.1, String.ofList r.2)
  | _ => none

/-- One escaped character is read as itself, and reading goes on behind it. -/
theorem readEscaped_escapeChar (c : Char) (rest : List Char) :
    readEscaped (escapeChar c ++ rest) = (readEscaped rest).map fun r => (c :: r.1, r.2) := by
  unfold escapeChar
  split_ifs with hn ht hr hslash hquote
  · subst hn
    rfl
  · subst ht
    rfl
  · subst hr
    rfl
  · subst hslash
    rfl
  · subst hquote
    rfl
  -- neither a quote nor a backslash, so the character is taken as it stands
  · simp [readEscaped, hslash]

/-- The inside of a string is read as the string, and reading stops at the closing quote. -/
theorem readEscaped_escape (cs rest : List Char) :
    readEscaped (escape cs ++ '"' :: rest) = some (cs, rest) := by
  induction cs with
  | nil => rfl
  | cons c cs ih =>
    have hcons : escape (c :: cs) = escapeChar c ++ escape cs := rfl
    rw [hcons, List.append_assoc, readEscaped_escapeChar, ih]
    rfl

/-- The pieces of a string in quotes, put together. -/
def stringText (s : String) : String := String.join (stringPieces s)

theorem stringText_toList (s : String) : (stringText s).toList = '"' :: (escape s.toList ++ ['"']) := by
  simp [stringText, stringPieces]

/-- A string in quotes is read back, whatever stands behind it. -/
theorem readString_stringText (s rest : String) : readString (stringText s ++ rest) = some (s, rest) := by
  have hlist : (stringText s ++ rest).toList = '"' :: (escape s.toList ++ '"' :: rest.toList) := by
    simp [stringText_toList]
  simp only [readString, hlist, readEscaped_escape, Option.map_some, String.ofList_toList]

theorem stringText_append_inj {s t a b : String} :
    stringText s ++ a = stringText t ++ b ↔ s = t ∧ a = b := by
  refine ⟨fun h => ?_, fun ⟨hs, ha⟩ => hs ▸ ha ▸ rfl⟩
  have hread := readString_stringText s a
  rw [h, readString_stringText] at hread
  obtain ⟨ht, hb⟩ := Prod.mk.inj (Option.some.inj hread)
  exact ⟨ht.symm, hb.symm⟩

/-- Readably, a string is printed in quotes in every world. -/
theorem print_str (limit : Option Nat) (s : String) (n : Nat) (w : World) :
    (Value.str s).print ⟨true, limit⟩ (n + 1) w = .ok (stringText s) w := by
  have hputs : (Value.str s).render ⟨true, limit⟩ {} (n + 1) w =
      Writing.puts (stringPieces s) {} (n + 1) w := by
    have hbudget : Act.budget (n + 1) w = .ok (n + 1) w := rfl
    exact Writing.bind_of_ok (Writing.act_of_ok hbudget)
  rw [Value.print, Act.bind_of_ok (hputs.trans (Writing.puts_apply ..)), String.empty_append]
  rfl

/-- Readably printed strings delimit themselves. Two of them, each with some text behind it, make the
same text only when the strings are the same and so is what stands behind them; the reader finds the end
of the string and recovers it. -/
theorem strings_delimit_themselves (limit limit' : Option Nat) (s t a b : String) : ∃ x y,
    (∀ n w, (Value.str s).print ⟨true, limit⟩ (n + 1) w = .ok x w) ∧
    (∀ n w, (Value.str t).print ⟨true, limit'⟩ (n + 1) w = .ok y w) ∧
    (x ++ a = y ++ b ↔ s = t ∧ a = b) ∧ readString (x ++ a) = some (s, a) :=
  ⟨_, _, print_str limit s, print_str limit' t, stringText_append_inj, readString_stringText s a⟩

end LispCore.Print
