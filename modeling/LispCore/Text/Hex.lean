/-!
Hexadecimal text of natural numbers, in lower case. Reading takes either case and ignores no
character, so it undoes writing.
-/

namespace LispCore.Text

/-- The lower-case hexadecimal digits of a number. -/
def hex (n : Nat) : String := String.ofList (Nat.toDigits 16 n)

/-- The digits with zeros in front up to a width. -/
def hexPadded (width n : Nat) : String :=
  let digits := Nat.toDigits 16 n
  String.ofList (List.replicate (width - digits.length) '0' ++ digits)

/-- The value of a hexadecimal digit. -/
def hexDigit (c : Char) : Nat :=
  if c.isDigit then c.toNat - '0'.toNat else c.toLower.toNat - 'a'.toNat + 10

/-- The number that hexadecimal digits stand for. -/
def ofHex (s : String) : Nat := s.toList.foldl (fun n c => 16 * n + hexDigit c) 0

end LispCore.Text
