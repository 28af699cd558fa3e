import LispCore.Decimal.Shortest
/-!
How a floating-point number is written: positionally whatever its size, with a sign when its sign
bit is set, and always with a digit on both sides of the point. It comes in pieces, the sign, the digits,
the zeros and the point each by itself. The numbers that are not finite are `##NaN`, `##Inf` and
`##-Inf`.
-/

namespace LispCore.Decimal

/-- As many zeros, at most 64 in a piece. -/
def zeroPieces : (count : Nat) → List String
  | 0 => []
  | count + 1 =>
    List.replicate (count / 64) (String.ofList (List.replicate 64 '0')) ++
      [String.ofList (List.replicate (count % 64 + 1) '0')]

/-- A decimal in its positional form: its digits with zeros in front of them or behind them, and the
point, with at least one digit on each side. -/
def pieces (d : Decimal) : List String :=
  let digits := Nat.toDigits 10 d.digits
  match d.exponent with
  | .ofNat zeros => String.ofList digits :: zeroPieces zeros ++ [".0"]
  | .negSucc n =>
    let places := n + 1
    if digits.length ≤ places then
      "0." :: zeroPieces (places - digits.length) ++ [String.ofList digits]
    else
      let whole := digits.length - places
      [String.ofList (digits.take whole), ".", String.ofList (digits.drop whole)]

/-- The double with these bits: its sign, if its sign bit is set, and its magnitude. -/
def floatPieces (bits : UInt64) : List String :=
  let n := bits.toNat
  let magnitude := n % 0x8000000000000000
  let negative := 0x8000000000000000 ≤ n
  if 0x7FF0000000000000 < magnitude then ["##NaN"]
  else if magnitude = 0x7FF0000000000000 then [if negative then "##-Inf" else "##Inf"]
  else if negative then "-" :: (shortest magnitude).pieces
  else (shortest magnitude).pieces

end LispCore.Decimal
