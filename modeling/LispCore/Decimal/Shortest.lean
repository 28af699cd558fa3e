/-!
The shortest decimal that reads back as a given binary64 number. A positive finite double is
`m · 2^q`; every real between its two half-way neighbours rounds to it, the ends included when `m`
is even. For one, two, … seventeen digits the value's lower and upper neighbour on that decimal
grid are tried in exact arithmetic: the first grid with a hit wins, the nearer of two hits is taken,
and a tie goes up.
-/

namespace LispCore

/-- A decimal number `digits · 10^exponent`. -/
structure Decimal where
  digits : Nat
  exponent : Int
deriving DecidableEq, Repr, Inhabited

namespace Decimal

/-- A positive finite double with the reals that round to it, over the common denominator `den`:
the value is `val / den`, the ends of the interval are `low / den` and `high / den`. -/
structure Interval where
  val : Nat
  low : Nat
  high : Nat
  den : Nat
  closed : Bool
deriving Repr

/-- The interval of `m · 2^(e - 1074)` in quarters of its last place; below a power of two the
neighbour is only half as far away. -/
def Interval.ofScaled (m e : Nat) (narrow : Bool) : Interval :=
  let down := if narrow then 1 else 2
  let scale := Nat.pow 2 e
  { val := 4 * m * scale, low := (4 * m - down) * scale, high := (4 * m + 2) * scale
    den := Nat.pow 2 1076, closed := m % 2 == 0 }

/-- The interval of the double with these magnitude bits (sign bit clear, finite, not zero). -/
def Interval.ofBits (bits : Nat) : Interval :=
  let fraction := bits % 0x10000000000000
  let biased := bits / 0x10000000000000
  if biased = 0 then .ofScaled fraction 0 false
  else .ofScaled (0x10000000000000 + fraction) (biased - 1) (fraction == 0 && 1 < biased)

/-- Whether the grid point `digits · 10^exponent` rounds to the number. -/
def Interval.holds (i : Interval) (d : Decimal) : Bool :=
  let point := d.digits * Nat.pow 10 d.exponent.toNat * i.den
  let scale := Nat.pow 10 (-d.exponent).toNat
  if i.closed then i.low * scale ≤ point && point ≤ i.high * scale
  else i.low * scale < point && point < i.high * scale

/-- The greatest grid point `d · 10^exponent` that is not above the value. -/
def Interval.floorAt (i : Interval) (exponent : Int) : Nat :=
  (i.val * Nat.pow 10 (-exponent).toNat) / (i.den * Nat.pow 10 exponent.toNat)

/-- The number `k` with `10^(k-1) ≤ val / den < 10^k`. -/
def Interval.magnitude (i : Interval) : Int :=
  if i.den ≤ i.val then ((Nat.toDigits 10 (i.val / i.den)).length : Int)
  else
    let zeros := (List.range 400).find? fun j => i.den ≤ i.val * Nat.pow 10 (j + 1)
    Int.negOfNat (zeros.getD 0)

/-- The point of the grid of `count` digits that reads back, if there is one. -/
def Interval.pointWith (i : Interval) (count : Nat) : Option Decimal :=
  let exponent := i.magnitude - count
  let below := i.floorAt exponent
  let lower : Decimal := ⟨below, exponent⟩
  let upper : Decimal := ⟨below + 1, exponent⟩
  match i.holds lower, i.holds upper with
  | true, true =>
    -- twice the value against the sum of the two neighbours
    let twice := 2 * i.val * Nat.pow 10 (-exponent).toNat
    let sum := (2 * below + 1) * Nat.pow 10 exponent.toNat * i.den
    some (if twice < sum then lower else upper)
  | true, false => some lower
  | false, true => some upper
  | false, false => none

/-- Seventeen digits always suffice. -/
def Interval.shortest (i : Interval) : Decimal :=
  ((List.range 17).findSome? fun n => i.pointWith (n + 1)).getD ⟨0, 0⟩

/-- Drops trailing zeros of the digits; `rounds` bounds their number. -/
def trim (d : Decimal) : (rounds : Nat) → Decimal
  | 0 => d
  | rounds + 1 =>
    if d.digits % 10 = 0 then trim ⟨d.digits / 10, d.exponent + 1⟩ rounds else d

/-- The shortest decimal of the double with these magnitude bits. -/
def shortest (bits : Nat) : Decimal :=
  if bits = 0 then ⟨0, 0⟩ else (Interval.ofBits bits).shortest.trim 20

end Decimal

end LispCore
