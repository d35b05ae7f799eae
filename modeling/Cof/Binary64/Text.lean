/-
  Floating numbers as decimal text.

  A number is written with the fewest digits that read back as the same number; among those, with the
  nearest to it.  The digits that read back are the decimals in an interval around the number: half way
  to the neighbour on either side, the ends belonging to it when the significand is even.  The
  neighbour below a power of two is only half as far.  All of this is stated in quarters of a unit in
  the last place, where every end of the interval is a whole number.

  For one digit, two digits and so on the number has two neighbours on the grid of decimals with that
  many digits.  The first grid with a neighbour inside the interval gives the digits; if both are
  inside the nearer is taken, and of two equally near ones the larger.
-/
import Cof.Binary64

namespace Cof

/-- `digits` times ten to the power `exponent`. -/
structure Decimal where
  digits : Nat
  exponent : Int
deriving DecidableEq, Repr

namespace Decimal

def compareTo (d : Decimal) (n : Nat) (q : Int) : Ordering :=
  compare (d.digits * 10 ^ d.exponent.toNat * 2 ^ (-q).toNat)
    (n * 2 ^ q.toNat * 10 ^ (-d.exponent).toNat)

/-- The digits with the point in its place: zeros fill up to it on either side, and a fraction that is
all zeros is left out. -/
def positional (d : Decimal) : String :=
  let digits := Nat.toDigits 10 d.digits
  let places := (-d.exponent).toNat
  if 0 ≤ d.exponent then String.ofList (digits ++ List.replicate d.exponent.toNat '0')
  else
    let padded := List.replicate (places + 1 - digits.length) '0' ++ digits
    let whole := padded.take (padded.length - places)
    let fraction := ((padded.drop (padded.length - places)).reverse.dropWhile (· == '0')).reverse
    String.ofList (if fraction.isEmpty then whole else whole ++ '.' :: fraction)

end Decimal

namespace Binary64

/-- A power of ten above the number: the least, or the one after it. -/
def decimalPoint (x : Binary64) : Int :=
  let top : Int := (Nat.log2 x.significand : Int) + x.scale
  let guess := top * 30103 / 100000
  let below (e : Int) : Bool := (Decimal.mk 1 e).compareTo x.significand x.scale == .gt
  if below guess then guess else if below (guess + 1) then guess + 1 else guess + 2

/-- Whether a decimal reads back as the number, which is finite and not zero. -/
def readsBack (x : Binary64) (d : Decimal) : Bool :=
  let m := x.significand
  let halfBelow := if m = 2 ^ 52 ∧ 2 ^ 53 ≤ x.magnitude then 1 else 2
  let low := d.compareTo (4 * m - halfBelow) (x.scale - 2)
  let high := d.compareTo (4 * m + 2) (x.scale - 2)
  if m % 2 = 0 then low != .lt && high != .gt else low == .gt && high == .lt

/-- The neighbour of the number on the grid of decimals with `count` digits that is to be written, if
one of them reads back. -/
def shortestWith (x : Binary64) (count : Nat) : Option Decimal :=
  let exponent := x.decimalPoint - (count : Int)
  let lower := x.significand * 2 ^ x.scale.toNat * 10 ^ (-exponent).toNat
    / (10 ^ exponent.toNat * 2 ^ (-x.scale).toNat)
  let below : Decimal := ⟨lower, exponent⟩
  let above : Decimal := ⟨lower + 1, exponent⟩
  match x.readsBack below, x.readsBack above with
  | true, true =>
    -- the number against the middle of the two
    if (Decimal.mk (2 * lower + 1) exponent).compareTo (2 * x.significand) x.scale == .gt
    then some below else some above
  | true, false => some below
  | false, true => some above
  | false, false => none

/-- The decimal with the fewest digits that reads back as a number that is finite and not zero. -/
def shortest (x : Binary64) : Decimal :=
  match (List.range' 1 17).findSome? x.shortestWith with
  | some d => d
  | none => ⟨x.significand * 2 ^ x.scale.toNat * 5 ^ (-x.scale).toNat, min 0 x.scale⟩

/-- How messages write a number: all digits in place and no exponent. -/
def text (x : Binary64) : String :=
  let size :=
    if x.isInfinite then "inf"
    else if x.magnitude = 0 then "0"
    else x.shortest.positional
  if x.isNegative then "-" ++ size else size

end Binary64

end Cof
