/-
# Lisplet.Binary64.Text -- how numbers are written

A finite number is written as digits, a point and digits, never with an exponent.  A whole number is
written exactly with one place; any other with the fewest places that read back.  The sign of zero is
kept.  The remaining patterns are written as words.
-/

import Lisplet.Binary64.Shortest

namespace Lisplet.Binary64

/-- Is the magnitude of the finite pattern `p` a whole number? -/
def isWhole (p : Nat) : Bool := units p % unitsPerOne = 0

/-- `d / 10 ^ k` in positional notation, with all `k` places. -/
def Decimal.chars (d : Decimal) : List Char :=
  let fraction := Nat.toDigits 10 (d.digits % tenPow d.places)
  Nat.toDigits 10 (d.digits / tenPow d.places) ++ '.' ::
    (List.replicate (d.places - fraction.length) '0' ++ fraction)

/-- The magnitude of a finite pattern. -/
def magnitudeChars (p : Nat) : List Char :=
  if isWhole p then Nat.toDigits 10 (units p / unitsPerOne) ++ ['.', '0']
  else (shortest p).chars

/-- The written form of a number. -/
def chars (x : Binary64) : List Char :=
  if x.isNaN then ['N', 'a', 'N']
  else if x.isInfinite then
    if x.isNegative then ['-', 'I', 'n', 'f'] else ['+', 'I', 'n', 'f']
  else if x.isNegative then '-' :: magnitudeChars x.pattern
  else magnitudeChars x.pattern

end Lisplet.Binary64
