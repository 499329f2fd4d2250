/-
# Lisplet.Binary64 -- sixty-four bit floating point numbers, exactly

A number is its bit pattern.  The sixty-three bits below the sign, read as a natural number, order the
magnitudes: zero, the subnormal numbers, the normal numbers, infinity, and then the patterns that are
not a number.  Every finite magnitude is a whole number of *units* of `2 ^ (-1074)`, so sums are sums
of integers and rounding is one division.

`nearest` is the only place where anything is rounded: to the nearest pattern, a tie going to the even
one, and past the last finite pattern to infinity.
-/

namespace Lisplet

/-- A sixty-four bit floating point number, held as its bit pattern. -/
structure Binary64 where
  bits : UInt64
deriving DecidableEq, Inhabited

namespace Binary64

/-! ## Patterns and magnitudes -/

/-- A power of two. -/
def twoPow (n : Nat) : Nat := Nat.pow 2 n

/-- A power of ten. -/
def tenPow (n : Nat) : Nat := Nat.pow 10 n

/-- The number of patterns in one binade. -/
def binade : Nat := twoPow 52

/-- The weight of the sign bit. -/
def signWeight : Nat := twoPow 63

/-- The pattern of infinity; the greater patterns are not a number. -/
def infinityPattern : Nat := 0x7ff * binade

/-- One, as a number of units. -/
def unitsPerOne : Nat := twoPow 1074

/-- Is the sign bit set? -/
def isNegative (x : Binary64) : Bool := signWeight ≤ x.bits.toNat

/-- The bits below the sign, as a natural number. -/
def pattern (x : Binary64) : Nat := x.bits.toNat % signWeight

/-- The number with the given sign and pattern. -/
def ofPattern (negative : Bool) (p : Nat) : Binary64 :=
  ⟨UInt64.ofNat (if negative then signWeight + p else p)⟩

/-- Not a number. -/
def nan : Binary64 := ofPattern false (infinityPattern + twoPow 51)

def isNaN (x : Binary64) : Bool := infinityPattern < x.pattern

def isInfinite (x : Binary64) : Bool := x.pattern == infinityPattern

def isFinite (x : Binary64) : Bool := x.pattern < infinityPattern

/-- How many times the significand of a finite pattern is doubled.  The subnormal numbers and the
first normal binade share the scale zero. -/
def scale (p : Nat) : Nat := p / binade - 1

/-- The significand of a finite pattern. -/
def significand (p : Nat) : Nat := p - scale p * binade

/-- The magnitude of a finite pattern, in units of `2 ^ (-1074)`. -/
def units (p : Nat) : Nat := significand p * twoPow (scale p)

/-- The value of a finite number, in units of `2 ^ (-1074)`. -/
def signedUnits (x : Binary64) : Int :=
  if x.isNegative then -(units x.pattern : Int) else (units x.pattern : Int)

/-! ## Rounding -/

/-- The whole number nearest to `num / den`; a tie goes to the even neighbour. -/
def divNearestEven (num den : Nat) : Nat :=
  let q := num / den
  let r := num % den
  if 2 * r < den then q else if den < 2 * r then q + 1 else q + q % 2

/-- The pattern nearest to `num / den` units; a tie goes to the even pattern. -/
def nearest (num den : Nat) : Nat :=
  let s := (num / den).log2 - 52
  min infinityPattern (s * binade + divNearestEven num (den * twoPow s))

/-- The number nearest to an integer. -/
def ofInt (n : Int) : Binary64 :=
  ofPattern (n < 0) (nearest (n.natAbs * unitsPerOne) 1)

/-- The number nearest to `digits / 10 ^ places`. -/
def ofDecimal (negative : Bool) (digits places : Nat) : Binary64 :=
  ofPattern negative (nearest (digits * unitsPerOne) (tenPow places))

/-! ## Arithmetic and comparison -/

/-- The sum, rounded to nearest.  A sum of zero is negative only if both terms are; infinities of
opposite sign have no sum. -/
def add (x y : Binary64) : Binary64 :=
  if x.isNaN || y.isNaN then nan
  else if x.isInfinite then
    if y.isInfinite && x.isNegative != y.isNegative then nan else x
  else if y.isInfinite then y
  else
    let total := x.signedUnits + y.signedUnits
    if total = 0 then ofPattern (x.isNegative && y.isNegative) 0
    else ofPattern (total < 0) (nearest total.natAbs 1)

/-- Numeric equality: the two zeros are equal, and what is not a number equals nothing. -/
def equals (x y : Binary64) : Bool :=
  !x.isNaN && !y.isNaN && (x.bits == y.bits || (x.pattern == 0 && y.pattern == 0))

end Binary64

end Lisplet
