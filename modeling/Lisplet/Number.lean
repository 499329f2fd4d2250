/-
# Lisplet.Number -- integers and floating point numbers

Integers have sixty-four bits and wrap around.  A sum is an integer only if both terms are; otherwise
both are taken as floating point numbers.  Numbers of different kinds are never equal.
-/

import Lisplet.Binary64.Text

namespace Lisplet

/-- A number: an integer that wraps around, or a floating point number. -/
inductive Number where
  | int (n : Int64)
  | float (x : Binary64)
deriving DecidableEq, Inhabited

namespace Number

def isFloat : Number → Bool
  | int _ => false
  | float _ => true

/-- The number as a floating point number, rounded to nearest. -/
def toFloat : Number → Binary64
  | int n => Binary64.ofInt n.toInt
  | float x => x

/-- The sum.  One floating point term makes it a floating point sum. -/
def add : Number → Number → Number
  | int m, int n => int (m + n)
  | a, b => float (a.toFloat.add b.toFloat)

/-- Numeric equality within one kind. -/
def equals : Number → Number → Bool
  | int m, int n => m == n
  | float x, float y => x.equals y
  | _, _ => false

/-- The written form of an integer: an optional minus and its digits. -/
def intChars (n : Int) : List Char :=
  if n < 0 then '-' :: Nat.toDigits 10 n.natAbs else Nat.toDigits 10 n.natAbs

/-- The written form of a number. -/
def chars : Number → List Char
  | int n => intChars n.toInt
  | float x => x.chars

/-- The written form of a number, as a text. -/
def text (n : Number) : String := String.ofList n.chars

end Number

end Lisplet
