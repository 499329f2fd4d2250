/-
# Lisplet.Binary64.Shortest -- the fewest decimals that read back

For a finite magnitude that is not whole, the decimal with the fewest places among those that round
to it, and of those with that many places the nearest; of two equally near the greater.

The magnitudes that round to the pattern `p` lie between the midpoints to its two neighbours, and the
midpoints belong to it exactly when `p` is even.  A grid of `k` places has one point on either side of
the magnitude that matters: if any point of the grid rounds to `p`, one of these two does.
-/

import Lisplet.Binary64

namespace Lisplet.Binary64

/-- A decimal `digits / 10 ^ places`. -/
structure Decimal where
  digits : Nat
  places : Nat
deriving DecidableEq, Inhabited, Repr

/-- Twice the lower end of the magnitudes that round to `p`, in units. -/
def lowerEnd (p : Nat) : Nat := units (p - 1) + units p

/-- Twice the upper end of the magnitudes that round to `p`, in units. -/
def upperEnd (p : Nat) : Nat := units p + units (p + 1)

/-- Does `d / 10 ^ k`, not above the magnitude of `p`, round to `p`? -/
def fitsBelow (p k d : Nat) : Bool :=
  let point := 2 * d * unitsPerOne
  let limit := lowerEnd p * tenPow k
  if p % 2 = 0 then limit ≤ point else limit < point

/-- Does `d / 10 ^ k`, above the magnitude of `p`, round to `p`? -/
def fitsAbove (p k d : Nat) : Bool :=
  let point := 2 * d * unitsPerOne
  let limit := upperEnd p * tenPow k
  if p % 2 = 0 then point ≤ limit else point < limit

/-- The nearest decimal of `k` places that rounds to `p`, if there is one. -/
def onGrid (p k : Nat) : Option Decimal :=
  let below := units p * tenPow k / unitsPerOne
  match fitsBelow p k below, fitsAbove p k (below + 1) with
  | true, true =>
    if 2 * units p * tenPow k < (2 * below + 1) * unitsPerOne then some ⟨below, k⟩
    else some ⟨below + 1, k⟩
  | true, false => some ⟨below, k⟩
  | false, true => some ⟨below + 1, k⟩
  | false, false => none

/-- Try the grids of `k`, `k + 1`, … places.  The grid of 1074 places holds every finite magnitude, so
the search needs no more. -/
def searchFrom (p : Nat) : Nat → Nat → Decimal
  | 0, k => ⟨units p * tenPow k / unitsPerOne, k⟩
  | fuel + 1, k => (onGrid p k).getD (searchFrom p fuel (k + 1))

/-- The decimal with the fewest places, at least one, that rounds to the finite pattern `p`. -/
def shortest (p : Nat) : Decimal := searchFrom p 1073 1

end Lisplet.Binary64
