/-
# Lisplet.Store.Equality -- structural equality

Atoms are equal by content, functions and hash tables by identity, pairs when their halves are.  Two
pairs whose comparison has already begun are taken as equal, so a comparison ends on cyclic data as
well: it finds a difference exactly if following first halves and rests leads to one.
-/

import Lisplet.Store

namespace Lisplet.Store

/-- Compare the pending values in order; `assumed` holds the pairs of cells whose comparison has
begun, and `n` bounds the number of comparisons. -/
def equalAll (s : Store) : Nat → List (Value × Value) → List (CellId × CellId) → Bool
  | _, [], _ => true
  | 0, _ :: _, _ => false
  | n + 1, (x, y) :: pending, assumed =>
    match x.datum, y.datum with
    | .nil, .nil => equalAll s n pending assumed
    | .atom a, .atom b => a.equals b && equalAll s n pending assumed
    | .native p, .native q => p == q && equalAll s n pending assumed
    | .closure k, .closure l => k == l && equalAll s n pending assumed
    | .hash t, .hash u => t == u && equalAll s n pending assumed
    | .pair c, .pair d =>
      if c = d || assumed.contains (c, d) then equalAll s n pending assumed
      else
        let p := s.cell c
        let q := s.cell d
        match p.cdr, q.cdr with
        | some a, some b =>
          equalAll s n ((p.car, q.car) :: (a, b) :: pending) ((c, d) :: assumed)
        | none, none => equalAll s n ((p.car, q.car) :: pending) ((c, d) :: assumed)
        | _, _ => false
    | _, _ => false

/-- Each pair of cells is compared once and adds at most two comparisons. -/
def equalBound (s : Store) : Nat := 4 * ((s.cells.size + 1) * (s.cells.size + 1))

/-- Structural equality of two values. -/
def equal (s : Store) (x y : Value) : Bool := s.equalAll s.equalBound [(x, y)] []

end Lisplet.Store
