/-
# Lisplet.Store.Elements -- the elements of a list

Following the rests of a chain of pairs either reaches its end, or something that is no list, or comes
back to a pair of the chain.  The store is finite, so a walk over more pairs than it has has come back.
-/

import Lisplet.Store

namespace Lisplet.Store

/-- Follow a chain for at most `n` pairs; `seen` holds the elements so far, newest first. -/
def walk (s : Store) : Nat → CellId → List Value → Except ListFault (List Value)
  | 0, _, _ => .error .circular
  | n + 1, c, seen =>
    let cell := s.cell c
    let seen := cell.car :: seen
    match cell.cdr with
    | none => .ok seen.reverse
    | some rest =>
      match rest.datum with
      | .nil => .ok seen.reverse
      | .pair next => walk s n next seen
      | _ => .error .improper

/-- The elements of a proper list in order. -/
def elements (s : Store) (v : Value) : Except ListFault (List Value) :=
  match v.datum with
  | .nil => .ok []
  | .pair c => s.walk (s.cells.size + 1) c []
  | _ => .error (.notList v.typeName)

end Lisplet.Store
