/-
# Lisplet.Store.Printer -- the written form of a value

Lists are written with their elements parted by blanks and a rest that is no list behind a dot.  The
printer remembers the pairs on the way from the outermost one to where it is; a reference back to one
of them is written as `...` and not followed.  Pairs that are merely shared are written out each time.
-/

import Lisplet.Store

namespace Lisplet

/-- The written form of a datum other than a pair. -/
def Datum.leafText : Datum → String
  | .nil => "()"
  | .atom a => a.text
  | .closure _ => "<lambda>"
  | .native _ => "<native-fn>"
  | .hash _ => "<hash>"
  | .pair _ => ""

namespace Store

/-- The written form of a pair without its parentheses.  `path` holds the pairs that are being
written; `n` bounds how many more can be entered. -/
def innerText (s : Store) : Nat → List CellId → CellId → String
  | 0, _, _ => ""
  | n + 1, path, c =>
    let path := c :: path
    let cell := s.cell c
    let first := match cell.car.datum with
      | .pair d => if path.contains d then "..." else "(" ++ innerText s n path d ++ ")"
      | leaf => leaf.leafText
    match cell.cdr with
    | none => first
    | some rest =>
      match rest.datum with
      | .nil => first
      | .pair d =>
        if path.contains d then first ++ " . ..." else first ++ " " ++ innerText s n path d
      | leaf => first ++ " . " ++ leaf.leafText

/-- The written form of a value. -/
def text (s : Store) (v : Value) : String :=
  match v.datum with
  | .pair c => "(" ++ s.innerText (s.cells.size + 1) [] c ++ ")"
  | leaf => leaf.leafText

/-- The written form of a value together with its place, for whoever traces a program. -/
def placedText (s : Store) (v : Value) : String :=
  "Value(" ++ s.text v ++ " @ " ++ v.provenance.location.text ++ ")"

end Store

end Lisplet
