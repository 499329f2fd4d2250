/-
# Lisplet.Form -- data as it is written

A form is a tree of pairs over atoms and the empty list, every node with its position.  A pair without
a rest ends a list; the rest of a pair is never the empty list when the pair is built by `cons`, so a
list has one representation of its end.

`Form.text` writes a form as the language writes lists: elements parted by blanks, a rest that is no
list behind a dot.
-/

import Lisplet.Atom
import Lisplet.Location

namespace Lisplet

/-- A located datum tree. -/
inductive Form where
  | atom (position : Position) (a : Atom)
  | empty (position : Position)
  /-- A pair without a rest: the last element of a list. -/
  | single (position : Position) (car : Form)
  | pair (position : Position) (car cdr : Form)
deriving DecidableEq, Inhabited

namespace Form

def position : Form → Position
  | atom p _ | empty p | single p _ | pair p _ _ => p

/-- The same tree with its topmost node at `p`. -/
def moveTo (p : Position) : Form → Form
  | atom _ a => atom p a
  | empty _ => empty p
  | single _ car => single p car
  | pair _ car cdr => pair p car cdr

/-- A pair at `p`; an empty rest is the same as none. -/
def cons (p : Position) (car : Form) : Option Form → Form
  | none | some (empty _) => single p car
  | some cdr => pair p car cdr

/-- The two-element list `(quote f)`, all of it at the position of the quote. -/
def quoting (p : Position) (f : Form) : Form :=
  pair p (atom p (.symbol "quote")) (single p f)

/-- The list that opened at `p`, from its elements, newest first, and its rest.  Each cell stands
where its element does, save the first, which stands at `p`. -/
def ofItems (p : Position) (newestFirst : List Form) (tail : Option Form) : Form :=
  match newestFirst.foldl (fun rest f => some (cons f.position f rest)) tail with
  | none => empty p
  | some f => f.moveTo p

mutual

/-- The written form of a tree. -/
def text : Form → String
  | atom _ a => a.text
  | empty _ => "()"
  | single _ car => "(" ++ text car ++ ")"
  | pair _ car cdr => "(" ++ text car ++ restText cdr ++ ")"

/-- The written form of the rest of a list, up to its closing parenthesis. -/
def restText : Form → String
  | atom _ a => " . " ++ a.text
  | empty _ => ""
  | single _ car => " " ++ text car
  | pair _ car cdr => " " ++ text car ++ restText cdr

end

end Form

end Lisplet
