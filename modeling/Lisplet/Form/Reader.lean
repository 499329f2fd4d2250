/-
# Lisplet.Form.Reader -- from tokens to forms

The reader takes one token at a time and holds a stack of what is still open: quotes that wait for
their form, and lists with the elements they have so far.  A complete form goes to the innermost open
construct; a quote passes it on at once.  At the end of the tokens the innermost open construct is the
one that is reported.

Reading stops at the first token that cannot continue what is open.  The forms that were complete by
then are kept beside the error.
-/

import Lisplet.Form
import Lisplet.Token.Scan

namespace Lisplet

/-- A construct that is still open.  Elements are held newest first. -/
inductive Pending where
  | quote (position : Position)
  | list (opening : Position) (items : List Form)
  /-- A list behind its dot, and the form that followed the dot. -/
  | dotted (opening dot : Position) (items : List Form) (tail : Option Form)
deriving DecidableEq, Inhabited

/-- The state between two tokens: what is open, innermost first, and the complete top-level forms,
newest first. -/
structure Reader where
  pending : List Pending := []
  forms : List Form := []
deriving DecidableEq, Inhabited

namespace Reader

/-- Hand a complete form to the innermost open construct. -/
def deliver (forms : List Form) : List Pending → Form → Reader
  | [], f => ⟨[], f :: forms⟩
  | .quote p :: rest, f => deliver forms rest (.quoting p f)
  | .list opening items :: rest, f => ⟨.list opening (f :: items) :: rest, forms⟩
  | .dotted opening dot items _ :: rest, f => ⟨.dotted opening dot items (some f) :: rest, forms⟩

/-- Read one token. -/
def step (r : Reader) (t : Token) : Except ReadError Reader :=
  match r.pending, t.kind with
  | .dotted opening _ items (some tail) :: rest, .rightParen =>
    .ok (deliver r.forms rest (.ofItems opening items (some tail)))
  | .dotted _ _ _ (some _) :: _, _ => .error ⟨.crowdedTail, t.position⟩
  | pending, .atom a => .ok (deliver r.forms pending (.atom t.position a))
  | pending, .quote => .ok { r with pending := .quote t.position :: pending }
  | pending, .leftParen => .ok { r with pending := .list t.position [] :: pending }
  | .list opening items :: rest, .rightParen =>
    .ok (deliver r.forms rest (.ofItems opening items none))
  | .dotted _ dot _ none :: _, .rightParen => .error ⟨.trailingDot, dot⟩
  | _, .rightParen => .error ⟨.unexpectedClose, t.position⟩
  | .list _ [] :: _, .dot => .error ⟨.leadingDot, t.position⟩
  | .list opening items :: rest, .dot =>
    .ok { r with pending := .dotted opening t.position items none :: rest }
  | _, .dot => .error ⟨.unexpectedDot, t.position⟩

/-- What is reported when the tokens end here. -/
def unfinished? (r : Reader) : Option ReadError :=
  match r.pending with
  | [] => none
  | .quote p :: _ => some ⟨.quoteAtEnd, p⟩
  | .list opening _ :: _ => some ⟨.unclosedList, opening⟩
  | .dotted opening _ _ _ :: _ => some ⟨.unclosedList, opening⟩

end Reader

/-- What reading a text gave: the complete top-level forms in order, and the error that ended the
reading, if one did. -/
structure Reading where
  forms : List Form
  error : Option ReadError
deriving DecidableEq, Inhabited

namespace Reading

/-- Read the remaining tokens. -/
def resume (r : Reader) : List Token → Reading
  | [] => ⟨r.forms.reverse, r.unfinished?⟩
  | t :: rest =>
    match r.step t with
    | .ok r' => Reading.resume r' rest
    | .error e => ⟨r.forms.reverse, some e⟩

/-- Read a sequence of tokens. -/
def ofTokens (tokens : List Token) : Reading := Reading.resume {} tokens

/-- Read a text.  All of it is scanned before any form is built. -/
def ofText (text : String) : Reading :=
  match tokenize text with
  | .ok tokens => ofTokens tokens
  | .error e => ⟨[], some e⟩

/-- The forms of a text that can be read to its end. -/
def toExcept (r : Reading) : Except ReadError (List Form) :=
  match r.error with
  | none => .ok r.forms
  | some e => .error e

end Reading

end Lisplet
