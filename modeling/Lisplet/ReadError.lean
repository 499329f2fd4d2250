/-
# Lisplet.ReadError -- why a text cannot be read

The ten ways in which a text can be malformed, each reported at a position: three are faults of a
single lexeme, the others of the order of the tokens.
-/

import Lisplet.Location

namespace Lisplet

/-- A way in which a text is malformed. -/
inductive ReadFault where
  /-- A word that begins with `#` and is no boolean. -/
  | unknownLiteral (word : String)
  /-- An integer outside the sixty-four bit range. -/
  | integerOutOfRange (word : String)
  | unterminatedString
  /-- The text ends inside a list. -/
  | unclosedList
  /-- The text ends behind a quote. -/
  | quoteAtEnd
  | unexpectedClose
  | unexpectedDot
  /-- A dot that no element of its list precedes. -/
  | leadingDot
  /-- A dot directly before the end of its list. -/
  | trailingDot
  /-- Something other than the end of the list behind the form that follows a dot. -/
  | crowdedTail
deriving DecidableEq, Inhabited, Repr

/-- The wording of a fault. -/
def ReadFault.message : ReadFault → String
  | unknownLiteral word => "unknown literal '" ++ word ++ "'"
  | integerOutOfRange word => "integer literal out of range '" ++ word ++ "'"
  | unterminatedString => "unterminated string"
  | unclosedList => "unclosed parenthesis"
  | quoteAtEnd => "quote at end of input"
  | unexpectedClose => "unexpected ')'"
  | unexpectedDot => "unexpected '.'"
  | leadingDot => "'.' with no preceding form"
  | trailingDot => "'.' must be followed by a form"
  | crowdedTail => "more than one form after '.'"

/-- A fault and the position at which it is reported. -/
structure ReadError where
  fault : ReadFault
  position : Position
deriving DecidableEq, Inhabited, Repr

end Lisplet
