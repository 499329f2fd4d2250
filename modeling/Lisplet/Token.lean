/-
# Lisplet.Token -- tokens and the classes of words

A token is a parenthesis, a quote, a dot or an atom, with the position of its first character.
`classify` decides what a bare word is.  The classes are tried in order: the dot, the words that begin
with `#`, decimals with a point, integers; every other word is a symbol.
-/

import Lisplet.Atom
import Lisplet.ReadError

namespace Lisplet

/-- What a token is. -/
inductive TokenKind where
  | leftParen
  | rightParen
  | quote
  | dot
  | atom (a : Atom)
deriving DecidableEq, Inhabited

/-- A token and the position of its first character. -/
structure Token where
  kind : TokenKind
  position : Position
deriving DecidableEq, Inhabited

namespace Word

/-- An optional sign, as "is it a minus?", and what follows it. -/
def splitSign : List Char → Bool × List Char
  | '+' :: rest => (false, rest)
  | '-' :: rest => (true, rest)
  | cs => (false, cs)

/-- The digits before and behind the point of an unsigned decimal: exactly one point, at least one
digit, nothing else. -/
def pointed? (cs : List Char) : Option (List Char × List Char) :=
  match cs.dropWhile Char.isDigit with
  | '.' :: fraction =>
    let whole := cs.takeWhile Char.isDigit
    if fraction.all Char.isDigit && !(whole.isEmpty && fraction.isEmpty) then some (whole, fraction)
    else none
  | _ => none

/-- The number that a word with a point denotes, if it is a decimal. -/
def decimal? (word : List Char) : Option Binary64 :=
  let (negative, body) := splitSign word
  (pointed? body).map fun (whole, fraction) =>
    Binary64.ofDecimal negative (Nat.ofDigitChars 10 (whole ++ fraction) 0) fraction.length

/-- The integer that a word denotes, if it is an optional sign and digits. -/
def integer? (word : List Char) : Option Int :=
  let (negative, body) := splitSign word
  if !body.isEmpty && body.all Char.isDigit then
    let magnitude : Int := Nat.ofDigitChars 10 body 0
    some (if negative then -magnitude else magnitude)
  else none

/-- The integers that sixty-four bits hold. -/
def inRange (n : Int) : Bool := -9223372036854775808 ≤ n && n ≤ 9223372036854775807

/-- What a bare word is. -/
def classify (word : List Char) : Except ReadFault TokenKind :=
  if word = ['.'] then .ok .dot
  else if word.head? = some '#' then
    if word = ['#', 't'] then .ok (.atom (.bool true))
    else if word = ['#', 'f'] then .ok (.atom (.bool false))
    else .error (.unknownLiteral (String.ofList word))
  else match decimal? word with
    | some x => .ok (.atom (.number (.float x)))
    | none => match integer? word with
      | some n =>
        if inRange n then .ok (.atom (.number (.int (Int64.ofInt n))))
        else .error (.integerOutOfRange (String.ofList word))
      | none => .ok (.atom (.symbol (String.ofList word)))

end Word

end Lisplet
