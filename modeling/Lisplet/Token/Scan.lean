/-
# Lisplet.Token.Scan -- from a text to its tokens

The scanner reads one character at a time.  Between characters it holds the position of the next one,
the tokens so far, and a mode that says what it is inside of.  Reading a text is a fold of `step`, so
scanning a text that continues another is scanning on from where the first one ended.

A word ends at the first delimiter, which is then read as if nothing had preceded it.  A comment runs
to the end of its line.  A string literal ends at its first double quote that no backslash precedes.
-/

import Lisplet.Token
import Lisplet.Text.Blank

namespace Lisplet

/-- What the scanner is inside of.  Characters already read are held newest first. -/
inductive ScanMode where
  | gap
  | comment
  | word (start : Position) (read : List Char)
  | string (start : Position) (read : List Char)
  /-- Inside a string literal, directly behind a backslash. -/
  | escape (start : Position) (read : List Char)
deriving DecidableEq, Inhabited

/-- The state between two characters; the tokens are held newest first. -/
structure Scan where
  position : Position := .start
  mode : ScanMode := .gap
  tokens : List Token := []
deriving DecidableEq, Inhabited

namespace Scan

/-- Add a token and return to a gap. -/
def emit (s : Scan) (start : Position) (kind : TokenKind) : Scan :=
  { s with mode := .gap, tokens := ⟨kind, start⟩ :: s.tokens }

/-- The word that began at `start` is complete. -/
def endWord (s : Scan) (start : Position) (read : List Char) : Except ReadError Scan :=
  match Word.classify read.reverse with
  | .ok kind => .ok (s.emit start kind)
  | .error fault => .error ⟨fault, start⟩

/-- Read `c` where nothing is under way. -/
def enter (s : Scan) (c : Char) : Scan :=
  if Text.isBlank c then { s with mode := .gap }
  else if c = ';' then { s with mode := .comment }
  else if c = '(' then s.emit s.position .leftParen
  else if c = ')' then s.emit s.position .rightParen
  else if c = '\'' then s.emit s.position .quote
  else if c = '"' then { s with mode := .string s.position [] }
  else { s with mode := .word s.position [c] }

/-- Read `c` without moving on. -/
def accept (s : Scan) (c : Char) : Except ReadError Scan :=
  match s.mode with
  | .gap => .ok (s.enter c)
  | .comment => .ok (if c = '\n' then { s with mode := .gap } else s)
  | .word start read =>
    if Text.isDelimiter c then (s.endWord start read).map (·.enter c)
    else .ok { s with mode := .word start (c :: read) }
  | .string start read =>
    if c = '"' then .ok (s.emit start (.atom (.string (String.ofList read.reverse))))
    else if c = '\\' then .ok { s with mode := .escape start read }
    else .ok { s with mode := .string start (c :: read) }
  | .escape start read =>
    .ok { s with mode := .string start ((Text.decoded c).reverse ++ read) }

/-- Read one character. -/
def step (s : Scan) (c : Char) : Except ReadError Scan :=
  (s.accept c).map fun s' => { s' with position := s.position.next c }

/-- The text ends here. -/
def finish (s : Scan) : Except ReadError (List Token) :=
  match s.mode with
  | .gap | .comment => .ok s.tokens.reverse
  | .word start read => (s.endWord start read).map (·.tokens.reverse)
  | .string start _ | .escape start _ => .error ⟨.unterminatedString, start⟩

end Scan

/-- The tokens of a text, or its first malformed lexeme. -/
def tokenize (text : String) : Except ReadError (List Token) := do
  let s ← text.toList.foldlM Scan.step {}
  s.finish

end Lisplet
