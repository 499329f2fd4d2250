/-
# Lisplet.Console.Loop -- reading lines and answering them

The interactive loop takes a line at a time and first carries out the erasures in it.  Blank lines are
passed over, the line `(exit)` ends the loop, and every other line is run in the session.  Values go to
the output, errors to the error output.  An erasure that cuts a character breaks the loop off.  How
lines are edited is a matter of this layer alone: sessions get them as they are.
-/

import Lisplet.Session
import Lisplet.Text.Blank
import Lisplet.Console.Erasure

namespace Lisplet

/-- The answer to a line. -/
inductive Reply where
  /-- Nothing: the line was blank. -/
  | silence
  | output (text : String)
  | failure (text : String)
  /-- The line asked to leave. -/
  | farewell
  /-- The line could not be made out. -/
  | breakdown
deriving DecidableEq, Inhabited, Repr

/-- No line is read after this answer. -/
def Reply.isLast : Reply → Bool
  | .farewell | .breakdown => true
  | _ => false

/-- The exit code of a program that ends with this answer. -/
def Reply.exit : Reply → UInt32
  | .breakdown => 101
  | _ => 0

/-- What is said of a line that could not be made out. -/
def Reply.breakdownText : String := "an erasure cuts a character"

/-- A loop: its session and the lines entered so far that were not blank, newest first. -/
structure Loop where
  session : Session
  entered : List String := []
deriving Inhabited

namespace Loop

/-- What is shown before the first line. -/
def banner : String :=
  "paren REPL\nType expressions to evaluate, or (exit) to quit\n\n"

/-- The name under which lines are read. -/
def source : String := "<repl>"

/-- The line that ends the loop. -/
def farewellLine : String := "(exit)"

/-- What is shown of an outcome. -/
def replyTo (outcome : Outcome) (session : Session) : Reply :=
  match outcome with
  | .ok v => .output (session.state.store.text v)
  | .error (.raised e) => .failure e.text
  | .error .exhausted => .failure "evaluation is nested too deeply"
  | .error (.withheld p) => .failure (p.name ++ " is withheld")

/-- Answer a line without erasures. -/
def answerTyped (loop : Loop) (host : Host) (depth : Nat) (line : String) : Reply × Loop :=
  let input := Text.trim line
  if input = "" then (.silence, loop)
  else
    let ⟨session, entered⟩ := loop
    if input = farewellLine then (.farewell, ⟨session, input :: entered⟩)
    else
      let (outcome, session) := session.runSource host depth input source
      (replyTo outcome session, ⟨session, input :: entered⟩)

/-- Answer one line. -/
def answer (loop : Loop) (host : Host) (depth : Nat) (line : String) : Reply × Loop :=
  match Text.typed line with
  | some line => loop.answerTyped host depth line
  | none => (.breakdown, loop)

end Loop

end Lisplet
