/-
# Lisplet.Log -- what a run reports as it goes

The entries that a run writes to its log: forms that were read, definitions, files, and warnings that
did not end it.
-/

import Lisplet.Error

namespace Lisplet

/-- How much of a log is wanted.  Each level includes those before it. -/
inductive LogLevel where
  | off
  | warn
  | debug
  | trace
deriving DecidableEq, Inhabited, Repr

/-- The levels in order. -/
def LogLevel.rank : LogLevel → Nat
  | off => 0
  | warn => 1
  | debug => 2
  | trace => 3

/-- An entry of the log. -/
inductive LogEntry where
  /-- A top-level form was read. -/
  | read (form : String) (location : Location)
  | defined (name : String) (type : TypeName)
  /-- A program asks for a file. -/
  | loading (path : String)
  /-- A file has been read and is about to be run. -/
  | running (path : String)
  /-- A warning that did not end the run. -/
  | skipped (e : Error)
deriving DecidableEq, Inhabited, Repr

namespace LogEntry

/-- The level at which an entry begins to be shown. -/
def level : LogEntry → LogLevel
  | read .. => .trace
  | defined .. | loading _ | running _ => .debug
  | skipped _ => .warn

/-- The wording of an entry. -/
def message : LogEntry → String
  | read form location => "read " ++ form ++ " at " ++ location.text
  | defined name type => "define " ++ name ++ " as " ++ type.text
  | loading path => "loading " ++ path
  | running path => "running " ++ path
  | skipped e => e.text

/-- Is an entry shown at a level? -/
def isShownAt (e : LogEntry) (l : LogLevel) : Bool := e.level.rank ≤ l.rank

end LogEntry

end Lisplet
