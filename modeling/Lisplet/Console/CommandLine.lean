/-
# Lisplet.Console.CommandLine -- the arguments of the program

The program takes at most one file to run, a flag to keep going behind warnings, and either a history
file or none.  Arguments are read from left to right and the first that cannot be understood decides;
the one conflict between options is looked for last.

This is part of the outer layer of the program, as all of `Lisplet.Console` is: what surrounds a session.
Nothing that is said about the language rests on it.
-/

import Lisplet.Error

namespace Lisplet

/-- What the arguments ask for. -/
structure Options where
  /-- The file to run; without one, lines are read from the standard input. -/
  file : Option String := none
  keepGoing : Bool := false
  noHistory : Bool := false
  history : Option String := none
deriving DecidableEq, Inhabited, Repr

/-- Why arguments cannot be understood. -/
inductive UsageError where
  | unknownOption (arg : String)
  | repeatedOption (name : String)
  | missingValue (name : String)
  | unexpectedValue (name : String)
  | emptyValue (name : String)
  | extraFile (path : String)
  | conflict (first second : String)
deriving DecidableEq, Inhabited, Repr

/-- The wording of a usage error. -/
def UsageError.message : UsageError → String
  | unknownOption arg => "unexpected argument '" ++ arg ++ "' found"
  | repeatedOption name => "the argument '" ++ name ++ "' cannot be used multiple times"
  | missingValue name => "a value is required for '" ++ name ++ "' but none was supplied"
  | unexpectedValue name => "unexpected value for '" ++ name ++ "' found; no more were expected"
  | emptyValue name => "a value is required for '" ++ name ++ "' but none was supplied"
  | extraFile path => "unexpected argument '" ++ path ++ "' found"
  | conflict first second =>
    "the argument '" ++ first ++ "' cannot be used with '" ++ second ++ "'"

/-- What the program is to do. -/
inductive Command where
  | run (options : Options)
  | help
  | version
deriving DecidableEq, Inhabited, Repr

namespace Options

/-- The option names. -/
def keepGoingName : String := "--keep-going-on-warn"

def noHistoryName : String := "--no-history"

def historyName : String := "--history"

/-- Take a file to run. -/
def withFile (o : Options) (path : String) : Except UsageError Options :=
  if o.file.isSome then .error (.extraFile path)
  else if path = "" then .error (.emptyValue "[FILE]")
  else .ok { o with file := some path }

/-- Take a history file. -/
def withHistory (o : Options) (path : String) : Except UsageError Options :=
  if o.history.isSome then .error (.repeatedOption historyName)
  else if path = "" then .error (.emptyValue historyName)
  else .ok { o with history := some path }

/-- Take a flag, which has no value. -/
def withFlag (o : Options) (name : String) (value : Option String) : Except UsageError Options :=
  if value.isSome then .error (.unexpectedValue name)
  else if name = keepGoingName then
    if o.keepGoing then .error (.repeatedOption name) else .ok { o with keepGoing := true }
  else if o.noHistory then .error (.repeatedOption name)
  else .ok { o with noHistory := true }

/-- The two ways to choose a history exclude each other. -/
def checked (o : Options) : Except UsageError Options :=
  if o.noHistory && o.history.isSome then .error (.conflict noHistoryName historyName) else .ok o

end Options

namespace Command

/-- An argument at its first equals sign. -/
def splitValue (arg : String) : String × Option String :=
  let cs := arg.toList
  match cs.dropWhile (· != '=') with
  | [] => (arg, none)
  | _ :: value => (String.ofList (cs.takeWhile (· != '=')), some (String.ofList value))

/-- Does an argument look like an option?  A lone minus does not. -/
def looksLikeOption (arg : String) : Bool := arg.startsWith "-" && arg != "-"

/-- Take arguments that are all files. -/
def ofFiles (o : Options) : List String → Except UsageError Command
  | [] => o.checked.map run
  | arg :: rest => do ofFiles (← o.withFile arg) rest

/-- Take the remaining arguments. -/
def ofArgs (o : Options) : List String → Except UsageError Command
  | [] => o.checked.map run
  | arg :: rest => do
    if arg = "--" then ofFiles o rest
    else if !looksLikeOption arg then ofArgs (← o.withFile arg) rest
    else
      let (name, value) := splitValue arg
      if name = Options.keepGoingName || name = Options.noHistoryName then
        ofArgs (← o.withFlag name value) rest
      else if name = Options.historyName then
        match value, rest with
        | some path, rest => ofArgs (← o.withHistory path) rest
        | none, path :: rest =>
          if looksLikeOption path then .error (.missingValue name)
          else ofArgs (← o.withHistory path) rest
        | none, [] => .error (.missingValue name)
      else if arg = "--help" || arg = "-h" then .ok help
      else if arg = "--version" || arg = "-V" then .ok version
      else .error (.unknownOption arg)

/-- What the arguments of the program ask for. -/
def parse (args : List String) : Except UsageError Command := ofArgs {} args

end Command

end Lisplet
