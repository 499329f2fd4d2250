/-
# Lisplet.Error -- what can go wrong, and how it is reported

An error is a cause and, where one is known, a location.  A cause determines the kind of the error and
its wording.  A location is attached once: `locate` leaves an error alone that has one, and takes none
from a value that stands in no text.

Only a warning is not fatal: whether a top-level sequence goes on behind one is the warn policy's
choice.
-/

import Lisplet.ReadError

namespace Lisplet

/-- The kinds of errors. -/
inductive ErrorKind where
  /-- A wrong number of arguments or operands. -/
  | arity
  /-- A value of a type that the operation does not take. -/
  | type
  /-- A symbol that no frame binds. -/
  | unboundSymbol
  /-- A malformed text. -/
  | parse
  /-- A warning, which need not end a run. -/
  | warn
  /-- A failed assertion or a file that cannot be read. -/
  | internal
deriving DecidableEq, Inhabited, Repr

/-- The name under which a kind is reported. -/
def ErrorKind.tag : ErrorKind → String
  | arity => "arity-error"
  | type => "type-error"
  | unboundSymbol => "unbound-symbol"
  | parse => "parse-error"
  | warn => "warn"
  | internal => "internal-error"

/-- What a top-level sequence does with a warning. -/
inductive WarnPolicy where
  /-- Stop and report it like any other error. -/
  | abort
  /-- Log it and go on with the next form. -/
  | keepGoing
deriving DecidableEq, Inhabited, Repr

/-- The types that a program can tell apart. -/
inductive TypeName where
  | null
  | pair
  | int
  | float
  | bool
  | symbol
  | string
  | function
  | hash
deriving DecidableEq, Inhabited, Repr

/-- The name of a type in messages. -/
def TypeName.text : TypeName → String
  | null => "null"
  | pair => "pair"
  | int => "int"
  | float => "float"
  | bool => "bool"
  | symbol => "sym"
  | string => "str"
  | function => "fn"
  | hash => "hash"

/-- How many operands a special form takes. -/
inductive OperandCount where
  | exactly (n : Nat)
  | between (least most : Nat)
  | atLeast (n : Nat)
deriving DecidableEq, Inhabited, Repr

/-- The count with its noun, in messages. -/
def OperandCount.text : OperandCount → String
  | exactly 1 => "1 operand"
  | exactly n => toString n ++ " operands"
  | between least most => toString least ++ "-" ++ toString most ++ " operands"
  | atLeast n => "at least " ++ toString n ++ " operands"

/-- Why a value is no proper list. -/
inductive ListFault where
  /-- Neither a pair nor the empty list. -/
  | notList (got : TypeName)
  /-- The chain of pairs comes back to one of its own. -/
  | circular
  /-- The chain of pairs ends in something else. -/
  | improper
deriving DecidableEq, Inhabited, Repr

/-- The wording of a list fault. -/
def ListFault.message : ListFault → String
  | notList got => "expected list, got " ++ got.text
  | circular => "circular list"
  | improper => "expected proper list"

/-- Why a file cannot be read as text. -/
inductive FileFault where
  | notFound
  | isDirectory
  /-- A component of the path other than the last is a file. -/
  | notDirectory
  | nameTooLong
  | invalidEncoding
  /-- The path holds the character NUL. -/
  | nulInPath
  | other (reason : String)
deriving DecidableEq, Inhabited, Repr

/-- The wording of a file fault. -/
def FileFault.message : FileFault → String
  | notFound => "No such file or directory (os error 2)"
  | isDirectory => "Is a directory (os error 21)"
  | notDirectory => "Not a directory (os error 20)"
  | nameTooLong => "File name too long (os error 36)"
  | invalidEncoding => "stream did not contain valid UTF-8"
  | nulInPath => "file name contained an unexpected NUL byte"
  | other reason => reason

/-- What went wrong. -/
inductive Cause where
  /-- A function was given the wrong number of arguments. -/
  | argumentCount (name : String) (expected got : Nat)
  /-- A special form was given the wrong number of operands. -/
  | operandCount (form : String) (expected : OperandCount) (got : Nat)
  /-- A function was given an argument of the wrong type. -/
  | mismatch (name expected : String) (got : TypeName)
  /-- A list was needed. -/
  | list (fault : ListFault)
  /-- A function needed a list as its argument. -/
  | listArgument (name : String) (fault : ListFault)
  | hashKey (got : TypeName)
  /-- The test of a conditional gave no boolean. -/
  | test (form : String) (got : TypeName)
  /-- A clause of a conditional is the empty list. -/
  | emptyClause
  /-- A definition of something other than a symbol. -/
  | definedName (got : TypeName)
  | parameter (got : TypeName)
  | duplicateParameter (name : String)
  /-- Something other than a function stands in front of its arguments. -/
  | notApplicable (got : TypeName) (shown : String)
  | unbound (name : String)
  | malformed (fault : ReadFault)
  | warningRaised
  | assertionFailed
  /-- A program asked for a file that cannot be read. -/
  | loadFailed (path : String) (fault : FileFault)
  /-- The file to be run cannot be read. -/
  | runFailed (path : String) (fault : FileFault)
  /-- An error raised by an embedding program in its own words. -/
  | stated (kind : ErrorKind) (message : String)
deriving DecidableEq, Inhabited, Repr

namespace Cause

/-- The kind of error that a cause makes. -/
def kind : Cause → ErrorKind
  | argumentCount .. | operandCount .. => .arity
  | mismatch .. | list _ | listArgument .. | hashKey _ | test .. | emptyClause | definedName _
  | parameter _ | duplicateParameter _ | notApplicable .. => .type
  | unbound _ => .unboundSymbol
  | malformed _ => .parse
  | warningRaised => .warn
  | assertionFailed | loadFailed .. | runFailed .. => .internal
  | stated kind _ => kind

/-- The wording of a cause. -/
def message : Cause → String
  | argumentCount name expected got =>
    name ++ ": expected " ++ toString expected ++ (if expected = 1 then " argument" else " arguments")
      ++ ", got " ++ toString got
  | operandCount form expected got =>
    form ++ ": expected " ++ expected.text ++ ", got " ++ toString got
  | mismatch name expected got => name ++ ": expected " ++ expected ++ ", got " ++ got.text
  | list fault => fault.message
  | listArgument name fault => name ++ ": " ++ fault.message
  | hashKey got => got.text ++ " cannot be used as a hash key"
  | test form got => form ++ ": test must be a boolean, got " ++ got.text
  | emptyClause => "cond: empty clause"
  | definedName got => "define: name must be a symbol, got " ++ got.text
  | parameter got => "lambda: parameters must be symbols, got " ++ got.text
  | duplicateParameter name => "lambda: duplicate parameter " ++ name
  | notApplicable got shown => "cannot apply " ++ got.text ++ ": " ++ shown
  | unbound name => "unbound symbol: " ++ name
  | malformed fault => fault.message
  | warningRaised => "warn: warning raised"
  | assertionFailed => "assert: assertion failed"
  | loadFailed path fault => "load: failed to read '" ++ path ++ "': " ++ fault.message
  | runFailed path fault => "failed to read '" ++ path ++ "': " ++ fault.message
  | stated _ message => message

end Cause

/-- A cause and, where one is known, a location. -/
structure Error where
  cause : Cause
  location : Option Location := none
deriving DecidableEq, Inhabited, Repr

namespace Error

/-- An error without a location. -/
def ofCause (cause : Cause) : Error := ⟨cause, none⟩

/-- A malformed text, read as `file`. -/
def ofReadError (e : ReadError) (file : String) : Error :=
  ⟨.malformed e.fault, some (e.position.inFile file)⟩

def kind (e : Error) : ErrorKind := e.cause.kind

def message (e : Error) : String := e.cause.message

/-- The error at `l`, in place of any earlier location. -/
def withLocation (e : Error) (l : Location) : Error := { e with location := some l }

/-- Attach the location of a provenance, unless the error has one or the provenance knows none. -/
def locate (e : Error) (p : Provenance) : Error :=
  if e.location.isNone && p.location.isKnown then { e with location := some p.location } else e

/-- A location never touches the cause. -/
@[simp] theorem cause_locate (e : Error) (p : Provenance) : (e.locate p).cause = e.cause := by
  unfold locate
  split <;> rfl

/-- An error that has a location keeps it. -/
theorem locate_of_isSome {e : Error} (h : e.location.isSome) (p : Provenance) : e.locate p = e := by
  cases hl : e.location with
  | none => simp [hl] at h
  | some l => simp [locate, hl]

/-- All errors are fatal but warnings. -/
def isFatal (e : Error) : Bool := e.kind != .warn

/-- Kind, message and location, as they are reported. -/
def text (e : Error) : String :=
  e.kind.tag ++ ": " ++ e.message ++ (match e.location with
    | none => ""
    | some l => " at " ++ l.text)

end Error

end Lisplet
