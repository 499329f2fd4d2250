/-
# Lisplet.Argument -- the arguments of a primitive

A primitive takes its arguments as one list.  The list is walked first, then counted, and only then is
an argument looked at.  An argument of the wrong type is reported at its own location.
-/

import Lisplet.Store.Elements

namespace Lisplet

namespace Store

/-- The elements of a list, or an error without a location. -/
def listElements (s : Store) (v : Value) : Except Error (List Value) :=
  match s.elements v with
  | .ok vs => .ok vs
  | .error fault => .error (.ofCause (.list fault))

/-- The arguments of a function that takes exactly `expected` of them. -/
def arguments (s : Store) (name : String) (args : Value) (expected : Nat) :
    Except Error (List Value) := do
  let vs ← s.listElements args
  if vs.length = expected then .ok vs
  else .error (.ofCause (.argumentCount name expected vs.length))

/-- The arguments of a function that takes none. -/
def noArguments (s : Store) (name : String) (args : Value) : Except Error Unit := do
  match ← s.listElements args with
  | [] => .ok ()
  | vs => .error (.ofCause (.argumentCount name 0 vs.length))

/-- The argument of a function that takes one. -/
def oneArgument (s : Store) (name : String) (args : Value) : Except Error Value := do
  match ← s.listElements args with
  | [a] => .ok a
  | vs => .error (.ofCause (.argumentCount name 1 vs.length))

/-- The arguments of a function that takes two. -/
def twoArguments (s : Store) (name : String) (args : Value) : Except Error (Value × Value) := do
  match ← s.listElements args with
  | [a, b] => .ok (a, b)
  | vs => .error (.ofCause (.argumentCount name 2 vs.length))

/-- The arguments of a function that takes three. -/
def threeArguments (s : Store) (name : String) (args : Value) :
    Except Error (Value × Value × Value) := do
  match ← s.listElements args with
  | [a, b, c] => .ok (a, b, c)
  | vs => .error (.ofCause (.argumentCount name 3 vs.length))

end Store

namespace Value

/-- What is raised when `v` is not what the function `name` expected. -/
def mismatch (v : Value) (name expected : String) : Error :=
  (Error.ofCause (.mismatch name expected v.typeName)).locate v.provenance

/-- The result of a look at `v`, or a mismatch. -/
def expecting {α : Type} (v : Value) (name expected : String) : Option α → Except Error α
  | some a => .ok a
  | none => .error (v.mismatch name expected)

def asBool (v : Value) (name : String) : Except Error Bool := v.expecting name "bool" v.bool?

def asNumber (v : Value) (name : String) : Except Error Number := v.expecting name "number" v.number?

def asString (v : Value) (name : String) : Except Error String := v.expecting name "str" v.string?

def asCell (v : Value) (name : String) : Except Error CellId := v.expecting name "pair" v.cell?

def asTable (v : Value) (name : String) : Except Error TableId := v.expecting name "hash" v.table?

/-- A pair or the empty list. -/
def asList (v : Value) (name : String) : Except Error Unit :=
  if v.isNil || v.isPair then .ok () else .error (v.mismatch name "list")

/-- A key of a hash table, or an error without a location. -/
def asKey (v : Value) : Except Error HashKey :=
  match HashKey.ofValue? v with
  | some k => .ok k
  | none => .error (.ofCause (.hashKey v.typeName))

end Value

end Lisplet
