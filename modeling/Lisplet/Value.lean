/-
# Lisplet.Value -- what a program computes with

A value is a datum with its provenance.  Atoms and the empty list are held in the value itself; pairs,
closures and hash tables live in a store and are held by their identity, so two values can share one
pair.  The provenance is for diagnostics only.
-/

import Lisplet.Atom
import Lisplet.Error

namespace Lisplet

/-! ## Identities -/

/-- The identity of a pair. -/
structure CellId where
  index : Nat
deriving DecidableEq, Inhabited, Repr

/-- The identity of a hash table. -/
structure TableId where
  index : Nat
deriving DecidableEq, Inhabited, Repr

/-- The identity of a closure. -/
structure ClosureId where
  index : Nat
deriving DecidableEq, Inhabited, Repr

/-- The identity of a frame. -/
structure FrameId where
  index : Nat
deriving DecidableEq, Inhabited, Repr

/-! ## Primitive functions -/

/-- The functions that the language provides. -/
inductive Primitive where
  | isNull
  | isSymbol
  | isAtom
  | isPair
  | isList
  | isEqual
  | add
  | not
  | assert
  | warn
  | car
  | cdr
  | cons
  | list
  | length
  | setCar
  | setCdr
  | makeHash
  | hashSet
  | hashRef
  | inspect
  | load
deriving DecidableEq, Inhabited, Repr

namespace Primitive

/-- The name of a primitive in messages. -/
def name : Primitive → String
  | isNull => "null?"
  | isSymbol => "symbol?"
  | isAtom => "atom?"
  | isPair => "pair?"
  | isList => "list?"
  | isEqual => "equal?"
  | add => "+"
  | not => "not"
  | assert => "assert"
  | warn => "warn"
  | car => "car"
  | cdr => "cdr"
  | cons => "cons"
  | list => "list"
  | length => "length"
  | setCar => "set-car!"
  | setCdr => "set-cdr!"
  | makeHash => "make-hash"
  | hashSet => "hash-set!"
  | hashRef => "hash-ref"
  | inspect => "inspect"
  | load => "load"

/-- All primitives. -/
def all : List Primitive :=
  [isNull, isSymbol, isAtom, isPair, isList, isEqual, add, not, assert, warn, car, cdr, cons, list,
   length, setCar, setCdr, makeHash, hashSet, hashRef, inspect, load]

/-- The primitive with the given name. -/
def ofName? (name : String) : Option Primitive := all.find? (·.name == name)

/-- The names that a fresh global frame binds.  The test for pairs has two. -/
def bindings : List (String × Primitive) := all.map (fun p => (p.name, p)) ++ [("cons?", isPair)]

end Primitive

/-! ## Values -/

/-- A datum: what a value is, apart from where it comes from. -/
inductive Datum where
  | nil
  | pair (cell : CellId)
  | atom (a : Atom)
  | closure (id : ClosureId)
  | native (p : Primitive)
  | hash (table : TableId)
deriving DecidableEq, Inhabited

/-- A datum with its provenance. -/
structure Value where
  datum : Datum
  provenance : Provenance := .unknown
deriving DecidableEq, Inhabited

namespace Value

/-- The empty list. -/
def nil : Value := ⟨.nil, .unknown⟩

def ofAtom (a : Atom) : Value := ⟨.atom a, .unknown⟩

def number (n : Number) : Value := ofAtom (.number n)

def int (n : Int64) : Value := number (.int n)

def bool (b : Bool) : Value := ofAtom (.bool b)

def symbol (name : String) : Value := ofAtom (.symbol name)

def string (content : String) : Value := ofAtom (.string content)

def native (p : Primitive) : Value := ⟨.native p, .unknown⟩

/-- The same datum at another location. -/
def withLocation (v : Value) (l : Location) : Value :=
  { v with provenance := { v.provenance with location := l } }

/-- The same datum under another name. -/
def withBound (v : Value) (name : String) : Value :=
  { v with provenance := { v.provenance with bound := some name } }

/-! ## Inspection -/

/-- The type of a value. -/
def typeName (v : Value) : TypeName :=
  match v.datum with
  | .nil => .null
  | .pair _ => .pair
  | .atom (.number (.int _)) => .int
  | .atom (.number (.float _)) => .float
  | .atom (.bool _) => .bool
  | .atom (.symbol _) => .symbol
  | .atom (.string _) => .string
  | .closure _ | .native _ => .function
  | .hash _ => .hash

def isNil (v : Value) : Bool := v.datum == .nil

def cell? (v : Value) : Option CellId :=
  match v.datum with
  | .pair c => some c
  | _ => none

def isPair (v : Value) : Bool := v.cell?.isSome

def atom? (v : Value) : Option Atom :=
  match v.datum with
  | .atom a => some a
  | _ => none

def symbol? (v : Value) : Option String :=
  match v.datum with
  | .atom (.symbol name) => some name
  | _ => none

def bool? (v : Value) : Option Bool :=
  match v.datum with
  | .atom (.bool b) => some b
  | _ => none

def number? (v : Value) : Option Number :=
  match v.datum with
  | .atom (.number n) => some n
  | _ => none

def string? (v : Value) : Option String :=
  match v.datum with
  | .atom (.string content) => some content
  | _ => none

def table? (v : Value) : Option TableId :=
  match v.datum with
  | .hash t => some t
  | _ => none

/-- Is the value the symbol `name`? -/
def isSymbol (v : Value) (name : String) : Bool := v.symbol? == some name

/-- A sentence about the type of a value, where it comes from and what it is bound to. -/
def describe (v : Value) : String :=
  let l := v.provenance.location
  let origin := match v.datum with
    | .native _ => "type: built-in function"
    | .closure _ => if l.isKnown then "type: lambda, declared at " ++ l.text else "type: lambda"
    | _ => "type: " ++ v.typeName.text ++ (if l.isKnown then " " ++ l.text else "")
  match v.provenance.bound with
  | none => origin
  | some name => origin ++ ", bound to: " ++ name

end Value

end Lisplet
