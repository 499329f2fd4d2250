/-
# Lisplet.Builtin -- the primitives that need only the store

Every primitive takes its arguments as one list value and checks them before it does anything, so one
that fails leaves the store as it was.  Three of them change what is there: the two setters of a pair
and the setter of a hash table, each in one place.  Loading a file is not here, as it evaluates.
-/

import Lisplet.Argument
import Lisplet.Run
import Lisplet.Store.Equality

namespace Lisplet.Builtin

open Run

/-- A test of one argument. -/
def test (name : String) (p : Value → Bool) (args : Value) : Run Value := do
  let a ← check (·.oneArgument name args)
  pure (.bool (p a))

def isEqual (args : Value) : Run Value := do
  let (a, b) ← check (·.twoArguments "equal?" args)
  read fun s => .bool (s.equal a b)

/-! ## Numbers and booleans -/

/-- The sum from left to right, starting with the integer zero. -/
def sum (total : Number) : List Value → Except Error Number
  | [] => .ok total
  | v :: rest => do sum (total.add (← v.asNumber "+")) rest

def add (args : Value) : Run Value := do
  let vs ← check (·.listElements args)
  let total ← ofExcept (sum (.int 0) vs)
  pure (.number total)

def not (args : Value) : Run Value := do
  let a ← check (·.oneArgument "not" args)
  let b ← ofExcept (a.asBool "not")
  pure (.bool !b)

/-- Raise `cause` unless the one argument is true. -/
def require (name : String) (cause : Cause) (args : Value) : Run Value := do
  let a ← check (·.oneArgument name args)
  if ← ofExcept (a.asBool name) then pure .nil else fail cause

/-! ## Lists -/

/-- The first half of a pair.  That of the empty list is the empty list itself. -/
def car (args : Value) : Run Value := do
  let a ← check (·.oneArgument "car" args)
  ofExcept (a.asList "car")
  read fun s => (s.car? a).getD a

/-- The rest of a pair, or the empty list where there is none. -/
def cdr (args : Value) : Run Value := do
  let a ← check (·.oneArgument "cdr" args)
  ofExcept (a.asList "cdr")
  read fun s => (s.cdr? a).getD .nil

def cons (args : Value) : Run Value := do
  let (a, b) ← check (·.twoArguments "cons" args)
  make (Store.cons a b)

/-- The arguments themselves. -/
def list (args : Value) : Run Value := pure args

/-- The number of elements of a list. -/
def lengthOf (s : Store) (a : Value) : Except Error Value :=
  match s.elements a with
  | .ok vs => .ok (.int (Int64.ofNat vs.length))
  | .error fault => .error ((Error.ofCause (.listArgument "length" fault)).locate a.provenance)

def length (args : Value) : Run Value := do
  let a ← check (·.oneArgument "length" args)
  check (lengthOf · a)

/-! ## Mutation -/

def setCar (args : Value) : Run Value := do
  let (p, v) ← check (·.twoArguments "set-car!" args)
  let c ← ofExcept (p.asCell "set-car!")
  change (Store.setCar c v)
  pure .nil

def setCdr (args : Value) : Run Value := do
  let (p, v) ← check (·.twoArguments "set-cdr!" args)
  let c ← ofExcept (p.asCell "set-cdr!")
  change (Store.setCdr c v)
  pure .nil

/-! ## Hash tables -/

def makeHash (args : Value) : Run Value := do
  check (·.noArguments "make-hash" args)
  make Store.newTable

/-- The key that an argument makes; an argument that makes none is reported where it stands. -/
def keyOf (v : Value) : Run HashKey := locating v.provenance (ofExcept v.asKey)

def hashSet (args : Value) : Run Value := do
  let (h, k, v) ← check (·.threeArguments "hash-set!" args)
  let t ← ofExcept (h.asTable "hash-set!")
  let key ← keyOf k
  change (Store.setEntry t key v)
  pure .nil

/-- The value stored under a key, or the empty list where there is none. -/
def hashRef (args : Value) : Run Value := do
  let (h, k) ← check (·.twoArguments "hash-ref" args)
  let t ← ofExcept (h.asTable "hash-ref")
  let key ← keyOf k
  read fun s => ((s.table t).find? key).getD .nil

/-! ## Inspection -/

def inspect (args : Value) : Run Value := do
  let a ← check (·.oneArgument "inspect" args)
  pure (.string a.describe)

end Lisplet.Builtin
