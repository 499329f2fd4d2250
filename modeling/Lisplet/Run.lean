/-
# Lisplet.Run -- computations over a store

A computation reads and changes the state of a session, the store and the log, and ends with a value
or stops.  It stops because an error was raised, because the bound on the depth of evaluation was
reached, or because the host withheld a primitive.  These are kept apart: only the first is a result
of the program.  What was done before a stop stays done.
-/

import Lisplet.Log
import Lisplet.Store

namespace Lisplet

/-- The state of a session. -/
structure State where
  store : Store := {}
  log : Array LogEntry := #[]
deriving Inhabited

/-- Why a computation ended without a value. -/
inductive Stop where
  | raised (e : Error)
  /-- The bound on the depth of evaluation was reached. -/
  | exhausted
  /-- The host does not permit the primitive. -/
  | withheld (p : Primitive)
deriving DecidableEq, Inhabited

/-- A computation over the state of a session. -/
abbrev Run := EStateM Stop State

namespace Run

variable {α : Type}

/-- Raise an error. -/
def raise (e : Error) : Run α := fun s => .error (.raised e) s

/-- Raise an error without a location. -/
def fail (cause : Cause) : Run α := raise (.ofCause cause)

/-- Stop without an error. -/
def stop (why : Stop) : Run α := fun s => .error why s

/-- Raise the error, if there is one. -/
def ofExcept : Except Error α → Run α
  | .ok a => pure a
  | .error e => raise e

/-- Read the store. -/
def read (f : Store → α) : Run α := fun s => .ok (f s.store) s

/-- Read the store, where that can fail. -/
def check (f : Store → Except Error α) : Run α := fun s =>
  match f s.store with
  | .ok a => .ok a s
  | .error e => .error (.raised e) s

/-- Change the store. -/
def change (f : Store → Store) : Run Unit := fun ⟨store, log⟩ => .ok () ⟨f store, log⟩

/-- Make something new in the store. -/
def make (f : Store → α × Store) : Run α := fun ⟨store, log⟩ =>
  match f store with
  | (a, store) => .ok a ⟨store, log⟩

/-- Write to the log. -/
def note (e : LogEntry) : Run Unit := fun ⟨store, log⟩ => .ok () ⟨store, log.push e⟩

/-- Give an error that has no location the one of `p`. -/
def locating (p : Provenance) (act : Run α) : Run α := fun s =>
  match act s with
  | .error (.raised e) s => .error (.raised (e.locate p)) s
  | result => result

end Run

end Lisplet
