/-
# Lisplet.Evaluator -- the meaning of a form

A symbol means what its environment binds it to.  A pair is a special form, if its first half is the
name of one, or else the application of a function to arguments that are evaluated from left to right.
Everything else means itself.

All parts of the evaluator take the evaluation of smaller steps as an argument `ev`; `step` puts them
together, and `eval` ties the knot with a bound on the depth.  A property that `step` keeps whenever
`ev` has it is therefore a property of `eval`, by induction on the bound.
-/

import Lisplet.Evaluator.Apply
import Lisplet.Evaluator.Special

namespace Lisplet

open Run

/-- The forms behind the first half of a pair. -/
def operandsOf (rest : Option Value) : Run (List Value) :=
  match rest with
  | none => pure []
  | some list => check (·.listElements list)

/-- Evaluate a pair. -/
def evalPair (host : Host) (ev : Evaluator) (env : FrameId) (location : Location) (cell : Cell) :
    Run Value :=
  match cell.car.symbol?.bind SpecialForm.ofName? with
  | some form => do
    let operands ← operandsOf cell.cdr
    evalSpecial ev env location form operands
  | none => do
    let func ← ev env cell.car
    let operands ← operandsOf cell.cdr
    let args ← evalAll ev env operands
    apply host ev env func args

/-- Evaluate a form by evaluations of smaller steps.  An error without a location takes that of the
form. -/
def step (host : Host) (ev : Evaluator) : Evaluator := fun env expr =>
  locating expr.provenance <|
    match expr.datum with
    | .atom (.symbol name) =>
      check fun s =>
        match s.lookup env name with
        | some v => .ok v
        | none => .error (.ofCause (.unbound name))
    | .pair c => do
      let cell ← read (·.cell c)
      evalPair host ev env expr.provenance.location cell
    | _ => pure expr

/-- Evaluate a form, to a depth of at most `n`. -/
def eval (host : Host) : Nat → Evaluator
  | 0 => fun _ _ => stop .exhausted
  | n + 1 => step host (eval host n)

end Lisplet
