/-
# Lisplet.Evaluator.Sequence -- forms one after the other

The parts of the evaluator take the evaluation of single forms as an argument `ev`.  Here are the ways
to evaluate several: the arguments of a call, the body of a function, where any error ends the
sequence, and the forms of a text, where a warning need not.
-/

import Lisplet.Form.Reader
import Lisplet.Run
import Lisplet.Store.Environment

namespace Lisplet

/-- Evaluation of a form in an environment. -/
abbrev Evaluator := FrameId → Value → Run Value

open Run

/-- Evaluate forms in order and keep every value. -/
def evalAll (ev : Evaluator) (env : FrameId) : List Value → Run (List Value)
  | [] => pure []
  | form :: rest => do
    let v ← ev env form
    let vs ← evalAll ev env rest
    pure (v :: vs)

/-- Evaluate forms in order; the last value counts, and that of no forms is the empty list. -/
def evalSequence (ev : Evaluator) (env : FrameId) (forms : List Value) : Run Value :=
  forms.foldlM (fun _ form => ev env form) .nil

/-- Evaluate one form of a top-level sequence that has come to `result`.  Under the policy to keep
going, a warning is logged and `result` stands. -/
def evalTop (ev : Evaluator) (policy : WarnPolicy) (env : FrameId) (result : Value) (form : Value) :
    Run Value := fun s =>
  match ev env form s with
  | .error (.raised e) s =>
    if !e.isFatal && policy == .keepGoing then (do note (.skipped e); pure result : Run Value) s
    else .error (.raised e) s
  | outcome => outcome

/-- Evaluate the forms of a text.  The warn policy is the one in force when it begins. -/
def evalToplevel (ev : Evaluator) (env : FrameId) (forms : List Value) : Run Value := do
  let policy ← read (·.policy env)
  forms.foldlM (evalTop ev policy env) .nil

/-- Read a text as `file`.  Each form is logged as soon as it is complete; values are made only of a
text that can be read to its end. -/
def readSource (text file : String) : Run (List Value) := do
  let reading := Reading.ofText text
  reading.forms.forM fun form => note (.read form.text (form.position.inFile file))
  match reading.error with
  | some e => raise (.ofReadError e file)
  | none => make (Store.ofForms file reading.forms)

/-- Read a text as `file` and evaluate its forms. -/
def runSource (ev : Evaluator) (env : FrameId) (text file : String) : Run Value := do
  let forms ← readSource text file
  evalToplevel ev env forms

end Lisplet
