/-
# Lisplet.Evaluator.Special -- the special forms

Six names in front of a list do not call a function.  Each form first counts its operands; which of
them it evaluates, and when, is what makes it special.
-/

import Lisplet.Argument
import Lisplet.Evaluator.Sequence

namespace Lisplet

open Run

/-- The special forms. -/
inductive SpecialForm where
  | quote
  | conditional
  | cond
  | define
  | lambda
  | begin
deriving DecidableEq, Inhabited, Repr

/-- The special form with the given name. -/
def SpecialForm.ofName? : String → Option SpecialForm
  | "quote" => some quote
  | "if" => some conditional
  | "cond" => some cond
  | "define" => some define
  | "lambda" => some lambda
  | "begin" => some begin
  | _ => none

/-- The boolean that a test gave. -/
def testResult (form : String) (v : Value) : Run Bool :=
  match v.bool? with
  | some b => pure b
  | none => fail (.test form v.typeName)

/-- The value of the test of a clause.  The symbol `else` is a test that is always true. -/
def clauseTest (ev : Evaluator) (env : FrameId) (test : Value) : Run Value :=
  if test.isSymbol "else" then pure (.bool true) else ev env test

/-- The first clause whose test is true gives the value: that of its body, or of its test if it has no
body. -/
def evalCond (ev : Evaluator) (env : FrameId) : List Value → Run Value
  | [] => pure .nil
  | clause :: rest => do
    match ← check (·.listElements clause) with
    | [] => fail .emptyClause
    | test :: body =>
      let v ← clauseTest ev env test
      if ← testResult "cond" v then
        if body.isEmpty then pure v else evalSequence ev env body
      else evalCond ev env rest

/-- The names in a parameter list: symbols, no two the same.  `seen` holds those before. -/
def parameterNames (seen : List String) : List Value → Except Error (List String)
  | [] => .ok seen.reverse
  | v :: rest =>
    match v.symbol? with
    | none => .error ((Error.ofCause (.parameter v.typeName)).locate v.provenance)
    | some name =>
      if seen.contains name then
        .error ((Error.ofCause (.duplicateParameter name)).locate v.provenance)
      else parameterNames (name :: seen) rest

/-- Evaluate a special form that stands at `location`. -/
def evalSpecial (ev : Evaluator) (env : FrameId) (location : Location) (form : SpecialForm)
    (operands : List Value) : Run Value :=
  match form with
  | .quote =>
    match operands with
    | [datum] => pure datum
    | _ => fail (.operandCount "quote" (.exactly 1) operands.length)
  | .conditional =>
    match operands with
    | [test, consequent] => do
      let v ← ev env test
      if ← testResult "if" v then ev env consequent else pure .nil
    | [test, consequent, alternative] => do
      let v ← ev env test
      if ← testResult "if" v then ev env consequent else ev env alternative
    | _ => fail (.operandCount "if" (.between 2 3) operands.length)
  | .cond => evalCond ev env operands
  | .define =>
    match operands with
    | [target, expr] =>
      match target.symbol? with
      | none => fail (.definedName target.typeName)
      | some name => do
        let v ← ev env expr
        let v := v.withBound name
        note (.defined name v.typeName)
        change (Store.define env name v)
        pure v
    | _ => fail (.operandCount "define" (.exactly 2) operands.length)
  | .lambda =>
    match operands with
    | params :: form :: forms => do
      let vs ← check (·.listElements params)
      let names ← ofExcept (parameterNames [] vs)
      let v ← make (Store.newClosure ⟨names, form :: forms, env⟩)
      pure (v.withLocation location)
    | _ => fail (.operandCount "lambda" (.atLeast 2) operands.length)
  | .begin => evalSequence ev env operands

end Lisplet
