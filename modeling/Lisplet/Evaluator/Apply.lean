/-
# Lisplet.Evaluator.Apply -- the application of functions

A primitive is called with its arguments as a new list.  A closure evaluates its body in a new frame
below the one it was made in, wherever it is called from.  Loading a file evaluates its forms in the
environment of the caller.
-/

import Lisplet.Builtin
import Lisplet.Evaluator.Sequence
import Lisplet.Host
import Lisplet.Store.Printer

namespace Lisplet

open Run

/-- Evaluate the forms of a file in the environment of the caller. -/
def loadFile (host : Host) (ev : Evaluator) (env : FrameId) (args : Value) : Run Value := do
  let a ← check (·.oneArgument "load" args)
  let path ← ofExcept (a.asString "load")
  note (.loading path)
  match host.files path with
  | .ok text => runSource ev env text path
  | .error fault => raise ((Error.ofCause (.loadFailed path fault)).locate a.provenance)

/-- Call a primitive with its arguments as one list. -/
def Primitive.call (host : Host) (ev : Evaluator) (env : FrameId) (p : Primitive) (args : Value) :
    Run Value :=
  match p with
  | .isNull => Builtin.test "null?" Value.isNil args
  | .isSymbol => Builtin.test "symbol?" (·.symbol?.isSome) args
  | .isAtom => Builtin.test "atom?" (!·.isPair) args
  | .isPair => Builtin.test "pair?" Value.isPair args
  | .isList => Builtin.test "list?" (fun v => v.isPair || v.isNil) args
  | .isEqual => Builtin.isEqual args
  | .add => Builtin.add args
  | .not => Builtin.not args
  | .assert => Builtin.require "assert" .assertionFailed args
  | .warn => Builtin.require "warn" .warningRaised args
  | .car => Builtin.car args
  | .cdr => Builtin.cdr args
  | .cons => Builtin.cons args
  | .list => Builtin.list args
  | .length => Builtin.length args
  | .setCar => Builtin.setCar args
  | .setCdr => Builtin.setCdr args
  | .makeHash => Builtin.makeHash args
  | .hashSet => Builtin.hashSet args
  | .hashRef => Builtin.hashRef args
  | .inspect => Builtin.inspect args
  | .load => loadFile host ev env args

/-- Apply a closure: its body is evaluated in a new frame below the one it was made in. -/
def applyClosure (ev : Evaluator) (k : Closure) (args : List Value) : Run Value :=
  if args.length = k.params.length then do
    let frame ← make (Store.extend k.frame k.params args)
    evalSequence ev frame k.body
  else fail (.argumentCount "lambda" k.params.length args.length)

/-- Apply a function to arguments that have been evaluated. -/
def apply (host : Host) (ev : Evaluator) (env : FrameId) (func : Value) (args : List Value) :
    Run Value :=
  match func.datum with
  | .native p =>
    if host.permits p then do
      let list ← make (Store.ofList args)
      p.call host ev env list
    else stop (.withheld p)
  | .closure id => do
    let k ← read (·.closure id)
    applyClosure ev k args
  | _ => check fun s => .error (.ofCause (.notApplicable func.typeName (s.text func)))

end Lisplet
