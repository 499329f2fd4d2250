/-
# Lisplet.Session -- running texts and files one after the other

A session has a global frame in which every primitive is bound, and keeps its state from run to run:
forms that were evaluated before an error keep their effects.
-/

import Lisplet.Evaluator

namespace Lisplet

/-- A global frame and the state that goes with it. -/
structure Session where
  env : FrameId
  state : State
deriving Inhabited

/-- How a run ended. -/
abbrev Outcome := Except Stop Value

namespace Session

/-- A session with every primitive bound and the given warn policy. -/
def new (policy : WarnPolicy) : Session :=
  let (env, store) := Store.newGlobal {}
  ⟨env, { store := (store.setPolicy env policy).definePrimitives env }⟩

/-- Carry out a computation in the global environment. -/
def run (session : Session) (act : FrameId → Run Value) : Outcome × Session :=
  let ⟨env, state⟩ := session
  match act env state with
  | .ok v state => (.ok v, ⟨env, state⟩)
  | .error why state => (.error why, ⟨env, state⟩)

/-- Read a text as `file` and evaluate its forms. -/
def runSource (session : Session) (host : Host) (depth : Nat) (text file : String) :
    Outcome × Session :=
  session.run fun env => Lisplet.runSource (eval host depth) env text file

/-- Read a file and evaluate its forms. -/
def runFile (session : Session) (host : Host) (depth : Nat) (path : String) :
    Outcome × Session :=
  session.run fun env =>
    match host.files path with
    | .error fault => Run.fail (.runFailed path fault)
    | .ok text => do
      Run.note (.running path)
      Lisplet.runSource (eval host depth) env text path

end Session

end Lisplet
