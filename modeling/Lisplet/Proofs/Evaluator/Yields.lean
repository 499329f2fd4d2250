/-
# Lisplet.Proofs.Evaluator.Yields -- what each form of a text comes to

The forms of a text are evaluated one after the other, and the last value counts.  Here every one of them
is accounted for: a form yields its value, or nothing if it ended in a warning that was skipped (`yieldOf`).
The value of the text is the last that was yielded (`foldlM_evalTop`, `runSource_eq_yieldsSource`); a text
whose forms yield nothing comes to what was there before.
-/

import Mathlib.Data.List.ReduceOption
import Mathlib.Tactic
import Lisplet.Session

namespace Lisplet

open Run

/-- Evaluate one form of a text.  It yields its value, or nothing if it ends in a warning and the policy
is to keep going. -/
def yieldOf (ev : Evaluator) (policy : WarnPolicy) (env : FrameId) (form : Value) : Run (Option Value) :=
  fun s =>
    match ev env form s with
    | .ok v s => .ok (some v) s
    | .error (.raised e) s =>
      if !e.isFatal && policy == .keepGoing then
        (do note (.skipped e); pure none : Run (Option Value)) s
      else .error (.raised e) s
    | .error why s => .error why s

/-- Evaluate the forms of a text and keep what each of them yields. -/
def yields (ev : Evaluator) (policy : WarnPolicy) (env : FrameId) :
    List Value → Run (List (Option Value))
  | [] => pure []
  | form :: rest => do
    let y ← yieldOf ev policy env form
    let ys ← yields ev policy env rest
    pure (y :: ys)

/-- Read a text as `file`, evaluate its forms and keep what each of them yields. -/
def yieldsSource (ev : Evaluator) (env : FrameId) (text file : String) : Run (List (Option Value)) := do
  let forms ← readSource text file
  let policy ← read (·.policy env)
  yields ev policy env forms

/-- The last value that was yielded. -/
def lastYield? (ys : List (Option Value)) : Option Value := ys.reduceOption.getLast?

/-- What each form of a text yields, or why one of them ends the run. -/
def Session.yields (session : Session) (host : Host) (depth : Nat) (text file : String) :
    Except Stop (List (Option Value)) :=
  match yieldsSource (eval host depth) session.env text file session.state with
  | .ok ys _ => .ok ys
  | .error why _ => .error why

variable {ev : Evaluator} {policy : WarnPolicy} {env : FrameId}

/-! ## The last value -/

theorem lastYield?_cons (y : Option Value) (ys : List (Option Value)) (result : Value) :
    (lastYield? (y :: ys)).getD result = (lastYield? ys).getD (y.getD result) := by
  cases y with
  | none => simp [lastYield?]
  | some v => simp [lastYield?, List.getLast?_cons]

/-- Forms that yield something in the end hide all that was before them. -/
theorem lastYield?_append (xs ys : List (Option Value)) (result : Value) :
    (lastYield? (xs ++ ys)).getD result = (lastYield? ys).getD ((lastYield? xs).getD result) := by
  induction xs generalizing result with
  | nil => rfl
  | cons x xs ih => rw [List.cons_append, lastYield?_cons, ih, lastYield?_cons]

/-! ## Forms in sequence -/

theorem evalTop_eq_yieldOf (result form : Value) :
    evalTop ev policy env result form =
      (do let y ← yieldOf ev policy env form; pure (y.getD result) : Run Value) := by
  funext s
  show _ = EStateM.bind (yieldOf ev policy env form) _ s
  unfold evalTop yieldOf EStateM.bind
  dsimp only
  cases ev env form s with
  | ok v t => rfl
  | error why t =>
    cases why with
    | raised e =>
      dsimp only
      split
      · rfl
      · rfl
    | exhausted | withheld => rfl

/-- A sequence comes to the last value that its forms yield. -/
theorem foldlM_evalTop (forms : List Value) (result : Value) :
    forms.foldlM (evalTop ev policy env) result =
      (do let ys ← yields ev policy env forms; pure ((lastYield? ys).getD result) : Run Value) := by
  -- every form may replace the result, so the induction is for all results
  induction forms generalizing result with
  | nil => rfl
  | cons form forms ih =>
    rw [List.foldlM_cons, evalTop_eq_yieldOf, yields, bind_assoc, bind_assoc]
    congr 1
    funext y
    rw [pure_bind, ih, bind_assoc]
    congr 1
    funext ys
    rw [pure_bind, lastYield?_cons]

theorem yields_append (forms forms' : List Value) :
    yields ev policy env (forms ++ forms') = (do
      let xs ← yields ev policy env forms
      let ys ← yields ev policy env forms'
      pure (xs ++ ys) : Run (List (Option Value))) := by
  induction forms with
  | nil =>
    show _ = yields ev policy env forms' >>= fun ys => pure ([] ++ ys)
    simp
  | cons form forms ih =>
    rw [List.cons_append, yields, yields, ih]
    simp only [bind_assoc, pure_bind, List.cons_append]

/-! ## Texts -/

theorem runSource_eq_yieldsSource (text file : String) :
    runSource ev env text file =
      (do let ys ← yieldsSource ev env text file; pure ((lastYield? ys).getD .nil) : Run Value) := by
  unfold runSource yieldsSource evalToplevel
  simp only [bind_assoc, foldlM_evalTop]

theorem runSource_of_yieldsSource {text file : String} {s : State} :
    runSource ev env text file s =
      match yieldsSource ev env text file s with
      | .ok ys t => .ok ((lastYield? ys).getD .nil) t
      | .error why t => .error why t := by
  rw [runSource_eq_yieldsSource]
  show EStateM.bind (yieldsSource ev env text file) _ s = _
  unfold EStateM.bind
  cases yieldsSource ev env text file s with
  | ok ys t => rfl
  | error why t => rfl

/-- A run fails as its forms do, or comes to the last value that they yield. -/
theorem Session.runSource_eq_yields (session : Session) (host : Host) (depth : Nat) (text file : String) :
    (session.runSource host depth text file).1 =
      (session.yields host depth text file).map fun ys => (lastYield? ys).getD .nil := by
  obtain ⟨env, state⟩ := session
  have hrun := @runSource_of_yieldsSource (eval host depth) env text file state
  simp only [Session.runSource, Session.run, Session.yields, hrun]
  cases yieldsSource (eval host depth) env text file state with
  | ok ys t => rfl
  | error why t => rfl

end Lisplet
