/-
# Lisplet.Proofs.Evaluator.Guarded -- the evaluator with every look guarded

Whoever counts first and takes afterwards relies on what was counted being there.  Here are the parts of
the evaluator once more with such looks written out: arguments are counted in a walk of their own and
collected in a second one, values are taken from a row by their index, and the text is read by descent.
Each look has a second result for what should never be missing, a `Defect`, which ends everything.

`sure` is a computation that shows no defect.  Every part of the guarded evaluator is `sure` of the plain
one, in all states and for all arguments, so nothing that is looked for is ever missing
(`Guarded.eval_eq`).
-/

import Mathlib.Tactic
import Lisplet.Proofs.Evaluator.Recording
import Lisplet.Proofs.Form.Descent
import Lisplet.Proofs.Store.Walking

namespace Lisplet

/-! ## Guarded computations -/

/-- A computation that may come upon a defect. -/
abbrev Guarded := ExceptT Defect Run

namespace Guarded

variable {α β : Type}

/-- A computation that looks for nothing that could be missing. -/
def sure (act : Run α) : Guarded α := ExceptT.lift act

def defect (d : Defect) : Guarded α := throw d

/-- The value at an index of a row. -/
def item (vs : List Value) (i : Nat) : Guarded Value :=
  match vs[i]? with
  | some v => pure v
  | none => defect (.outOfRange i vs.length)

/-- What is left of a row from an index on. -/
def itemsFrom (vs : List Value) (i : Nat) : Guarded (List Value) :=
  if i ≤ vs.length then pure (vs.drop i) else defect (.outOfRange i vs.length)

/-- Give an error that has no location the one of `p`. -/
def locating (p : Provenance) (act : Guarded α) : Guarded α := ExceptT.mk (Run.locating p act.run)

@[simp] theorem sure_bind (act : Run α) (f : α → Run β) :
    sure (act >>= f) = (sure act >>= fun a => sure (f a)) := by
  funext s
  show EStateM.bind (EStateM.bind act f) _ s = EStateM.bind (EStateM.bind act _) _ s
  unfold EStateM.bind
  cases act s <;> rfl

@[simp] theorem locating_sure (p : Provenance) (act : Run α) :
    locating p (sure act) = sure (Run.locating p act) := by
  funext s
  show Run.locating p (EStateM.bind act _) s = EStateM.bind (Run.locating p act) _ s
  unfold Run.locating EStateM.bind
  dsimp only
  cases act s with
  | ok a s' => rfl
  | error why s' => cases why <;> rfl

/-! ## Arguments -/

/-- The arguments of a function that takes exactly `expected` of them: they are counted, and then
collected. -/
def arguments (name : String) (args : Value) (expected : Nat) : Guarded (List Value) := do
  let count ← sure (Run.check fun s => (s.listLength args).mapError fun fault => .ofCause (.list fault))
  if count = expected then sure (Run.check (·.listElements args))
  else sure (Run.fail (.argumentCount name expected count))

/-- The argument of a function that takes one is the last of those collected. -/
def single (name : String) (args : Value) : Guarded Value := do
  let vs ← arguments name args 1
  match vs.getLast? with
  | some v => pure v
  | none => defect (.vanished name)

/-! ## Primitives -/

/-- Evaluation of a form in an environment, with every look guarded. -/
abbrev Guard := FrameId → Value → Guarded Value

def evalTop (ev : Guard) (policy : WarnPolicy) (env : FrameId) (result form : Value) :
    Guarded Value := ExceptT.mk fun s =>
  match (ev env form).run s with
  | .error (.raised e) s =>
    if !e.isFatal && policy == .keepGoing then (sure (do Run.note (.skipped e); pure result)).run s
    else .error (.raised e) s
  | outcome => outcome

def evalToplevel (ev : Guard) (env : FrameId) (forms : List Value) : Guarded Value := do
  let policy ← sure (Run.read (·.policy env))
  forms.foldlM (evalTop ev policy env) .nil

/-- Read a text by descent. -/
def readSource (text file : String) : Guarded (List Value) :=
  match tokenize text with
  | .error e => sure (Run.raise (.ofReadError e file))
  | .ok tokens => do
    let (forms, failure) := Descent.forms tokens
    sure (forms.forM fun form => Run.note (.read form.text (form.position.inFile file)))
    match failure with
    | none => sure (Run.make (Store.ofForms file forms))
    | some (.malformed e) => sure (Run.raise (.ofReadError e file))
    | some (.defect d) => defect d

def runSource (ev : Guard) (env : FrameId) (text file : String) : Guarded Value := do
  let forms ← readSource text file
  evalToplevel ev env forms

def loadFile (host : Host) (ev : Guard) (env : FrameId) (args : Value) : Guarded Value := do
  let a ← single "load" args
  let path ← sure (Run.ofExcept (a.asString "load"))
  sure (Run.note (.loading path))
  match host.files path with
  | .ok text => runSource ev env text path
  | .error fault => sure (Run.raise ((Error.ofCause (.loadFailed path fault)).locate a.provenance))

/-- A test of one argument. -/
def test (name : String) (p : Value → Bool) (args : Value) : Guarded Value := do
  let a ← single name args
  pure (.bool (p a))

/-- Raise `cause` unless the one argument is true. -/
def require (name : String) (cause : Cause) (args : Value) : Guarded Value := do
  let a ← single name args
  if ← sure (Run.ofExcept (a.asBool name)) then pure .nil else sure (Run.fail cause)

/-- Call a primitive.  Each takes its arguments by their indices, save the maker of pairs, which takes
them from the end and puts up with less. -/
def call (host : Host) (ev : Guard) (env : FrameId) (p : Primitive) (args : Value) : Guarded Value :=
  match p with
  | .isNull => test "null?" Value.isNil args
  | .isSymbol => test "symbol?" (·.symbol?.isSome) args
  | .isAtom => test "atom?" (!·.isPair) args
  | .isPair => test "pair?" Value.isPair args
  | .isList => test "list?" (fun v => v.isPair || v.isNil) args
  | .isEqual => do
    let vs ← arguments "equal?" args 2
    let a ← item vs 0
    let b ← item vs 1
    sure (Run.read fun s => .bool (s.equal a b))
  | .add => sure (Builtin.add args)
  | .not => do
    let a ← single "not" args
    let b ← sure (Run.ofExcept (a.asBool "not"))
    pure (.bool !b)
  | .assert => require "assert" .assertionFailed args
  | .warn => require "warn" .warningRaised args
  | .car => do
    let a ← single "car" args
    sure (Run.ofExcept (a.asList "car"))
    sure (Run.read fun s => (s.car? a).getD a)
  | .cdr => do
    let a ← single "cdr" args
    sure (Run.ofExcept (a.asList "cdr"))
    sure (Run.read fun s => (s.cdr? a).getD .nil)
  | .cons => do
    let vs ← arguments "cons" args 2
    let cdr := vs.getLast?.getD .nil
    let car := vs.dropLast.getLast?.getD .nil
    sure (Run.make (Store.cons car cdr))
  | .list => pure args
  | .length => do
    let a ← single "length" args
    sure (Run.check fun s =>
      match s.listLength a with
      | .ok count => .ok (.int (Int64.ofNat count))
      | .error fault => .error ((Error.ofCause (.listArgument "length" fault)).locate a.provenance))
  | .setCar => do
    let vs ← arguments "set-car!" args 2
    let p ← item vs 0
    let c ← sure (Run.ofExcept (p.asCell "set-car!"))
    let v ← item vs 1
    sure (Run.change (Store.setCar c v))
    pure .nil
  | .setCdr => do
    let vs ← arguments "set-cdr!" args 2
    let p ← item vs 0
    let c ← sure (Run.ofExcept (p.asCell "set-cdr!"))
    let v ← item vs 1
    sure (Run.change (Store.setCdr c v))
    pure .nil
  | .makeHash => do
    let _ ← arguments "make-hash" args 0
    sure (Run.make Store.newTable)
  | .hashSet => do
    let vs ← arguments "hash-set!" args 3
    let h ← item vs 0
    let t ← sure (Run.ofExcept (h.asTable "hash-set!"))
    let k ← item vs 1
    let key ← sure (Builtin.keyOf k)
    let v ← item vs 2
    sure (Run.change (Store.setEntry t key v))
    pure .nil
  | .hashRef => do
    let vs ← arguments "hash-ref" args 2
    let h ← item vs 0
    let t ← sure (Run.ofExcept (h.asTable "hash-ref"))
    let k ← item vs 1
    let key ← sure (Builtin.keyOf k)
    sure (Run.read fun s => ((s.table t).find? key).getD .nil)
  | .inspect => do
    let a ← single "inspect" args
    pure (.string a.describe)
  | .load => loadFile host ev env args

/-! ## Evaluation -/

def evalAll (ev : Guard) (env : FrameId) : List Value → Guarded (List Value)
  | [] => pure []
  | form :: rest => do
    let v ← ev env form
    let vs ← evalAll ev env rest
    pure (v :: vs)

def evalSequence (ev : Guard) (env : FrameId) (forms : List Value) : Guarded Value :=
  forms.foldlM (fun _ form => ev env form) .nil

def applyClosure (ev : Guard) (k : Closure) (args : List Value) : Guarded Value :=
  if args.length = k.params.length then do
    let frame ← sure (Run.make (Store.extend k.frame k.params args))
    evalSequence ev frame k.body
  else sure (Run.fail (.argumentCount "lambda" k.params.length args.length))

def apply (host : Host) (ev : Guard) (env : FrameId) (func : Value) (args : List Value) :
    Guarded Value :=
  match func.datum with
  | .native p =>
    if host.permits p then do
      let list ← sure (Run.make (Store.ofList args))
      call host ev env p list
    else sure (Run.stop (.withheld p))
  | .closure id => do
    let k ← sure (Run.read (·.closure id))
    applyClosure ev k args
  | _ => sure (Run.check fun s => .error (.ofCause (.notApplicable func.typeName (s.text func))))

/-- The number of operands that a special form admits. -/
def admits : OperandCount → Nat → Bool
  | .exactly n, count => count == n
  | .between least most, count => least ≤ count && count ≤ most
  | .atLeast n, count => n ≤ count

def expectOperands (form : String) (expected : OperandCount) (operands : List Value) : Guarded Unit :=
  if admits expected operands.length then pure ()
  else sure (Run.fail (.operandCount form expected operands.length))

def clauseTest (ev : Guard) (env : FrameId) (test : Value) : Guarded Value :=
  if test.isSymbol "else" then pure (.bool true) else ev env test

def evalCond (ev : Guard) (env : FrameId) : List Value → Guarded Value
  | [] => pure .nil
  | clause :: rest => do
    match ← sure (Run.check (·.listElements clause)) with
    | [] => sure (Run.fail .emptyClause)
    | test :: body =>
      let v ← clauseTest ev env test
      if ← sure (testResult "cond" v) then
        if body.isEmpty then pure v else evalSequence ev env body
      else evalCond ev env rest

/-- Evaluate a special form.  Its operands are counted first, and then taken by their indices. -/
def evalSpecial (ev : Guard) (env : FrameId) (location : Location) (form : SpecialForm)
    (operands : List Value) : Guarded Value :=
  match form with
  | .quote => do
    expectOperands "quote" (.exactly 1) operands
    item operands 0
  | .conditional => do
    expectOperands "if" (.between 2 3) operands
    let test ← item operands 0
    let v ← ev env test
    if ← sure (testResult "if" v) then
      let consequent ← item operands 1
      ev env consequent
    else match operands[2]? with
      | some alternative => ev env alternative
      | none => pure .nil
  | .cond => evalCond ev env operands
  | .define => do
    expectOperands "define" (.exactly 2) operands
    let target ← item operands 0
    match target.symbol? with
    | none => sure (Run.fail (.definedName target.typeName))
    | some name =>
      let expr ← item operands 1
      let v ← ev env expr
      let v := v.withBound name
      sure (Run.note (.defined name v.typeName))
      sure (Run.change (Store.define env name v))
      pure v
  | .lambda => do
    expectOperands "lambda" (.atLeast 2) operands
    let params ← item operands 0
    let vs ← sure (Run.check (·.listElements params))
    let names ← sure (Run.ofExcept (parameterNames [] vs))
    let body ← itemsFrom operands 1
    let v ← sure (Run.make (Store.newClosure ⟨names, body, env⟩))
    pure (v.withLocation location)
  | .begin => evalSequence ev env operands

def evalPair (host : Host) (ev : Guard) (env : FrameId) (location : Location) (cell : Cell) :
    Guarded Value :=
  match cell.car.symbol?.bind SpecialForm.ofName? with
  | some form => do
    let operands ← sure (operandsOf cell.cdr)
    evalSpecial ev env location form operands
  | none => do
    let func ← ev env cell.car
    let operands ← sure (operandsOf cell.cdr)
    let args ← evalAll ev env operands
    apply host ev env func args

def step (host : Host) (ev : Guard) : Guard := fun env expr =>
  locating expr.provenance <|
    match expr.datum with
    | .atom (.symbol name) =>
      sure <| Run.check fun s =>
        match s.lookup env name with
        | some v => .ok v
        | none => .error (.ofCause (.unbound name))
    | .pair c => do
      let cell ← sure (Run.read (·.cell c))
      evalPair host ev env expr.provenance.location cell
    | _ => pure expr

def eval (host : Host) : Nat → Guard
  | 0 => fun _ _ => sure (Run.stop .exhausted)
  | n + 1 => step host (eval host n)

/-! ## Nothing is missing -/

/-- Both walks over the arguments come to the same end. -/
theorem arguments_eq (name : String) (args : Value) (expected : Nat) :
    arguments name args expected = sure (Run.check (·.arguments name args expected)) := by
  have hwalks : Run.check (·.arguments name args expected) = (do
      let count ← Run.check fun s => (s.listLength args).mapError fun fault => .ofCause (.list fault)
      if count = expected then Run.check (·.listElements args)
      else Run.fail (.argumentCount name expected count)) := by
    funext s
    show _ = EStateM.bind _ _ s
    unfold EStateM.bind Run.check Store.arguments Store.listElements
    dsimp only
    rw [Store.listLength_eq]
    cases helements : s.store.elements args with
    | error fault => rfl
    | ok vs =>
      by_cases hcount : vs.length = expected
      · simp [Except.map, Except.mapError, bind, Except.bind, hcount, helements]
      · simp [Except.map, Except.mapError, bind, Except.bind, hcount]
        rfl
  rw [hwalks, sure_bind]
  unfold arguments
  congr 1
  funext count
  split <;> rfl

theorem sure_check_map (f : Store → Except Error α) (g : α → β) :
    sure (Run.check fun s => (f s).map g) = (do let a ← sure (Run.check f); pure (g a)) := by
  have hmap : Run.check (fun s => (f s).map g) = (do let a ← Run.check f; pure (g a)) := by
    funext s
    show _ = EStateM.bind _ _ s
    unfold EStateM.bind Run.check
    dsimp only
    cases f s.store <;> rfl
  rw [hmap, sure_bind]
  rfl

/-! ### Arguments that were counted are there -/

section Counted

variable (s : Store) (name : String) (args : Value)

theorem arguments_none : s.arguments name args 0 = (s.noArguments name args).map fun _ => [] := by
  unfold Store.arguments Store.noArguments
  cases s.listElements args with
  | error e => rfl
  | ok vs =>
    match vs with
    | [] | _ :: _ => rfl

theorem arguments_one : s.arguments name args 1 = (s.oneArgument name args).map fun a => [a] := by
  unfold Store.arguments Store.oneArgument
  cases s.listElements args with
  | error e => rfl
  | ok vs =>
    match vs with
    | [] | [_] => rfl
    | _ :: _ :: _ => simp [bind, Except.bind, Except.map]

theorem arguments_two :
    s.arguments name args 2 = (s.twoArguments name args).map fun (a, b) => [a, b] := by
  unfold Store.arguments Store.twoArguments
  cases s.listElements args with
  | error e => rfl
  | ok vs =>
    match vs with
    | [] | [_] | [_, _] => rfl
    | _ :: _ :: _ :: _ => simp [bind, Except.bind, Except.map]

theorem arguments_three :
    s.arguments name args 3 = (s.threeArguments name args).map fun (a, b, c) => [a, b, c] := by
  unfold Store.arguments Store.threeArguments
  cases s.listElements args with
  | error e => rfl
  | ok vs =>
    match vs with
    | [] | [_] | [_, _] | [_, _, _] => rfl
    | _ :: _ :: _ :: _ :: _ => simp [bind, Except.bind, Except.map]

end Counted

/-- The one argument is there. -/
theorem single_eq (name : String) (args : Value) :
    single name args = sure (Run.check (·.oneArgument name args)) := by
  unfold single
  simp only [arguments_eq, arguments_one, sure_check_map, bind_assoc, pure_bind, List.getLast?_singleton,
    bind_pure]

theorem arguments_two_bind (name : String) (args : Value) (f : List Value → Guarded α) :
    (arguments name args 2 >>= f) =
      (sure (Run.check (·.twoArguments name args)) >>= fun (a, b) => f [a, b]) := by
  simp only [arguments_eq, arguments_two, sure_check_map, bind_assoc, pure_bind]

theorem arguments_three_bind (name : String) (args : Value) (f : List Value → Guarded α) :
    (arguments name args 3 >>= f) =
      (sure (Run.check (·.threeArguments name args)) >>= fun (a, b, c) => f [a, b, c]) := by
  simp only [arguments_eq, arguments_three, sure_check_map, bind_assoc, pure_bind]

/-! ### Texts -/

/-- Evaluation without a defect. -/
def certain (ev : Evaluator) : Guard := fun env form => sure (ev env form)

theorem readSource_eq (text file : String) :
    readSource text file = sure (Lisplet.readSource text file) := by
  unfold readSource Lisplet.readSource Reading.ofText
  cases tokenize text with
  | error e => rfl
  | ok tokens =>
    dsimp only
    rw [Descent.forms_eq, sure_bind]
    dsimp only
    cases (Reading.ofTokens tokens).error with
    | none => rfl
    | some e => rfl

theorem foldlM_sure {γ : Type} (f : β → γ → Run β) (b : β) (cs : List γ) :
    cs.foldlM (fun b c => sure (f b c)) b = sure (cs.foldlM f b) := by
  induction cs generalizing b with
  | nil => rfl
  | cons c cs ih =>
    rw [List.foldlM_cons, List.foldlM_cons, sure_bind]
    exact congrArg _ (funext ih)

theorem evalTop_eq (ev : Evaluator) (policy : WarnPolicy) (env : FrameId) (result form : Value) :
    evalTop (certain ev) policy env result form = sure (Lisplet.evalTop ev policy env result form) := by
  funext s
  show evalTop (certain ev) policy env result form s =
    EStateM.bind (Lisplet.evalTop ev policy env result form) _ s
  have hform : certain ev env form s = EStateM.bind (ev env form) (fun v => pure (.ok v)) s := rfl
  unfold evalTop Lisplet.evalTop EStateM.bind
  unfold EStateM.bind at hform
  simp only [ExceptT.run, ExceptT.mk, hform]
  cases ev env form s with
  | ok v s' => rfl
  | error why s' =>
    cases why with
    | raised e =>
      dsimp only
      split <;> rfl
    | exhausted | withheld => rfl

theorem runSource_eq (ev : Evaluator) (env : FrameId) (text file : String) :
    runSource (certain ev) env text file = sure (Lisplet.runSource ev env text file) := by
  unfold runSource Lisplet.runSource evalToplevel Lisplet.evalToplevel
  simp only [readSource_eq, sure_bind]
  congr 1
  funext forms
  congr 1
  funext policy
  rw [← foldlM_sure]
  congr 1
  funext result form
  exact evalTop_eq ev policy env result form

/-! ### Primitives -/

theorem loadFile_eq (host : Host) (ev : Evaluator) (env : FrameId) (args : Value) :
    loadFile host (certain ev) env args = sure (Lisplet.loadFile host ev env args) := by
  unfold loadFile Lisplet.loadFile
  simp only [single_eq, sure_bind]
  congr 1
  funext a
  congr 1
  funext path
  congr 1
  funext _
  cases host.files path with
  | ok text => exact runSource_eq ev env text path
  | error fault => rfl

theorem lengthOf_eq (s : Store) (a : Value) :
    Builtin.lengthOf s a = match s.listLength a with
      | .ok count => .ok (.int (Int64.ofNat count))
      | .error fault => .error ((Error.ofCause (.listArgument "length" fault)).locate a.provenance) := by
  unfold Builtin.lengthOf
  rw [Store.listLength_eq]
  cases s.elements a <;> rfl

theorem test_eq (name : String) (p : Value → Bool) (args : Value) :
    test name p args = sure (Builtin.test name p args) := by
  unfold test Builtin.test
  rw [single_eq, sure_bind]
  rfl

theorem require_eq (name : String) (cause : Cause) (args : Value) :
    require name cause args = sure (Builtin.require name cause args) := by
  unfold require Builtin.require
  simp only [single_eq, sure_bind]
  congr 1
  funext a
  congr 1
  funext b
  cases b <;> rfl

/-- Whatever a primitive is called with, it finds its arguments. -/
theorem call_eq (host : Host) (ev : Evaluator) (env : FrameId) (p : Primitive) (args : Value) :
    call host (certain ev) env p args = sure (p.call host ev env args) := by
  cases p with
  | load => exact loadFile_eq host ev env args
  | isNull | isSymbol | isAtom | isPair | isList => exact test_eq _ _ args
  | assert | warn => exact require_eq _ _ args
  | add | list => rfl
  | isEqual =>
    simp only [call, Primitive.call, Builtin.isEqual, arguments_two_bind, sure_bind]
    rfl
  | cons =>
    simp only [call, Primitive.call, Builtin.cons, arguments_two_bind, sure_bind]
    rfl
  | setCar =>
    simp only [call, Primitive.call, Builtin.setCar, arguments_two_bind, sure_bind]
    rfl
  | setCdr =>
    simp only [call, Primitive.call, Builtin.setCdr, arguments_two_bind, sure_bind]
    rfl
  | hashRef =>
    simp only [call, Primitive.call, Builtin.hashRef, arguments_two_bind, sure_bind]
    rfl
  | hashSet =>
    simp only [call, Primitive.call, Builtin.hashSet, arguments_three_bind, sure_bind]
    rfl
  | not =>
    simp only [call, Primitive.call, Builtin.not, single_eq, sure_bind]
    rfl
  | car =>
    simp only [call, Primitive.call, Builtin.car, single_eq, sure_bind]
  | cdr =>
    simp only [call, Primitive.call, Builtin.cdr, single_eq, sure_bind]
  | inspect =>
    simp only [call, Primitive.call, Builtin.inspect, single_eq, sure_bind]
    rfl
  | length =>
    simp only [call, Primitive.call, Builtin.length, single_eq, sure_bind, lengthOf_eq]
  | makeHash =>
    simp only [call, Primitive.call, Builtin.makeHash, arguments_eq, arguments_none, sure_check_map,
      bind_assoc, pure_bind, sure_bind]

/-! ### Evaluation -/

theorem evalAll_eq (ev : Evaluator) (env : FrameId) (forms : List Value) :
    evalAll (certain ev) env forms = sure (Lisplet.evalAll ev env forms) := by
  induction forms with
  | nil => rfl
  | cons form forms ih =>
    simp only [evalAll, Lisplet.evalAll, sure_bind, ih]
    rfl

theorem evalSequence_eq (ev : Evaluator) (env : FrameId) (forms : List Value) :
    evalSequence (certain ev) env forms = sure (Lisplet.evalSequence ev env forms) :=
  foldlM_sure (fun _ form => ev env form) .nil forms

theorem applyClosure_eq (ev : Evaluator) (k : Closure) (args : List Value) :
    applyClosure (certain ev) k args = sure (Lisplet.applyClosure ev k args) := by
  unfold applyClosure Lisplet.applyClosure
  split
  · simp only [evalSequence_eq, sure_bind]
  · rfl

theorem apply_eq (host : Host) (ev : Evaluator) (env : FrameId) (func : Value) (args : List Value) :
    apply host (certain ev) env func args = sure (Lisplet.apply host ev env func args) := by
  unfold apply Lisplet.apply
  cases func.datum with
  | native p =>
    dsimp only
    split
    · simp only [call_eq, sure_bind]
    · rfl
  | closure id => simp only [applyClosure_eq, sure_bind]
  | nil | pair | atom | hash => rfl

theorem evalCond_eq (ev : Evaluator) (env : FrameId) (clauses : List Value) :
    evalCond (certain ev) env clauses = sure (Lisplet.evalCond ev env clauses) := by
  induction clauses with
  | nil => rfl
  | cons clause clauses ih =>
    rw [evalCond, Lisplet.evalCond, sure_bind]
    congr 1
    funext parts
    cases parts with
    | nil => rfl
    | cons test body =>
      have htest : clauseTest (certain ev) env test = sure (Lisplet.clauseTest ev env test) := by
        unfold clauseTest Lisplet.clauseTest
        split <;> rfl
      dsimp only
      rw [htest, sure_bind]
      congr 1
      funext v
      rw [sure_bind]
      congr 1
      funext chosen
      cases chosen with
      | false => exact ih
      | true =>
        simp only [if_true]
        split
        · rfl
        · exact evalSequence_eq ev env body

/-- A wrong number of operands ends a special form at once. -/
theorem expectOperands_bind {form : String} {expected : OperandCount} {operands : List Value}
    (h : admits expected operands.length = false) (f : Unit → Guarded Value) :
    (expectOperands form expected operands >>= f) =
      sure (Run.fail (.operandCount form expected operands.length)) := by
  unfold expectOperands
  rw [h]
  rfl

/-- Whatever operands stand in a special form, those that it takes are there. -/
theorem evalSpecial_eq (ev : Evaluator) (env : FrameId) (location : Location) (form : SpecialForm)
    (operands : List Value) :
    evalSpecial (certain ev) env location form operands =
      sure (Lisplet.evalSpecial ev env location form operands) := by
  cases form with
  | quote =>
    match operands with
    | [_] => rfl
    | [] | _ :: _ :: _ => exact expectOperands_bind (by simp [admits]) _
  | conditional =>
    match operands with
    | [test, consequent] | [test, consequent, alternative] =>
      simp only [Lisplet.evalSpecial, sure_bind]
      show (certain ev env test >>= _) = _
      congr 1
      funext v
      show (sure (testResult "if" v) >>= _) = _
      congr 1
      funext chosen
      cases chosen <;> rfl
    | [] | [_] | _ :: _ :: _ :: _ :: _ => exact expectOperands_bind (by simp [admits]) _
  | cond => exact evalCond_eq ev env operands
  | define =>
    match operands with
    | [target, expr] =>
      show (match target.symbol? with | none => _ | some name => _) = _
      unfold Lisplet.evalSpecial
      dsimp only
      cases target.symbol? with
      | none => rfl
      | some name =>
        simp only [sure_bind]
        rfl
    | [] | [_] | _ :: _ :: _ :: _ => exact expectOperands_bind (by simp [admits]) _
  | lambda =>
    match operands with
    | params :: body :: bodies =>
      simp only [Lisplet.evalSpecial, sure_bind]
      rfl
    | [] | [_] => exact expectOperands_bind (by simp [admits]) _
  | begin => exact evalSequence_eq ev env operands

theorem evalPair_eq (host : Host) (ev : Evaluator) (env : FrameId) (location : Location) (cell : Cell) :
    evalPair host (certain ev) env location cell =
      sure (Lisplet.evalPair host ev env location cell) := by
  unfold evalPair Lisplet.evalPair
  cases cell.car.symbol?.bind SpecialForm.ofName? with
  | some form => simp only [evalSpecial_eq, sure_bind]
  | none =>
    simp only [evalAll_eq, apply_eq, sure_bind]
    rfl

theorem step_eq (host : Host) (ev : Evaluator) :
    step host (certain ev) = certain (Lisplet.step host ev) := by
  funext env form
  show step host (certain ev) env form = sure (Lisplet.step host ev env form)
  unfold step Lisplet.step
  rw [← locating_sure]
  congr 1
  cases form.datum with
  | pair c => simp only [evalPair_eq, sure_bind]
  | atom a => cases a <;> rfl
  | nil | closure | native | hash => rfl

/-- The guarded evaluator is the plain one: it never comes upon a defect. -/
theorem eval_eq (host : Host) (n : Nat) : eval host n = certain (Lisplet.eval host n) := by
  induction n with
  | zero => rfl
  | succ n ih => rw [eval, ih, step_eq, Lisplet.eval]

end Guarded

/-- A call with every look guarded. -/
def Call.guarded (call : Call) (env : FrameId) : Guarded Value :=
  match call.request with
  | .source text file => Guarded.runSource (Guarded.eval call.host call.depth) env text file
  | .file path =>
    match call.host.files path with
    | .error fault => Guarded.sure (Run.fail (.runFailed path fault))
    | .ok text => do
      Guarded.sure (Run.note (.running path))
      Guarded.runSource (Guarded.eval call.host call.depth) env text path

theorem Call.guarded_eq (call : Call) (env : FrameId) :
    call.guarded env = Guarded.sure (call.plain env) := by
  unfold Call.guarded Call.plain
  rw [Guarded.eval_eq]
  cases call.request with
  | source text file => exact Guarded.runSource_eq _ env text file
  | file path =>
    dsimp only
    cases call.host.files path with
    | error fault => rfl
    | ok text => simp only [Guarded.runSource_eq, Guarded.sure_bind]

end Lisplet
