/-
# Lisplet.Proofs.Evaluator.Recording -- runs that keep a record

What a run did on its way cannot be seen from where it ended.  Here are the parts of the evaluator once
more, as computations that also keep a record: of every text that was read, of every call of a primitive
or a function and of every value that was returned, each with the store as it was at that moment.  Whatever
evaluates nothing is taken over as it is.

The record is kept and never looked at.  `Erases` says that a recording computation, without its record,
is the plain one, and holds of each part of the evaluator, so what is proved of all recorded runs is
proved of the runs of a session (`History.state_ofCalls`).
-/

import Mathlib.Tactic
import Lisplet.Session

namespace Lisplet

/-! ## Records -/

/-- Something that happens in a run. -/
inductive Event where
  /-- A text was read, and these are its forms. -/
  | read (forms : List Value)
  /-- A primitive is called with its arguments as one list. -/
  | passed (p : Primitive) (args : Value)
  /-- A function is called with its arguments in order. -/
  | called (func : Value) (args : List Value)
  | returned (v : Value)
  | stopped (why : Stop)
deriving DecidableEq, Inhabited

/-- An event and the store as it was then. -/
structure Moment where
  event : Event
  store : Store
deriving Inhabited

/-- The state of a session and what has happened so far, newest first. -/
structure History where
  state : State := {}
  moments : List Moment := []
deriving Inhabited

/-- A computation that keeps a record. -/
abbrev Recorded := EStateM Stop History

namespace Recorded

variable {α β : Type}

/-- A computation in which nothing happens that is recorded. -/
def lift (act : Run α) : Recorded α := fun ⟨state, moments⟩ =>
  match act state with
  | .ok a state => .ok a ⟨state, moments⟩
  | .error why state => .error why ⟨state, moments⟩

def record (e : Event) : Recorded Unit := fun ⟨state, moments⟩ =>
  .ok () ⟨state, ⟨e, state.store⟩ :: moments⟩

/-- Record the value that a computation returns. -/
def returning (act : Recorded Value) : Recorded Value := do
  let v ← act
  record (.returned v)
  pure v

/-- Give an error that has no location the one of `p`. -/
def locating (p : Provenance) (act : Recorded α) : Recorded α := fun h =>
  match act h with
  | .error (.raised e) h => .error (.raised (e.locate p)) h
  | result => result

theorem lift_of_ok {act : Run α} {h : History} {a : α} {s : State} (hact : act h.state = .ok a s) :
    lift act h = .ok a ⟨s, h.moments⟩ := by
  unfold lift
  simp only [hact]

theorem lift_of_error {act : Run α} {h : History} {why : Stop} {s : State}
    (hact : act h.state = .error why s) : lift act h = .error why ⟨s, h.moments⟩ := by
  unfold lift
  simp only [hact]

theorem lift_bind (act : Run α) (f : α → Run β) :
    lift (act >>= f) = (lift act >>= fun a => lift (f a)) := by
  funext ⟨state, moments⟩
  show lift (EStateM.bind act f) _ = EStateM.bind (lift act) _ _
  unfold lift EStateM.bind
  dsimp only
  cases act state <;> rfl

/-! ## The evaluator with a record -/

/-- Evaluation of a form in an environment, with a record. -/
abbrev Recorder := FrameId → Value → Recorded Value

def evalAll (ev : Recorder) (env : FrameId) : List Value → Recorded (List Value)
  | [] => pure []
  | form :: rest => do
    let v ← ev env form
    let vs ← evalAll ev env rest
    pure (v :: vs)

def evalSequence (ev : Recorder) (env : FrameId) (forms : List Value) : Recorded Value :=
  forms.foldlM (fun _ form => ev env form) .nil

def evalTop (ev : Recorder) (policy : WarnPolicy) (env : FrameId) (result : Value) (form : Value) :
    Recorded Value := fun h =>
  match ev env form h with
  | .error (.raised e) h =>
    if !e.isFatal && policy == .keepGoing then
      lift (do Run.note (.skipped e); pure result) h
    else .error (.raised e) h
  | outcome => outcome

def evalToplevel (ev : Recorder) (env : FrameId) (forms : List Value) : Recorded Value := do
  let policy ← lift (Run.read (·.policy env))
  forms.foldlM (evalTop ev policy env) .nil

def readSource (text file : String) : Recorded (List Value) := do
  let forms ← lift (Lisplet.readSource text file)
  record (.read forms)
  pure forms

def runSource (ev : Recorder) (env : FrameId) (text file : String) : Recorded Value := do
  let forms ← readSource text file
  evalToplevel ev env forms

def loadFile (host : Host) (ev : Recorder) (env : FrameId) (args : Value) : Recorded Value := do
  let a ← lift (Run.check (·.oneArgument "load" args))
  let path ← lift (Run.ofExcept (a.asString "load"))
  lift (Run.note (.loading path))
  match host.files path with
  | .ok text => runSource ev env text path
  | .error fault => lift (Run.raise ((Error.ofCause (.loadFailed path fault)).locate a.provenance))

/-- All primitives but one evaluate nothing. -/
def call (host : Host) (ev : Recorder) (env : FrameId) (p : Primitive) (args : Value) :
    Recorded Value := do
  record (.passed p args)
  match p with
  | .load => loadFile host ev env args
  | p => lift (p.call host (fun _ _ => Run.stop .exhausted) env args)

def applyClosure (ev : Recorder) (k : Closure) (args : List Value) : Recorded Value :=
  if args.length = k.params.length then do
    let frame ← lift (Run.make (Store.extend k.frame k.params args))
    evalSequence ev frame k.body
  else lift (Run.fail (.argumentCount "lambda" k.params.length args.length))

def apply (host : Host) (ev : Recorder) (env : FrameId) (func : Value) (args : List Value) :
    Recorded Value :=
  match func.datum with
  | .native p =>
    if host.permits p then do
      let list ← lift (Run.make (Store.ofList args))
      call host ev env p list
    else lift (Run.stop (.withheld p))
  | .closure id => do
    record (.called func args)
    let k ← lift (Run.read (·.closure id))
    applyClosure ev k args
  | _ => lift (Run.check fun s => .error (.ofCause (.notApplicable func.typeName (s.text func))))

def clauseTest (ev : Recorder) (env : FrameId) (test : Value) : Recorded Value :=
  if test.isSymbol "else" then pure (.bool true) else ev env test

def evalCond (ev : Recorder) (env : FrameId) : List Value → Recorded Value
  | [] => pure .nil
  | clause :: rest => do
    match ← lift (Run.check (·.listElements clause)) with
    | [] => lift (Run.fail .emptyClause)
    | test :: body =>
      let v ← clauseTest ev env test
      if ← lift (testResult "cond" v) then
        if body.isEmpty then pure v else evalSequence ev env body
      else evalCond ev env rest

def evalSpecial (ev : Recorder) (env : FrameId) (location : Location) (form : SpecialForm)
    (operands : List Value) : Recorded Value :=
  match form with
  | .conditional =>
    match operands with
    | [test, consequent] => do
      let v ← ev env test
      if ← lift (testResult "if" v) then ev env consequent else pure .nil
    | [test, consequent, alternative] => do
      let v ← ev env test
      if ← lift (testResult "if" v) then ev env consequent else ev env alternative
    | _ => lift (Run.fail (.operandCount "if" (.between 2 3) operands.length))
  | .cond => evalCond ev env operands
  | .define =>
    match operands with
    | [target, expr] =>
      match target.symbol? with
      | none => lift (Run.fail (.definedName target.typeName))
      | some name => do
        let v ← ev env expr
        let v := v.withBound name
        lift (Run.note (.defined name v.typeName))
        lift (Run.change (Store.define env name v))
        pure v
    | _ => lift (Run.fail (.operandCount "define" (.exactly 2) operands.length))
  | .begin => evalSequence ev env operands
  -- quoting and making a function evaluate nothing
  | .quote | .lambda =>
    lift (Lisplet.evalSpecial (fun _ _ => Run.stop .exhausted) env location form operands)

def evalPair (host : Host) (ev : Recorder) (env : FrameId) (location : Location) (cell : Cell) :
    Recorded Value :=
  match cell.car.symbol?.bind SpecialForm.ofName? with
  | some form => do
    let operands ← lift (operandsOf cell.cdr)
    evalSpecial ev env location form operands
  | none => do
    let func ← ev env cell.car
    let operands ← lift (operandsOf cell.cdr)
    let args ← evalAll ev env operands
    apply host ev env func args

def step (host : Host) (ev : Recorder) : Recorder := fun env expr =>
  locating expr.provenance <| returning <|
    match expr.datum with
    | .atom (.symbol name) =>
      lift <| Run.check fun s =>
        match s.lookup env name with
        | some v => .ok v
        | none => .error (.ofCause (.unbound name))
    | .pair c => do
      let cell ← lift (Run.read (·.cell c))
      evalPair host ev env expr.provenance.location cell
    | _ => pure expr

def eval (host : Host) : Nat → Recorder
  | 0 => fun _ _ => lift (Run.stop .exhausted)
  | n + 1 => step host (eval host n)

/-! ## Without its record -/

/-- Without its record, `act` is `act'`. -/
def Erases (act : Recorded α) (act' : Run α) : Prop :=
  ∀ h : History,
    match act h with
    | .ok a h' => act' h.state = .ok a h'.state
    | .error why h' => act' h.state = .error why h'.state

namespace Erases

theorem lift (act : Run α) : Erases (Recorded.lift act) act := by
  intro h
  cases hact : act h.state with
  | ok a s => rw [lift_of_ok hact]
  | error why s => rw [lift_of_error hact]

theorem pure (a : α) : Erases (pure a) (pure a) := fun _ => rfl

theorem bind {act : Recorded α} {act' : Run α} {f : α → Recorded β} {f' : α → Run β}
    (h : Erases act act') (hf : ∀ a, Erases (f a) (f' a)) : Erases (act >>= f) (act' >>= f') := by
  intro s
  have hact := h s
  show match EStateM.bind act f s with
    | .ok a t => EStateM.bind act' f' s.state = .ok a t.state
    | .error why t => EStateM.bind act' f' s.state = .error why t.state
  unfold EStateM.bind
  cases hres : act s with
  | ok a t =>
    rw [hres] at hact
    rw [hact]
    exact hf a t
  | error why t =>
    rw [hres] at hact
    rw [hact]

/-- To record an event does nothing else. -/
theorem record (e : Event) {act : Recorded α} {act' : Run α} (h : Erases act act') :
    Erases (do Recorded.record e; act) act' :=
  fun s => h ⟨s.state, ⟨e, s.state.store⟩ :: s.moments⟩

theorem returning {act : Recorded Value} {act' : Run Value} (h : Erases act act') :
    Erases (Recorded.returning act) act' := by
  have hbind := h.bind fun v => Erases.record (.returned v) (Erases.pure v)
  rwa [bind_pure] at hbind

theorem locating (p : Provenance) {act : Recorded α} {act' : Run α} (h : Erases act act') :
    Erases (Recorded.locating p act) (Run.locating p act') := by
  intro s
  have hact := h s
  unfold Recorded.locating Run.locating
  cases hres : act s with
  | ok a t =>
    rw [hres] at hact
    rw [hact]
  | error why t =>
    rw [hres] at hact
    rw [hact]
    cases why <;> rfl

theorem foldlM {f : α → β → Recorded α} {f' : α → β → Run α} (hf : ∀ a b, Erases (f a b) (f' a b))
    (bs : List β) (a : α) : Erases (bs.foldlM f a) (bs.foldlM f' a) := by
  induction bs generalizing a with
  | nil => exact pure a
  | cons b bs ih =>
    rw [List.foldlM_cons, List.foldlM_cons]
    exact bind (hf a b) ih

end Erases

/-- Without its record, one evaluator is the other. -/
def Records (ev : Recorder) (ev' : Evaluator) : Prop := ∀ env form, Erases (ev env form) (ev' env form)

namespace Records

variable {ev : Recorder} {ev' : Evaluator}

theorem evalAll (h : Records ev ev') (env : FrameId) (forms : List Value) :
    Erases (evalAll ev env forms) (Lisplet.evalAll ev' env forms) := by
  induction forms with
  | nil => exact .pure _
  | cons form forms ih => exact (h env form).bind fun v => ih.bind fun vs => .pure _

theorem evalSequence (h : Records ev ev') (env : FrameId) (forms : List Value) :
    Erases (evalSequence ev env forms) (Lisplet.evalSequence ev' env forms) :=
  .foldlM (fun _ form => h env form) forms .nil

theorem evalTop (h : Records ev ev') (policy : WarnPolicy) (env : FrameId) (result form : Value) :
    Erases (evalTop ev policy env result form) (Lisplet.evalTop ev' policy env result form) := by
  intro s
  have hform := h env form s
  unfold Recorded.evalTop Lisplet.evalTop
  cases hres : ev env form s with
  | ok v t =>
    rw [hres] at hform
    rw [hform]
  | error why t =>
    rw [hres] at hform
    rw [hform]
    cases why with
    | raised e =>
      by_cases hskip : (!e.isFatal && policy == .keepGoing) = true
      · simp only [hskip, if_true]
        exact Erases.lift (do Run.note (.skipped e); pure result) t
      · simp only [hskip, Bool.false_eq_true, if_false]
    | exhausted => rfl
    | withheld p => rfl

theorem readSource (text file : String) :
    Erases (readSource text file) (Lisplet.readSource text file) := by
  have hbind := (Erases.lift (Lisplet.readSource text file)).bind fun forms =>
    Erases.record (.read forms) (Erases.pure forms)
  rwa [bind_pure] at hbind

theorem runSource (h : Records ev ev') (env : FrameId) (text file : String) :
    Erases (runSource ev env text file) (Lisplet.runSource ev' env text file) := by
  refine (readSource text file).bind fun forms => (Erases.lift _).bind fun policy => ?_
  exact .foldlM (fun result form => h.evalTop policy env result form) forms .nil

/-! ### Applications -/

theorem loadFile (h : Records ev ev') (host : Host) (env : FrameId) (args : Value) :
    Erases (loadFile host ev env args) (Lisplet.loadFile host ev' env args) := by
  refine (Erases.lift _).bind fun a => (Erases.lift _).bind fun path => (Erases.lift _).bind fun _ => ?_
  cases host.files path with
  | ok text => exact h.runSource env text path
  | error fault => exact .lift _

theorem call (h : Records ev ev') (host : Host) (env : FrameId) (p : Primitive) (args : Value) :
    Erases (call host ev env p args) (p.call host ev' env args) := by
  refine .record _ ?_
  cases p with
  | load => exact h.loadFile host env args
  | _ => exact .lift _

theorem applyClosure (h : Records ev ev') (k : Closure) (args : List Value) :
    Erases (applyClosure ev k args) (Lisplet.applyClosure ev' k args) := by
  unfold Recorded.applyClosure Lisplet.applyClosure
  split
  · exact (Erases.lift _).bind fun frame => h.evalSequence frame k.body
  · exact .lift _

theorem apply (h : Records ev ev') (host : Host) (env : FrameId) (func : Value) (args : List Value) :
    Erases (apply host ev env func args) (Lisplet.apply host ev' env func args) := by
  unfold Recorded.apply Lisplet.apply
  cases func.datum with
  | native p =>
    dsimp only
    split
    · exact (Erases.lift _).bind fun list => h.call host env p list
    · exact .lift _
  | closure id => exact .record _ ((Erases.lift _).bind fun k => h.applyClosure k args)
  | nil | pair | atom | hash => exact .lift _

/-! ### Special forms -/

theorem clauseTest (h : Records ev ev') (env : FrameId) (test : Value) :
    Erases (clauseTest ev env test) (Lisplet.clauseTest ev' env test) := by
  unfold Recorded.clauseTest Lisplet.clauseTest
  split
  · exact .pure _
  · exact h env test

theorem evalCond (h : Records ev ev') (env : FrameId) (clauses : List Value) :
    Erases (evalCond ev env clauses) (Lisplet.evalCond ev' env clauses) := by
  induction clauses with
  | nil => exact .pure _
  | cons clause clauses ih =>
    rw [Recorded.evalCond, Lisplet.evalCond]
    refine (Erases.lift _).bind fun parts => ?_
    cases parts with
    | nil => exact .lift _
    | cons test body =>
      refine (h.clauseTest env test).bind fun v => (Erases.lift _).bind fun chosen => ?_
      split
      · split
        · exact .pure _
        · exact h.evalSequence env body
      · exact ih

theorem evalSpecial (h : Records ev ev') (env : FrameId) (location : Location) (form : SpecialForm)
    (operands : List Value) :
    Erases (evalSpecial ev env location form operands)
      (Lisplet.evalSpecial ev' env location form operands) := by
  cases form with
  | quote | lambda => exact .lift _
  | conditional =>
    unfold Recorded.evalSpecial Lisplet.evalSpecial
    match operands with
    | [test, consequent] =>
      refine (h env _).bind fun v => (Erases.lift _).bind fun chosen => ?_
      split
      · exact h env _
      · exact .pure _
    | [test, consequent, alternative] =>
      refine (h env _).bind fun v => (Erases.lift _).bind fun chosen => ?_
      split
      · exact h env _
      · exact h env _
    | [] | [_] | _ :: _ :: _ :: _ :: _ => exact .lift _
  | cond => exact h.evalCond env operands
  | define =>
    unfold Recorded.evalSpecial Lisplet.evalSpecial
    match operands with
    | [target, expr] =>
      dsimp only
      cases target.symbol? with
      | none => exact .lift _
      | some name =>
        refine (h env _).bind fun v => (Erases.lift _).bind fun _ => (Erases.lift _).bind fun _ => ?_
        exact .pure _
    | [] | [_] | _ :: _ :: _ :: _ => exact .lift _
  | begin => exact h.evalSequence env operands

/-! ### Evaluation -/

theorem evalPair (h : Records ev ev') (host : Host) (env : FrameId) (location : Location)
    (cell : Cell) :
    Erases (evalPair host ev env location cell) (Lisplet.evalPair host ev' env location cell) := by
  unfold Recorded.evalPair Lisplet.evalPair
  cases cell.car.symbol?.bind SpecialForm.ofName? with
  | some form => exact (Erases.lift _).bind fun operands => h.evalSpecial env location form operands
  | none =>
    refine (h env _).bind fun func => (Erases.lift _).bind fun operands => ?_
    exact (h.evalAll env operands).bind fun args => h.apply host env func args

theorem step (h : Records ev ev') (host : Host) : Records (step host ev) (Lisplet.step host ev') := by
  intro env form
  unfold Recorded.step Lisplet.step
  refine .locating _ (.returning ?_)
  cases form.datum with
  | pair c => exact (Erases.lift _).bind fun cell => h.evalPair host env _ cell
  | atom a =>
    cases a with
    | symbol name => exact .lift _
    | number | string | bool => exact .pure _
  | nil | closure | native | hash => exact .pure _

theorem eval (host : Host) (n : Nat) : Records (eval host n) (Lisplet.eval host n) := by
  induction n with
  | zero => exact fun env form => Erases.lift (Run.stop .exhausted)
  | succ n ih => exact ih.step host

end Records

end Recorded

/-! ## Sessions -/

/-- What a session is asked to run. -/
inductive Request where
  | source (text file : String)
  | file (path : String)

/-- A request, with the host at that time and the bound on the depth of its evaluation. -/
structure Call where
  host : Host
  depth : Nat
  request : Request

/-- Carry out a call; how it ended is not kept. -/
def Session.perform (session : Session) (call : Call) : Session :=
  match call.request with
  | .source text file => (session.runSource call.host call.depth text file).2
  | .file path => (session.runFile call.host call.depth path).2

/-- A fresh session after some calls. -/
def Session.ofCalls (policy : WarnPolicy) (calls : List Call) : Session :=
  calls.foldl Session.perform (.new policy)

/-- A call with a record. -/
def Call.recorded (call : Call) (env : FrameId) : Recorded Value :=
  match call.request with
  | .source text file => Recorded.runSource (Recorded.eval call.host call.depth) env text file
  | .file path =>
    match call.host.files path with
    | .error fault => Recorded.lift (Run.fail (.runFailed path fault))
    | .ok text => do
      Recorded.lift (Run.note (.running path))
      Recorded.runSource (Recorded.eval call.host call.depth) env text path

/-- A call without a record, as the session carries it out. -/
def Call.plain (call : Call) (env : FrameId) : Run Value :=
  match call.request with
  | .source text file => runSource (eval call.host call.depth) env text file
  | .file path =>
    match call.host.files path with
    | .error fault => Run.fail (.runFailed path fault)
    | .ok text => do
      Run.note (.running path)
      runSource (eval call.host call.depth) env text path

theorem Session.perform_eq (session : Session) (call : Call) :
    session.perform call = (session.run call.plain).2 := by
  obtain ⟨host, depth, request⟩ := call
  cases request <;> rfl

/-- What a failed computation of a session leaves behind is the state of the session afterwards. -/
theorem Session.run_error {session : Session} {act : FrameId → Run Value} {why : Stop}
    (h : (session.run act).1 = .error why) :
    act session.env session.state = .error why (session.run act).2.state := by
  obtain ⟨env, state⟩ := session
  unfold Session.run at h ⊢
  dsimp only at h ⊢
  cases hact : act env state with
  | ok v state' =>
    rw [hact] at h
    cases h
  | error why' state' =>
    rw [hact] at h
    cases h
    rfl

theorem Call.erases (call : Call) (env : FrameId) :
    Recorded.Erases (call.recorded env) (call.plain env) := by
  have hev := Recorded.Records.eval call.host call.depth
  unfold Call.recorded Call.plain
  cases call.request with
  | source text file => exact hev.runSource env text file
  | file path =>
    dsimp only
    cases call.host.files path with
    | error fault => exact .lift _
    | ok text => exact (Recorded.Erases.lift _).bind fun _ => hev.runSource env text path

namespace History

def add (e : Event) (h : History) : History := ⟨h.state, ⟨e, h.state.store⟩ :: h.moments⟩

/-- Carry out a call and record how it ended. -/
def perform (env : FrameId) (h : History) (call : Call) : History :=
  match call.recorded env h with
  | .ok v h => h.add (.returned v)
  | .error why h => h.add (.stopped why)

/-- The record of a fresh session over some calls. -/
def ofCalls (policy : WarnPolicy) (calls : List Call) : History :=
  calls.foldl (perform (Session.new policy).env) { state := (Session.new policy).state }

theorem state_perform {session : Session} {h : History} (hstate : h.state = session.state)
    (call : Call) :
    (session.perform call).env = session.env ∧
      (h.perform session.env call).state = (session.perform call).state := by
  obtain ⟨env, state⟩ := session
  obtain rfl : h.state = state := hstate
  have herases := call.erases env h
  rw [Session.perform_eq]
  unfold perform Session.run
  cases hcall : call.recorded env h with
  | ok v h' =>
    rw [hcall] at herases
    simp only [herases, add, and_self]
  | error why h' =>
    rw [hcall] at herases
    simp only [herases, add, and_self]

/-- A record is kept of what a session does, and changes nothing. -/
theorem state_ofCalls (policy : WarnPolicy) (calls : List Call) :
    (ofCalls policy calls).state = (Session.ofCalls policy calls).state := by
  have hall : ∀ (session : Session) (h : History), h.state = session.state →
      (calls.foldl (perform session.env) h).state = (calls.foldl Session.perform session).state := by
    induction calls with
    | nil => exact fun session h hstate => hstate
    | cons call calls ih =>
      intro session h hstate
      obtain ⟨henv, hstate'⟩ := state_perform hstate call
      rw [List.foldl_cons, List.foldl_cons, ← henv]
      exact ih _ _ (henv ▸ hstate')
  exact hall _ _ rfl

end History

end Lisplet
