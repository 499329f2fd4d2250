/-
# Lisplet.Proofs.Evaluator.Stamping -- errors that know at once where they arise

The evaluator attaches locations on the way back: an error that leaves a form without a location takes
that of the form.  Here is the evaluator once more, with locations carried the other way.  A `Stamped`
computation is told the place of the innermost form under evaluation that has one; each form with a
known location replaces it for its own parts (`within`), and an error that is raised without a location
takes it there and then (`stamp`).  On the way back nothing is done to an error.

`Stamps act act'` says that the two agree: told `here`, `act` is `act'` with `here` for a location where
an error of `act'` has none.  It holds of each part of the evaluator (`Agrees.eval`).  One part looks at
errors, the one that skips warnings, and it logs them as they are.  There the two agree because the
forms of a text all have a known location, so that no error leaves one of them without.  Only in a text
with rows beyond what 32 bits can count a form may have none, and a warning that is skipped there is
logged by one of the two with a location and by the other without (`LogEntry.Alike`).
-/

import Mathlib.Tactic
import Lisplet.Evaluator
import Lisplet.Proofs.Evaluator.Unread
import Lisplet.Proofs.Lines
import Lisplet.Proofs.Run.Keeps
import Lisplet.Proofs.Store.Forms

namespace Lisplet

/-! ## Stamps -/

/-- The error at `here`, unless it has a location. -/
def Error.stamp (here : Option Location) (e : Error) : Error :=
  { e with location := e.location.or here }

/-- The place of the innermost located form, inside a form that comes from `p`. -/
def Provenance.innermost (p : Provenance) (here : Option Location) : Option Location :=
  if p.location.isKnown then some p.location else here

namespace Error

@[simp] theorem stamp_none (e : Error) : e.stamp none = e := by simp [stamp]

/-- An error that has a location is left alone. -/
theorem stamp_of_isSome {e : Error} (h : e.location.isSome) (here : Option Location) :
    e.stamp here = e := by
  obtain ⟨cause, location⟩ := e
  obtain ⟨l, rfl⟩ := Option.isSome_iff_exists.1 h
  rfl

/-- The location of a form comes before that of the forms around it. -/
theorem stamp_locate (e : Error) (p : Provenance) (here : Option Location) :
    (e.locate p).stamp here = e.stamp (p.innermost here) := by
  obtain ⟨cause, location⟩ := e
  cases location with
  | some l => simp [locate, stamp]
  | none => cases hp : p.location.isKnown <;> simp [locate, stamp, Provenance.innermost, hp]

end Error

/-- What is no error has no location. -/
def Stop.stamp (here : Option Location) : Stop → Stop
  | .raised e => .raised (e.stamp here)
  | .exhausted => .exhausted
  | .withheld p => .withheld p

@[simp] theorem Stop.stamp_none (why : Stop) : why.stamp none = why := by
  cases why <;> simp [Stop.stamp]

/-- Some file has more rows than can be counted. -/
def Host.Overlong (host : Host) : Prop :=
  ∃ path text, host.files path = .ok text ∧ ¬ Text.RowsFit text.toList

/-- The entries are the same; or, where that can be, they tell of one warning, and only the first has a
location. -/
inductive LogEntry.Alike (overlong : Prop) : LogEntry → LogEntry → Prop
  | same (entry : LogEntry) : Alike overlong entry entry
  | skipped (h : overlong) (e : Error) (here : Option Location) :
      Alike overlong (.skipped (e.stamp here)) (.skipped e)

/-- The logs are alike, entry by entry. -/
def LogsAlike (overlong : Prop) (log log' : Array LogEntry) : Prop :=
  List.Forall₂ (LogEntry.Alike overlong) log.toList log'.toList

namespace LogsAlike

variable {overlong : Prop} {log log' : Array LogEntry}

theorem refl (log : Array LogEntry) : LogsAlike overlong log log :=
  List.forall₂_same.2 fun entry _ => .same entry

theorem append (h : LogsAlike overlong log log') (more : Array LogEntry) :
    LogsAlike overlong (log ++ more) (log' ++ more) := by
  unfold LogsAlike
  rw [Array.toList_append, Array.toList_append]
  exact List.rel_append h (refl more)

theorem push (h : LogsAlike overlong log log') {entry entry' : LogEntry}
    (hentry : LogEntry.Alike overlong entry entry') :
    LogsAlike overlong (log.push entry) (log'.push entry') := by
  unfold LogsAlike
  rw [Array.toList_push, Array.toList_push]
  exact List.rel_append h (.cons hentry .nil)

/-- Where all rows can be counted, alike logs are the same. -/
theorem eq (h : LogsAlike overlong log log') (hnot : ¬ overlong) : log = log' := by
  refine Array.toList_inj.1 (List.forall₂_eq_eq_eq ▸ h.imp ?_)
  rintro _ _ (_ | ⟨hover, _, _⟩)
  · rfl
  · exact absurd hover hnot

end LogsAlike

namespace Run

variable {α β : Type} {act : Run α} {here : Option Location} {s s' : State}

/-- Attach `here` to an error that is raised without a location. -/
def stamping (here : Option Location) (act : Run α) : Run α := fun s =>
  match act s with
  | .ok a s => .ok a s
  | .error why s => .error (why.stamp here) s

end Run

/-! ## The evaluator told where it is -/

/-- A computation that is told the place of the innermost located form under evaluation. -/
abbrev Stamped := ReaderT (Option Location) Run

namespace Stamped

variable {α β : Type}

/-- A computation that evaluates nothing: what it raises arises here. -/
def here (act : Run α) : Stamped α := fun here => Run.stamping here act

/-- A computation inside a form that comes from `p`. -/
def within (p : Provenance) (act : Stamped α) : Stamped α := fun here => act (p.innermost here)

/-- Evaluation of a form in an environment, told where it is. -/
abbrev Stamper := FrameId → Value → Stamped Value

def evalAll (ev : Stamper) (env : FrameId) : List Value → Stamped (List Value)
  | [] => pure []
  | form :: rest => do
    let v ← ev env form
    let vs ← evalAll ev env rest
    pure (v :: vs)

def evalSequence (ev : Stamper) (env : FrameId) (forms : List Value) : Stamped Value :=
  forms.foldlM (fun _ form => ev env form) .nil

/-- A warning that is skipped is logged as it is. -/
def evalTop (ev : Stamper) (policy : WarnPolicy) (env : FrameId) (result : Value) (form : Value) :
    Stamped Value := fun here s =>
  match ev env form here s with
  | .error (.raised e) s =>
    if !e.isFatal && policy == .keepGoing then (do Run.note (.skipped e); pure result : Run Value) s
    else .error (.raised e) s
  | outcome => outcome

def evalToplevel (ev : Stamper) (env : FrameId) (forms : List Value) : Stamped Value := do
  let policy ← here (Run.read (·.policy env))
  forms.foldlM (evalTop ev policy env) .nil

def runSource (ev : Stamper) (env : FrameId) (text file : String) : Stamped Value := do
  let forms ← here (readSource text file)
  evalToplevel ev env forms

def loadFile (host : Host) (ev : Stamper) (env : FrameId) (args : Value) : Stamped Value := do
  let a ← here (Run.check (·.oneArgument "load" args))
  let path ← here (Run.ofExcept (a.asString "load"))
  here (Run.note (.loading path))
  match host.files path with
  | .ok text => runSource ev env text path
  | .error fault => here (Run.raise ((Error.ofCause (.loadFailed path fault)).locate a.provenance))

/-- All primitives but one evaluate nothing. -/
def call (host : Host) (ev : Stamper) (env : FrameId) (p : Primitive) (args : Value) : Stamped Value :=
  match p with
  | .load => loadFile host ev env args
  | p => here (p.call host (fun _ _ => Run.stop .exhausted) env args)

def applyClosure (ev : Stamper) (k : Closure) (args : List Value) : Stamped Value :=
  if args.length = k.params.length then do
    let frame ← here (Run.make (Store.extend k.frame k.params args))
    evalSequence ev frame k.body
  else here (Run.fail (.argumentCount "lambda" k.params.length args.length))

def apply (host : Host) (ev : Stamper) (env : FrameId) (func : Value) (args : List Value) :
    Stamped Value :=
  match func.datum with
  | .native p =>
    if host.permits p then do
      let list ← here (Run.make (Store.ofList args))
      call host ev env p list
    else here (Run.stop (.withheld p))
  | .closure id => do
    let k ← here (Run.read (·.closure id))
    applyClosure ev k args
  | _ => here (Run.check fun s => .error (.ofCause (.notApplicable func.typeName (s.text func))))

def clauseTest (ev : Stamper) (env : FrameId) (test : Value) : Stamped Value :=
  if test.isSymbol "else" then pure (.bool true) else ev env test

def evalCond (ev : Stamper) (env : FrameId) : List Value → Stamped Value
  | [] => pure .nil
  | clause :: rest => do
    match ← here (Run.check (·.listElements clause)) with
    | [] => here (Run.fail .emptyClause)
    | test :: body =>
      let v ← clauseTest ev env test
      if ← here (testResult "cond" v) then
        if body.isEmpty then pure v else evalSequence ev env body
      else evalCond ev env rest

def evalSpecial (ev : Stamper) (env : FrameId) (location : Location) (form : SpecialForm)
    (operands : List Value) : Stamped Value :=
  match form with
  | .conditional =>
    match operands with
    | [test, consequent] => do
      let v ← ev env test
      if ← here (testResult "if" v) then ev env consequent else pure .nil
    | [test, consequent, alternative] => do
      let v ← ev env test
      if ← here (testResult "if" v) then ev env consequent else ev env alternative
    | _ => here (Run.fail (.operandCount "if" (.between 2 3) operands.length))
  | .cond => evalCond ev env operands
  | .define =>
    match operands with
    | [target, expr] =>
      match target.symbol? with
      | none => here (Run.fail (.definedName target.typeName))
      | some name => do
        let v ← ev env expr
        let v := v.withBound name
        here (Run.note (.defined name v.typeName))
        here (Run.change (Store.define env name v))
        pure v
    | _ => here (Run.fail (.operandCount "define" (.exactly 2) operands.length))
  | .begin => evalSequence ev env operands
  -- quoting and making a function evaluate nothing
  | .quote | .lambda =>
    here (Lisplet.evalSpecial (fun _ _ => Run.stop .exhausted) env location form operands)

def evalPair (host : Host) (ev : Stamper) (env : FrameId) (location : Location) (cell : Cell) :
    Stamped Value :=
  match cell.car.symbol?.bind SpecialForm.ofName? with
  | some form => do
    let operands ← here (operandsOf cell.cdr)
    evalSpecial ev env location form operands
  | none => do
    let func ← ev env cell.car
    let operands ← here (operandsOf cell.cdr)
    let args ← evalAll ev env operands
    apply host ev env func args

def step (host : Host) (ev : Stamper) : Stamper := fun env expr =>
  within expr.provenance <|
    match expr.datum with
    | .atom (.symbol name) =>
      here <| Run.check fun s =>
        match s.lookup env name with
        | some v => .ok v
        | none => .error (.ofCause (.unbound name))
    | .pair c => do
      let cell ← here (Run.read (·.cell c))
      evalPair host ev env expr.provenance.location cell
    | _ => pure expr

def eval (host : Host) : Nat → Stamper
  | 0 => fun _ _ => here (Run.stop .exhausted)
  | n + 1 => step host (eval host n)

/-! ## Agreement of computations -/

variable {overlong : Prop}

/-- The second result, with `here` for a location where its error has none.  The stores are the same, and
the logs are alike. -/
inductive EndsStamped (overlong : Prop) (here : Option Location) :
    EStateM.Result Stop State α → EStateM.Result Stop State α → Prop
  | ok {a : α} {store : Store} {log log' : Array LogEntry} (h : LogsAlike overlong log log') :
      EndsStamped overlong here (.ok a ⟨store, log⟩) (.ok a ⟨store, log'⟩)
  | error (why : Stop) {store : Store} {log log' : Array LogEntry} (h : LogsAlike overlong log log') :
      EndsStamped overlong here (.error (why.stamp here) ⟨store, log⟩) (.error why ⟨store, log'⟩)

/-- Told where it is, `act` is `act'`, stamped with it. -/
def Stamps (overlong : Prop) (act : Stamped α) (act' : Run α) : Prop :=
  ∀ here store log log', LogsAlike overlong log log' →
    EndsStamped overlong here (act here ⟨store, log⟩) (act' ⟨store, log'⟩)

namespace Stamps

/-- What evaluates nothing does not look at the log. -/
theorem here {act : Run α} (h : Appends act) : Stamps overlong (Stamped.here act) act := by
  intro l store log log' hlogs
  unfold Stamped.here Run.stamping
  rw [h store log, h store log']
  cases act ⟨store, #[]⟩ with
  | ok a s => exact .ok (hlogs.append s.log)
  | error why s => exact .error why (hlogs.append s.log)

theorem pure (a : α) : Stamps overlong (pure a) (pure a) := fun _ _ _ _ hlogs => .ok hlogs

/-- The second part has to agree only where the first can lead. -/
theorem bind_of {Q : α → Prop} {act : Stamped α} {act' : Run α} {f : α → Stamped β} {f' : α → Run β}
    (h : Stamps overlong act act') (hQ : ∀ s a s', act' s = .ok a s' → Q a)
    (hf : ∀ a, Q a → Stamps overlong (f a) (f' a)) : Stamps overlong (act >>= f) (act' >>= f') := by
  intro l store log log' hlogs
  have hact := h l store log log' hlogs
  show EndsStamped overlong l ((act l >>= fun a => f a l) ⟨store, log⟩) ((act' >>= f') ⟨store, log'⟩)
  generalize hleft : act l ⟨store, log⟩ = left at hact
  generalize hright : act' ⟨store, log'⟩ = right at hact
  cases hact with
  | ok hlogs' =>
    rw [Run.bind_of_ok hleft, Run.bind_of_ok hright]
    exact hf _ (hQ _ _ _ hright) l _ _ _ hlogs'
  | error why hlogs' =>
    rw [Run.bind_of_error hleft, Run.bind_of_error hright]
    exact .error why hlogs'

theorem bind {act : Stamped α} {act' : Run α} {f : α → Stamped β} {f' : α → Run β}
    (h : Stamps overlong act act') (hf : ∀ a, Stamps overlong (f a) (f' a)) :
    Stamps overlong (act >>= f) (act' >>= f') :=
  h.bind_of (Q := fun _ => True) (fun _ _ _ _ => trivial) fun a _ => hf a

theorem within (p : Provenance) {act : Stamped α} {act' : Run α} (h : Stamps overlong act act') :
    Stamps overlong (Stamped.within p act) (Run.locating p act') := by
  intro l store log log' hlogs
  have hact := h (p.innermost l) store log log' hlogs
  unfold Stamped.within Run.locating
  generalize act (p.innermost l) ⟨store, log⟩ = left at hact ⊢
  generalize act' ⟨store, log'⟩ = right at hact ⊢
  cases hact with
  | ok hlogs' => exact .ok hlogs'
  | error why hlogs' =>
    cases why with
    | raised e =>
      rw [Stop.stamp, ← e.stamp_locate]
      exact .error (.raised (e.locate p)) hlogs'
    | exhausted => exact .error .exhausted hlogs'
    | withheld p => exact .error (.withheld p) hlogs'

theorem foldlM {f : α → β → Stamped α} {f' : α → β → Run α} {bs : List β}
    (hf : ∀ b ∈ bs, ∀ a, Stamps overlong (f a b) (f' a b)) (a : α) :
    Stamps overlong (bs.foldlM f a) (bs.foldlM f' a) := by
  induction bs generalizing a with
  | nil => exact pure a
  | cons b bs ih =>
    obtain ⟨hb, hbs⟩ := List.forall_mem_cons.1 hf
    rw [List.foldlM_cons, List.foldlM_cons]
    exact (hb a).bind fun a' => ih hbs a'

end Stamps

/-! ## Errors of located forms -/

/-- No error of the computation is without a location. -/
def Located (act : Run α) : Prop :=
  ∀ s e s', act s = .error (.raised e) s' → e.location.isSome = true

theorem located_locating {p : Provenance} (hp : p.location.isKnown = true) (act : Run α) :
    Located (Run.locating p act) := by
  intro s e s' herror
  unfold Run.locating at herror
  cases hact : act s with
  | ok a t =>
    rw [hact] at herror
    cases herror
  | error why t =>
    rw [hact] at herror
    cases why with
    | raised e' =>
      cases herror
      cases hl : e'.location <;> simp [Error.locate, hl, hp]
    | exhausted | withheld => cases herror

/-- A form is made into a value that stands where it does. -/
theorem location_ofForm (file : String) (f : Form) (s : Store) :
    (s.ofForm file f).1.provenance.location = f.position.inFile file := by
  cases f <;> rfl

theorem known_ofForms (file : String) {forms : List Form}
    (hforms : ∀ f ∈ forms, 1 ≤ f.position.row) (s : Store) :
    ∀ v ∈ (s.ofForms file forms).1, v.provenance.location.isKnown = true := by
  induction forms generalizing s with
  | nil => simp [Store.ofForms]
  | cons f forms ih =>
    obtain ⟨hf, hforms⟩ := List.forall_mem_cons.1 hforms
    refine List.forall_mem_cons.2 ⟨?_, ih hforms _⟩
    rw [location_ofForm]
    exact (Location.isKnown_iff _).2 hf

/-- The forms of a text have a known location, if its rows can be counted. -/
theorem known_readSource {text file : String} (hfit : Text.RowsFit text.toList) {s s' : State}
    {forms : List Value} (h : readSource text file s = .ok forms s') :
    ∀ v ∈ forms, v.provenance.location.isKnown = true := by
  have hread := readSource_eq text file s
  rw [hread] at h
  cases htext : (Reading.ofText text).toExcept with
  | error e =>
    rw [htext] at h
    cases h
  | ok fs =>
    rw [htext] at h
    cases h
    have hwithin := Reading.ofText_forms_within text
    rw [Reading.toExcept_eq_ok.1 htext] at hwithin
    exact known_ofForms file (fun f hf => (hwithin f hf).position.lexemeAt.one_le_row hfit) s.store

/-! ## Agreement of evaluators -/

/-- The evaluators agree, and no error leaves a located form without a location. -/
structure Agrees (overlong : Prop) (ev : Stamper) (ev' : Evaluator) : Prop where
  stamps : ∀ env form, Stamps overlong (ev env form) (ev' env form)
  located : ∀ env form, form.provenance.location.isKnown = true → Located (ev' env form)

namespace Agrees

variable {ev : Stamper} {ev' : Evaluator}

theorem evalAll (h : Agrees overlong ev ev') (env : FrameId) (forms : List Value) :
    Stamps overlong (evalAll ev env forms) (Lisplet.evalAll ev' env forms) := by
  induction forms with
  | nil => exact .pure _
  | cons form forms ih => exact (h.stamps env form).bind fun v => ih.bind fun vs => .pure _

theorem evalSequence (h : Agrees overlong ev ev') (env : FrameId) (forms : List Value) :
    Stamps overlong (evalSequence ev env forms) (Lisplet.evalSequence ev' env forms) :=
  .foldlM (fun form _ _ => h.stamps env form) .nil

theorem evalTop (h : Agrees overlong ev ev') (policy : WarnPolicy) (env : FrameId) (result : Value)
    {form : Value} (hform : form.provenance.location.isKnown = true ∨ overlong) :
    Stamps overlong (evalTop ev policy env result form) (Lisplet.evalTop ev' policy env result form) := by
  intro l store log log' hlogs
  have hends := h.stamps env form l store log log' hlogs
  unfold Stamped.evalTop Lisplet.evalTop
  generalize ev env form l ⟨store, log⟩ = left at hends ⊢
  generalize hright : ev' env form ⟨store, log'⟩ = right at hends ⊢
  cases hends with
  | ok hlogs' => exact .ok hlogs'
  | error why hlogs' =>
    cases why with
    | raised e =>
      have hfatal : (e.stamp l).isFatal = e.isFatal := rfl
      simp only [Stop.stamp, hfatal]
      split
      · refine .ok (hlogs'.push ?_)
        rcases hform with hform | hover
        -- the location of the warning was there before, or is the one of a form further out
        · rw [Error.stamp_of_isSome (h.located env form hform _ e _ hright)]
          exact .same _
        · exact .skipped hover e l
      · exact .error (.raised e) hlogs'
    | exhausted => exact .error .exhausted hlogs'
    | withheld p => exact .error (.withheld p) hlogs'

theorem runSource (h : Agrees overlong ev ev') (env : FrameId) (text file : String)
    (htext : ¬ Text.RowsFit text.toList → overlong) :
    Stamps overlong (runSource ev env text file) (Lisplet.runSource ev' env text file) := by
  have hknown : ∀ s forms s', readSource text file s = .ok forms s' →
      ∀ form ∈ forms, form.provenance.location.isKnown = true ∨ overlong := by
    intro s forms s' hread form hform
    by_cases hfit : Text.RowsFit text.toList
    · exact .inl (known_readSource hfit hread form hform)
    · exact .inr (htext hfit)
  refine (Stamps.here (.readSource text file)).bind_of hknown ?_
  intro forms hforms
  refine (Stamps.here (.read _)).bind fun policy => ?_
  exact .foldlM (fun form hform result => h.evalTop policy env result (hforms form hform)) .nil

/-! ### Applications -/

theorem loadFile {host : Host} (h : Agrees host.Overlong ev ev') (env : FrameId) (args : Value) :
    Stamps host.Overlong (loadFile host ev env args) (Lisplet.loadFile host ev' env args) := by
  refine (Stamps.here (.check _)).bind fun a => (Stamps.here (.ofExcept _)).bind fun path => ?_
  refine (Stamps.here (.note _)).bind fun _ => ?_
  cases hfile : host.files path with
  | ok text => exact h.runSource env text path fun hfit => ⟨path, text, hfile, hfit⟩
  | error fault => exact .here (.raise _)

theorem call {host : Host} (h : Agrees host.Overlong ev ev') (env : FrameId) (p : Primitive)
    (args : Value) : Stamps host.Overlong (call host ev env p args) (p.call host ev' env args) := by
  have hplain : Appends (p.call host (fun _ _ => Run.stop .exhausted) env args) :=
    .call (fun _ _ => .stop _) host p args
  cases p with
  | load => exact h.loadFile env args
  | _ => exact .here hplain

theorem applyClosure (h : Agrees overlong ev ev') (k : Closure) (args : List Value) :
    Stamps overlong (applyClosure ev k args) (Lisplet.applyClosure ev' k args) := by
  unfold Stamped.applyClosure Lisplet.applyClosure
  split
  · exact (Stamps.here (.make _)).bind fun frame => h.evalSequence frame k.body
  · exact .here (.fail _)

theorem apply {host : Host} (h : Agrees host.Overlong ev ev') (env : FrameId) (func : Value)
    (args : List Value) :
    Stamps host.Overlong (apply host ev env func args) (Lisplet.apply host ev' env func args) := by
  unfold Stamped.apply Lisplet.apply
  cases func.datum with
  | native p =>
    dsimp only
    split
    · exact (Stamps.here (.make _)).bind fun list => h.call env p list
    · exact .here (.stop _)
  | closure id => exact (Stamps.here (.read _)).bind fun k => h.applyClosure k args
  | nil | pair | atom | hash => exact .here (.check _)

/-! ### Special forms -/

theorem clauseTest (h : Agrees overlong ev ev') (env : FrameId) (test : Value) :
    Stamps overlong (clauseTest ev env test) (Lisplet.clauseTest ev' env test) := by
  unfold Stamped.clauseTest Lisplet.clauseTest
  split
  · exact .pure _
  · exact h.stamps env test

theorem evalCond (h : Agrees overlong ev ev') (env : FrameId) (clauses : List Value) :
    Stamps overlong (evalCond ev env clauses) (Lisplet.evalCond ev' env clauses) := by
  induction clauses with
  | nil => exact .pure _
  | cons clause clauses ih =>
    rw [Stamped.evalCond, Lisplet.evalCond]
    refine (Stamps.here (.check _)).bind fun parts => ?_
    cases parts with
    | nil => exact .here (.fail _)
    | cons test body =>
      refine (h.clauseTest env test).bind fun v => ?_
      refine (Stamps.here (.testResult "cond" v)).bind fun chosen => ?_
      split
      · split
        · exact .pure _
        · exact h.evalSequence env body
      · exact ih

theorem evalSpecial (h : Agrees overlong ev ev') (env : FrameId) (location : Location) (form : SpecialForm)
    (operands : List Value) :
    Stamps overlong (evalSpecial ev env location form operands)
      (Lisplet.evalSpecial ev' env location form operands) := by
  have hplain : Appends (Lisplet.evalSpecial (fun _ _ => Run.stop .exhausted) env location form operands) :=
    .evalSpecial (fun _ _ => .stop _) location form operands
  cases form with
  | quote | lambda => exact .here hplain
  | conditional =>
    unfold Stamped.evalSpecial Lisplet.evalSpecial
    match operands with
    | [test, consequent] =>
      refine (h.stamps env _).bind fun v => (Stamps.here (.testResult "if" v)).bind fun chosen => ?_
      split
      · exact h.stamps env _
      · exact .pure _
    | [test, consequent, alternative] =>
      refine (h.stamps env _).bind fun v => (Stamps.here (.testResult "if" v)).bind fun chosen => ?_
      split
      · exact h.stamps env _
      · exact h.stamps env _
    | [] | [_] | _ :: _ :: _ :: _ :: _ => exact .here (.fail _)
  | cond => exact h.evalCond env operands
  | define =>
    unfold Stamped.evalSpecial Lisplet.evalSpecial
    match operands with
    | [target, expr] =>
      dsimp only
      cases target.symbol? with
      | none => exact .here (.fail _)
      | some name =>
        refine (h.stamps env _).bind fun v => (Stamps.here (.note _)).bind fun _ => ?_
        exact (Stamps.here (.change _)).bind fun _ => .pure _
    | [] | [_] | _ :: _ :: _ :: _ => exact .here (.fail _)
  | begin => exact h.evalSequence env operands

/-! ### Evaluation -/

theorem evalPair {host : Host} (h : Agrees host.Overlong ev ev') (env : FrameId) (location : Location)
    (cell : Cell) :
    Stamps host.Overlong (evalPair host ev env location cell)
      (Lisplet.evalPair host ev' env location cell) := by
  unfold Stamped.evalPair Lisplet.evalPair
  cases cell.car.symbol?.bind SpecialForm.ofName? with
  | some form =>
    exact (Stamps.here (.operandsOf _)).bind fun operands => h.evalSpecial env location form operands
  | none =>
    refine (h.stamps env _).bind fun func => (Stamps.here (.operandsOf _)).bind fun operands => ?_
    exact (h.evalAll env operands).bind fun args => h.apply env func args

theorem step {host : Host} (h : Agrees host.Overlong ev ev') :
    Agrees host.Overlong (step host ev) (Lisplet.step host ev') := by
  refine ⟨fun env form => .within _ ?_, fun env form hform => located_locating hform _⟩
  cases form.datum with
  | pair c => exact (Stamps.here (.read _)).bind fun cell => h.evalPair env _ cell
  | atom a =>
    cases a with
    | symbol name => exact .here (.check _)
    | number | string | bool => exact .pure _
  | nil | closure | native | hash => exact .pure _

theorem eval (host : Host) (n : Nat) : Agrees host.Overlong (eval host n) (Lisplet.eval host n) := by
  induction n with
  | zero => exact ⟨fun _ _ => .here (.stop _), fun _ _ _ _ _ _ h => by cases h⟩
  | succ n ih => exact ih.step

end Agrees

end Stamped

end Lisplet
