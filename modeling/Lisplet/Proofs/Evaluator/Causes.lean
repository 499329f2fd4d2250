/-
# Lisplet.Proofs.Evaluator.Causes -- why a run can fail

An error is raised where a look at the store or at a value finds something wrong, and from then on
nothing is done any more: errors other than warnings are never caught, and to attach a location changes
no cause.  So the store that a failed run leaves behind is the one in which the error arose.
`Cause.Arises` says for each cause what this means; for a list fault, that the store has such a list.
Every part of the evaluator raises only errors that arise (`Raises.eval`).
-/

import Mathlib.Tactic
import Lisplet.Evaluator
import Lisplet.Proofs.Evaluator.Recording
import Lisplet.Proofs.Run.Keeps

namespace Lisplet

open Run

/-- The cause can arise in a store: some value of it has the list fault, or the host has no such file.
An error in the words of an embedding program never arises. -/
inductive Cause.Arises (host : Host) (s : Store) : Cause → Prop
  | argumentCount (name : String) (expected got : Nat) :
      Arises host s (.argumentCount name expected got)
  | operandCount (form : String) (expected : OperandCount) (got : Nat) :
      Arises host s (.operandCount form expected got)
  | mismatch (name expected : String) (got : TypeName) : Arises host s (.mismatch name expected got)
  | list {v : Value} {fault : ListFault} (h : s.elements v = .error fault) : Arises host s (.list fault)
  | listArgument (name : String) {v : Value} {fault : ListFault} (h : s.elements v = .error fault) :
      Arises host s (.listArgument name fault)
  | hashKey (got : TypeName) : Arises host s (.hashKey got)
  | test (form : String) (got : TypeName) : Arises host s (.test form got)
  | emptyClause : Arises host s .emptyClause
  | definedName (got : TypeName) : Arises host s (.definedName got)
  | parameter (got : TypeName) : Arises host s (.parameter got)
  | duplicateParameter (name : String) : Arises host s (.duplicateParameter name)
  | notApplicable (got : TypeName) (shown : String) : Arises host s (.notApplicable got shown)
  | unbound (name : String) : Arises host s (.unbound name)
  | malformed (fault : ReadFault) : Arises host s (.malformed fault)
  | warningRaised : Arises host s .warningRaised
  | assertionFailed : Arises host s .assertionFailed
  | loadFailed {path : String} {fault : FileFault} (h : host.files path = .error fault) :
      Arises host s (.loadFailed path fault)
  | runFailed {path : String} {fault : FileFault} (h : host.files path = .error fault) :
      Arises host s (.runFailed path fault)

/-- Whatever error the computation raises arises in the store that it leaves behind. -/
def Raises {α : Type} (host : Host) (act : Run α) : Prop :=
  ∀ (s s' : State) (e : Error), act s = .error (.raised e) s' → e.cause.Arises host s'.store

namespace Raises

variable {host : Host} {α β : Type}

/-! ## Computations -/

theorem pure (a : α) : Raises host (pure a) := fun _ _ _ h => by cases h

theorem bind {act : Run α} {f : α → Run β} (h : Raises host act) (hf : ∀ a, Raises host (f a)) :
    Raises host (act >>= f) := by
  intro s s' e herror
  rcases bind_eq_error herror with hact | ⟨a, t, -, hnext⟩
  · exact h s s' e hact
  · exact hf a t s' e hnext

theorem raise {e : Error} (h : ∀ s, e.cause.Arises host s) : Raises host (raise e : Run α) := by
  rintro s _ _ ⟨⟩
  exact h s.store

theorem fail {cause : Cause} (h : ∀ s, cause.Arises host s) : Raises host (fail cause : Run α) :=
  raise h

theorem stop {why : Stop} (h : ∀ e, why ≠ .raised e) : Raises host (stop why : Run α) := by
  rintro s _ e ⟨⟩
  exact absurd rfl (h e)

theorem ofExcept {x : Except Error α} (h : ∀ e, x = .error e → ∀ s, e.cause.Arises host s) :
    Raises host (ofExcept x) := by
  cases x with
  | ok a => exact pure a
  | error e => exact raise (h e rfl)

theorem read (f : Store → α) : Raises host (read f) := fun _ _ _ h => by cases h

theorem make (f : Store → α × Store) : Raises host (make f) := fun _ _ _ h => by cases h

theorem change (f : Store → Store) : Raises host (change f) := fun _ _ _ h => by cases h

theorem note (entry : LogEntry) : Raises host (note entry) := fun _ _ _ h => by cases h

theorem check {f : Store → Except Error α}
    (h : ∀ s e, f s = .error e → e.cause.Arises host s) : Raises host (check f) := by
  intro s s' e herror
  unfold Run.check at herror
  cases hf : f s.store with
  | ok a =>
    rw [hf] at herror
    cases herror
  | error e' =>
    rw [hf] at herror
    cases herror
    exact h s.store e hf

theorem locating (p : Provenance) {act : Run α} (h : Raises host act) :
    Raises host (locating p act) := by
  intro s s' e herror
  unfold Run.locating at herror
  cases hact : act s with
  | ok a t =>
    rw [hact] at herror
    cases herror
  | error why t =>
    rw [hact] at herror
    cases why with
    | raised e' =>
      cases herror
      rw [Error.cause_locate]
      exact h s s' e' hact
    | exhausted | withheld => cases herror

theorem foldlM {f : α → β → Run α} (hf : ∀ a b, Raises host (f a b)) (bs : List β) (a : α) :
    Raises host (bs.foldlM f a) := by
  induction bs generalizing a with
  | nil => exact pure a
  | cons b bs ih =>
    rw [List.foldlM_cons]
    exact (hf a b).bind ih

/-! ## Arguments -/

section Arguments

variable {s : Store} {name : String} {args v : Value} {e : Error}

theorem of_listElements (h : s.listElements v = .error e) : e.cause.Arises host s := by
  unfold Store.listElements at h
  cases helements : s.elements v with
  | ok vs =>
    rw [helements] at h
    cases h
  | error fault =>
    rw [helements] at h
    cases h
    exact .list helements

/-- Arguments are counted once they are known to be a list. -/
theorem of_counted (name : String) {f : List Value → Except Error α}
    (hf : ∀ vs e, f vs = .error e → ∃ n, e.cause = .argumentCount name n vs.length)
    (h : (s.listElements args >>= f) = .error e) : e.cause.Arises host s := by
  cases hvs : s.listElements args with
  | ok vs =>
    rw [hvs] at h
    obtain ⟨n, hn⟩ := hf vs e h
    rw [hn]
    exact .argumentCount name n vs.length
  | error e' =>
    rw [hvs] at h
    cases h
    exact of_listElements hvs

theorem of_noArguments (h : s.noArguments name args = .error e) : e.cause.Arises host s := by
  refine of_counted name (fun vs e hvs => ⟨0, ?_⟩) h
  match vs with
  | [] => cases hvs
  | _ :: _ => cases hvs; rfl

theorem of_oneArgument (h : s.oneArgument name args = .error e) : e.cause.Arises host s := by
  refine of_counted name (fun vs e hvs => ⟨1, ?_⟩) h
  match vs with
  | [_] => cases hvs
  | [] | _ :: _ :: _ => cases hvs; rfl

theorem of_twoArguments (h : s.twoArguments name args = .error e) : e.cause.Arises host s := by
  refine of_counted name (fun vs e hvs => ⟨2, ?_⟩) h
  match vs with
  | [_, _] => cases hvs
  | [] | [_] | _ :: _ :: _ :: _ => cases hvs; rfl

theorem of_threeArguments (h : s.threeArguments name args = .error e) : e.cause.Arises host s := by
  refine of_counted name (fun vs e hvs => ⟨3, ?_⟩) h
  match vs with
  | [_, _, _] => cases hvs
  | [] | [_] | [_, _] | _ :: _ :: _ :: _ :: _ => cases hvs; rfl

theorem of_expecting {expected : String} {x : Option α} (h : v.expecting name expected x = .error e) :
    e.cause.Arises host s := by
  cases x with
  | some a => cases h
  | none =>
    cases h
    rw [Value.mismatch, Error.cause_locate]
    exact .mismatch name expected v.typeName

theorem of_asList (h : v.asList name = .error e) : e.cause.Arises host s := by
  unfold Value.asList at h
  split at h
  · cases h
  · cases h
    rw [Value.mismatch, Error.cause_locate]
    exact .mismatch name "list" v.typeName

end Arguments

/-! ## Primitives -/

theorem sum {total : Number} {vs : List Value} {e : Error} (h : Builtin.sum total vs = .error e)
    (s : Store) : e.cause.Arises host s := by
  induction vs generalizing total with
  | nil => cases h
  | cons v vs ih =>
    rw [Builtin.sum] at h
    cases hv : v.asNumber "+" with
    | ok n =>
      rw [hv] at h
      exact ih h
    | error e' =>
      rw [hv] at h
      cases h
      exact of_expecting hv

theorem keyOf (v : Value) : Raises host (Builtin.keyOf v) := by
  refine locating _ (ofExcept fun e he s => ?_)
  unfold Value.asKey at he
  split at he
  · cases he
  · cases he
    exact .hashKey _

/-- What a primitive that evaluates nothing can fail with. -/
theorem primitive (ev : Evaluator) (env : FrameId) {p : Primitive} (hp : p ≠ .load) (args : Value) :
    Raises host (p.call host ev env args) := by
  have hone : ∀ name, Raises host (Run.check (·.oneArgument name args)) := fun name =>
    check fun s e h => of_oneArgument h
  have htwo : ∀ name, Raises host (Run.check (·.twoArguments name args)) := fun name =>
    check fun s e h => of_twoArguments h
  cases p with
  | load => exact absurd rfl hp
  | isNull | isSymbol | isAtom | isPair | isList | inspect => exact (hone _).bind fun a => pure _
  | isEqual => exact (htwo _).bind fun a => read _
  | add =>
    refine (check fun s e h => of_listElements h).bind fun vs => ?_
    exact (ofExcept fun e he s => sum he s).bind fun n => pure _
  | not => exact (hone _).bind fun a => (ofExcept fun e he s => of_expecting he).bind fun b => pure _
  | assert | warn =>
    refine (hone _).bind fun a => (ofExcept fun e he s => of_expecting he).bind fun b => ?_
    cases b
    · exact fail fun s => by constructor
    · exact pure _
  | car | cdr =>
    exact (hone _).bind fun a => (ofExcept fun e he s => of_asList he).bind fun _ => read _
  | cons => exact (htwo _).bind fun a => make _
  | list => exact pure _
  | length =>
    refine (hone _).bind fun a => check fun s e h => ?_
    unfold Builtin.lengthOf at h
    split at h
    · cases h
    · next fault hfault =>
      cases h
      rw [Error.cause_locate]
      exact .listArgument "length" hfault
  | setCar | setCdr =>
    refine (htwo _).bind fun a => (ofExcept fun e he s => of_expecting he).bind fun c => ?_
    exact (change _).bind fun _ => pure _
  | makeHash => exact (check fun s e h => of_noArguments h).bind fun _ => make _
  | hashSet =>
    refine (check fun s e h => of_threeArguments h).bind fun a => ?_
    refine (ofExcept fun e he s => of_expecting he).bind fun t => (keyOf _).bind fun key => ?_
    exact (change _).bind fun _ => pure _
  | hashRef =>
    refine (htwo _).bind fun a => (ofExcept fun e he s => of_expecting he).bind fun t => ?_
    exact (keyOf _).bind fun key => read _

/-! ## Several forms -/

variable {ev : Evaluator} {env : FrameId}

theorem evalAll (hev : ∀ env form, Raises host (ev env form)) (forms : List Value) :
    Raises host (evalAll ev env forms) := by
  induction forms with
  | nil => exact pure _
  | cons form forms ih => exact (hev env form).bind fun v => ih.bind fun vs => pure _

theorem evalSequence (hev : ∀ env form, Raises host (ev env form)) (forms : List Value) :
    Raises host (evalSequence ev env forms) :=
  foldlM (fun _ form => hev env form) forms .nil

theorem evalTop (hev : ∀ env form, Raises host (ev env form)) (policy : WarnPolicy)
    (result form : Value) : Raises host (evalTop ev policy env result form) := by
  intro s s' e herror
  unfold Lisplet.evalTop at herror
  cases hform : ev env form s with
  | ok v t =>
    rw [hform] at herror
    cases herror
  | error why t =>
    rw [hform] at herror
    cases why with
    | raised e' =>
      dsimp only at herror
      split at herror
      · cases herror
      · cases herror
        exact hev env form s s' e hform
    | exhausted | withheld => cases herror

theorem readSource (text file : String) : Raises host (readSource text file) := by
  have hnotes : ∀ forms : List Form, Raises host
      (forms.forM fun form => Run.note (.read form.text (form.position.inFile file))) := by
    intro forms
    induction forms with
    | nil => exact pure _
    | cons form forms ih => exact (note _).bind fun _ => ih
  refine (hnotes _).bind fun _ => ?_
  cases (Reading.ofText text).error with
  | none => exact make _
  | some e => exact raise fun s => .malformed e.fault

theorem runSource (hev : ∀ env form, Raises host (ev env form)) (text file : String) :
    Raises host (runSource ev env text file) := by
  refine (readSource text file).bind fun forms => (read _).bind fun policy => ?_
  exact foldlM (fun result form => evalTop hev policy result form) forms .nil

/-! ## Applications -/

theorem loadFile (hev : ∀ env form, Raises host (ev env form)) (args : Value) :
    Raises host (loadFile host ev env args) := by
  refine (check fun s e h => of_oneArgument h).bind fun a => ?_
  refine (ofExcept fun e he s => of_expecting he).bind fun path => (note _).bind fun _ => ?_
  cases hfile : host.files path with
  | ok text => exact runSource hev text path
  | error fault =>
    refine raise fun s => ?_
    rw [Error.cause_locate]
    exact .loadFailed hfile

theorem apply (hev : ∀ env form, Raises host (ev env form)) (func : Value) (args : List Value) :
    Raises host (apply host ev env func args) := by
  unfold Lisplet.apply
  split
  · next p _ =>
    split
    · refine (make _).bind fun list => ?_
      by_cases hp : p = .load
      · subst hp
        exact loadFile hev list
      · exact primitive ev env hp list
    · exact stop (by simp)
  · refine (read _).bind fun k => ?_
    unfold Lisplet.applyClosure
    split
    · exact (make _).bind fun frame => evalSequence hev k.body
    · exact fail fun s => .argumentCount _ _ _
  · refine check fun s e h => ?_
    cases h
    exact .notApplicable _ _

/-! ## Special forms -/

theorem testResult (form : String) (v : Value) : Raises host (testResult form v) := by
  unfold Lisplet.testResult
  split
  · exact pure _
  · exact fail fun s => .test _ _

theorem evalCond (hev : ∀ env form, Raises host (ev env form)) (clauses : List Value) :
    Raises host (evalCond ev env clauses) := by
  induction clauses with
  | nil => exact pure _
  | cons clause clauses ih =>
    rw [Lisplet.evalCond]
    refine (check fun s e h => of_listElements h).bind fun parts => ?_
    cases parts with
    | nil => exact fail fun s => .emptyClause
    | cons test body =>
      have htest : Raises host (clauseTest ev env test) := by
        unfold clauseTest
        split
        · exact pure _
        · exact hev env test
      refine htest.bind fun v => (testResult "cond" v).bind fun chosen => ?_
      split
      · split
        · exact pure _
        · exact evalSequence hev body
      · exact ih

theorem of_parameterNames {seen : List String} {vs : List Value} {e : Error}
    (h : parameterNames seen vs = .error e) (s : Store) : e.cause.Arises host s := by
  induction vs generalizing seen with
  | nil => cases h
  | cons v vs ih =>
    rw [parameterNames] at h
    split at h
    · cases h
      rw [Error.cause_locate]
      exact .parameter _
    · split at h
      · cases h
        rw [Error.cause_locate]
        exact .duplicateParameter _
      · exact ih h

theorem evalSpecial (hev : ∀ env form, Raises host (ev env form)) (location : Location)
    (form : SpecialForm) (operands : List Value) :
    Raises host (evalSpecial ev env location form operands) := by
  have hcount : ∀ form expected got,
      Raises host (Run.fail (.operandCount form expected got) : Run Value) :=
    fun form expected got => fail fun s => .operandCount form expected got
  unfold Lisplet.evalSpecial
  cases form with
  | quote =>
    match operands with
    | [datum] => exact pure _
    | [] | _ :: _ :: _ => exact hcount _ _ _
  | conditional =>
    match operands with
    | [test, consequent] =>
      refine (hev env _).bind fun v => (testResult "if" v).bind fun chosen => ?_
      split
      · exact hev env _
      · exact pure _
    | [test, consequent, alternative] =>
      refine (hev env _).bind fun v => (testResult "if" v).bind fun chosen => ?_
      split
      · exact hev env _
      · exact hev env _
    | [] | [_] | _ :: _ :: _ :: _ :: _ => exact hcount _ _ _
  | cond => exact evalCond hev operands
  | define =>
    match operands with
    | [target, expr] =>
      dsimp only
      cases target.symbol? with
      | none => exact fail fun s => .definedName _
      | some name =>
        refine (hev env _).bind fun v => (note _).bind fun _ => (change _).bind fun _ => ?_
        exact pure _
    | [] | [_] | _ :: _ :: _ :: _ => exact hcount _ _ _
  | lambda =>
    match operands with
    | params :: body :: bodies =>
      refine (check fun s e h => of_listElements h).bind fun vs => ?_
      refine (ofExcept fun e he s => of_parameterNames he s).bind fun names => ?_
      exact (make _).bind fun v => pure _
    | [] | [_] => exact hcount _ _ _
  | begin => exact evalSequence hev operands

/-! ## Evaluation -/

theorem operandsOf (rest : Option Value) : Raises host (operandsOf rest) := by
  cases rest with
  | none => exact pure _
  | some list => exact check fun s e h => of_listElements h

theorem step (hev : ∀ env form, Raises host (ev env form)) (env : FrameId) (form : Value) :
    Raises host (step host ev env form) := by
  unfold Lisplet.step
  refine locating _ ?_
  split
  · refine check fun s e h => ?_
    split at h
    · cases h
    · cases h
      exact .unbound _
  · refine (read _).bind fun cell => ?_
    unfold evalPair
    split
    · exact (operandsOf _).bind fun operands => evalSpecial hev _ _ operands
    · refine (hev env _).bind fun func => (operandsOf _).bind fun operands => ?_
      exact (evalAll hev operands).bind fun args => apply hev func args
  · exact pure _

/-- Whatever is evaluated, to whatever depth, an error arises in the store that is left behind. -/
theorem eval (host : Host) (n : Nat) (env : FrameId) (form : Value) :
    Raises host (eval host n env form) := by
  induction n generalizing env form with
  | zero => exact stop (by simp)
  | succ n ih => exact step ih env form

theorem plain (call : Call) (env : FrameId) : Raises call.host (call.plain env) := by
  have hev := eval call.host call.depth
  unfold Call.plain
  cases call.request with
  | source text file => exact runSource hev text file
  | file path =>
    dsimp only
    cases hfile : call.host.files path with
    | error fault => exact fail fun s => .runFailed hfile
    | ok text => exact (note _).bind fun _ => runSource hev text path

end Raises

end Lisplet
