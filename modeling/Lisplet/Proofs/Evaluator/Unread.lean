/-
# Lisplet.Proofs.Evaluator.Unread -- the log is written and never read

A computation that begins with another log does the same and writes the same: what it writes stands
behind whatever was there.  `Appends` says so of a computation, there is one rule for each way of building
one, and it holds of every part of the evaluator (`Appends.eval`).
-/

import Mathlib.Tactic
import Lisplet.Proofs.Evaluator.Yields

namespace Lisplet

open Run

variable {α β : Type}

/-- The same result with its log behind `log`. -/
def resultBehind (log : Array LogEntry) : EStateM.Result Stop State α → EStateM.Result Stop State α
  | .ok a s => .ok a ⟨s.store, log ++ s.log⟩
  | .error why s => .error why ⟨s.store, log ++ s.log⟩

/-- The computation adds to whatever log it begins with, and does not look at it. -/
def Appends (act : Run α) : Prop :=
  ∀ store log, act ⟨store, log⟩ = resultBehind log (act ⟨store, #[]⟩)

theorem resultBehind_resultBehind (log log' : Array LogEntry) (result : EStateM.Result Stop State α) :
    resultBehind log (resultBehind log' result) = resultBehind (log ++ log') result := by
  cases result <;> simp [resultBehind]

namespace Appends

/-! ## Computations -/

theorem pure (a : α) : Appends (pure a) := by
  intro store log
  show EStateM.Result.ok a _ = .ok a (State.mk store (log ++ #[]))
  rw [Array.append_empty]

theorem stop (why : Stop) : Appends (Run.stop why : Run α) := by
  intro store log
  show EStateM.Result.error why _ = .error why (State.mk store (log ++ #[]))
  rw [Array.append_empty]

theorem raise (e : Error) : Appends (Run.raise e : Run α) := stop _

theorem fail (cause : Cause) : Appends (Run.fail cause : Run α) := stop _

theorem ofExcept (x : Except Error α) : Appends (Run.ofExcept x) := by
  cases x with
  | ok a => exact pure a
  | error e => exact raise e

theorem read (f : Store → α) : Appends (Run.read f) := fun store => pure (f store) store

theorem check (f : Store → Except Error α) : Appends (Run.check f) := by
  intro store
  unfold Run.check
  dsimp only
  cases f store with
  | ok a => exact pure a store
  | error e => exact raise e store

theorem make (f : Store → α × Store) : Appends (Run.make f) := fun store => pure (f store).1 (f store).2

theorem change (f : Store → Store) : Appends (Run.change f) := fun store => pure () (f store)

theorem note (e : LogEntry) : Appends (Run.note e) := by
  intro store log
  show EStateM.Result.ok () (State.mk store (log.push e)) = .ok () (State.mk store (log ++ #[e]))
  rw [Array.push_eq_append]

theorem bind {act : Run α} {f : α → Run β} (h : Appends act) (hf : ∀ a, Appends (f a)) :
    Appends (act >>= f) := by
  intro store log
  show EStateM.bind act f _ = resultBehind log (EStateM.bind act f _)
  unfold EStateM.bind
  rw [h store log]
  cases act ⟨store, #[]⟩ with
  | ok a s =>
    show f a ⟨s.store, log ++ s.log⟩ = resultBehind log (f a ⟨s.store, s.log⟩)
    rw [hf a s.store (log ++ s.log), hf a s.store s.log, resultBehind_resultBehind]
  | error why s => rfl

theorem locating (p : Provenance) {act : Run α} (h : Appends act) : Appends (Run.locating p act) := by
  intro store log
  unfold Run.locating
  rw [h store log]
  cases act ⟨store, #[]⟩ with
  | ok a s => rfl
  | error why s => cases why <;> rfl

theorem foldlM {f : β → α → Run β} (hf : ∀ b a, Appends (f b a)) (as : List α) (b : β) :
    Appends (as.foldlM f b) := by
  induction as generalizing b with
  | nil => exact pure b
  | cons a as ih =>
    rw [List.foldlM_cons]
    exact (hf b a).bind ih

theorem forM {f : α → Run PUnit} (hf : ∀ a, Appends (f a)) (as : List α) : Appends (as.forM f) := by
  induction as with
  | nil => exact pure _
  | cons a as ih => exact (hf a).bind fun _ => ih

/-! ## Several forms -/

variable {ev : Evaluator} {env : FrameId}

theorem evalAll (hev : ∀ env form, Appends (ev env form)) (forms : List Value) :
    Appends (evalAll ev env forms) := by
  induction forms with
  | nil => exact pure _
  | cons form forms ih => exact (hev env form).bind fun v => ih.bind fun vs => pure _

theorem evalSequence (hev : ∀ env form, Appends (ev env form)) (forms : List Value) :
    Appends (evalSequence ev env forms) :=
  foldlM (fun _ form => hev env form) forms .nil

theorem yieldOf (hev : ∀ env form, Appends (ev env form)) (policy : WarnPolicy) (form : Value) :
    Appends (yieldOf ev policy env form) := by
  intro store log
  unfold Lisplet.yieldOf
  rw [hev env form store log]
  cases ev env form ⟨store, #[]⟩ with
  | ok v s => rfl
  | error why s =>
    cases why with
    | raised e =>
      have hskip : Appends (do Run.note (.skipped e); Pure.pure none : Run (Option Value)) :=
        (note _).bind fun _ => pure none
      show (if _ then _ else _) = resultBehind log (if _ then _ else _)
      split
      · rw [hskip s.store (log ++ s.log), hskip s.store s.log, resultBehind_resultBehind]
      · rfl
    | exhausted | withheld => rfl

theorem yields (hev : ∀ env form, Appends (ev env form)) (policy : WarnPolicy) (forms : List Value) :
    Appends (yields ev policy env forms) := by
  induction forms with
  | nil => exact pure _
  | cons form forms ih => exact (yieldOf hev policy form).bind fun y => ih.bind fun ys => pure _

theorem readSource (text file : String) : Appends (readSource text file) := by
  refine (forM (fun _ => note _) _).bind fun _ => ?_
  cases (Reading.ofText text).error with
  | none => exact make _
  | some e => exact raise _

theorem runSource (hev : ∀ env form, Appends (ev env form)) (text file : String) :
    Appends (runSource ev env text file) := by
  rw [runSource_eq_yieldsSource]
  refine bind ?_ fun ys => pure _
  exact (readSource text file).bind fun forms => (read _).bind fun policy => yields hev policy forms

/-! ## Applications -/

theorem loadFile (hev : ∀ env form, Appends (ev env form)) (host : Host) (args : Value) :
    Appends (loadFile host ev env args) := by
  refine (check _).bind fun a => (ofExcept _).bind fun path => (note _).bind fun _ => ?_
  cases host.files path with
  | ok text => exact runSource hev text path
  | error fault => exact raise _

theorem keyOf (v : Value) : Appends (Builtin.keyOf v) := locating _ (ofExcept _)

theorem call (hev : ∀ env form, Appends (ev env form)) (host : Host) (p : Primitive) (args : Value) :
    Appends (p.call host ev env args) := by
  cases p with
  | load => exact loadFile hev host args
  | isNull | isSymbol | isAtom | isPair | isList | inspect => exact (check _).bind fun a => pure _
  | isEqual => exact (check _).bind fun a => read _
  | add => exact (check _).bind fun vs => (ofExcept _).bind fun n => pure _
  | not => exact (check _).bind fun a => (ofExcept _).bind fun b => pure _
  | assert | warn =>
    refine (check _).bind fun a => (ofExcept _).bind fun b => ?_
    cases b with
    | true => exact pure _
    | false => exact fail _
  | car | cdr => exact (check _).bind fun a => (ofExcept _).bind fun _ => read _
  | cons => exact (check _).bind fun a => make _
  | list => exact pure _
  | length => exact (check _).bind fun a => check _
  | setCar | setCdr =>
    exact (check _).bind fun a => (ofExcept _).bind fun c => (change _).bind fun _ => pure _
  | makeHash => exact (check _).bind fun _ => make _
  | hashSet =>
    refine (check _).bind fun a => (ofExcept _).bind fun t => (keyOf _).bind fun key => ?_
    exact (change _).bind fun _ => pure _
  | hashRef => exact (check _).bind fun a => (ofExcept _).bind fun t => (keyOf _).bind fun key => read _

theorem applyClosure (hev : ∀ env form, Appends (ev env form)) (k : Closure) (args : List Value) :
    Appends (applyClosure ev k args) := by
  unfold Lisplet.applyClosure
  split
  · exact (make _).bind fun frame => evalSequence hev k.body
  · exact fail _

theorem apply (hev : ∀ env form, Appends (ev env form)) (host : Host) (func : Value)
    (args : List Value) : Appends (apply host ev env func args) := by
  unfold Lisplet.apply
  cases func.datum with
  | native p =>
    dsimp only
    split
    · exact (make _).bind fun list => call hev host p list
    · exact stop _
  | closure id => exact (read _).bind fun k => applyClosure hev k args
  | nil | pair | atom | hash => exact check _

/-! ## Special forms -/

theorem testResult (form : String) (v : Value) : Appends (testResult form v) := by
  unfold Lisplet.testResult
  split
  · exact pure _
  · exact fail _

theorem evalCond (hev : ∀ env form, Appends (ev env form)) (clauses : List Value) :
    Appends (evalCond ev env clauses) := by
  induction clauses with
  | nil => exact pure _
  | cons clause clauses ih =>
    rw [Lisplet.evalCond]
    refine (check _).bind fun parts => ?_
    cases parts with
    | nil => exact fail _
    | cons test body =>
      have htest : Appends (clauseTest ev env test) := by
        unfold clauseTest
        split
        · exact pure _
        · exact hev env test
      refine htest.bind fun v => (testResult "cond" v).bind fun chosen => ?_
      split
      · split
        · exact pure _
        · exact evalSequence hev body
      · exact ih

theorem evalSpecial (hev : ∀ env form, Appends (ev env form)) (location : Location)
    (form : SpecialForm) (operands : List Value) :
    Appends (evalSpecial ev env location form operands) := by
  unfold Lisplet.evalSpecial
  cases form with
  | quote =>
    dsimp only
    split
    · exact pure _
    · exact fail _
  | conditional =>
    dsimp only
    split
    · refine (hev env _).bind fun v => (testResult "if" v).bind fun chosen => ?_
      split
      · exact hev env _
      · exact pure _
    · refine (hev env _).bind fun v => (testResult "if" v).bind fun chosen => ?_
      split
      · exact hev env _
      · exact hev env _
    · exact fail _
  | cond => exact evalCond hev operands
  | define =>
    dsimp only
    split
    · split
      · exact fail _
      · exact (hev env _).bind fun v => (note _).bind fun _ => (change _).bind fun _ => pure _
    · exact fail _
  | lambda =>
    dsimp only
    split
    · exact (check _).bind fun vs => (ofExcept _).bind fun names => (make _).bind fun v => pure _
    · exact fail _
  | begin => exact evalSequence hev operands

/-! ## Evaluation -/

theorem operandsOf (rest : Option Value) : Appends (operandsOf rest) := by
  unfold Lisplet.operandsOf
  cases rest with
  | none => exact pure _
  | some list => exact check _

theorem evalPair (hev : ∀ env form, Appends (ev env form)) (host : Host) (location : Location)
    (cell : Cell) : Appends (evalPair host ev env location cell) := by
  unfold Lisplet.evalPair
  split
  · exact (operandsOf _).bind fun operands => evalSpecial hev location _ operands
  · refine (hev env _).bind fun func => (operandsOf _).bind fun operands => ?_
    exact (evalAll hev operands).bind fun args => apply hev host func args

theorem step (hev : ∀ env form, Appends (ev env form)) (host : Host) (env : FrameId) (form : Value) :
    Appends (step host ev env form) := by
  refine locating _ ?_
  split
  · exact check _
  · exact (read _).bind fun cell => evalPair hev host _ cell
  · exact pure _

/-- Evaluation does not look at the log. -/
theorem eval (host : Host) (n : Nat) (env : FrameId) (form : Value) : Appends (eval host n env form) := by
  induction n generalizing env form with
  | zero => exact stop _
  | succ n ih => exact step ih host env form

end Appends

end Lisplet
