/-
# Lisplet.Proofs.Evaluator.Steady -- what recorded runs keep, primitive by primitive

Where a property of the store and of the record together is broken when the call of a primitive is
recorded and mended when the primitive has done its work, it holds between the calls only.  `Steady I`
says that `I` survives the call of a primitive as a whole, its record and its work, and all else that is
recorded, and whatever leaves the hash tables alone.  Then `I` survives every recorded run
(`Steady.eval`), since nothing but primitives makes or changes tables.
-/

import Mathlib.Tactic
import Lisplet.Proofs.Evaluator.Recording
import Lisplet.Proofs.Evaluator.Upheld
import Lisplet.Proofs.Run.Keeps
import Lisplet.Proofs.Store.Forms

namespace Lisplet

variable {α β : Type}

/-! ## Tables that are left alone -/

/-- The computation leaves all hash tables as they are. -/
abbrev Run.Spares (act : Run α) : Prop := ∀ tables, Run.Keeps' (fun s => s.tables = tables) act

theorem Store.tables_ofList (vs : List Value) (s : Store) : (s.ofList vs).2.tables = s.tables := by
  induction vs with
  | nil => rfl
  | cons v vs ih => exact ih

theorem Store.tables_ofForm (file : String) (f : Form) (s : Store) :
    (s.ofForm file f).2.tables = s.tables := by
  induction f generalizing s with
  | atom | empty => rfl
  | single p car ih => exact ih s
  | pair p car cdr ihcar ihcdr => exact (ihcdr _).trans (ihcar s)

theorem Store.tables_ofForms (file : String) (fs : List Form) (s : Store) :
    (s.ofForms file fs).2.tables = s.tables := by
  induction fs generalizing s with
  | nil => rfl
  | cons f fs ih => exact (ih _).trans (Store.tables_ofForm file f s)

namespace Run.Spares

theorem make {f : Store → α × Store} (hf : ∀ s, (f s).2.tables = s.tables) : Spares (Run.make f) :=
  fun _ => .make fun s hs => ⟨(hf s).trans hs, trivial⟩

theorem change {f : Store → Store} (hf : ∀ s, (f s).tables = s.tables) : Spares (Run.change f) :=
  fun _ => .change fun s hs => (hf s).trans hs

theorem readSource (text file : String) : Spares (Lisplet.readSource text file) := by
  intro tables
  refine (Keeps.forM fun _ _ => Keeps.note _).bind fun _ _ => ?_
  cases (Reading.ofText text).error with
  | none => exact make (Store.tables_ofForms file _) tables
  | some e => exact .raise _

theorem testResult (form : String) (v : Value) : Spares (Lisplet.testResult form v) := by
  intro tables
  unfold Lisplet.testResult
  split
  · exact .pure trivial
  · exact .fail _

theorem operandsOf (rest : Option Value) : Spares (Lisplet.operandsOf rest) := by
  intro tables
  unfold Lisplet.operandsOf
  cases rest with
  | none => exact .pure trivial
  | some list => exact .check _

end Run.Spares

/-! ## Properties of runs -/

/-- Is it the call of a primitive that evaluates nothing? -/
def Event.isCall : Event → Bool
  | .passed p _ => p != .load
  | .read _ | .called _ _ | .returned _ | .stopped _ => false

namespace Recorded

variable {I : History → Prop} {host : Host}

/-- The computation keeps `I`, however it ends. -/
def Keeps (I : History → Prop) (act : Recorded α) : Prop :=
  ∀ w, I w →
    match act w with
    | .ok _ w' => I w'
    | .error _ w' => I w'

/-- `I` is kept by what leaves the tables alone, by every event that is no call of a primitive, and by
such calls as a whole. -/
structure Steady (host : Host) (I : History → Prop) : Prop where
  still : ∀ {w : History} {s : State}, I w → s.store.tables = w.state.store.tables →
    I { w with state := s }
  event : ∀ {w : History} {e : Event}, I w → e.isCall = false → I (w.add e)
  call : ∀ (ev : Evaluator) (env : FrameId) {p : Primitive} (args : Value), p ≠ .load →
    Keeps I (do record (.passed p args); lift (p.call host ev env args))

namespace Keeps

theorem pure (a : α) : Keeps I (pure a) := fun _ hw => hw

theorem bind {act : Recorded α} {f : α → Recorded β} (h : Keeps I act) (hf : ∀ a, Keeps I (f a)) :
    Keeps I (act >>= f) := by
  intro w hw
  have hact := h w hw
  show match EStateM.bind act f w with
    | .ok _ w' => I w'
    | .error _ w' => I w'
  unfold EStateM.bind
  cases hres : act w with
  | ok a w' =>
    rw [hres] at hact
    exact hf a w' hact
  | error why w' =>
    rw [hres] at hact
    exact hact

theorem foldlM {f : β → α → Recorded β} (hf : ∀ b a, Keeps I (f b a)) (as : List α) (b : β) :
    Keeps I (as.foldlM f b) := by
  induction as generalizing b with
  | nil => exact pure b
  | cons a as ih =>
    rw [List.foldlM_cons]
    exact (hf b a).bind ih

theorem locating (p : Provenance) {act : Recorded α} (h : Keeps I act) :
    Keeps I (Recorded.locating p act) := by
  intro w hw
  have hact := h w hw
  unfold Recorded.locating
  cases hres : act w with
  | ok a w' =>
    rw [hres] at hact
    exact hact
  | error why w' =>
    rw [hres] at hact
    cases why <;> exact hact

end Keeps

/-- The evaluator keeps `I`. -/
def KeepsAll (I : History → Prop) (ev : Recorder) : Prop := ∀ env form, Keeps I (ev env form)

namespace Steady

theorem lift (hI : Steady host I) {act : Run α} (h : act.Spares) : Keeps I (Recorded.lift act) := by
  intro w hw
  have hact := h w.state.store.tables w.state rfl
  cases hres : act w.state with
  | ok a s =>
    rw [hres] at hact
    rw [lift_of_ok hres]
    exact hI.still hw hact.1
  | error why s =>
    rw [hres] at hact
    rw [lift_of_error hres]
    exact hI.still hw hact

theorem record (hI : Steady host I) {e : Event} (he : e.isCall = false) : Keeps I (Recorded.record e) :=
  fun _ hw => hI.event hw he

/-! ### Several forms -/

variable {ev : Recorder} {env : FrameId}

theorem evalAll (hev : KeepsAll I ev) (forms : List Value) : Keeps I (evalAll ev env forms) := by
  induction forms with
  | nil => exact .pure _
  | cons form forms ih => exact (hev env form).bind fun v => ih.bind fun vs => .pure _

theorem evalSequence (hev : KeepsAll I ev) (forms : List Value) :
    Keeps I (evalSequence ev env forms) :=
  .foldlM (fun _ form => hev env form) forms .nil

theorem evalTop (hI : Steady host I) (hev : KeepsAll I ev) (policy : WarnPolicy)
    (result form : Value) : Keeps I (evalTop ev policy env result form) := by
  intro w hw
  have hform := hev env form w hw
  unfold Recorded.evalTop
  cases hres : ev env form w with
  | ok v w' =>
    rw [hres] at hform
    exact hform
  | error why w' =>
    rw [hres] at hform
    cases why with
    | raised e =>
      by_cases hskip : (!e.isFatal && policy == .keepGoing) = true
      · simp only [hskip, if_true]
        exact hI.still hform rfl
      · simp only [hskip, Bool.false_eq_true, if_false]
        exact hform
    | exhausted | withheld => exact hform

theorem runSource (hI : Steady host I) (hev : KeepsAll I ev) (text file : String) :
    Keeps I (runSource ev env text file) := by
  have hread : Keeps I (readSource text file) :=
    (hI.lift (.readSource text file)).bind fun forms => (hI.record rfl).bind fun _ => .pure forms
  refine hread.bind fun forms => (hI.lift fun _ => .read _).bind fun policy => ?_
  exact .foldlM (fun result form => hI.evalTop hev policy result form) forms .nil

/-! ### Applications -/

theorem loadFile (hI : Steady host I) (hev : KeepsAll I ev) (args : Value) :
    Keeps I (loadFile host ev env args) := by
  refine (hI.lift fun _ => .check _).bind fun a => (hI.lift fun _ => .ofExcept _).bind fun path => ?_
  refine (hI.lift fun _ => .note _).bind fun _ => ?_
  cases host.files path with
  | ok text => exact hI.runSource hev text path
  | error fault => exact hI.lift fun _ => .raise _

theorem callAny (hI : Steady host I) (hev : KeepsAll I ev) (p : Primitive) (args : Value) :
    Keeps I (Recorded.call host ev env p args) := by
  cases p with
  | load => exact (hI.record rfl).bind fun _ => hI.loadFile hev args
  | _ => exact hI.call _ env args (by decide)

theorem applyClosure (hI : Steady host I) (hev : KeepsAll I ev) (k : Closure) (args : List Value) :
    Keeps I (applyClosure ev k args) := by
  unfold Recorded.applyClosure
  split
  · exact (hI.lift (.make fun _ => rfl)).bind fun frame => evalSequence hev k.body
  · exact hI.lift fun _ => .fail _

theorem apply (hI : Steady host I) (hev : KeepsAll I ev) (func : Value) (args : List Value) :
    Keeps I (apply host ev env func args) := by
  unfold Recorded.apply
  split
  · split
    · exact (hI.lift (.make (Store.tables_ofList args))).bind fun list => hI.callAny hev _ list
    · exact hI.lift fun _ => .stop _
  · refine (hI.record rfl).bind fun _ => ?_
    exact (hI.lift fun _ => .read _).bind fun k => hI.applyClosure hev k args
  · exact hI.lift fun _ => .check _

/-! ### Special forms -/

theorem clauseTest (hev : KeepsAll I ev) (test : Value) : Keeps I (clauseTest ev env test) := by
  unfold Recorded.clauseTest
  split
  · exact .pure _
  · exact hev env test

theorem evalCond (hI : Steady host I) (hev : KeepsAll I ev) (clauses : List Value) :
    Keeps I (evalCond ev env clauses) := by
  induction clauses with
  | nil => exact .pure _
  | cons clause clauses ih =>
    rw [Recorded.evalCond]
    refine (hI.lift fun _ => .check _).bind fun parts => ?_
    cases parts with
    | nil => exact hI.lift fun _ => .fail _
    | cons test body =>
      refine (clauseTest hev test).bind fun v => (hI.lift (.testResult "cond" v)).bind fun chosen => ?_
      split
      · split
        · exact .pure _
        · exact evalSequence hev body
      · exact ih

theorem conditional (hI : Steady host I) (hev : KeepsAll I ev) (test consequent : Value)
    {otherwise : Recorded Value} (hotherwise : Keeps I otherwise) :
    Keeps I (do
      let v ← ev env test
      if ← Recorded.lift (testResult "if" v) then ev env consequent else otherwise) := by
  refine (hev env test).bind fun v => (hI.lift (.testResult "if" v)).bind fun chosen => ?_
  split
  · exact hev env consequent
  · exact hotherwise

theorem evalSpecial (hI : Steady host I) (hev : KeepsAll I ev) (location : Location)
    (form : SpecialForm) (operands : List Value) :
    Keeps I (evalSpecial ev env location form operands) := by
  cases form with
  | quote =>
    refine hI.lift fun _ => ?_
    unfold Lisplet.evalSpecial
    match operands with
    | [_] => exact .pure trivial
    | [] | _ :: _ :: _ => exact .fail _
  | conditional =>
    unfold Recorded.evalSpecial
    match operands with
    | [test, consequent] => exact hI.conditional hev test consequent (.pure _)
    | [test, consequent, alternative] =>
      exact hI.conditional hev test consequent (hev env alternative)
    | [] | [_] | _ :: _ :: _ :: _ :: _ => exact hI.lift fun _ => .fail _
  | cond => exact hI.evalCond hev operands
  | define =>
    unfold Recorded.evalSpecial
    match operands with
    | [target, expr] =>
      dsimp only
      cases target.symbol? with
      | none => exact hI.lift fun _ => .fail _
      | some name =>
        refine (hev env expr).bind fun v => (hI.lift fun _ => .note _).bind fun _ => ?_
        have hdefine := hI.lift (.change (f := Store.define env name (v.withBound name)) fun _ => rfl)
        exact hdefine.bind fun _ => .pure _
    | [] | [_] | _ :: _ :: _ :: _ => exact hI.lift fun _ => .fail _
  | lambda =>
    refine hI.lift fun tables => ?_
    unfold Lisplet.evalSpecial
    match operands with
    | params :: body :: bodies =>
      refine (Run.Keeps.check _).bind fun vs _ => (Run.Keeps.ofExcept _).bind fun names _ => ?_
      exact (Run.Spares.make (fun _ => rfl) tables).bind fun v _ => .pure trivial
    | [] | [_] => exact .fail _
  | begin => exact evalSequence hev operands

/-! ### Evaluation -/

theorem evalPair (hI : Steady host I) (hev : KeepsAll I ev) (location : Location) (cell : Cell) :
    Keeps I (evalPair host ev env location cell) := by
  unfold Recorded.evalPair
  split
  · exact (hI.lift (.operandsOf _)).bind fun operands => hI.evalSpecial hev location _ operands
  · refine (hev env _).bind fun func => (hI.lift (.operandsOf _)).bind fun operands => ?_
    exact (evalAll hev operands).bind fun args => hI.apply hev func args

theorem step (hI : Steady host I) (hev : KeepsAll I ev) : KeepsAll I (step host ev) := by
  intro env form
  unfold Recorded.step
  have hreturning : ∀ {act : Recorded Value}, Keeps I act → Keeps I (Recorded.returning act) :=
    fun hact => hact.bind fun v => (hI.record rfl).bind fun _ => .pure v
  refine .locating _ (hreturning ?_)
  split
  · exact hI.lift fun _ => .check _
  · exact (hI.lift fun _ => .read _).bind fun cell => hI.evalPair hev _ cell
  · exact .pure _

/-- Whatever is evaluated, to whatever depth and however it ends, `I` is kept. -/
theorem eval (hI : Steady host I) (n : Nat) : KeepsAll I (eval host n) := by
  induction n with
  | zero => exact fun env form => hI.lift fun _ => .stop _
  | succ n ih => exact hI.step ih

end Steady

end Recorded

/-! ## Sessions -/

theorem Call.keeps {call : Call} {I : History → Prop} (hI : Recorded.Steady call.host I)
    (env : FrameId) : Recorded.Keeps I (call.recorded env) := by
  have hev := hI.eval call.depth
  unfold Call.recorded
  cases call.request with
  | source text file => exact hI.runSource hev text file
  | file path =>
    dsimp only
    cases call.host.files path with
    | error fault => exact hI.lift fun _ => .fail _
    | ok text => exact (hI.lift fun _ => .note _).bind fun _ => hI.runSource hev text path

/-- What is kept under every host and holds of a fresh session holds after any calls. -/
theorem History.ofCalls_of_steady {I : History → Prop} (hI : ∀ host, Recorded.Steady host I)
    (policy : WarnPolicy) (hnew : I { state := (Session.new policy).state }) (calls : List Call) :
    I (History.ofCalls policy calls) := by
  induction calls using List.reverseRecOn with
  | nil => exact hnew
  | append_singleton calls call ih =>
    have hcall := Call.keeps (hI call.host) (Session.new policy).env _ ih
    rw [History.ofCalls_concat, History.perform]
    cases hres : call.recorded (Session.new policy).env (History.ofCalls policy calls) with
    | ok v w =>
      rw [hres] at hcall
      exact (hI call.host).event hcall rfl
    | error why w =>
      rw [hres] at hcall
      exact (hI call.host).event hcall rfl

end Lisplet
