/-
# Lisplet.Proofs.Evaluator.Twins -- two runs under different warn policies

Two states that differ in the policy of the global frame only, one to stop and one to keep going, are
run side by side.  The policy is read wherever the forms of a text are evaluated, which a program can
bring about anywhere by loading a file, and then decides about warnings only.  So the two runs do the
same thing step by step until the first of them raises a warning that reaches the forms of a text, and
there it stops for good: no error is ever caught under the policy to stop.  `Twins` says that one run
is the other's twin unless it ends in a warning, and holds of each part of the evaluator.
-/

import Mathlib.Tactic
import Lisplet.Evaluator
import Lisplet.Proofs.Run.Keeps
import Lisplet.Proofs.Store.Policy

namespace Lisplet

open Run Store

/-- The state with another policy on the frame `g`. -/
def State.withPolicy (g : FrameId) (policy : WarnPolicy) (s : State) : State :=
  ⟨s.store.withPolicy g policy, s.log⟩

/-- No frame has a policy to keep going, and no warning was logged on the way from `s` to `s'`. -/
structure Calm (g : FrameId) (s s' : State) : Prop where
  timid : Timid g s'.store
  log : ∃ new, s'.log = s.log ++ new ∧ ∀ entry ∈ new, entry.level ≠ .warn

namespace Calm

variable {g : FrameId} {s s' s'' : State}

theorem of_store (h : Timid g s'.store) (hlog : s'.log = s.log) : Calm g s s' :=
  ⟨h, #[], by simp [hlog], by simp⟩

theorem trans (h : Calm g s s') (h' : Calm g s' s'') : Calm g s s'' := by
  obtain ⟨new, hnew, hlevel⟩ := h.log
  obtain ⟨new', hnew', hlevel'⟩ := h'.log
  refine ⟨h'.timid, new ++ new', by rw [hnew', hnew, Array.append_assoc], fun entry hentry => ?_⟩
  rcases Array.mem_append.1 hentry with hentry | hentry
  · exact hlevel entry hentry
  · exact hlevel' entry hentry

end Calm

/-- From `s` and from its twin with the given policy on `g`, the two computations do the same, or the
first ends in a warning. -/
inductive Twin {α : Type} (g : FrameId) (policy : WarnPolicy) (act act' : Run α) (s : State) : Prop
  | value {a : α} {s' : State} (h : act s = .ok a s')
      (h' : act' (s.withPolicy g policy) = .ok a (s'.withPolicy g policy)) (calm : Calm g s s')
  | stopped {why : Stop} {s' : State} (h : act s = .error why s')
      (h' : act' (s.withPolicy g policy) = .error why (s'.withPolicy g policy)) (calm : Calm g s s')
  | warned {e : Error} {s' : State} (h : act s = .error (.raised e) s') (he : e.isFatal = false)

/-- The two computations are twins from every state in which no frame has a policy to keep going. -/
def Twins {α : Type} (g : FrameId) (policy : WarnPolicy) (act act' : Run α) : Prop :=
  ∀ s : State, Timid g s.store → Twin g policy act act' s

/-- The computation is its own twin. -/
abbrev Heedless {α : Type} (g : FrameId) (policy : WarnPolicy) (act : Run α) : Prop :=
  Twins g policy act act

variable {g : FrameId} {policy : WarnPolicy} {α β : Type}

/-! ## Computations -/

namespace Twins

theorem pure (a : α) : Heedless g policy (pure a) := fun _ hs => .value rfl rfl (.of_store hs rfl)

theorem bind {act act' : Run α} {f f' : α → Run β} (h : Twins g policy act act')
    (hf : ∀ a, Twins g policy (f a) (f' a)) : Twins g policy (act >>= f) (act' >>= f') := by
  intro s hs
  cases h s hs with
  | value hact hact' calm =>
    cases hf _ _ calm.timid with
    | value hf hf' calm' =>
      exact .value ((bind_of_ok hact).trans hf) ((bind_of_ok hact').trans hf') (calm.trans calm')
    | stopped hf hf' calm' =>
      exact .stopped ((bind_of_ok hact).trans hf) ((bind_of_ok hact').trans hf') (calm.trans calm')
    | warned hf he => exact .warned ((bind_of_ok hact).trans hf) he
  | stopped hact hact' calm => exact .stopped (bind_of_error hact) (bind_of_error hact') calm
  | warned hact he => exact .warned (bind_of_error hact) he

theorem raise (e : Error) : Heedless g policy (raise e : Run α) := fun _ hs =>
  .stopped rfl rfl (.of_store hs rfl)

theorem fail (cause : Cause) : Heedless g policy (fail cause : Run α) := raise _

theorem stop (why : Stop) : Heedless g policy (stop why : Run α) := fun _ hs =>
  .stopped rfl rfl (.of_store hs rfl)

theorem ofExcept (x : Except Error α) : Heedless g policy (ofExcept x) := by
  cases x with
  | ok a => exact pure a
  | error e => exact raise e

/-- A look that does not see the policy. -/
theorem read {f : Store → α} (h : ∀ s, f (s.withPolicy g policy) = f s) :
    Heedless g policy (read f) := by
  intro s hs
  have htwin : Run.read f (s.withPolicy g policy) = .ok (f s.store) (s.withPolicy g policy) := by
    rw [← h s.store]
    rfl
  exact .value rfl htwin (.of_store hs rfl)

theorem check {f : Store → Except Error α} (h : ∀ s, f (s.withPolicy g policy) = f s) :
    Heedless g policy (check f) := by
  intro s hs
  have htwin : f (s.withPolicy g policy).store = f s.store := h s.store
  cases hf : f s.store with
  | ok a =>
    have hact : Run.check f s = .ok a s := by rw [Run.check, hf]
    exact .value hact (by rw [Run.check, htwin, hf]) (.of_store hs rfl)
  | error e =>
    have hact : Run.check f s = .error (.raised e) s := by rw [Run.check, hf]
    exact .stopped hact (by rw [Run.check, htwin, hf]) (.of_store hs rfl)

/-- Something is made that does not depend on the policy. -/
theorem make {f : Store → α × Store}
    (h : ∀ s, Timid g s → f (s.withPolicy g policy) = ((f s).1, (f s).2.withPolicy g policy))
    (htimid : ∀ s, Timid g s → Timid g (f s).2) : Heedless g policy (make f) := by
  have hmake : ∀ s : State, Run.make f s = .ok (f s.store).1 ⟨(f s.store).2, s.log⟩ := fun _ => rfl
  intro s hs
  refine .value (hmake s) ?_ (.of_store (htimid _ hs) rfl)
  have htwin : f (s.withPolicy g policy).store = _ := h s.store hs
  rw [hmake, htwin]
  rfl

theorem change {f : Store → Store}
    (h : ∀ s, f (s.withPolicy g policy) = (f s).withPolicy g policy)
    (htimid : ∀ s, Timid g s → Timid g (f s)) : Heedless g policy (change f) := by
  have hchange : ∀ s : State, Run.change f s = .ok () ⟨f s.store, s.log⟩ := fun _ => rfl
  intro s hs
  refine .value (hchange s) ?_ (.of_store (htimid _ hs) rfl)
  have htwin : f (s.withPolicy g policy).store = _ := h s.store
  rw [hchange, htwin]
  rfl

theorem note {entry : LogEntry} (h : entry.level ≠ .warn) : Heedless g policy (note entry) := by
  have hnote : ∀ s : State, Run.note entry s = .ok () ⟨s.store, s.log.push entry⟩ := fun _ => rfl
  intro s hs
  exact .value (hnote s) rfl ⟨hs, #[entry], by simp, by simpa using h⟩

theorem locating (p : Provenance) {act : Run α} (h : Heedless g policy act) :
    Heedless g policy (locating p act) := by
  intro s hs
  cases h s hs with
  | value hact hact' calm =>
    exact .value (by rw [Run.locating, hact]) (by rw [Run.locating, hact']) calm
  | @stopped why s' hact hact' calm =>
    cases why with
    | raised e => exact .stopped (by rw [Run.locating, hact]) (by rw [Run.locating, hact']) calm
    | exhausted => exact .stopped (by rw [Run.locating, hact]) (by rw [Run.locating, hact']) calm
    | withheld p => exact .stopped (by rw [Run.locating, hact]) (by rw [Run.locating, hact']) calm
  | warned hact he =>
    refine .warned (by rw [Run.locating, hact]) ?_
    rwa [Error.isFatal, Error.kind, Error.cause_locate]

theorem foldlM {f f' : α → β → Run α} (hf : ∀ a b, Twins g policy (f a b) (f' a b)) (bs : List β)
    (a : α) : Twins g policy (bs.foldlM f a) (bs.foldlM f' a) := by
  induction bs generalizing a with
  | nil => exact pure a
  | cons b bs ih =>
    rw [List.foldlM_cons, List.foldlM_cons]
    exact (hf a b).bind ih

end Twins

/-! ## Primitives -/

namespace Heedless

/-! Nothing that a primitive looks at depends on the policy. -/

theorem listElements (v : Value) : Heedless g policy (Run.check (·.listElements v)) :=
  .check fun s => listElements_withPolicy g policy s v

theorem oneArgument (name : String) (args : Value) :
    Heedless g policy (Run.check (·.oneArgument name args)) :=
  .check fun s => by rw [Store.oneArgument, Store.oneArgument, listElements_withPolicy]

theorem twoArguments (name : String) (args : Value) :
    Heedless g policy (Run.check (·.twoArguments name args)) :=
  .check fun s => by rw [Store.twoArguments, Store.twoArguments, listElements_withPolicy]

theorem make {f : Store → α × Store}
    (h : ∀ s, f (s.withPolicy g policy) = ((f s).1, (f s).2.withPolicy g policy))
    (hframes : ∀ s, (f s).2.frames = s.frames) : Heedless g policy (Run.make f) :=
  Twins.make (fun s _ => h s) fun s hs => hs.congr (hframes s)

theorem change_nil {f : Store → Store}
    (h : ∀ s, f (s.withPolicy g policy) = (f s).withPolicy g policy)
    (hframes : ∀ s, (f s).frames = s.frames) :
    Heedless g policy (do Run.change f; Pure.pure Value.nil) :=
  (Twins.change h fun s hs => hs.congr (hframes s)).bind fun _ => .pure _

theorem keyOf (v : Value) : Heedless g policy (Builtin.keyOf v) := .locating _ (.ofExcept _)

theorem primitive (host : Host) (ev : Evaluator) (env : FrameId) {p : Primitive} (hp : p ≠ .load)
    (args : Value) : Heedless g policy (p.call host ev env args) := by
  cases p with
  | load => exact absurd rfl hp
  | isNull | isSymbol | isAtom | isPair | isList | inspect =>
    exact (oneArgument _ args).bind fun a => .pure _
  | isEqual =>
    refine (twoArguments _ args).bind fun a => .read fun s => ?_
    rw [equal_withPolicy]
  | add => exact (listElements args).bind fun vs => (Twins.ofExcept _).bind fun n => .pure _
  | not => exact (oneArgument _ args).bind fun a => (Twins.ofExcept _).bind fun b => .pure _
  | assert | warn =>
    refine (oneArgument _ args).bind fun a => (Twins.ofExcept _).bind fun b => ?_
    cases b
    · exact .fail _
    · exact .pure _
  | car | cdr =>
    exact (oneArgument _ args).bind fun a => (Twins.ofExcept _).bind fun _ => .read fun s => rfl
  | cons => exact (twoArguments _ args).bind fun a => make (fun s => rfl) fun s => rfl
  | list => exact .pure _
  | length =>
    refine (oneArgument _ args).bind fun a => .check fun s => ?_
    rw [Builtin.lengthOf, Builtin.lengthOf, elements_withPolicy]
  | setCar | setCdr =>
    refine (twoArguments _ args).bind fun a => (Twins.ofExcept _).bind fun c => ?_
    exact change_nil (fun s => rfl) fun s => rfl
  | makeHash =>
    have hnone : Heedless g policy (Run.check (·.noArguments "make-hash" args)) :=
      .check fun s => by rw [noArguments, noArguments, listElements_withPolicy]
    exact hnone.bind fun _ => make (fun s => rfl) fun s => rfl
  | hashSet =>
    have hthree : Heedless g policy (Run.check (·.threeArguments "hash-set!" args)) :=
      .check fun s => by rw [threeArguments, threeArguments, listElements_withPolicy]
    refine hthree.bind fun a => (Twins.ofExcept _).bind fun t => (keyOf _).bind fun key => ?_
    exact change_nil (fun s => rfl) fun s => rfl
  | hashRef =>
    refine (twoArguments _ args).bind fun a => (Twins.ofExcept _).bind fun t => ?_
    exact (keyOf _).bind fun key => .read fun s => rfl

/-! ## Several forms -/

variable {ev : Evaluator} {env : FrameId}

theorem evalAll (hev : ∀ env form, Heedless g policy (ev env form)) (forms : List Value) :
    Heedless g policy (evalAll ev env forms) := by
  induction forms with
  | nil => exact .pure _
  | cons form forms ih => exact (hev env form).bind fun v => ih.bind fun vs => .pure _

theorem evalSequence (hev : ∀ env form, Heedless g policy (ev env form)) (forms : List Value) :
    Heedless g policy (evalSequence ev env forms) :=
  .foldlM (fun _ form => hev env form) forms .nil

/-- An error ends a text if it is no warning, and under the policy to stop in any case. -/
theorem evalTop_of_raised {s s' : State} {e : Error} {result form : Value}
    (h : ev env form s = .error (.raised e) s') (hstop : e.isFatal = true ∨ policy = .abort) :
    Lisplet.evalTop ev policy env result form s = .error (.raised e) s' := by
  rcases hstop with hstop | rfl <;> simp [Lisplet.evalTop, *]

/-- A form of a text has the same effect under any policy, unless it raises a warning. -/
theorem evalTop (hev : ∀ env form, Heedless g policy (ev env form)) (policy' : WarnPolicy)
    (result form : Value) :
    Twins g policy (evalTop ev .abort env result form) (evalTop ev policy' env result form) := by
  intro s hs
  cases hev env form s hs with
  | value hact hact' calm =>
    exact .value (by rw [Lisplet.evalTop, hact]) (by rw [Lisplet.evalTop, hact']) calm
  | warned hact he => exact .warned (evalTop_of_raised hact (Or.inr rfl)) he
  | @stopped why s' hact hact' calm =>
    cases why with
    | raised e =>
      have hstops : Lisplet.evalTop ev .abort env result form s = .error (.raised e) s' :=
        evalTop_of_raised hact (Or.inr rfl)
      cases he : e.isFatal with
      | false => exact .warned hstops he
      | true => exact .stopped hstops (evalTop_of_raised hact' (Or.inl he)) calm
    | exhausted =>
      exact .stopped (by rw [Lisplet.evalTop, hact]) (by rw [Lisplet.evalTop, hact']) calm
    | withheld p =>
      exact .stopped (by rw [Lisplet.evalTop, hact]) (by rw [Lisplet.evalTop, hact']) calm

/-- The forms of a text.  This is where the policy is read. -/
theorem evalToplevel (hev : ∀ env form, Heedless g policy (ev env form)) (env : FrameId)
    (forms : List Value) : Heedless g policy (evalToplevel ev env forms) := by
  intro s hs
  have hread : ∀ s : State, Lisplet.evalToplevel ev env forms s =
      forms.foldlM (Lisplet.evalTop ev (s.store.policy env) env) Value.nil s := fun _ => rfl
  have hpolicy : s.store.policy env = .abort := hs.policy _
  have hform : ∀ result form, Twins g policy (Lisplet.evalTop ev .abort env result form)
      (Lisplet.evalTop ev ((s.withPolicy g policy).store.policy env) env result form) :=
    fun result form => evalTop hev _ result form
  cases Twins.foldlM hform forms Value.nil s hs with
  | value hact hact' calm =>
    exact .value (by rw [hread, hpolicy, hact]) (by rw [hread, hact']) calm
  | stopped hact hact' calm =>
    exact .stopped (by rw [hread, hpolicy, hact]) (by rw [hread, hact']) calm
  | warned hact he => exact .warned (by rw [hread, hpolicy, hact]) he

theorem readSource (text file : String) : Heedless g policy (readSource text file) := by
  have hnotes : ∀ forms : List Form, Heedless g policy
      (forms.forM fun form => Run.note (.read form.text (form.position.inFile file))) := by
    intro forms
    induction forms with
    | nil => exact .pure _
    | cons form forms ih => exact (Twins.note (by simp [LogEntry.level])).bind fun _ => ih
  refine (hnotes _).bind fun _ => ?_
  cases (Reading.ofText text).error with
  | none =>
    exact make (fun s => withPolicy_ofForms policy file _ s) fun s => (frames_ofForms file _ s).1
  | some e => exact .raise _

theorem runSource (hev : ∀ env form, Heedless g policy (ev env form)) (text file : String) :
    Heedless g policy (runSource ev env text file) :=
  (readSource text file).bind fun forms => evalToplevel hev env forms

/-! ## Applications -/

theorem loadFile (hev : ∀ env form, Heedless g policy (ev env form)) (host : Host) (args : Value) :
    Heedless g policy (loadFile host ev env args) := by
  refine (oneArgument _ args).bind fun a => (Twins.ofExcept _).bind fun path => ?_
  refine (Twins.note (by simp [LogEntry.level])).bind fun _ => ?_
  cases host.files path with
  | ok text => exact runSource hev text path
  | error fault => exact .raise _

theorem apply (hev : ∀ env form, Heedless g policy (ev env form)) (host : Host) (func : Value)
    (args : List Value) : Heedless g policy (apply host ev env func args) := by
  unfold Lisplet.apply
  split
  · next p _ =>
    split
    · refine (make (fun s => withPolicy_ofList policy args s) (frames_ofList args)).bind fun list => ?_
      by_cases hp : p = .load
      · subst hp
        exact loadFile hev host list
      · exact primitive host ev env hp list
    · exact .stop _
  · refine (Twins.read fun s => rfl).bind fun k => ?_
    unfold Lisplet.applyClosure
    split
    · have hextend : Heedless g policy (Run.make (Store.extend k.frame k.params args)) :=
        Twins.make (fun s hs => withPolicy_newFrame policy _ hs.held) fun s hs => hs.newFrame rfl
      exact hextend.bind fun frame => evalSequence hev k.body
    · exact .fail _
  · exact .check fun s => by rw [text_withPolicy]

/-! ## Special forms -/

theorem testResult (form : String) (v : Value) : Heedless g policy (testResult form v) := by
  unfold Lisplet.testResult
  split
  · exact .pure _
  · exact .fail _

theorem evalCond (hev : ∀ env form, Heedless g policy (ev env form)) (clauses : List Value) :
    Heedless g policy (evalCond ev env clauses) := by
  induction clauses with
  | nil => exact .pure _
  | cons clause clauses ih =>
    rw [Lisplet.evalCond]
    refine (listElements clause).bind fun parts => ?_
    cases parts with
    | nil => exact .fail _
    | cons test body =>
      have htest : Heedless g policy (clauseTest ev env test) := by
        unfold clauseTest
        split
        · exact .pure _
        · exact hev env test
      refine htest.bind fun v => (testResult "cond" v).bind fun chosen => ?_
      split
      · split
        · exact .pure _
        · exact evalSequence hev body
      · exact ih

theorem evalSpecial (hev : ∀ env form, Heedless g policy (ev env form)) (location : Location)
    (form : SpecialForm) (operands : List Value) :
    Heedless g policy (evalSpecial ev env location form operands) := by
  unfold Lisplet.evalSpecial
  cases form with
  | quote =>
    match operands with
    | [datum] => exact .pure _
    | [] | _ :: _ :: _ => exact .fail _
  | conditional =>
    match operands with
    | [test, consequent] =>
      refine (hev env _).bind fun v => (testResult "if" v).bind fun chosen => ?_
      split
      · exact hev env _
      · exact .pure _
    | [test, consequent, alternative] =>
      refine (hev env _).bind fun v => (testResult "if" v).bind fun chosen => ?_
      split
      · exact hev env _
      · exact hev env _
    | [] | [_] | _ :: _ :: _ :: _ :: _ => exact .fail _
  | cond => exact evalCond hev operands
  | define =>
    match operands with
    | [target, expr] =>
      dsimp only
      cases target.symbol? with
      | none => exact .fail _
      | some name =>
        refine (hev env _).bind fun v => (Twins.note (by simp [LogEntry.level])).bind fun _ => ?_
        refine (Twins.change (fun s => ?_) fun s hs => hs.define env name _).bind fun _ => .pure _
        exact withPolicy_define g env policy name _ s
    | [] | [_] | _ :: _ :: _ :: _ => exact .fail _
  | lambda =>
    match operands with
    | params :: body :: bodies =>
      refine (listElements params).bind fun vs => (Twins.ofExcept _).bind fun names => ?_
      exact (make (fun s => rfl) fun s => rfl).bind fun v => .pure _
    | [] | [_] => exact .fail _
  | begin => exact evalSequence hev operands

/-! ## Evaluation -/

theorem operandsOf (rest : Option Value) : Heedless g policy (operandsOf rest) := by
  cases rest with
  | none => exact .pure _
  | some list => exact listElements list

theorem step (hev : ∀ env form, Heedless g policy (ev env form)) (host : Host) (env : FrameId)
    (form : Value) : Heedless g policy (step host ev env form) := by
  unfold Lisplet.step
  refine .locating _ ?_
  split
  · exact .check fun s => by rw [lookup_withPolicy]
  · refine (Twins.read fun s => rfl).bind fun cell => ?_
    unfold evalPair
    split
    · exact (operandsOf _).bind fun operands => evalSpecial hev _ _ operands
    · refine (hev env _).bind fun func => (operandsOf _).bind fun operands => ?_
      exact (evalAll hev operands).bind fun args => apply hev host func args
  · exact .pure _

/-- Whatever is evaluated, to whatever depth, the policy makes no difference before a warning. -/
theorem eval (host : Host) (n : Nat) (env : FrameId) (form : Value) :
    Heedless g policy (eval host n env form) := by
  induction n generalizing env form with
  | zero => exact .stop _
  | succ n ih => exact step ih host env form

end Heedless

end Lisplet
