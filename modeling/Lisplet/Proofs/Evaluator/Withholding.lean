/-
# Lisplet.Proofs.Evaluator.Withholding -- runs that are stopped from outside

Withholding a primitive changes nothing before the primitive is called for: a run under the host that
withholds it is the run itself, unless it ends because the primitive was withheld.  A program cannot
notice the difference in any other way, as nothing but an error can be caught.  So a run that does not
end in this way never calls the primitive, and what holds of all runs without it holds of this one.

It is the same with the bound on the depth of evaluation.  A run with less depth is the run itself, unless
it is exhausted; so more depth never changes how a run ends (`EvaluatesUpTo.deeper`).
-/

import Mathlib.Tactic
import Lisplet.Proofs.Evaluator.Yields

namespace Lisplet

namespace Run

variable {α β : Type} {why : Stop}

/-- `act'` does what `act` does, unless it stops because of `why`. -/
def UpTo (why : Stop) (act act' : Run α) : Prop :=
  ∀ s : State, act' s = act s ∨ ∃ t, act' s = .error why t

namespace UpTo

theorem refl (act : Run α) : UpTo why act act := fun _ => Or.inl rfl

theorem trans {act act' act'' : Run α} (h : UpTo why act act') (h' : UpTo why act' act'') :
    UpTo why act act'' := by
  intro s
  rcases h' s with hact | hact
  · rw [hact]
    exact h s
  · exact Or.inr hact

theorem stop (act : Run α) : UpTo why act (Run.stop why) := fun s => Or.inr ⟨s, rfl⟩

theorem bind {act act' : Run α} {f f' : α → Run β} (h : UpTo why act act')
    (hf : ∀ a, UpTo why (f a) (f' a)) : UpTo why (act >>= f) (act' >>= f') := by
  intro s
  show EStateM.bind act' f' s = EStateM.bind act f s ∨ ∃ t, EStateM.bind act' f' s = _
  unfold EStateM.bind
  rcases h s with hact | ⟨t, hact⟩
  · rw [hact]
    cases act s with
    | ok a t => exact hf a t
    | error why t => exact Or.inl rfl
  · rw [hact]
    exact Or.inr ⟨t, rfl⟩

theorem locating (hwhy : ∀ e, why ≠ .raised e) (q : Provenance) {act act' : Run α}
    (h : UpTo why act act') : UpTo why (locating q act) (locating q act') := by
  intro s
  unfold Run.locating
  rcases h s with hact | ⟨t, hact⟩
  · rw [hact]
    exact Or.inl rfl
  · rw [hact]
    refine Or.inr ⟨t, ?_⟩
    cases why with
    | raised e => exact absurd rfl (hwhy e)
    | exhausted | withheld => rfl

theorem foldlM {f f' : α → β → Run α} (hf : ∀ a b, UpTo why (f a b) (f' a b)) (bs : List β) (a : α) :
    UpTo why (bs.foldlM f a) (bs.foldlM f' a) := by
  induction bs generalizing a with
  | nil => exact refl _
  | cons b bs ih =>
    rw [List.foldlM_cons, List.foldlM_cons]
    exact bind (hf a b) ih

end UpTo

end Run

open Run

/-- One evaluator does what the other does, unless it stops because of `why`, which is no error. -/
structure EvaluatesUpTo (why : Stop) (ev ev' : Evaluator) : Prop where
  outside : ∀ e, why ≠ .raised e
  form : ∀ env form, UpTo why (ev env form) (ev' env form)

/-- One host has the same files as the other, and permits the same, save what it gives as the reason to
stop. -/
structure Host.UpTo (why : Stop) (host host' : Host) : Prop where
  files : host'.files = host.files
  permits : ∀ p, host'.permits p = host.permits p ∨ host'.permits p = false ∧ why = .withheld p

theorem Host.UpTo.refl (why : Stop) (host : Host) : Host.UpTo why host host := ⟨rfl, fun _ => Or.inl rfl⟩

theorem Host.upTo_withhold (host : Host) (p : Primitive) :
    Host.UpTo (.withheld p) host (host.withhold p) := by
  refine ⟨rfl, fun q => ?_⟩
  by_cases hq : q = p
  · subst hq
    exact Or.inr ⟨by simp [Host.withhold], rfl⟩
  · exact Or.inl (by simp [Host.withhold, hq])

namespace EvaluatesUpTo

variable {why : Stop} {ev ev' : Evaluator} {host host' : Host}

/-! ## Several forms -/

theorem evalAll (h : EvaluatesUpTo why ev ev') (env : FrameId) (forms : List Value) :
    UpTo why (evalAll ev env forms) (evalAll ev' env forms) := by
  induction forms with
  | nil => exact .refl _
  | cons form forms ih => exact (h.form env form).bind fun v => ih.bind fun vs => .refl _

theorem evalSequence (h : EvaluatesUpTo why ev ev') (env : FrameId) (forms : List Value) :
    UpTo why (evalSequence ev env forms) (evalSequence ev' env forms) :=
  .foldlM (fun _ form => h.form env form) forms .nil

theorem yieldOf (h : EvaluatesUpTo why ev ev') (policy : WarnPolicy) (env : FrameId) (form : Value) :
    UpTo why (yieldOf ev policy env form) (yieldOf ev' policy env form) := by
  intro s
  unfold Lisplet.yieldOf
  rcases h.form env form s with hform | ⟨t, hform⟩
  · rw [hform]
    exact Or.inl rfl
  · rw [hform]
    refine Or.inr ⟨t, ?_⟩
    -- a top-level sequence goes on behind warnings only
    cases why with
    | raised e => exact absurd rfl (h.outside e)
    | exhausted | withheld => rfl

theorem yields (h : EvaluatesUpTo why ev ev') (policy : WarnPolicy) (env : FrameId) (forms : List Value) :
    UpTo why (yields ev policy env forms) (yields ev' policy env forms) := by
  induction forms with
  | nil => exact .refl _
  | cons form forms ih => exact (h.yieldOf policy env form).bind fun y => ih.bind fun ys => .refl _

theorem yieldsSource (h : EvaluatesUpTo why ev ev') (env : FrameId) (text file : String) :
    UpTo why (yieldsSource ev env text file) (yieldsSource ev' env text file) :=
  (UpTo.refl _).bind fun forms => (UpTo.refl _).bind fun policy => h.yields policy env forms

theorem runSource (h : EvaluatesUpTo why ev ev') (env : FrameId) (text file : String) :
    UpTo why (runSource ev env text file) (runSource ev' env text file) := by
  rw [runSource_eq_yieldsSource, runSource_eq_yieldsSource]
  exact (h.yieldsSource env text file).bind fun ys => .refl _

/-! ## Applications -/

theorem loadFile (h : EvaluatesUpTo why ev ev') (hhost : Host.UpTo why host host') (env : FrameId)
    (args : Value) : UpTo why (loadFile host ev env args) (loadFile host' ev' env args) := by
  refine (UpTo.refl _).bind fun a => (UpTo.refl _).bind fun path => (UpTo.refl _).bind fun _ => ?_
  rw [hhost.files]
  cases host.files path with
  | ok text => exact h.runSource env text path
  | error fault => exact .refl _

theorem call (h : EvaluatesUpTo why ev ev') (hhost : Host.UpTo why host host') (env : FrameId)
    (p : Primitive) (args : Value) : UpTo why (p.call host ev env args) (p.call host' ev' env args) := by
  cases p with
  | load => exact h.loadFile hhost env args
  | _ => exact .refl _

theorem applyClosure (h : EvaluatesUpTo why ev ev') (k : Closure) (args : List Value) :
    UpTo why (applyClosure ev k args) (applyClosure ev' k args) := by
  unfold Lisplet.applyClosure
  split
  · exact (UpTo.refl _).bind fun frame => h.evalSequence frame k.body
  · exact .refl _

theorem apply (h : EvaluatesUpTo why ev ev') (hhost : Host.UpTo why host host') (env : FrameId)
    (func : Value) (args : List Value) :
    UpTo why (apply host ev env func args) (apply host' ev' env func args) := by
  obtain ⟨datum, provenance⟩ := func
  cases datum with
  | native p =>
    unfold Lisplet.apply
    dsimp only
    rcases hhost.permits p with hsame | ⟨hwithheld, rfl⟩
    · rw [hsame]
      split
      · exact (UpTo.refl _).bind fun list => h.call hhost env p list
      · exact .refl _
    · -- the one place where the two hosts differ
      rw [if_neg (by simp [hwithheld] : ¬ host'.permits p = true)]
      exact .stop _
  | closure id => exact (UpTo.refl _).bind fun k => h.applyClosure k args
  | nil | pair | atom | hash => exact .refl _

/-! ## Special forms -/

theorem clauseTest (h : EvaluatesUpTo why ev ev') (env : FrameId) (test : Value) :
    UpTo why (clauseTest ev env test) (clauseTest ev' env test) := by
  unfold Lisplet.clauseTest
  split
  · exact .refl _
  · exact h.form env test

theorem evalCond (h : EvaluatesUpTo why ev ev') (env : FrameId) (clauses : List Value) :
    UpTo why (evalCond ev env clauses) (evalCond ev' env clauses) := by
  induction clauses with
  | nil => exact .refl _
  | cons clause clauses ih =>
    rw [Lisplet.evalCond, Lisplet.evalCond]
    refine (UpTo.refl _).bind fun parts => ?_
    cases parts with
    | nil => exact .refl _
    | cons test body =>
      refine (h.clauseTest env test).bind fun v => (UpTo.refl _).bind fun chosen => ?_
      split
      · split
        · exact .refl _
        · exact h.evalSequence env body
      · exact ih

theorem evalSpecial (h : EvaluatesUpTo why ev ev') (env : FrameId) (location : Location)
    (form : SpecialForm) (operands : List Value) :
    UpTo why (evalSpecial ev env location form operands) (evalSpecial ev' env location form operands) := by
  cases form with
  | quote | lambda => exact .refl _
  | conditional =>
    unfold Lisplet.evalSpecial
    dsimp only
    split
    · refine (h.form env _).bind fun v => (UpTo.refl _).bind fun chosen => ?_
      split
      · exact h.form env _
      · exact .refl _
    · refine (h.form env _).bind fun v => (UpTo.refl _).bind fun chosen => ?_
      split
      · exact h.form env _
      · exact h.form env _
    · exact .refl _
  | cond => exact h.evalCond env operands
  | define =>
    unfold Lisplet.evalSpecial
    dsimp only
    split
    · split
      · exact .refl _
      · exact (h.form env _).bind fun v => .refl _
    · exact .refl _
  | begin => exact h.evalSequence env operands

/-! ## Evaluation -/

theorem evalPair (h : EvaluatesUpTo why ev ev') (hhost : Host.UpTo why host host') (env : FrameId)
    (location : Location) (cell : Cell) :
    UpTo why (evalPair host ev env location cell) (evalPair host' ev' env location cell) := by
  unfold Lisplet.evalPair
  split
  · exact (UpTo.refl _).bind fun operands => h.evalSpecial env location _ operands
  · refine (h.form env _).bind fun func => (UpTo.refl _).bind fun operands => ?_
    exact (h.evalAll env operands).bind fun args => h.apply hhost env func args

theorem step (h : EvaluatesUpTo why ev ev') (hhost : Host.UpTo why host host') :
    EvaluatesUpTo why (step host ev) (step host' ev') := by
  refine ⟨h.outside, fun env form => .locating h.outside _ ?_⟩
  split
  · exact .refl _
  · exact (UpTo.refl _).bind fun cell => h.evalPair hhost env _ cell
  · exact .refl _

/-- Without `p`, an evaluation does what it does with `p`, or is stopped where it calls for `p`. -/
theorem eval (host : Host) (p : Primitive) (n : Nat) :
    EvaluatesUpTo (.withheld p) (eval host n) (eval (host.withhold p) n) := by
  induction n with
  | zero => exact ⟨by simp, fun env form => .refl _⟩
  | succ n ih => exact ih.step (host.upTo_withhold p)

theorem eval_succ (host : Host) (n : Nat) :
    EvaluatesUpTo .exhausted (Lisplet.eval host (n + 1)) (Lisplet.eval host n) := by
  induction n with
  | zero => exact ⟨by simp, fun env form => .stop _⟩
  | succ n ih => exact ih.step (.refl _ host)

/-- With less depth, an evaluation does what it does with more, or it is exhausted. -/
theorem deeper (host : Host) {n m : Nat} (h : n ≤ m) :
    EvaluatesUpTo .exhausted (Lisplet.eval host m) (Lisplet.eval host n) := by
  induction h with
  | refl => exact ⟨by simp, fun env form => .refl _⟩
  | @step m _ ih =>
    exact ⟨ih.outside, fun env form => ((eval_succ host m).form env form).trans (ih.form env form)⟩

end EvaluatesUpTo

/-! ## Sessions -/

namespace Session

/-- The run of a text calls the primitive `p`. -/
def Applies (session : Session) (host : Host) (depth : Nat) (p : Primitive) (text file : String) : Prop :=
  (session.runSource (host.withhold p) depth text file).1 = .error (.withheld p)

instance (session : Session) (host : Host) (depth : Nat) (p : Primitive) (text file : String) :
    Decidable (session.Applies host depth p text file) :=
  inferInstanceAs (Decidable (_ = _))

/-- A run that does not call a primitive can do without it. -/
theorem runSource_withhold {session : Session} {host : Host} {depth : Nat} {p : Primitive}
    {text file : String} (h : ¬ session.Applies host depth p text file) :
    session.runSource (host.withhold p) depth text file = session.runSource host depth text file := by
  obtain ⟨env, state⟩ := session
  unfold Applies at h
  simp only [runSource, run] at h ⊢
  rcases (EvaluatesUpTo.eval host p depth).runSource env text file state with hrun | ⟨t, hrun⟩
  · rw [hrun]
  · rw [hrun] at h
    exact absurd rfl h

/-- Its forms yield the same without the primitive. -/
theorem yields_withhold {session : Session} {host : Host} {depth : Nat} {p : Primitive}
    {text file : String} (h : ¬ session.Applies host depth p text file) :
    session.yields (host.withhold p) depth text file = session.yields host depth text file := by
  unfold Applies at h
  rw [runSource_eq_yields] at h
  unfold Session.yields at h ⊢
  rcases (EvaluatesUpTo.eval host p depth).yieldsSource session.env text file session.state
    with hrun | ⟨t, hrun⟩
  · rw [hrun]
  · rw [hrun] at h
    exact absurd rfl h

end Session

end Lisplet
