/-
# Lisplet.Proofs.Provenance -- provenance decides nothing

Where a value stood and what it was last called is carried along for diagnostics.  A run cannot depend
on it, unless it calls the one primitive that shows it: two sessions that differ in provenance and in
identities only, given texts that differ in layout, comments and file only, end in the same way and
are again such sessions.  Errors may be reported at different places, but they are the same errors.
What was logged before is of no account, since the log is never read.
-/

import Mathlib.Tactic
import Lisplet.Proofs.Evaluator.Simulates
import Lisplet.Proofs.Evaluator.Unread
import Lisplet.Proofs.Evaluator.Withholding

namespace Lisplet

/-- Did the run end with a value or an error?  Otherwise it was stopped from outside. -/
def Outcome.returned : Outcome → Bool
  | .ok _ | .error (.raised _) => true
  | .error .exhausted | .error (.withheld _) => false

namespace Renaming

/-- Sessions that are alike: their global frames correspond and their stores are alike. -/
structure Sessions (R : Renaming) (a b : Session) : Prop where
  env : R.Frames a.env b.env
  stores : R.Stores a.state.store b.state.store

/-- Getting from `a` to `a'` and from `b` to `b'`, the same has been logged but for locations. -/
def LogAlike (a a' b b' : Session) : Prop :=
  ∃ entries entries' : Array LogEntry, a'.state.log = a.state.log ++ entries ∧
    b'.state.log = b.state.log ++ entries' ∧ entries.map LogEntry.unplaced = entries'.map LogEntry.unplaced

/-- Runs that ended in the same way: with alike values, with one error wherever it is reported, or
stopped for one reason. -/
inductive Outcomes (R : Renaming) : Outcome → Outcome → Prop
  | value {v w : Value} (h : R.Values v w) : Outcomes R (.ok v) (.ok w)
  | raised {e e' : Error} (kind : e.kind = e'.kind) (message : e.message = e'.message) :
      Outcomes R (.error (.raised e)) (.error (.raised e'))
  | exhausted : Outcomes R (.error .exhausted) (.error .exhausted)
  | withheld (p : Primitive) : Outcomes R (.error (.withheld p)) (.error (.withheld p))

theorem outcomes_error {R : Renaming} {why why' : Stop} (h : why.Alike why') :
    R.Outcomes (.error why) (.error why') := by
  cases h with
  | raised hcause => exact .raised (congrArg Cause.kind hcause) (congrArg Cause.message hcause)
  | exhausted => exact .exhausted
  | withheld p => exact .withheld p

theorem Outcomes.withheld_left {R : Renaming} {x y : Outcome} (h : R.Outcomes x y) {p : Primitive}
    (hy : y = .error (.withheld p)) : x = .error (.withheld p) := by
  cases h with
  | value | raised | exhausted => cases hy
  | withheld q => exact hy

theorem Outcomes.returned_eq {R : Renaming} {x y : Outcome} (h : R.Outcomes x y) :
    x.returned = y.returned := by
  cases h with
  | value | raised | exhausted | withheld => rfl

/-- What simulates and does not look at the log is a run of alike sessions. -/
theorem Simulates.run {R : Renaming} {a b : Session} (hab : R.Sessions a b) (act act' : FrameId → Run Value)
    (h : R.Simulates Values (act a.env) (act' b.env)) (hact : Appends (act a.env))
    (hact' : Appends (act' b.env)) :
    ∃ R' : Renaming, R ≤ R' ∧ R'.Outcomes (a.run act).1 (b.run act').1 ∧
      R'.Sessions (a.run act).2 (b.run act').2 ∧ LogAlike a (a.run act).2 b (b.run act').2 := by
  obtain ⟨env, store, log⟩ := a
  obtain ⟨env', store', log'⟩ := b
  -- the runs are compared with nothing in their logs, and then put behind what was there
  obtain ⟨R', hR', hresult⟩ := h ⟨store, #[]⟩ ⟨store', #[]⟩ ⟨hab.stores, rfl⟩
  refine ⟨R', hR', ?_⟩
  unfold Session.run
  dsimp only at hresult hact hact' ⊢
  rw [hact store log, hact' store' log']
  generalize act env ⟨store, #[]⟩ = outcome at hresult ⊢
  generalize act' env' ⟨store', #[]⟩ = outcome' at hresult ⊢
  cases hresult with
  | @ok _ _ s s' hstate hvalue =>
    exact ⟨.value hvalue, ⟨hab.env.mono hR', hstate.stores⟩, s.log, s'.log, rfl, rfl, hstate.logs⟩
  | @error _ _ s s' hstate hwhy =>
    exact ⟨outcomes_error hwhy, ⟨hab.env.mono hR', hstate.stores⟩, s.log, s'.log, rfl, rfl, hstate.logs⟩

end Renaming

/-! ## Fresh sessions -/

namespace Renaming

variable {R : Renaming} {s t : Store} {f g : FrameId}

theorem made_newGlobal (h : R.Stores s t) : R.Made Frames s.newGlobal t.newGlobal := by
  have hparent : ∀ p : FrameId, (none : Option FrameId) ≠ some p := by simp
  refine ⟨_, R.le_add _ _, h.add (s.adds_newFrame {}) (t.adds_newFrame {})
    (.frame maps_empty .none rfl) ⟨?_, ?_⟩, R.add_self _ _⟩
  · exact ordered_newFrame h.ordered.1 fun p hp => absurd hp (hparent p)
  · exact ordered_newFrame h.ordered.2 fun p hp => absurd hp (hparent p)

theorem Stores.definePrimitives (h : R.Stores s t) (hfg : R.Frames f g) :
    R.Stores (s.definePrimitives f) (t.definePrimitives g) := by
  have hfold : ∀ (bindings : List (String × Primitive)) (s t : Store), R.Stores s t →
      R.Stores (bindings.foldl (fun s b => s.definePrimitive f b.1 b.2) s)
        (bindings.foldl (fun t b => t.definePrimitive g b.1 b.2) t) := by
    intro bindings
    induction bindings with
    | nil => exact fun s t h => h
    | cons b bindings ih =>
      intro s t h
      exact ih _ _ (h.define hfg b.1 (.native b.2))
  exact hfold Primitive.bindings s t h

/-- Nothing corresponds in empty stores. -/
theorem stores_empty : Stores (fun _ _ => False) {} {} where
  unique := ⟨fun _ _ _ h => h.elim, fun _ _ _ h => h.elim⟩
  holds h := h.elim
  contents h := h.elim
  ordered := by
    have hparent : ∀ f : FrameId, (Store.frame {} f).parent = none := fun f => by
      rw [Store.frame_of_size_le (Nat.zero_le _)]
    constructor <;> intro f p hp <;> rw [hparent f] at hp <;> cases hp

/-- Fresh sessions with one policy are alike. -/
theorem sessions_new (policy : WarnPolicy) :
    ∃ R : Renaming, R.Sessions (Session.new policy) (Session.new policy) := by
  obtain ⟨R, -, hstores, henv⟩ := made_newGlobal stores_empty
  exact ⟨R, henv, (hstores.setPolicy henv policy).definePrimitives henv⟩

end Renaming

/-! ## Runs -/

open Renaming

/-- A run that inspects nothing is decided by the data of the session and the tokens of the text. -/
theorem runSource_ignores_provenance {R : Renaming} {a b : Session} (hab : R.Sessions a b)
    (host : Host) (depth : Nat) {text text' : String} (htext : tokenKinds text = tokenKinds text')
    (file file' : String) (hinspect : ¬ a.Applies host depth .inspect text file) :
    (a.runSource host depth text file).1.returned = (b.runSource host depth text' file').1.returned ∧
      ∃ R' : Renaming, R ≤ R' ∧
        R'.Outcomes (a.runSource host depth text file).1 (b.runSource host depth text' file').1 ∧
        R'.Sessions (a.runSource host depth text file).2 (b.runSource host depth text' file').2 ∧
        LogAlike a (a.runSource host depth text file).2 b (b.runSource host depth text' file').2 := by
  have hpermits : (host.withhold .inspect).permits .inspect = false := by simp [Host.withhold]
  have hblind := Blind.eval hpermits depth
  have hunread := Appends.eval (host.withhold .inspect) depth
  -- the runs without `inspect` go hand in hand, so the second calls for it only if the first does
  obtain ⟨R', hR', houtcomes, hsessions⟩ :=
    Simulates.run hab (fun env => runSource (eval (host.withhold .inspect) depth) env text file)
      (fun env => runSource (eval (host.withhold .inspect) depth) env text' file')
      (hblind.runSource hab.env htext file file') (.runSource hunread text file)
      (.runSource hunread text' file')
  have hinspect' : ¬ b.Applies host depth .inspect text' file' :=
    fun happlies => hinspect (houtcomes.withheld_left happlies)
  have ha := Session.runSource_withhold hinspect
  have hb := Session.runSource_withhold hinspect'
  change R'.Outcomes (a.runSource (host.withhold .inspect) depth text file).1
    (b.runSource (host.withhold .inspect) depth text' file').1 at houtcomes
  change R'.Sessions (a.runSource (host.withhold .inspect) depth text file).2
    (b.runSource (host.withhold .inspect) depth text' file').2 ∧
    LogAlike a (a.runSource (host.withhold .inspect) depth text file).2 b
      (b.runSource (host.withhold .inspect) depth text' file').2 at hsessions
  rw [ha, hb] at houtcomes hsessions
  exact ⟨houtcomes.returned_eq, R', hR', houtcomes, hsessions⟩

/-- A host without files. -/
def bareHost : Host := .ofFiles fun _ => .error .notFound

/-- A fresh session that has read a definition. -/
def definedInLine : Session :=
  ((Session.new .abort).runSource bareHost 9 "(define f (lambda (x) (+ x 1)))" "a").2

/-- A fresh session that has read the same definition in another layout. -/
def definedApart : Session :=
  ((Session.new .abort).runSource bareHost 9 "( define f ; adds one\n  (lambda (x)\n    (+ x 1)) )" "b").2

theorem runSource_ignores_provenance_layout :
    ∃ R R' : Renaming, R.Sessions definedInLine definedApart ∧
      tokenKinds "(f 2)" = tokenKinds "(f\n2)" ∧
      ¬ definedInLine.Applies bareHost 9 .inspect "(f 2)" "a" ∧ R ≤ R' ∧
      R'.Outcomes (definedInLine.runSource bareHost 9 "(f 2)" "a").1
        (definedApart.runSource bareHost 9 "(f\n2)" "b").1 ∧
      R'.Sessions (definedInLine.runSource bareHost 9 "(f 2)" "a").2
        (definedApart.runSource bareHost 9 "(f\n2)" "b").2 := by
  -- the two sessions are alike because the definitions were read by alike sessions
  obtain ⟨R, hnew⟩ := sessions_new .abort
  have hlayout : tokenKinds "(define f (lambda (x) (+ x 1)))" =
      tokenKinds "( define f ; adds one\n  (lambda (x)\n    (+ x 1)) )" := by decide +kernel
  obtain ⟨-, R₁, -, -, hdefined, -⟩ :=
    runSource_ignores_provenance hnew bareHost 9 hlayout "a" "b" (by decide +kernel)
  have hkinds : tokenKinds "(f 2)" = tokenKinds "(f\n2)" := by decide +kernel
  have hinspect : ¬ definedInLine.Applies bareHost 9 .inspect "(f 2)" "a" := by decide +kernel
  obtain ⟨-, R₂, hR₂, houtcomes, hsessions, -⟩ :=
    runSource_ignores_provenance hdefined bareHost 9 hkinds "a" "b" hinspect
  exact ⟨R₁, R₂, hdefined, hkinds, hinspect, hR₂, houtcomes, hsessions⟩

end Lisplet
