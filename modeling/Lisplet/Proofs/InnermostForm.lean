/-
# Lisplet.Proofs.InnermostForm -- where an error is reported

An error is reported at the innermost form under evaluation that has a location, unless it was raised
with one.  `eval_reports_innermost_form` says so by comparison with the evaluator that carries this
place down to where errors arise.

On its way back an error crosses the computations that were under way when it was raised.  `Enters`
says which these are: it follows a run to where another computation is begun, through sequences, through
the forms that attach locations and through the forms of a text.  None of them touches the kind or the
message of an error, or a location that it has (`Enters.reports`).
-/

import Mathlib.Tactic
import Lisplet.Proofs.Evaluator.Stamping

namespace Lisplet

open Run

/-- Kind and message stay, and so does a location once there is one. -/
structure Error.Reports (e e' : Error) : Prop where
  kind : e'.kind = e.kind
  message : e'.message = e.message
  location : ∀ l, e.location = some l → e'.location = some l

namespace Error.Reports

theorem refl (e : Error) : e.Reports e := ⟨rfl, rfl, fun _ h => h⟩

theorem locate {e e' : Error} (h : e.Reports e') (p : Provenance) : e.Reports (e'.locate p) where
  kind := by rw [Error.kind, Error.cause_locate]; exact h.kind
  message := by rw [Error.message, Error.cause_locate]; exact h.message
  location l hl := by
    have hl' := h.location l hl
    rw [Error.locate_of_isSome (by rw [hl']; rfl)]
    exact hl'

end Error.Reports

/-- The computation that is begun in `s` comes to `sub`, which is begun in `t`. -/
inductive Enters {β : Type} (sub : Run β) (t : State) : {α : Type} → Run α → State → Prop
  | here : Enters sub t sub t
  | first {α γ : Type} {act : Run α} {s : State} (h : Enters sub t act s) (f : α → Run γ) :
      Enters sub t (act >>= f) s
  | next {α γ : Type} {act : Run α} {f : α → Run γ} {s s' : State} {a : α} (hact : act s = .ok a s')
      (h : Enters sub t (f a) s') : Enters sub t (act >>= f) s
  | locating {α : Type} {act : Run α} {s : State} (h : Enters sub t act s) (p : Provenance) :
      Enters sub t (locating p act) s
  | top {ev : Evaluator} {env : FrameId} {form : Value} {s : State} (h : Enters sub t (ev env form) s)
      (policy : WarnPolicy) (result : Value) : Enters sub t (evalTop ev policy env result form) s

/-- On the way, the forms of a text were continued behind the warning `e`, which was logged. -/
def Skips {α : Type} (act : Run α) (s : State) (e : Error) (s' : State) : Prop :=
  e.kind = .warn ∧ ∃ (ev : Evaluator) (env : FrameId) (result form : Value) (t : State),
    Enters (evalTop ev .keepGoing env result form) t act s ∧
      evalTop ev .keepGoing env result form t = .ok result ⟨s'.store, s'.log.push (.skipped e)⟩

namespace Skips

variable {α γ : Type} {act : Run α} {s s' : State} {e : Error}

/-- What is skipped inside a computation is skipped inside those that come to it. -/
theorem mono {act' : Run γ} {t : State} (h : Skips act s e s')
    (henters : ∀ {β : Type} {sub : Run β} {u : State}, Enters sub u act s → Enters sub u act' t) :
    Skips act' t e s' := by
  obtain ⟨hwarn, ev, env, result, form, u, hsub, hskip⟩ := h
  exact ⟨hwarn, ev, env, result, form, u, henters hsub, hskip⟩

end Skips

/-- An error that is raised in a computation leaves those that have come to it with its kind, its
message and the location that it has, unless it is a warning that a text skips. -/
theorem Enters.reports {α β : Type} {sub : Run β} {t : State} {act : Run α} {s : State}
    (h : Enters sub t act s) {e : Error} {s' : State} (hsub : sub t = .error (.raised e) s') :
    ∃ e', e.Reports e' ∧ (act s = .error (.raised e') s' ∨ Skips act s e' s') := by
  induction h with
  | here => exact ⟨e, .refl e, .inl hsub⟩
  | first _ f ih =>
    obtain ⟨e', hreports, hact | hskips⟩ := ih
    · exact ⟨e', hreports, .inl (bind_of_error hact)⟩
    · exact ⟨e', hreports, .inr (hskips.mono fun h => .first h f)⟩
  | next hact _ ih =>
    obtain ⟨e', hreports, hnext | hskips⟩ := ih
    · exact ⟨e', hreports, .inl ((bind_of_ok hact).trans hnext)⟩
    · exact ⟨e', hreports, .inr (hskips.mono fun h => .next hact h)⟩
  | locating _ p ih =>
    obtain ⟨e', hreports, hact | hskips⟩ := ih
    · refine ⟨e'.locate p, hreports.locate p, .inl ?_⟩
      unfold Run.locating
      rw [hact]
    · exact ⟨e', hreports, .inr (hskips.mono fun h => .locating h p)⟩
  | @top ev env form s _ policy result ih =>
    obtain ⟨e', hreports, hform | hskips⟩ := ih
    · refine ⟨e', hreports, ?_⟩
      by_cases hskip : (!e'.isFatal && policy == .keepGoing) = true
      · obtain ⟨hwarn, rfl⟩ : e'.kind = .warn ∧ policy = .keepGoing := by
          simpa [Error.isFatal] using hskip
        refine .inr ⟨hwarn, ev, env, result, form, s, .here, ?_⟩
        simp only [evalTop, hform, hskip, if_true]
        rfl
      · refine .inl ?_
        simp only [evalTop, hform, hskip, Bool.false_eq_true, if_false]
    · exact ⟨e', hreports, .inr (hskips.mono fun h => .top h policy result)⟩

/-! ## The main statement -/

/-- How a computation ended, and the store that it left. -/
def endOf {α : Type} : EStateM.Result Stop State α → Except Stop α × Store
  | .ok a s => (.ok a, s.store)
  | .error why s => (.error why, s.store)

/-- The log that a computation left. -/
def logOf {α : Type} : EStateM.Result Stop State α → Array LogEntry
  | .ok _ s | .error _ s => s.log

namespace Stamped.EndsStamped

variable {α : Type} {overlong : Prop} {r r' : EStateM.Result Stop State α}

theorem endOf_eq (h : EndsStamped overlong none r r') : endOf r' = endOf r := by
  cases h with
  | ok => rfl
  | error why => rw [endOf, endOf, Stop.stamp_none]

theorem logs (h : EndsStamped overlong none r r') : LogsAlike overlong (logOf r) (logOf r') := by
  cases h with
  | ok h => exact h
  | error why h => exact h

theorem eq_of_not (h : EndsStamped overlong none r r') (hnot : ¬ overlong) : r' = r := by
  cases h with
  | ok h => rw [h.eq hnot]
  | error why h => rw [h.eq hnot, Stop.stamp_none]

end Stamped.EndsStamped

/-- Evaluation ends as it does for the evaluator that carries the place of the innermost located form
down to where errors are raised: with the same value, or the same error at the same place, and in the
same store.  The logs are the same too, unless a file has more rows than can be counted: there a warning
may be skipped that has no location yet.  And an error that arises anywhere on the way keeps its kind,
its message and its location through all that it crosses. -/
theorem eval_reports_innermost_form (host : Host) (n : Nat) (env : FrameId) (form : Value) :
    (∀ s, endOf (eval host n env form s) = endOf (Stamped.eval host n env form none s) ∧
      LogsAlike host.Overlong (logOf (Stamped.eval host n env form none s))
        (logOf (eval host n env form s))) ∧
    ((∀ path text, host.files path = .ok text → Text.RowsFit text.toList) →
      ∀ s, eval host n env form s = Stamped.eval host n env form none s) ∧
    ∀ {β : Type} {sub : Run β} {s t s' : State} {e : Error},
      Enters sub t (eval host n env form) s → sub t = .error (.raised e) s' →
      ∃ e', e.Reports e' ∧
        (eval host n env form s = .error (.raised e') s' ∨ Skips (eval host n env form) s e' s') := by
  have hends : ∀ s, Stamped.EndsStamped host.Overlong none (Stamped.eval host n env form none s)
      (eval host n env form s) := fun s =>
    (Stamped.Agrees.eval host n).stamps env form none s.store s.log s.log (.refl s.log)
  refine ⟨fun s => ⟨(hends s).endOf_eq, (hends s).logs⟩, fun hfit s => (hends s).eq_of_not ?_,
    fun henters hsub => henters.reports hsub⟩
  rintro ⟨path, text, hfile, hover⟩
  exact hover (hfit path text hfile)

/-- The form `(begin x)` in a store where nothing is bound. -/
def beginState : State where
  store :=
    { cells := #[⟨.symbol "begin", some ⟨.pair ⟨1⟩, .unknown⟩⟩, ⟨.symbol "x", none⟩]
      frames := #[{}] }

/-- Of the form, only the whole has a location. -/
def beginForm : Value := ⟨.pair ⟨0⟩, .ofLocation ⟨"a", 1, 1⟩⟩

/-- What is raised without a location inside of the form. -/
def beginError : Error := .ofCause (.unbound "x")

/-- A host with a file of one row. -/
def oneRow : Host := .ofFiles fun path => if path = "lib" then .ok "(car 5)" else .error .notFound

theorem eval_reports_innermost_form_begin :
    (∀ path text, oneRow.files path = .ok text → Text.RowsFit text.toList) ∧
    eval oneRow 2 ⟨0⟩ beginForm beginState = Stamped.eval oneRow 2 ⟨0⟩ beginForm none beginState ∧
    Enters (eval oneRow 1 ⟨0⟩ (.symbol "x")) beginState (eval oneRow 2 ⟨0⟩ beginForm) beginState ∧
    eval oneRow 1 ⟨0⟩ (.symbol "x") beginState = .error (.raised beginError) beginState ∧
    ∃ e', beginError.Reports e' ∧
      (eval oneRow 2 ⟨0⟩ beginForm beginState = .error (.raised e') beginState ∨
        Skips (eval oneRow 2 ⟨0⟩ beginForm) beginState e' beginState) := by
  have hfit : ∀ path text, oneRow.files path = .ok text → Text.RowsFit text.toList := by
    intro path text hfile
    replace hfile : (if path = "lib" then .ok "(car 5)" else .error .notFound :
      Except FileFault String) = .ok text := hfile
    split at hfile
    · cases hfile
      decide
    · cases hfile
  have henters : Enters (eval oneRow 1 ⟨0⟩ (.symbol "x")) beginState (eval oneRow 2 ⟨0⟩ beginForm)
      beginState := by
    have hform : Enters (eval oneRow 1 ⟨0⟩ (.symbol "x")) beginState
        (evalPair oneRow (eval oneRow 1) ⟨0⟩ ⟨"a", 1, 1⟩ (beginState.store.cell ⟨0⟩)) beginState := by
      show Enters _ _ (operandsOf (some ⟨.pair ⟨1⟩, .unknown⟩) >>= fun operands =>
        evalSpecial (eval oneRow 1) ⟨0⟩ _ .begin operands) _
      refine .next (a := [.symbol "x"]) rfl ?_
      exact .first .here _
    have hread : read (·.cell ⟨0⟩) beginState = .ok (beginState.store.cell ⟨0⟩) beginState := rfl
    exact .locating (.next hread hform) beginForm.provenance
  have hfails : eval oneRow 1 ⟨0⟩ (.symbol "x") beginState = .error (.raised beginError) beginState := rfl
  obtain ⟨-, hsame, hreports⟩ := eval_reports_innermost_form oneRow 2 ⟨0⟩ beginForm
  exact ⟨hfit, hsame hfit beginState, henters, hfails, hreports henters hfails⟩

end Lisplet
