/-
# Lisplet.Proofs.Defenses -- defenses are idle, and internal errors have reasons

The guarded evaluator and the reader by descent have a case for everything that should never be missing.
That these cases are never taken is one half of the main statement here: not by any text, in any state, or
by any primitive, whatever it is called with.

The other half is about errors of the internal kind, which a defect would also be.  There are two reasons
for one in the middle of a run, and the record of the run shows which: the last thing that happened is a
call of `assert` with a false argument, or a call of `load` for a file that cannot be read.  To run a
file that cannot be read is the third (`defenses_are_idle`).
-/

import Mathlib.Tactic
import Lisplet.Proofs.Evaluator.Guarded
import Lisplet.Proofs.Locations

namespace Lisplet

/-! ## Reasons for internal errors -/

/-- The last thing that happened is a call that is refused, for this cause. -/
inductive History.Refuses (host : Host) (w : History) : Cause → Prop
  | assertion {args v : Value} (called : w.Called .assert args)
      (single : w.state.store.listElements args = .ok [v]) (refuted : v.bool? = some false) :
      Refuses host w .assertionFailed
  | loading {args v : Value} {path : String} {fault : FileFault} (called : w.Called .load args)
      (single : w.state.store.listElements args = .ok [v]) (named : v.string? = some path)
      (unreadable : host.files path = .error fault) :
      Refuses host w (.loadFailed path fault)

/-- Nothing is asked of values, and of an internal error that it has a reason. -/
def reasoned (host : Host) : Standard host where
  Inv _ := True
  Le _ _ := True
  Meets _ _ := True
  Blame w e := e.kind = .internal → w.Refuses host e.cause
  refl _ := trivial
  trans _ _ := trivial
  mono _ _ _ := trivial
  leaf _ _ := trivial
  bound _ _ := trivial
  located _ _ := trivial
  placed _ _ _ := trivial
  content {w} _ i _ := by
    cases hx : w.state.store.content i with
    | cell => exact ⟨trivial, fun _ _ => trivial⟩
    | table | closure | frame => exact fun _ _ => by simp
  adds _ _ _ _ := ⟨trivial, trivial, fun _ _ _ => trivial, fun _ _ => trivial⟩
  sets _ _ _ _ _ := ⟨trivial, trivial⟩
  add _ _ := ⟨trivial, trivial⟩
  note _ _ := ⟨trivial, trivial⟩
  free _ _ hkind hinternal := absurd hinternal hkind
  asserted _ hcalled hone hfalse _ := .assertion hcalled hone hfalse
  unreadable _ hcalled hone hpath hfile _ := .loading hcalled hone hpath hfile
  locate {w e v} he _ := by
    unfold Error.kind at he ⊢
    rwa [Error.cause_locate]
  malformed _ _ _ hinternal := by cases hinternal

/-- An internal error of a primitive, called in any state, has a reason. -/
theorem refuses_of_call {host : Host} {n : Nat} {env : FrameId} {p : Primitive} {args : Value}
    {s s' : State} {e : Error} (h : p.call host (eval host n) env args s = .error (.raised e) s')
    (hinternal : e.kind = .internal) :
    ∃ w, Recorded.call host (Recorded.eval host n) env p args ⟨s, []⟩ = .error (.raised e) w ∧
      w.state = s' ∧ w.Refuses host e.cause := by
  have herases := (Recorded.Records.eval host n).call host env p args ⟨s, []⟩
  have hgives : (reasoned host).Gives ⟨s, []⟩ (Recorded.call host (Recorded.eval host n) env p args) :=
    Standard.call ((reasoned host).eval n) trivial trivial p trivial
  unfold Standard.Gives Standard.Safe at hgives
  cases hcall : Recorded.call host (Recorded.eval host n) env p args ⟨s, []⟩ with
  | ok v w =>
    rw [hcall] at herases
    cases h.symm.trans herases
  | error why w =>
    rw [hcall] at herases hgives
    cases h.symm.trans herases
    exact ⟨w, rfl, rfl, hgives.2.2 e rfl hinternal⟩

/-- The session was asked to run a file that cannot be read, and says so. -/
def Call.Unreadable (call : Call) (cause : Cause) : Prop :=
  ∃ path fault, call.request = .file path ∧ call.host.files path = .error fault ∧
    cause = .runFailed path fault

theorem Call.unreadable_of_run {session : Session} {call : Call} {path : String} {fault : FileFault}
    {e : Error} (hrequest : call.request = .file path) (hfault : call.host.files path = .error fault)
    (h : (session.run call.plain).1 = .error (.raised e)) : call.Unreadable e.cause := by
  have hplain : call.plain session.env = Run.fail (.runFailed path fault) := by
    unfold Call.plain
    simp only [hrequest, hfault]
  have herror := Session.run_error h
  rw [hplain] at herror
  injection herror with hraised
  obtain rfl := Stop.raised.inj hraised
  exact ⟨path, fault, hrequest, hfault, rfl⟩

/-- So has one that ends a call of a session. -/
theorem refuses_of_run {policy : WarnPolicy} {calls : List Call} {call : Call} {e : Error}
    (h : ((Session.ofCalls policy calls).run call.plain).1 = .error (.raised e))
    (hinternal : e.kind = .internal) :
    call.Unreadable e.cause ∨
    ∃ w, call.recorded (Session.new policy).env (History.ofCalls policy calls) = .error (.raised e) w ∧
      w.Refuses call.host e.cause := by
  by_cases hfile : ∃ path fault, call.request = .file path ∧ call.host.files path = .error fault
  · obtain ⟨path, fault, hrequest, hfault⟩ := hfile
    exact .inl (Call.unreadable_of_run hrequest hfault h)
  · refine .inr ?_
    have hrun := Session.run_recorded policy calls call
    have hgives : (reasoned call.host).Gives (History.ofCalls policy calls)
        (call.recorded (Session.new policy).env) :=
      Standard.recorded (reasoned call.host) trivial trivial (fun _ _ _ => trivial)
        fun path fault hrequest hfault => absurd ⟨path, fault, hrequest, hfault⟩ hfile
    unfold Standard.Gives Standard.Safe at hgives
    cases hcall : call.recorded (Session.new policy).env (History.ofCalls policy calls) with
    | ok v w =>
      rw [hcall] at hrun
      cases h.symm.trans hrun
    | error why w =>
      rw [hcall] at hrun hgives
      cases h.symm.trans hrun
      exact ⟨w, rfl, hgives.2.2 e rfl hinternal⟩

/-- A text that cannot be read is malformed. -/
theorem kind_of_readSource {text file : String} {s s' : State} {why : Stop}
    (h : readSource text file s = .error why s') : ∃ e, why = .raised e ∧ e.kind = .parse := by
  have hread := readSource_eq text file s
  rw [hread] at h
  split at h
  · cases h
  · cases h
    exact ⟨_, rfl, rfl⟩

/-! ## The main statement -/

/-- Defenses are idle, and internal errors have reasons.  The descent over any tokens gives the forms and
the error of the reader, and a text that cannot be read is a parse error.  A special form with any
operands, a primitive called with any argument in any state, and a call of a session do the same with
every look guarded, so no look fails.  An internal error of a primitive or of a session has a reason: a
false assertion, a file that cannot be loaded or one that cannot be run. -/
theorem defenses_are_idle :
    (∀ tokens, Descent.forms tokens =
      ((Reading.ofTokens tokens).forms, (Reading.ofTokens tokens).error.map .malformed)) ∧
    (∀ text file s why s', readSource text file s = .error why s' →
      ∃ e, why = .raised e ∧ e.kind = .parse) ∧
    (∀ ev env location form operands,
      Guarded.evalSpecial (Guarded.certain ev) env location form operands =
        Guarded.sure (evalSpecial ev env location form operands)) ∧
    (∀ host n env p args,
      Guarded.call host (Guarded.eval host n) env p args =
        Guarded.sure (p.call host (eval host n) env args) ∧
      ∀ s e s', p.call host (eval host n) env args s = .error (.raised e) s' → e.kind = .internal →
        ∃ w, Recorded.call host (Recorded.eval host n) env p args ⟨s, []⟩ = .error (.raised e) w ∧
          w.state = s' ∧ w.Refuses host e.cause) ∧
    ∀ policy calls (call : Call),
      call.guarded (Session.ofCalls policy calls).env =
        Guarded.sure (call.plain (Session.ofCalls policy calls).env) ∧
      ∀ e, ((Session.ofCalls policy calls).run call.plain).1 = .error (.raised e) → e.kind = .internal →
        call.Unreadable e.cause ∨
        ∃ w, call.recorded (Session.new policy).env (History.ofCalls policy calls) =
            .error (.raised e) w ∧ w.Refuses call.host e.cause := by
  refine ⟨Descent.forms_eq, fun _ _ _ _ _ => kind_of_readSource, Guarded.evalSpecial_eq, ?_, ?_⟩
  · intro host n env p args
    refine ⟨?_, fun s e s' => refuses_of_call⟩
    rw [Guarded.eval_eq]
    exact Guarded.call_eq host (eval host n) env p args
  · intro policy calls call
    exact ⟨call.guarded_eq _, fun e => refuses_of_run⟩

/-- A host without files. -/
def fileless : Host := .ofFiles fun _ => .error .notFound

/-- A function that insists on its argument, given something false. -/
def insisting : Call :=
  ⟨fileless, 9, .source "(define must (lambda (x) (assert x)))\n(must (not #t))" "a"⟩

/-- The argument list of a call for a file that is not there. -/
def asksForFile : Value × Store := Store.ofList [.ofAtom (.string "lib")] {}

theorem defenses_are_idle_refused :
    (∃ e, ((Session.ofCalls .abort []).run insisting.plain).1 = .error (.raised e) ∧
      ∃ w, insisting.recorded (Session.new .abort).env (History.ofCalls .abort []) =
        .error (.raised e) w ∧ w.Refuses fileless .assertionFailed) ∧
    (∃ w, Recorded.call fileless (Recorded.eval fileless 0) ⟨0⟩ .load asksForFile.1
        ⟨{ store := asksForFile.2 }, []⟩ =
      .error (.raised (.ofCause (.loadFailed "lib" .notFound))) w ∧
        w.Refuses fileless (.loadFailed "lib" .notFound)) ∧
    ∃ e s, readSource "(car" "a" {} = .error (.raised e) s ∧ e.kind = .parse := by
  obtain ⟨-, hread, -, hcall, hrun⟩ := defenses_are_idle
  refine ⟨?_, ?_, ?_⟩
  · have hfails : ((Session.ofCalls .abort []).run insisting.plain).1 =
        .error (.raised ⟨.assertionFailed, some ⟨"a", 1, 26⟩⟩) := by decide +kernel
    refine ⟨_, hfails, ?_⟩
    rcases (hrun .abort [] insisting).2 _ hfails rfl with ⟨path, fault, hrequest, -⟩ | hrefuses
    · cases hrequest
    · exact hrefuses
  · obtain ⟨w, hw, -, hrefuses⟩ := (hcall fileless 0 ⟨0⟩ .load asksForFile.1).2
      { store := asksForFile.2 } (.ofCause (.loadFailed "lib" .notFound)) _ rfl rfl
    exact ⟨w, hw, hrefuses⟩
  · have hunclosed : ∃ s, readSource "(car" "a" {} =
      .error (.raised (.ofReadError ⟨.unclosedList, .start⟩ "a")) s := ⟨_, by rfl⟩
    obtain ⟨s, hs⟩ := hunclosed
    obtain ⟨e, he, hkind⟩ := hread _ _ _ _ _ hs
    exact ⟨e, s, he ▸ hs, hkind⟩

end Lisplet
