/-
# Lisplet.Proofs.WarnPolicy -- the policy matters only once there is a warning

A session is run twice from the same state, once with the policy to stop at a warning and once with the
policy to keep going.  If the first run ends in a value or in an error that is no warning, then so does
the second, in the same one and with the same effects: along the first run there was no warning that the
second could have gone on behind.
-/

import Mathlib.Tactic
import Lisplet.Proofs.Evaluator.Twins
import Lisplet.Proofs.KeepGoing

namespace Lisplet

namespace Session

/-- The session with another policy. -/
def withPolicy (policy : WarnPolicy) (session : Session) : Session :=
  ⟨session.env, ⟨session.state.store.setPolicy session.env policy, session.state.log⟩⟩

variable {session : Session} {policy : WarnPolicy}

theorem withPolicy_eq (h : session.state.store.Rooted session.env policy) (policy' : WarnPolicy) :
    session.withPolicy policy' = ⟨session.env, session.state.withPolicy session.env policy'⟩ := by
  rw [withPolicy, h.setPolicy_eq]
  rfl

theorem rooted_withPolicy (h : session.state.store.Rooted session.env policy) (policy' : WarnPolicy) :
    (session.withPolicy policy').state.store.Rooted (session.withPolicy policy').env policy' := by
  rw [withPolicy_eq h]
  exact h.withPolicy

theorem withPolicy_withPolicy (h : session.state.store.Rooted session.env policy)
    (policy' policy'' : WarnPolicy) :
    (session.withPolicy policy').withPolicy policy'' = session.withPolicy policy'' := by
  rw [withPolicy_eq (rooted_withPolicy h policy'), withPolicy_eq h, withPolicy_eq h]
  simp only [State.withPolicy, Store.withPolicy_withPolicy]

/-- From a session that stops at warnings and from its twin that keeps going. -/
theorem runSource_twin (h : session.state.store.Rooted session.env .abort) {host : Host} {depth : Nat}
    {text file : String}
    (hwarn : ∀ e, (session.runSource host depth text file).1 = .error (.raised e) → e.kind ≠ .warn) :
    (session.withPolicy .keepGoing).runSource host depth text file =
      ((session.runSource host depth text file).1,
        (session.runSource host depth text file).2.withPolicy .keepGoing) ∧
    Calm session.env session.state (session.runSource host depth text file).2.state := by
  -- the global frame is still the same when the run is over
  have hend : (session.runSource host depth text file).2.state.store.Rooted session.env .abort :=
    rooted_perform h ⟨host, depth, .source text file⟩
  have hheedless : Heedless session.env .keepGoing
      (Lisplet.runSource (eval host depth) session.env text file) :=
    Heedless.runSource (fun env form => Heedless.eval host depth env form) text file
  rw [withPolicy_eq h]
  obtain ⟨g, s⟩ := session
  cases hheedless s h.timid with
  | value hrun hrun' calm =>
    simp only [runSource, run, hrun, hrun'] at hend ⊢
    rw [withPolicy_eq hend]
    exact ⟨rfl, calm⟩
  | stopped hrun hrun' calm =>
    simp only [runSource, run, hrun, hrun'] at hend ⊢
    rw [withPolicy_eq hend]
    exact ⟨rfl, calm⟩
  | @warned e s' hrun he =>
    have hfail : (runSource ⟨g, s⟩ host depth text file).1 = .error (.raised e) := by
      simp only [runSource, run, hrun]
    exact absurd he (by simpa [Error.isFatal] using hwarn e hfail)

end Session

/-- The policy matters only once a warning comes to the forms of a text.  A session that has made any
calls is given a text, under the policy to stop and under the policy to keep going.  If the first ends
in a value or in an error that is no warning, the other ends in the same one and in the same state,
policy apart, and neither logs a warning. -/
theorem policy_matters_only_for_warnings (policy : WarnPolicy) (calls : List Call) (host : Host)
    (depth : Nat) (text file : String)
    (h : ∀ e, (((Session.ofCalls policy calls).withPolicy .abort).runSource host depth text file).1 =
      .error (.raised e) → e.kind ≠ .warn) :
    let session := Session.ofCalls policy calls
    let stopping := (session.withPolicy .abort).runSource host depth text file
    let going := (session.withPolicy .keepGoing).runSource host depth text file
    going.1 = stopping.1 ∧ going.2 = stopping.2.withPolicy .keepGoing ∧
      ∃ new, going.2.state.log = session.state.log ++ new ∧
        stopping.2.state.log = session.state.log ++ new ∧ ∀ entry ∈ new, entry.level ≠ .warn := by
  intro session stopping going
  have hrooted : session.state.store.Rooted session.env policy := Session.rooted_ofCalls policy calls
  obtain ⟨htwin, hcalm⟩ := Session.runSource_twin (Session.rooted_withPolicy hrooted .abort) h
  replace htwin : going = (stopping.1, stopping.2.withPolicy .keepGoing) := by
    rwa [Session.withPolicy_withPolicy hrooted] at htwin
  obtain ⟨new, hnew, hlevel⟩ := hcalm.log
  rw [htwin]
  exact ⟨rfl, rfl, new, hnew, hnew, hlevel⟩

/-- A host with a library that fails when it is loaded. -/
def brokenLibrary : Host :=
  .ofFiles fun path => if path = "lib" then .ok "(define x 2)\n(car x)" else .error .notFound

/-- A session that went on behind a warning, and can load files from a function. -/
def warnedBefore : Session :=
  .ofCalls .keepGoing
    [⟨brokenLibrary, 9, .source "(warn #f) (define f (lambda (p) (load p)))" "a"⟩]

/-- The error that the library ends with. -/
def libraryError : Error := ⟨.mismatch "car" "list" .int, some ⟨"lib", 1, 11⟩⟩

theorem policy_matters_only_for_warnings_library :
    ((warnedBefore.withPolicy .abort).runSource brokenLibrary 9 "(f \"lib\")" "b").1 =
      .error (.raised libraryError) ∧
    ((warnedBefore.withPolicy .keepGoing).runSource brokenLibrary 9 "(f \"lib\")" "b").1 =
      .error (.raised libraryError) := by
  have hstops : ((warnedBefore.withPolicy .abort).runSource brokenLibrary 9 "(f \"lib\")" "b").1 =
      .error (.raised libraryError) := by decide +kernel
  have hsame := policy_matters_only_for_warnings .keepGoing _ brokenLibrary 9 "(f \"lib\")" "b"
    fun e he => by
      obtain rfl : libraryError = e := by simpa using hstops.symm.trans he
      decide
  exact ⟨hstops, hsame.1.trans hstops⟩

end Lisplet
