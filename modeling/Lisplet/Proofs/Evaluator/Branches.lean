/-
# Lisplet.Proofs.Evaluator.Branches -- one test after the other

The clauses of a `cond` and a row of nested `if`s come to the same thing: tests, each with what is evaluated
if it is true, and what is left if none is.  `Branches` is that thing, with the forms in it as values.

It is evaluated in two ways that differ in depth only.  The clauses of a `cond` are all evaluated at one
depth (`Branches.eval`), and each `if` in the row is one level below the one before (`Branches.nested`).  As
more depth does not change how a run ends, both come to the same if they come to an end.
-/

import Mathlib.Tactic
import Lisplet.Evaluator
import Lisplet.Proofs.Evaluator.Withholding

namespace Lisplet

open Run

/-- Tests and what is evaluated behind them. -/
inductive Branches where
  /-- The body of an `else`. -/
  | otherwise (body : List Value)
  | test (t : Value) (body : List Value) (rest : Branches)
  /-- Clauses that are left as they are. -/
  | clauses (vs : List Value)

/-- A body that has no forms stands for the truth of its test. -/
def evalBody (ev : Evaluator) (env : FrameId) : List Value → Run Value
  | [] => pure (.bool true)
  | form :: forms => evalSequence ev env (form :: forms)

/-- The form of such a body is evaluated one level deeper than the body. -/
def nestedBody (host : Host) (env : FrameId) (body : List Value) : Nat → Run Value
  | 0 => stop .exhausted
  | n + 1 => evalBody (eval host n) env body

namespace Branches

/-- All branches are evaluated at one depth. -/
def eval (ev : Evaluator) (env : FrameId) : Branches → Run Value
  | otherwise body => evalBody ev env body
  | test t body rest => do
    let v ← ev env t
    if ← testResult "cond" v then evalBody ev env body else rest.eval ev env
  | clauses vs => evalCond ev env vs

/-- The form of a test is evaluated to a depth of at most `n`, and what is behind it is one level deeper. -/
def nested (host : Host) (env : FrameId) : Branches → Nat → Run Value
  | otherwise body, n => nestedBody host env body n
  | test _ _ _, 0 => stop .exhausted
  | test t body rest, n + 1 => do
    let v ← Lisplet.eval host n env t
    if ← testResult "cond" v then nestedBody host env body n else rest.nested host env n
  | clauses [], _ => pure .nil
  | clauses (_ :: _), 0 => stop .exhausted
  | clauses (v :: vs), n + 1 => evalCond (Lisplet.eval host n) env (v :: vs)

/-- How many levels deep the last of the nested forms is. -/
def depth : Branches → Nat
  | otherwise _ | clauses _ => 1
  | test _ _ rest => rest.depth + 1

theorem one_le_depth (bs : Branches) : 1 ≤ bs.depth := by
  cases bs <;> simp [depth]

end Branches

section

variable {host : Host} {env : FrameId} {n k : Nat} {why : Stop} {ev ev' : Evaluator}

theorem EvaluatesUpTo.evalBody (h : EvaluatesUpTo why ev ev') (env : FrameId) (body : List Value) :
    UpTo why (evalBody ev env body) (evalBody ev' env body) := by
  cases body with
  | nil => exact .refl _
  | cons form forms => exact h.evalSequence env (form :: forms)

theorem upTo_test {t : Value} {x x' y y' : Run Value} (htest : UpTo why (ev env t) (ev' env t))
    (hx : UpTo why x x') (hy : UpTo why y y') :
    UpTo why (do if ← testResult "cond" (← ev env t) then x else y)
      (do if ← testResult "cond" (← ev' env t) then x' else y') := by
  refine htest.bind fun v => (UpTo.refl _).bind fun chosen => ?_
  split
  · exact hx
  · exact hy

namespace Branches

/-- What is evaluated at one depth is also evaluated nested, if there is depth enough for that. -/
theorem upTo_eval (bs : Branches) (h : n + bs.depth ≤ k) :
    UpTo .exhausted (bs.nested host env k) (bs.eval (Lisplet.eval host n) env) := by
  induction bs generalizing k with
  | otherwise body =>
    obtain ⟨k, rfl⟩ := Nat.exists_eq_add_of_le' (show 1 ≤ k by simp [depth] at h; omega)
    exact (EvaluatesUpTo.deeper host (by simp [depth] at h; omega)).evalBody env body
  | test t body rest ih =>
    have hrest := rest.one_le_depth
    simp only [depth] at h
    obtain ⟨k, rfl⟩ := Nat.exists_eq_add_of_le' (show 2 ≤ k by omega)
    have hbody : UpTo .exhausted (nestedBody host env body (k + 1))
        (evalBody (Lisplet.eval host n) env body) :=
      (EvaluatesUpTo.deeper host (by omega)).evalBody env body
    exact upTo_test ((EvaluatesUpTo.deeper host (by omega)).form env t) hbody (ih (by omega))
  | clauses vs =>
    cases vs with
    | nil => cases k <;> exact .refl _
    | cons v vs =>
      obtain ⟨k, rfl⟩ := Nat.exists_eq_add_of_le' (show 1 ≤ k by simp [depth] at h; omega)
      exact (EvaluatesUpTo.deeper host (by simp [depth] at h; omega)).evalCond env (v :: vs)

/-- What is evaluated nested is also evaluated at one depth, if that is as deep. -/
theorem upTo_nested (bs : Branches) (h : k ≤ n) :
    UpTo .exhausted (bs.eval (Lisplet.eval host n) env) (bs.nested host env k) := by
  have hbody : ∀ (body : List Value) {k : Nat}, k ≤ n →
      UpTo .exhausted (evalBody (Lisplet.eval host n) env body) (nestedBody host env body k) := by
    intro body k hk
    cases k with
    | zero => exact .stop _
    | succ k => exact (EvaluatesUpTo.deeper host (by omega)).evalBody env body
  induction bs generalizing k with
  | otherwise body => exact hbody body h
  | test t body rest ih =>
    cases k with
    | zero => exact .stop _
    | succ k =>
      exact upTo_test ((EvaluatesUpTo.deeper host (by omega)).form env t) (hbody body (by omega))
        (ih (by omega))
  | clauses vs =>
    cases vs with
    | nil => cases k <;> exact .refl _
    | cons v vs =>
      cases k with
      | zero => exact .stop _
      | succ k => exact (EvaluatesUpTo.deeper host (by omega)).evalCond env (v :: vs)

end Branches

end

end Lisplet
