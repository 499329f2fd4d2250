/-
# Lisplet.Proofs.Builtin.Atomic -- a primitive that fails has done nothing

Every primitive looks at its arguments first and acts in one step, which cannot fail.  Looking changes
nothing, whether it succeeds or not (`Looks`), so a failed call leaves the state as it was (`Atomic`).
-/

import Mathlib.Tactic
import Lisplet.Evaluator.Apply
import Lisplet.Proofs.Run.Keeps

namespace Lisplet

namespace Run

variable {α β : Type}

/-- The computation leaves the state as it is, however it ends. -/
def Looks (act : Run α) : Prop :=
  ∀ s, (∃ a, act s = .ok a s) ∨ ∃ why, act s = .error why s

/-- The computation leaves the state as it is if it ends without a value. -/
def Atomic (act : Run α) : Prop := ∀ s why s', act s = .error why s' → s' = s

namespace Looks

theorem pure (a : α) : Looks (pure a) := fun _ => Or.inl ⟨a, rfl⟩

theorem raise (e : Error) : Looks (raise e : Run α) := fun _ => Or.inr ⟨_, rfl⟩

theorem ofExcept (x : Except Error α) : Looks (ofExcept x) := by
  cases x with
  | ok a => exact pure a
  | error e => exact raise e

theorem read (f : Store → α) : Looks (read f) := fun s => Or.inl ⟨f s.store, rfl⟩

theorem check (f : Store → Except Error α) : Looks (check f) := by
  intro s
  unfold Run.check
  cases f s.store with
  | ok a => exact Or.inl ⟨a, rfl⟩
  | error e => exact Or.inr ⟨_, rfl⟩

theorem locating (p : Provenance) {act : Run α} (h : Looks act) : Looks (locating p act) := by
  intro s
  unfold Run.locating
  rcases h s with ⟨a, ha⟩ | ⟨why, hwhy⟩
  · rw [ha]
    exact Or.inl ⟨a, rfl⟩
  · rw [hwhy]
    cases why <;> exact Or.inr ⟨_, rfl⟩

theorem of_ok {act : Run α} (h : Looks act) {s s' : State} {a : α} (hact : act s = .ok a s') :
    s' = s := by
  rcases h s with ⟨a', ha⟩ | ⟨why, hwhy⟩
  · rw [ha] at hact
    cases hact
    rfl
  · rw [hwhy] at hact
    cases hact

theorem atomic {act : Run α} (h : Looks act) : Atomic act := by
  intro s why s' herror
  rcases h s with ⟨a, ha⟩ | ⟨why', hwhy⟩
  · rw [ha] at herror
    cases herror
  · rw [hwhy] at herror
    cases herror
    rfl

/-- To look first and then to act is atomic if the act is. -/
theorem bind {act : Run α} {f : α → Run β} (h : Looks act) (hf : ∀ a, Atomic (f a)) :
    Atomic (act >>= f) := by
  intro s why s' herror
  rcases bind_eq_error herror with hact | ⟨a, t, hact, hnext⟩
  · exact h.atomic s why s' hact
  · rw [hf a t why s' hnext]
    exact h.of_ok hact

end Looks

theorem Atomic.make (f : Store → α × Store) : Atomic (make f) := fun _ _ _ h => by cases h

theorem Atomic.change_nil (f : Store → Store) : Atomic (do change f; pure Value.nil) :=
  fun _ _ _ h => by cases h

end Run

open Run

/-- A primitive that fails leaves the state as it was. -/
theorem Primitive.atomic (host : Host) (ev : Evaluator) (env : FrameId) {p : Primitive}
    (hp : p ≠ .load) (args : Value) : Atomic (p.call host ev env args) := by
  cases p with
  | load => exact absurd rfl hp
  | isNull | isSymbol | isAtom | isPair | isList | inspect =>
    exact (Looks.check _).bind fun a => (Looks.pure _).atomic
  | isEqual => exact (Looks.check _).bind fun a => (Looks.read _).atomic
  | add | not =>
    exact (Looks.check _).bind fun a => (Looks.ofExcept _).bind fun b => (Looks.pure _).atomic
  | assert | warn =>
    refine (Looks.check _).bind fun a => (Looks.ofExcept _).bind fun b => ?_
    cases b
    · exact (Looks.raise _).atomic
    · exact (Looks.pure _).atomic
  | car | cdr =>
    exact (Looks.check _).bind fun a => (Looks.ofExcept _).bind fun _ => (Looks.read _).atomic
  | cons => exact (Looks.check _).bind fun a => .make _
  | list => exact (Looks.pure _).atomic
  | length => exact (Looks.check _).bind fun a => (Looks.check _).atomic
  | setCar | setCdr =>
    exact (Looks.check _).bind fun a => (Looks.ofExcept _).bind fun c => .change_nil _
  | makeHash => exact (Looks.check _).bind fun _ => .make _
  | hashSet =>
    refine (Looks.check _).bind fun a => (Looks.ofExcept _).bind fun t => ?_
    exact (Looks.locating _ (Looks.ofExcept _)).bind fun key => .change_nil _
  | hashRef =>
    refine (Looks.check _).bind fun a => (Looks.ofExcept _).bind fun t => ?_
    exact (Looks.locating _ (Looks.ofExcept _)).bind fun key => (Looks.read _).atomic

end Lisplet
