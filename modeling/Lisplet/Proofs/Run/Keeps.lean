/-
# Lisplet.Proofs.Run.Keeps -- what a computation keeps

A computation keeps a property of the store when the property survives it however it ends: with a
value, with an error, or because it was stopped.  What was done before a stop stays done, so nothing
less would do.  `Keeps P Q act` also records a fact `Q` about the value, if there is one, for the
computations that follow.  There is one rule for each way of building a computation.
-/

import Mathlib.Tactic
import Lisplet.Run

namespace Lisplet.Run

variable {α β : Type} {P : Store → Prop} {Q : α → Prop} {Q' : β → Prop}

theorem bind_of_ok {act : Run α} {f : α → Run β} {s s' : State} {a : α} (h : act s = .ok a s') :
    (act >>= f) s = f a s' := by
  show EStateM.bind act f s = f a s'
  rw [EStateM.bind, h]

theorem bind_of_error {act : Run α} {f : α → Run β} {s s' : State} {why : Stop}
    (h : act s = .error why s') : (act >>= f) s = .error why s' := by
  show EStateM.bind act f s = .error why s'
  rw [EStateM.bind, h]

/-- Of two computations one after the other, the first has stopped or the second. -/
theorem bind_eq_error {act : Run α} {f : α → Run β} {s s' : State} {why : Stop}
    (h : (act >>= f) s = .error why s') :
    act s = .error why s' ∨ ∃ a t, act s = .ok a t ∧ f a t = .error why s' := by
  cases hact : act s with
  | ok a t =>
    rw [bind_of_ok hact] at h
    exact Or.inr ⟨a, t, rfl, h⟩
  | error why' t =>
    rw [bind_of_error hact] at h
    cases h
    exact Or.inl rfl

/-- The store that a computation leaves behind, however it ended. -/
def storeAfter (act : Run α) (s : State) : Store :=
  match act s with
  | .ok _ s => s.store
  | .error _ s => s.store

/-- `act` keeps `P` of the store, and `Q` holds of its value. -/
def Keeps (P : Store → Prop) (Q : α → Prop) (act : Run α) : Prop :=
  ∀ s : State, P s.store →
    match act s with
    | .ok a s => P s.store ∧ Q a
    | .error _ s => P s.store

/-- `act` keeps `P` of the store, whatever its value. -/
abbrev Keeps' (P : Store → Prop) (act : Run α) : Prop := Keeps P (fun _ => True) act

namespace Keeps

theorem storeAfter {act : Run α} (h : Keeps P Q act) {s : State} (hs : P s.store) :
    P (act.storeAfter s) := by
  have := h s hs
  unfold Run.storeAfter
  split <;> simp_all

/-! ## Values and errors -/

theorem pure {a : α} (h : Q a) : Keeps P Q (pure a) := fun _ hs => ⟨hs, h⟩

theorem raise (e : Error) : Keeps P Q (raise e) := fun _ hs => hs

theorem fail (cause : Cause) : Keeps P Q (fail cause) := raise _

theorem stop (why : Stop) : Keeps P Q (stop why) := fun _ hs => hs

theorem ofExcept (x : Except Error α) : Keeps' P (ofExcept x) := by
  cases x with
  | ok a => exact pure trivial
  | error e => exact raise e

/-! ## The store and the log -/

theorem read (f : Store → α) : Keeps' P (read f) := fun _ hs => ⟨hs, trivial⟩

theorem check (f : Store → Except Error α) : Keeps' P (check f) := by
  intro s hs
  unfold Run.check
  cases f s.store with
  | ok a => exact ⟨hs, trivial⟩
  | error e => exact hs

theorem change {f : Store → Store} (h : ∀ s, P s → P (f s)) : Keeps' P (change f) :=
  fun s hs => ⟨h s.store hs, trivial⟩

theorem make {f : Store → α × Store} (h : ∀ s, P s → P (f s).2 ∧ Q (f s).1) : Keeps P Q (make f) :=
  fun s hs => h s.store hs

theorem note (e : LogEntry) : Keeps' P (note e) := fun _ hs => ⟨hs, trivial⟩

/-! ## Sequences -/

theorem bind {act : Run α} {f : α → Run β} (h : Keeps P Q act)
    (hf : ∀ a, Q a → Keeps P Q' (f a)) : Keeps P Q' (act >>= f) := by
  intro s hs
  have hact := h s hs
  show match EStateM.bind act f s with
    | .ok a s => P s.store ∧ Q' a
    | .error _ s => P s.store
  unfold EStateM.bind
  cases hres : act s with
  | ok a s' =>
    rw [hres] at hact
    exact hf a hact.2 s' hact.1
  | error e s' =>
    rw [hres] at hact
    exact hact

theorem locating (p : Provenance) {act : Run α} (h : Keeps P Q act) : Keeps P Q (locating p act) := by
  intro s hs
  have hact := h s hs
  unfold Run.locating
  cases hres : act s with
  | ok a s' => simpa [hres] using hact
  | error why s' =>
    rw [hres] at hact
    cases why <;> exact hact

theorem foldlM {γ : Type} {f : β → γ → Run β} {b : β} {cs : List γ} (hb : Q' b)
    (hf : ∀ b, Q' b → ∀ c ∈ cs, Keeps P Q' (f b c)) : Keeps P Q' (cs.foldlM f b) := by
  induction cs generalizing b with
  | nil => exact pure hb
  | cons c cs ih =>
    rw [List.foldlM_cons]
    exact bind (hf b hb c (by simp)) fun b' hb' =>
      ih hb' fun b hb d hd => hf b hb d (List.mem_cons_of_mem c hd)

theorem forM {γ : Type} {f : γ → Run PUnit} {cs : List γ} (hf : ∀ c ∈ cs, Keeps' P (f c)) :
    Keeps' P (cs.forM f) := by
  induction cs with
  | nil => exact pure trivial
  | cons c cs ih =>
    exact bind (hf c (by simp)) fun _ _ => ih fun d hd => hf d (List.mem_cons_of_mem c hd)

end Keeps

end Lisplet.Run
