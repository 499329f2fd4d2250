/-
# Lisplet.Proofs.Run.Simulates -- computations that do alike things

Two computations simulate each other when, begun in alike states, they end in the same way: both with
alike values, or both with the same error but for its location, or both stopped for the same reason;
and in either case in alike states again.  The renaming under which things are alike may grow on the
way, never shrink, so what was alike before a computation can be used behind it.  There is one rule for
each way of building a computation.
-/

import Mathlib.Tactic
import Lisplet.Run
import Lisplet.Proofs.Store.Renaming

namespace Lisplet

/-! ## Results without locations -/

/-- The same entry without locations. -/
def LogEntry.unplaced : LogEntry → LogEntry
  | .read form _ => .read form .unknown
  | .skipped e => .skipped (.ofCause e.cause)
  | entry => entry

/-- Reasons to stop that are the same, errors by their cause. -/
inductive Stop.Alike : Stop → Stop → Prop
  | raised {e e' : Error} (h : e.cause = e'.cause) : Alike (.raised e) (.raised e')
  | exhausted : Alike .exhausted .exhausted
  | withheld (p : Primitive) : Alike (.withheld p) (.withheld p)

namespace Renaming

/-- States with alike stores and, but for locations, the same log. -/
structure States (R : Renaming) (a b : State) : Prop where
  stores : R.Stores a.store b.store
  logs : a.log.map LogEntry.unplaced = b.log.map LogEntry.unplaced

/-- Attempts that succeed with values related by `Q` or fail with one cause. -/
inductive Attempts {α β : Type} (Q : α → β → Prop) : Except Error α → Except Error β → Prop
  | ok {x : α} {y : β} (h : Q x y) : Attempts Q (.ok x) (.ok y)
  | error {e e' : Error} (h : e.cause = e'.cause) : Attempts Q (.error e) (.error e')

/-- Computations that ended in the same way and in alike states. -/
inductive Results {α β : Type} (R : Renaming) (Q : Renaming → α → β → Prop) :
    EStateM.Result Stop State α → EStateM.Result Stop State β → Prop
  | ok {x : α} {y : β} {a b : State} (hab : R.States a b) (h : Q R x y) : Results R Q (.ok x a) (.ok y b)
  | error {e e' : Stop} {a b : State} (hab : R.States a b) (h : e.Alike e') :
      Results R Q (.error e a) (.error e' b)

/-- Begun in alike states, the two computations end in the same way and in alike states. -/
def Simulates {α β : Type} (R : Renaming) (Q : Renaming → α → β → Prop) (act : Run α) (act' : Run β) :
    Prop :=
  ∀ a b : State, R.States a b → ∃ R' : Renaming, R ≤ R' ∧ R'.Results Q (act a) (act' b)

namespace Simulates

variable {α β γ δ : Type} {R : Renaming} {Q : Renaming → α → β → Prop} {P : Renaming → γ → δ → Prop}

/-! ## Values and errors -/

theorem pure {x : α} {y : β} (h : Q R x y) : R.Simulates Q (pure x) (pure y) := by
  intro a b hab
  exact ⟨R, le_rfl, .ok hab h⟩

theorem stop {e e' : Stop} (h : e.Alike e') :
    R.Simulates Q (Run.stop e) (Run.stop e') := by
  intro a b hab
  exact ⟨R, le_rfl, .error hab h⟩

theorem raise {e e' : Error} (h : e.cause = e'.cause) :
    R.Simulates Q (Run.raise e) (Run.raise e') :=
  stop (.raised h)

theorem fail (cause : Cause) : R.Simulates Q (Run.fail cause) (Run.fail cause) := raise rfl

theorem ofExcept {x : Except Error α} {y : Except Error β} (h : Attempts (Q R) x y) :
    R.Simulates Q (Run.ofExcept x) (Run.ofExcept y) := by
  cases h with
  | ok h => exact pure h
  | error h => exact raise h

/-! ## The store and the log -/

theorem read {f : Store → α} {g : Store → β} (h : ∀ s t, R.Stores s t → Q R (f s) (g t)) :
    R.Simulates Q (Run.read f) (Run.read g) := by
  intro a b hab
  exact ⟨R, le_rfl, .ok hab (h _ _ hab.stores)⟩

theorem check {f : Store → Except Error α} {g : Store → Except Error β}
    (h : ∀ s t, R.Stores s t → Attempts (Q R) (f s) (g t)) :
    R.Simulates Q (Run.check f) (Run.check g) := by
  intro a b hab
  have hstores := h _ _ hab.stores
  refine ⟨R, le_rfl, ?_⟩
  unfold Run.check
  generalize f a.store = x at hstores ⊢
  generalize g b.store = y at hstores ⊢
  cases hstores with
  | ok h => exact .ok hab h
  | error h => exact .error hab (.raised h)

theorem change {f g : Store → Store} (h : ∀ s t, R.Stores s t → R.Stores (f s) (g t)) :
    R.Simulates (fun _ _ _ => True) (Run.change f) (Run.change g) := by
  intro a b hab
  exact ⟨R, le_rfl, .ok ⟨h _ _ hab.stores, hab.logs⟩ trivial⟩

theorem make {f : Store → α × Store} {g : Store → β × Store}
    (h : ∀ s t, R.Stores s t → R.Made Q (f s) (g t)) : R.Simulates Q (Run.make f) (Run.make g) := by
  intro a b hab
  obtain ⟨R', hR', hstores, hmade⟩ := h _ _ hab.stores
  exact ⟨R', hR', .ok ⟨hstores, hab.logs⟩ hmade⟩

theorem note {e e' : LogEntry} (h : e.unplaced = e'.unplaced) :
    R.Simulates (fun _ _ _ => True) (Run.note e) (Run.note e') := by
  intro a b hab
  refine ⟨R, le_rfl, .ok ⟨hab.stores, ?_⟩ trivial⟩
  show (a.log.push e).map _ = (b.log.push e').map _
  rw [Array.map_push, Array.map_push, hab.logs, h]

/-! ## Sequences -/

theorem bind {act : Run α} {act' : Run β} {f : α → Run γ} {g : β → Run δ} (h : R.Simulates Q act act')
    (hfg : ∀ (R' : Renaming), R ≤ R' → ∀ x y, Q R' x y → R'.Simulates P (f x) (g y)) :
    R.Simulates P (act >>= f) (act' >>= g) := by
  intro a b hab
  obtain ⟨R', hR', hact⟩ := h a b hab
  show ∃ R'' : Renaming, R ≤ R'' ∧ R''.Results P (EStateM.bind act f a) (EStateM.bind act' g b)
  unfold EStateM.bind
  generalize act a = x at hact ⊢
  generalize act' b = y at hact ⊢
  cases hact with
  | ok hab' hxy =>
    obtain ⟨R'', hR'', hrest⟩ := hfg R' hR' _ _ hxy _ _ hab'
    exact ⟨R'', hR'.trans hR'', hrest⟩
  | error hab' hwhy => exact ⟨R', hR', .error hab' hwhy⟩

theorem locating (p q : Provenance) {act : Run α} {act' : Run β} (h : R.Simulates Q act act') :
    R.Simulates Q (Run.locating p act) (Run.locating q act') := by
  intro a b hab
  obtain ⟨R', hR', hact⟩ := h a b hab
  refine ⟨R', hR', ?_⟩
  unfold Run.locating
  generalize act a = x at hact ⊢
  generalize act' b = y at hact ⊢
  cases hact with
  | ok hab' hxy => exact .ok hab' hxy
  | error hab' hwhy =>
    -- a location is given to errors only, and it leaves their cause alone
    cases hwhy with
    | raised h =>
      refine .error hab' (.raised ?_)
      rw [Error.cause_locate, Error.cause_locate]
      exact h
    | exhausted => exact .error hab' .exhausted
    | withheld p => exact .error hab' (.withheld p)

theorem foldlM {f : α → Value → Run α} {g : β → Value → Run β} {vs ws : List Value}
    (hvs : List.Forall₂ R.Values vs ws) {x : α} {y : β} (hxy : Q R x y)
    (hfg : ∀ (R' : Renaming), R ≤ R' → ∀ x y v w, Q R' x y → R'.Values v w →
      R'.Simulates Q (f x v) (g y w)) : R.Simulates Q (vs.foldlM f x) (ws.foldlM g y) := by
  induction vs generalizing R ws x y with
  | nil =>
    rw [List.forall₂_nil_left_iff.1 hvs]
    exact pure hxy
  | cons v vs ih =>
    obtain ⟨w, ws, hvw, hrest, rfl⟩ := List.forall₂_cons_left_iff.1 hvs
    rw [List.foldlM_cons, List.foldlM_cons]
    apply bind (hfg R le_rfl x y v w hxy hvw)
    intro R' hR' x' y' hxy'
    exact ih (values_mono hR' hrest) hxy' fun R'' hR'' => hfg R'' (hR'.trans hR'')

theorem forM {f : γ → Run PUnit} {g : δ → Run PUnit} {cs : List γ} {ds : List δ} {S : γ → δ → Prop}
    (hcs : List.Forall₂ S cs ds)
    (hfg : ∀ (R' : Renaming) c d, S c d → R'.Simulates (fun _ _ _ => True) (f c) (g d)) :
    R.Simulates (fun _ _ _ => True) (cs.forM f) (ds.forM g) := by
  induction hcs generalizing R with
  | nil => exact pure trivial
  | cons hcd _ ih =>
    apply bind (hfg R _ _ hcd)
    intro R' _ _ _ _
    exact ih

end Simulates

end Renaming

end Lisplet
