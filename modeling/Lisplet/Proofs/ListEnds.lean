/-
# Lisplet.Proofs.ListEnds -- a list has one representation of its end

The last pair of a proper list holds no rest.  Equality takes "no rest" and "the empty list as rest"
for different things, so it matters that the second never comes about: whatever is read, made, set,
evaluated or called, and with whatever arguments, no pair ever holds the empty list as its rest.  Lists
are therefore equal as soon as their elements are, however each of them came to be.
-/

import Mathlib.Tactic
import Lisplet.Proofs.Bisimulation
import Lisplet.Proofs.Evaluator.Invariant
import Lisplet.Proofs.Store.Walking

namespace Lisplet

/-! ## Pairs without an empty rest -/

namespace Store

/-- No pair holds the empty list as its rest. -/
def RestsFolded (s : Store) : Prop :=
  ∀ (c : CellId) (rest : Value), (s.cell c).cdr = some rest → rest.isNil = false

namespace RestsFolded

variable {s : Store}

/-- A store without pairs. -/
theorem empty : RestsFolded {} := by
  intro c rest h
  rw [cell_of_size_le (Nat.zero_le _)] at h
  cases h

theorem cons (car cdr : Value) (h : s.RestsFolded) : (s.cons car cdr).2.RestsFolded := by
  intro c rest hrest
  rcases (adds_cons s car cdr).cell_cases c with ⟨-, hcell⟩ | hcell <;> rw [hcell] at hrest
  · exact isNil_of_mem_restOf hrest
  · exact h c rest hrest

theorem setCar (c : CellId) (v : Value) (h : s.RestsFolded) : (s.setCar c v).RestsFolded := by
  intro d rest hrest
  rcases (sets_setCar s c v).cell_cases d with ⟨rfl, -, hcell⟩ | hcell <;> rw [hcell] at hrest
  · exact h d rest hrest
  · exact h d rest hrest

theorem setCdr (c : CellId) (v : Value) (h : s.RestsFolded) : (s.setCdr c v).RestsFolded := by
  intro d rest hrest
  rcases (sets_setCdr s c v).cell_cases d with ⟨rfl, -, hcell⟩ | hcell <;> rw [hcell] at hrest
  · exact isNil_of_mem_restOf hrest
  · exact h d rest hrest

/-- All that an evaluation does to a store keeps the rests folded, wherever it defines. -/
theorem invariant : Invariant RestsFolded (fun _ => True) where
  cons car cdr _ h := h.cons car cdr
  newTable _ h := h
  newClosure _ _ h := h
  newFrame _ _ h := ⟨h, trivial⟩
  setCar c v _ h := h.setCar c v
  setCdr c v _ h := h.setCdr c v
  setEntry _ _ _ _ h := h
  define _ _ _ _ _ h := h

end RestsFolded

end Store

/-! ## Whatever is done -/

open Run Store

/-- Something that a user of the library can do to a state.  Values and identities are arbitrary: they
need not have been given out by this state. -/
inductive Action where
  | read (text file : String)
  | cons (car cdr : Value)
  /-- A pair with or without a rest. -/
  | pair (car : Value) (cdr : Option Value)
  | list (elements : List Value)
  | table
  | closure (k : Closure)
  /-- A new global frame, with every primitive bound in it. -/
  | global (policy : WarnPolicy)
  | extend (parent : FrameId) (params : List String) (args : List Value)
  | define (env : FrameId) (name : String) (v : Value)
  | setCdr (c : CellId) (v : Value)
  | call (host : Host) (depth : Nat) (env : FrameId) (p : Primitive) (args : Value)
  | apply (host : Host) (depth : Nat) (env : FrameId) (func : Value) (args : List Value)
  | eval (host : Host) (depth : Nat) (env : FrameId) (form : Value)
  | run (host : Host) (depth : Nat) (env : FrameId) (text file : String)

namespace Action

/-- A new global frame with a policy and all primitives. -/
def newEnvironment (policy : WarnPolicy) (s : Store) : FrameId × Store :=
  let (env, s) := s.newGlobal
  (env, (s.setPolicy env policy).definePrimitives env)

/-- Carry out an action; what it gives does not matter here. -/
def act : Action → Run Unit
  | read text file => do let _ ← readSource text file
  | cons car cdr => do let _ ← make (Store.cons car cdr)
  | pair car cdr => do let _ ← make (Store.cons car (cdr.getD .nil))
  | list elements => do let _ ← make (Store.ofList elements)
  | table => do let _ ← make Store.newTable
  | closure k => do let _ ← make (Store.newClosure k)
  | global policy => do let _ ← make (newEnvironment policy)
  | extend parent params args => do let _ ← make (Store.extend parent params args)
  | define env name v => change (Store.define env name v)
  | setCdr c v => change (Store.setCdr c v)
  | call host depth env p args => do let _ ← p.call host (Lisplet.eval host depth) env args
  | apply host depth env func args => do
    let _ ← Lisplet.apply host (Lisplet.eval host depth) env func args
  | eval host depth env form => do let _ ← Lisplet.eval host depth env form
  | run host depth env text file => do let _ ← runSource (Lisplet.eval host depth) env text file

/-- The state behind an action, however the action ended. -/
def perform (s : State) (a : Action) : State :=
  match a.act s with
  | .ok _ s => s
  | .error _ s => s

theorem store_perform (s : State) (a : Action) : (perform s a).store = a.act.storeAfter s := by
  unfold perform Run.storeAfter
  cases a.act s <;> rfl

theorem definePrimitives_keeps {P : Store → Prop} {D : FrameId → Prop} (h : Invariant P D)
    {env : FrameId} (henv : D env) {s : Store} (hs : P s) : P (s.definePrimitives env) := by
  unfold Store.definePrimitives
  induction Primitive.bindings generalizing s with
  | nil => exact hs
  | cons b bindings ih => exact ih (h.define env b.1 _ s henv hs)

/-- No action gives a pair an empty rest. -/
theorem act_keeps (a : Action) : Keeps' RestsFolded a.act := by
  have hinv := RestsFolded.invariant
  have hev : ∀ host depth env form, Keeps' RestsFolded (Lisplet.eval host depth env form) :=
    fun host depth env form => hinv.eval host depth trivial form
  cases a with
  | read text file => exact (hinv.readSource text file).bind fun _ _ => .pure trivial
  | cons car cdr =>
    exact (Invariant.make_of fun _ hs => hs.cons car cdr).bind fun _ _ => .pure trivial
  | pair car cdr =>
    exact (Invariant.make_of fun _ hs => hs.cons car _).bind fun _ _ => .pure trivial
  | list elements =>
    exact (Invariant.make_of fun _ hs => hinv.ofList elements hs).bind fun _ _ => .pure trivial
  | table => exact (Invariant.make_of hinv.newTable).bind fun _ _ => .pure trivial
  | closure k => exact (Invariant.make_of (hinv.newClosure k)).bind fun _ _ => .pure trivial
  | global policy =>
    refine (Invariant.make_of fun s hs => ?_).bind fun _ _ => .pure trivial
    exact definePrimitives_keeps hinv trivial hs
  | extend parent params args =>
    exact (Invariant.make_of fun s hs => (hinv.newFrame _ s hs).1).bind fun _ _ => .pure trivial
  | define env name v => exact .change fun s hs => hinv.define env name v s trivial hs
  | setCdr c v => exact .change fun _ hs => hs.setCdr c v
  | call host depth env p args =>
    exact (hinv.call host (hev host depth env) p args).bind fun _ _ => .pure trivial
  | apply host depth env func args =>
    exact (hinv.apply host (fun f _ => hev host depth f) trivial func args).bind fun _ _ =>
      .pure trivial
  | eval host depth env form => exact (hev host depth env form).bind fun _ _ => .pure trivial
  | run host depth env text file =>
    exact (hinv.runSource (hev host depth env) text file).bind fun _ _ => .pure trivial

theorem restsFolded_perform (a : Action) {s : State} (h : s.store.RestsFolded) :
    (perform s a).store.RestsFolded := by
  rw [store_perform]
  exact a.act_keeps.storeAfter h

/-- No sequence of actions gives a pair an empty rest. -/
theorem restsFolded_foldl (actions : List Action) {s : State} (h : s.store.RestsFolded) :
    (actions.foldl perform s).store.RestsFolded := by
  induction actions generalizing s with
  | nil => exact h
  | cons a actions ih => exact ih (restsFolded_perform a h)

end Action

/-! ## Equal elements -/

namespace Store

variable {s : Store} {v w : Value} {vs ws : List Value}

theorem Agree.mono {R S : Value → Value → Prop} (hRS : ∀ x y, R x y → S x y) {x y : Datum}
    (h : s.Agree R x y) : s.Agree S x y := by
  cases h with
  | nil => exact .nil
  | atom h => exact .atom h
  | native p => exact .native p
  | closure k => exact .closure k
  | hash t => exact .hash t
  | cell c => exact .cell c
  | pair car cdr => exact .pair (hRS _ _ car) (optionRel_imp hRS cdr)

/-- Where no rest is empty, a chain that ends without a rest is one pair without a rest, or a pair
whose rest is again a proper list. -/
theorem Chain.proper_cases (hs : s.RestsFolded) {c : CellId} (h : s.Chain c vs none) :
    ∃ us, vs = (s.cell c).car :: us ∧
      ((s.cell c).cdr = none ∧ us = [] ∨
        ∃ rest, (s.cell c).cdr = some rest ∧ s.elements rest = .ok us ∧ us ≠ []) := by
  cases h with
  | last hcdr => exact ⟨[], rfl, Or.inl ⟨hcdr, rfl⟩⟩
  | nil hcdr hrest =>
    have hnil := hs c _ hcdr
    simp [Value.isNil, hrest] at hnil
  | next hcdr hrest hd =>
    refine ⟨_, rfl, Or.inr ⟨_, hcdr, elements_of_chain hrest hd, ?_⟩⟩
    cases hd <;> simp

/-- Proper lists whose elements are pairwise equal. -/
def SameElements (s : Store) (x y : Value) : Prop :=
  ∃ vs ws, s.elements x = .ok vs ∧ s.elements y = .ok ws ∧
    List.Forall₂ (fun a b => s.equal a b = true) vs ws

/-- Where no rest is empty, lists with equal elements agree at the top, and so do their rests. -/
theorem SameElements.agree (hs : s.RestsFolded) {x y : Value} (h : s.SameElements x y) :
    s.Agree (fun a b => s.Bisimilar a b ∨ s.SameElements a b) x.datum y.datum := by
  obtain ⟨vs, ws, hx, hy, hall⟩ := h
  rcases elements_eq_ok hx with ⟨hnil, rfl⟩ | ⟨c, hc, hchain⟩ <;>
    rcases elements_eq_ok hy with ⟨hnil', rfl⟩ | ⟨d, hd, hchain'⟩
  · rw [hnil, hnil']
    exact .nil
  · cases hall
    cases hchain'
  · cases hall
    cases hchain
  · obtain ⟨us, rfl, hus⟩ := hchain.proper_cases hs
    obtain ⟨us', rfl, hus'⟩ := hchain'.proper_cases hs
    obtain ⟨hcar, hrests⟩ := List.forall₂_cons.1 hall
    rw [hc, hd]
    refine .pair (Or.inl ((equal_iff_bisimilar s _ _).1 hcar)) ?_
    rcases hus with ⟨hnone, rfl⟩ | ⟨rest, hrest, helements, hne⟩ <;>
      rcases hus' with ⟨hnone', rfl⟩ | ⟨rest', hrest', helements', hne'⟩
    · rw [hnone, hnone']
      exact .none
    · exact absurd (List.forall₂_nil_left_iff.1 hrests) hne'
    · exact absurd (List.forall₂_nil_right_iff.1 hrests) hne
    · rw [hrest, hrest']
      exact .some (Or.inr ⟨us, us', helements, helements', hrests⟩)

/-- Where no rest is empty, lists with equal elements are equal. -/
theorem equal_of_elements (hs : s.RestsFolded) (hv : s.elements v = .ok vs)
    (hw : s.elements w = .ok ws) (h : List.Forall₂ (fun a b => s.equal a b = true) vs ws) :
    s.equal v w = true := by
  rw [equal_iff_bisimilar]
  refine ⟨fun a b => s.Bisimilar a b ∨ s.SameElements a b, ?_, Or.inr ⟨vs, ws, hv, hw, h⟩⟩
  rintro x y (⟨R, hR, hxy⟩ | hsame)
  · exact (hR x y hxy).mono fun a b hab => Or.inl ⟨R, hR, hab⟩
  · exact hsame.agree hs

end Store

/-- Whatever is done from an empty state on, no pair holds the empty list as its rest, and proper lists
with pairwise equal elements are equal. -/
theorem rests_are_never_empty (actions : List Action) :
    (∀ (c : CellId) (rest : Value),
      ((actions.foldl Action.perform {}).store.cell c).cdr = some rest → rest.isNil = false) ∧
    ∀ (v w : Value) (vs ws : List Value),
      (actions.foldl Action.perform {}).store.elements v = .ok vs →
      (actions.foldl Action.perform {}).store.elements w = .ok ws →
      List.Forall₂ (fun a b => (actions.foldl Action.perform {}).store.equal a b = true) vs ws →
      (actions.foldl Action.perform {}).store.equal v w = true := by
  have hfolded := Action.restsFolded_foldl actions (s := {}) RestsFolded.empty
  exact ⟨hfolded, fun v w vs ws hv hw h => equal_of_elements hfolded hv hw h⟩

end Lisplet
