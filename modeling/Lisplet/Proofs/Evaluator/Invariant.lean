/-
# Lisplet.Proofs.Evaluator.Invariant -- invariants of the store under evaluation

An evaluation changes the store by eight operations only: it makes pairs, tables, closures and frames,
it sets the halves of pairs and the entries of tables, and it binds names.  `Invariant P D` says that a
property `P` of the store survives each of them, where names are bound in frames of which `D` holds and
every new frame is one of these.  `Invariant.eval` concludes that `P` survives every evaluation in a
frame of which `D` holds, to whatever depth and however it ends: one step keeps `P` if the evaluations
it rests on do, and the rest is induction on the depth.
-/

import Mathlib.Tactic
import Lisplet.Evaluator
import Lisplet.Proofs.Run.Keeps

namespace Lisplet

open Run

/-- `P` survives every operation on the store, definitions in frames with `D` among them. -/
structure Invariant (P : Store → Prop) (D : FrameId → Prop) : Prop where
  cons : ∀ (car cdr : Value) (s : Store), P s → P (s.cons car cdr).2
  newTable : ∀ s : Store, P s → P s.newTable.2
  newClosure : ∀ (k : Closure) (s : Store), P s → P (s.newClosure k).2
  newFrame : ∀ (f : Frame) (s : Store), P s → P (s.newFrame f).2 ∧ D (s.newFrame f).1
  setCar : ∀ (c : CellId) (v : Value) (s : Store), P s → P (s.setCar c v)
  setCdr : ∀ (c : CellId) (v : Value) (s : Store), P s → P (s.setCdr c v)
  setEntry : ∀ (t : TableId) (k : HashKey) (v : Value) (s : Store), P s → P (s.setEntry t k v)
  define : ∀ (f : FrameId) (name : String) (v : Value) (s : Store), D f → P s → P (s.define f name v)

namespace Invariant

variable {P : Store → Prop} {D : FrameId → Prop} {α β : Type}

/-! ## Values made of parts -/

theorem ofList (h : Invariant P D) (vs : List Value) {s : Store} (hs : P s) : P (s.ofList vs).2 := by
  induction vs with
  | nil => exact hs
  | cons v vs ih => exact h.cons _ _ _ ih

theorem ofForm (h : Invariant P D) (file : String) (f : Form) {s : Store} (hs : P s) :
    P (s.ofForm file f).2 := by
  induction f generalizing s with
  | atom | empty => exact hs
  | single p car ih => exact h.cons _ _ _ (ih hs)
  | pair p car cdr ihcar ihcdr => exact h.cons _ _ _ (ihcdr (ihcar hs))

theorem ofForms (h : Invariant P D) (file : String) (fs : List Form) {s : Store} (hs : P s) :
    P (s.ofForms file fs).2 := by
  induction fs generalizing s with
  | nil => exact hs
  | cons f fs ih => exact ih (h.ofForm file f hs)

/-! ## Computations that look at the store first -/

theorem check_bind {f : Store → Except Error α} {g : α → Run β} (hg : ∀ a, Keeps' P (g a)) :
    Keeps' P (check f >>= g) :=
  (Keeps.check f).bind fun a _ => hg a

theorem ofExcept_bind {x : Except Error α} {g : α → Run β} (hg : ∀ a, Keeps' P (g a)) :
    Keeps' P (ofExcept x >>= g) :=
  (Keeps.ofExcept _).bind fun a _ => hg a

theorem make_of {f : Store → α × Store} (hf : ∀ s, P s → P (f s).2) : Keeps' P (make f) :=
  .make fun s hs => ⟨hf s hs, trivial⟩

theorem change_nil {f : Store → Store} (hf : ∀ s, P s → P (f s)) :
    Keeps' P (do change f; pure Value.nil) :=
  (Keeps.change hf).bind fun _ _ => .pure trivial

theorem keyOf_bind {v : Value} {g : HashKey → Run β} (hg : ∀ k, Keeps' P (g k)) :
    Keeps' P (Builtin.keyOf v >>= g) :=
  (Keeps.locating _ (Keeps.ofExcept _)).bind fun k _ => hg k

/-! ## Several forms -/

variable {ev : Evaluator} {env : FrameId}

theorem evalAll (hev : ∀ form, Keeps' P (ev env form)) (forms : List Value) :
    Keeps' P (evalAll ev env forms) := by
  induction forms with
  | nil => exact .pure trivial
  | cons form forms ih => exact (hev form).bind fun _ _ => ih.bind fun _ _ => .pure trivial

theorem evalSequence (hev : ∀ form, Keeps' P (ev env form)) (forms : List Value) :
    Keeps' P (evalSequence ev env forms) :=
  .foldlM trivial fun _ _ form _ => hev form

theorem evalTop (hev : ∀ form, Keeps' P (ev env form)) (policy : WarnPolicy) (result form : Value) :
    Keeps' P (evalTop ev policy env result form) := by
  intro s hs
  have hform := hev form s hs
  unfold Lisplet.evalTop
  cases hres : ev env form s with
  | ok v s' => simpa [hres] using hform
  | error why s' =>
    rw [hres] at hform
    cases why with
    | raised e =>
      have hnote : Keeps' P (do note (.skipped e); pure result) :=
        (Keeps.note _).bind fun _ _ => .pure trivial
      by_cases hskip : (!e.isFatal && policy == .keepGoing) = true
      · simpa only [hskip, if_true] using hnote s' hform
      · simpa only [hskip, Bool.false_eq_true, if_false] using hform
    | exhausted => exact hform
    | withheld p => exact hform

theorem evalToplevel (hev : ∀ form, Keeps' P (ev env form)) (forms : List Value) :
    Keeps' P (evalToplevel ev env forms) :=
  (Keeps.read _).bind fun policy _ =>
    .foldlM trivial fun result _ form _ => evalTop hev policy result form

theorem readSource (h : Invariant P D) (text file : String) : Keeps' P (readSource text file) := by
  refine (Keeps.forM fun _ _ => Keeps.note _).bind fun _ _ => ?_
  cases (Reading.ofText text).error with
  | none => exact make_of fun _ hs => h.ofForms file _ hs
  | some e => exact .raise _

theorem runSource (h : Invariant P D) (hev : ∀ form, Keeps' P (ev env form)) (text file : String) :
    Keeps' P (runSource ev env text file) :=
  (h.readSource text file).bind fun forms _ => evalToplevel hev forms

/-! ## Applications -/

theorem loadFile (h : Invariant P D) (host : Host) (hev : ∀ form, Keeps' P (ev env form))
    (args : Value) : Keeps' P (loadFile host ev env args) := by
  refine check_bind fun a => ofExcept_bind fun path => (Keeps.note _).bind fun _ _ => ?_
  cases host.files path with
  | ok text => exact h.runSource hev text path
  | error fault => exact .raise _

/-- A primitive keeps what making and setting keeps. -/
theorem call (h : Invariant P D) (host : Host) (hev : ∀ form, Keeps' P (ev env form)) (p : Primitive)
    (args : Value) : Keeps' P (p.call host ev env args) := by
  cases p with
  | isNull | isSymbol | isAtom | isPair | isList | inspect => exact check_bind fun _ => .pure trivial
  | isEqual => exact check_bind fun _ => .read _
  | add | not => exact check_bind fun _ => ofExcept_bind fun _ => .pure trivial
  | assert | warn =>
    refine check_bind fun _ => ofExcept_bind fun b => ?_
    cases b
    · exact .fail _
    · exact .pure trivial
  | car | cdr => exact check_bind fun _ => ofExcept_bind fun _ => .read _
  | cons => exact check_bind fun _ => make_of fun s hs => h.cons _ _ s hs
  | list => exact .pure trivial
  | length => exact check_bind fun _ => .check _
  | setCar => exact check_bind fun _ => ofExcept_bind fun _ => change_nil fun s hs => h.setCar _ _ s hs
  | setCdr => exact check_bind fun _ => ofExcept_bind fun _ => change_nil fun s hs => h.setCdr _ _ s hs
  | makeHash => exact check_bind fun _ => make_of h.newTable
  | hashSet =>
    exact check_bind fun _ => ofExcept_bind fun _ => keyOf_bind fun _ =>
      change_nil fun s hs => h.setEntry _ _ _ s hs
  | hashRef =>
    exact check_bind fun _ => ofExcept_bind fun _ => keyOf_bind fun _ => .read _
  | load => exact h.loadFile host hev args

/-- A closure evaluates its body in a new frame, in which it may define. -/
theorem applyClosure (h : Invariant P D) (hev : ∀ f, D f → ∀ form, Keeps' P (ev f form))
    (k : Closure) (args : List Value) : Keeps' P (applyClosure ev k args) := by
  unfold Lisplet.applyClosure
  split
  · exact (Keeps.make fun s hs => h.newFrame _ s hs).bind fun f hf => evalSequence (hev f hf) _
  · exact .fail _

theorem apply (h : Invariant P D) (host : Host) (hev : ∀ f, D f → ∀ form, Keeps' P (ev f form))
    (henv : D env) (func : Value) (args : List Value) : Keeps' P (apply host ev env func args) := by
  unfold Lisplet.apply
  split
  · split
    · exact (make_of fun _ hs => h.ofList args hs).bind fun _ _ => h.call host (hev env henv) _ _
    · exact .stop _
  · exact (Keeps.read _).bind fun k _ => h.applyClosure hev k args
  · exact .check _

/-! ## Special forms -/

theorem testResult (form : String) (v : Value) : Keeps' P (testResult form v) := by
  unfold Lisplet.testResult
  split
  · exact .pure trivial
  · exact .fail _

theorem clauseTest (hev : ∀ form, Keeps' P (ev env form)) (test : Value) :
    Keeps' P (clauseTest ev env test) := by
  unfold Lisplet.clauseTest
  split
  · exact .pure trivial
  · exact hev test

theorem evalCond (hev : ∀ form, Keeps' P (ev env form)) (clauses : List Value) :
    Keeps' P (evalCond ev env clauses) := by
  induction clauses with
  | nil => exact .pure trivial
  | cons clause clauses ih =>
    refine check_bind fun parts => ?_
    cases parts with
    | nil => exact .fail _
    | cons test body =>
      refine (clauseTest hev test).bind fun v _ => (testResult "cond" v).bind fun b _ => ?_
      split
      · split
        · exact .pure trivial
        · exact evalSequence hev body
      · exact ih

theorem evalSpecial (h : Invariant P D) (hev : ∀ form, Keeps' P (ev env form)) (henv : D env)
    (location : Location) (form : SpecialForm) (operands : List Value) :
    Keeps' P (evalSpecial ev env location form operands) := by
  cases form with
  | quote =>
    unfold Lisplet.evalSpecial
    dsimp only
    split
    · exact .pure trivial
    · exact .fail _
  | conditional =>
    unfold Lisplet.evalSpecial
    dsimp only
    split
    · refine (hev _).bind fun v _ => (testResult "if" v).bind fun b _ => ?_
      split
      · exact hev _
      · exact .pure trivial
    · refine (hev _).bind fun v _ => (testResult "if" v).bind fun b _ => ?_
      split <;> exact hev _
    · exact .fail _
  | cond => exact evalCond hev operands
  | define =>
    unfold Lisplet.evalSpecial
    dsimp only
    split
    · split
      · exact .fail _
      · exact (hev _).bind fun v _ => (Keeps.note _).bind fun _ _ =>
          (Keeps.change fun s hs => h.define env _ _ s henv hs).bind fun _ _ => .pure trivial
    · exact .fail _
  | lambda =>
    unfold Lisplet.evalSpecial
    dsimp only
    split
    · exact check_bind fun _ => ofExcept_bind fun _ =>
        (make_of fun s hs => h.newClosure _ s hs).bind fun _ _ => .pure trivial
    · exact .fail _
  | begin => exact evalSequence hev operands

/-! ## Evaluation -/

theorem operandsOf (rest : Option Value) : Keeps' P (operandsOf rest) := by
  unfold Lisplet.operandsOf
  cases rest with
  | none => exact .pure trivial
  | some list => exact .check _

theorem evalPair (h : Invariant P D) (host : Host) (hev : ∀ f, D f → ∀ form, Keeps' P (ev f form))
    (henv : D env) (location : Location) (cell : Cell) :
    Keeps' P (evalPair host ev env location cell) := by
  unfold Lisplet.evalPair
  split
  · exact (operandsOf _).bind fun operands _ =>
      h.evalSpecial (hev env henv) henv location _ operands
  · exact (hev env henv _).bind fun func _ => (operandsOf _).bind fun operands _ =>
      (evalAll (hev env henv) operands).bind fun args _ => h.apply host hev henv func args

/-- One step keeps what the evaluations it rests on keep. -/
theorem step (h : Invariant P D) (host : Host) (hev : ∀ f, D f → ∀ form, Keeps' P (ev f form))
    (henv : D env) (form : Value) : Keeps' P (step host ev env form) := by
  refine .locating _ ?_
  split
  · exact .check _
  · exact (Keeps.read _).bind fun cell _ => h.evalPair host hev henv _ cell
  · exact .pure trivial

/-- An invariant survives every evaluation, to whatever depth. -/
theorem eval (h : Invariant P D) (host : Host) (n : Nat) (henv : D env) (form : Value) :
    Keeps' P (eval host n env form) := by
  induction n generalizing env form with
  | zero => exact .stop _
  | succ n ih => exact h.step host (fun f hf form => ih hf form) henv form

end Invariant

end Lisplet
