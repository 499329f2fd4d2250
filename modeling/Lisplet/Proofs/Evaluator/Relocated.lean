/-
# Lisplet.Proofs.Evaluator.Relocated -- a run does not see where pairs are

Two runs of the same program from relocated stores go the same way, step by step: they make and change the
same things, log the same, and come to the same value or the same error.  Pairs that the second store holds
besides are left alone (`Abreast`).  `Carries m φ` says so of two computations whose values correspond by
`φ`; there is one rule for each way of building a computation, and one lemma for each part of the evaluator.
Logs are written and never read, so nothing is asked of what stood in them before.
-/

import Mathlib.Tactic
import Lisplet.Evaluator
import Lisplet.Proofs.Run.Keeps
import Lisplet.Proofs.Store.Relocation

namespace Lisplet

open Run

variable {m : CellId → CellId} {α β γ δ : Type}

/-- From `s` and `t` on, the two runs have gone the same way: the stores are relocated again, pairs that
correspond to none are as they were, and the same has been logged. -/
structure Abreast (m : CellId → CellId) (s t s' t' : State) : Prop where
  stores : Relocated m s'.store t'.store
  spared : ∀ c, (∀ d, m d ≠ c) → t'.store.cell c = t.store.cell c
  logs : ∃ entries, s'.log = s.log ++ entries ∧ t'.log = t.log ++ entries

namespace Abreast

variable {s t s' t' s'' t'' : State}

theorem refl (h : Relocated m s.store t.store) : Abreast m s t s t :=
  ⟨h, fun _ _ => rfl, #[], by simp, by simp⟩

theorem trans (h : Abreast m s t s' t') (h' : Abreast m s' t' s'' t'') : Abreast m s t s'' t'' := by
  obtain ⟨entries, hs, ht⟩ := h.logs
  obtain ⟨entries', hs', ht'⟩ := h'.logs
  refine ⟨h'.stores, fun c hc => (h'.spared c hc).trans (h.spared c hc), entries ++ entries', ?_, ?_⟩
  · rw [hs', hs, Array.append_assoc]
  · rw [ht', ht, Array.append_assoc]

end Abreast

/-- The two computations ended alike: with values that correspond by `φ`, or for the same reason. -/
inductive EndsAlike (m : CellId → CellId) (φ : α → β) (s t : State) :
    EStateM.Result Stop State α → EStateM.Result Stop State β → Prop
  | ok {a : α} {s' t' : State} (h : Abreast m s t s' t') : EndsAlike m φ s t (.ok a s') (.ok (φ a) t')
  | error {why : Stop} {s' t' : State} (h : Abreast m s t s' t') :
      EndsAlike m φ s t (.error why s') (.error why t')

/-- From relocated stores, the two computations end alike. -/
def Carries (m : CellId → CellId) (φ : α → β) (act : Run α) (act' : Run β) : Prop :=
  ∀ s t : State, Relocated m s.store t.store → EndsAlike m φ s t (act s) (act' t)

/-- Two computations of the same value. -/
abbrev Follows (m : CellId → CellId) (act act' : Run Value) : Prop :=
  Carries m (Value.relocated m) act act'

/-! ## Computations -/

theorem EndsAlike.after {φ : α → β} {s t s' t' : State} {r : EStateM.Result Stop State α}
    {r' : EStateM.Result Stop State β} (h : Abreast m s t s' t') (hends : EndsAlike m φ s' t' r r') :
    EndsAlike m φ s t r r' := by
  cases hends with
  | ok h' => exact .ok (h.trans h')
  | error h' => exact .error (h.trans h')

namespace Carries

variable {φ : α → β} {ψ : γ → δ}

theorem pure {a : α} {b : β} (h : b = φ a) : Carries m φ (pure a) (pure b) := by
  subst h
  exact fun _ _ hst => .ok (.refl hst)

theorem bind {act : Run α} {act' : Run β} {f : α → Run γ} {f' : β → Run δ} (h : Carries m φ act act')
    (hf : ∀ a, Carries m ψ (f a) (f' (φ a))) : Carries m ψ (act >>= f) (act' >>= f') := by
  intro s t hst
  have hact := h s t hst
  generalize hr : act s = r at hact
  generalize hr' : act' t = r' at hact
  cases hact with
  | ok hst' =>
    rw [bind_of_ok hr, bind_of_ok hr']
    exact (hf _ _ _ hst'.stores).after hst'
  | error hst' =>
    rw [bind_of_error hr, bind_of_error hr']
    exact .error hst'

theorem raise (e : Error) : Carries m φ (raise e) (raise e) := fun _ _ hst => .error (.refl hst)

theorem fail (cause : Cause) : Carries m φ (fail cause) (fail cause) := raise _

theorem stop (why : Stop) : Carries m φ (stop why) (stop why) := fun _ _ hst => .error (.refl hst)

theorem ofExcept {x : Except Error α} {x' : Except Error β} (h : x' = x.map φ) :
    Carries m φ (ofExcept x) (ofExcept x') := by
  subst h
  cases x with
  | ok a => exact pure rfl
  | error e => exact raise e

/-- A look that comes to the same. -/
theorem check {f : Store → Except Error α} {f' : Store → Except Error β}
    (hf : ∀ s t, Relocated m s t → f' t = (f s).map φ) : Carries m φ (check f) (check f') := by
  intro s t hst
  unfold Run.check
  rw [hf _ _ hst]
  cases f s.store with
  | ok a => exact .ok (.refl hst)
  | error e => exact .error (.refl hst)

theorem read {f : Store → α} {f' : Store → β} (hf : ∀ s t, Relocated m s t → f' t = φ (f s)) :
    Carries m φ (read f) (read f') := by
  intro s t hst
  unfold Run.read
  rw [hf _ _ hst]
  exact .ok (.refl hst)

/-- What is made on both sides is new, so no other pair is touched. -/
theorem make {f : Store → α × Store} {f' : Store → β × Store} (hgrows : ∀ t : Store, t.Extends (f' t).2)
    (hf : ∀ s t, Relocated m s t → (f' t).1 = φ (f s).1 ∧ Relocated m (f s).2 (f' t).2) :
    Carries m φ (make f) (make f') := by
  intro s t hst
  obtain ⟨hvalue, hstores⟩ := hf _ _ hst
  show EndsAlike m φ s t (.ok (f s.store).1 ⟨(f s.store).2, s.log⟩)
    (.ok (f' t.store).1 ⟨(f' t.store).2, t.log⟩)
  rw [hvalue]
  refine .ok ⟨hstores, fun c hc => ?_, #[], by simp, by simp⟩
  exact ((hgrows t.store).cell_eq (hst.holds_of_unreached hc)).2

/-- What is replaced has a counterpart, so no other pair is touched. -/
theorem change {f f' : Store → Store}
    (hf : ∀ s t, Relocated m s t → Relocated m (f s) (f' t) ∧ ∃ i x, t.Sets (Ident.relocated m i) x (f' t)) :
    Carries m id (change f) (change f') := by
  intro s t hst
  obtain ⟨hstores, i, x, hsets⟩ := hf _ _ hst
  have hspared : ∀ c, (∀ d, m d ≠ c) → (f' t.store).cell c = t.store.cell c := by
    refine fun c hc => Content.cell.inj (hsets.other (.cell c) fun hci => ?_)
    cases i with
    | cell d => exact hc d (Ident.cell.inj hci).symm
    | table | closure | frame => cases hci
  have habreast : Abreast m s t ⟨f s.store, s.log⟩ ⟨f' t.store, t.log⟩ :=
    ⟨hstores, hspared, #[], by simp, by simp⟩
  exact .ok habreast

theorem note (e : LogEntry) : Carries m id (note e) (note e) := by
  intro s t hst
  have habreast : Abreast m s t ⟨s.store, s.log.push e⟩ ⟨t.store, t.log.push e⟩ :=
    ⟨hst, fun _ _ => rfl, #[e], by simp, by simp⟩
  exact .ok habreast

theorem locating (p : Provenance) {act : Run α} {act' : Run β} (h : Carries m φ act act') :
    Carries m φ (locating p act) (locating p act') := by
  intro s t hst
  have hact := h s t hst
  unfold Run.locating
  generalize act s = r at hact
  generalize act' t = r' at hact
  cases hact with
  | ok hst' => exact .ok hst'
  | @error why s' t' hst' => cases why <;> exact .error hst'

theorem foldlM {f : α → γ → Run α} {f' : β → δ → Run β}
    (hf : ∀ a b, Carries m φ (f a b) (f' (φ a) (ψ b))) (bs : List γ) (a : α) :
    Carries m φ (bs.foldlM f a) ((bs.map ψ).foldlM f' (φ a)) := by
  induction bs generalizing a with
  | nil => exact pure rfl
  | cons b bs ih =>
    rw [List.map_cons, List.foldlM_cons, List.foldlM_cons]
    exact (hf a b).bind ih

end Carries

/-! ## Primitives -/

namespace Follows

theorem listElements (v : Value) :
    Carries m (List.map (Value.relocated m)) (Run.check (·.listElements v))
      (Run.check (·.listElements (v.relocated m))) :=
  .check fun _ _ hst => hst.listElements v

theorem oneArgument (name : String) (args : Value) :
    Carries m (Value.relocated m) (Run.check (·.oneArgument name args))
      (Run.check (·.oneArgument name (args.relocated m))) := by
  refine .check fun s t hst => ?_
  rw [Store.oneArgument, Store.oneArgument, hst.listElements]
  cases s.listElements args with
  | error e => rfl
  | ok vs =>
    match vs with
    | [a] => rfl
    | [] | _ :: _ :: _ => simp [bind, Except.bind, Except.map]

theorem twoArguments (name : String) (args : Value) :
    Carries m (Prod.map (Value.relocated m) (Value.relocated m)) (Run.check (·.twoArguments name args))
      (Run.check (·.twoArguments name (args.relocated m))) := by
  refine .check fun s t hst => ?_
  rw [Store.twoArguments, Store.twoArguments, hst.listElements]
  cases s.listElements args with
  | error e => rfl
  | ok vs =>
    match vs with
    | [a, b] => rfl
    | [] | [_] | _ :: _ :: _ :: _ => simp [bind, Except.bind, Except.map]

theorem threeArguments (name : String) (args : Value) :
    Carries m (Prod.map (Value.relocated m) (Prod.map (Value.relocated m) (Value.relocated m)))
      (Run.check (·.threeArguments name args)) (Run.check (·.threeArguments name (args.relocated m))) := by
  refine .check fun s t hst => ?_
  rw [Store.threeArguments, Store.threeArguments, hst.listElements]
  cases s.listElements args with
  | error e => rfl
  | ok vs =>
    match vs with
    | [a, b, c] => rfl
    | [] | [_] | [_, _] | _ :: _ :: _ :: _ :: _ => simp [bind, Except.bind, Except.map]

theorem noArguments (name : String) (args : Value) :
    Carries m id (Run.check (·.noArguments name args))
      (Run.check (·.noArguments name (args.relocated m))) := by
  refine .check fun s t hst => ?_
  rw [Store.noArguments, Store.noArguments, hst.listElements]
  cases s.listElements args with
  | error e => rfl
  | ok vs =>
    match vs with
    | [] => rfl
    | _ :: _ => simp [bind, Except.bind, Except.map]

theorem sum_relocated (total : Number) (vs : List Value) :
    Builtin.sum total (vs.map (Value.relocated m)) = Builtin.sum total vs := by
  induction vs generalizing total with
  | nil => rfl
  | cons v vs ih =>
    rw [List.map_cons, Builtin.sum, Builtin.sum, Value.asNumber_relocated]
    cases v.asNumber "+" with
    | error e => rfl
    | ok n => exact ih _

theorem change_nil {f f' : Store → Store}
    (hf : ∀ s t, Relocated m s t → Relocated m (f s) (f' t) ∧ ∃ i x, t.Sets (Ident.relocated m i) x (f' t)) :
    Follows m (do Run.change f; pure .nil) (do Run.change f'; pure .nil) :=
  (Carries.change hf).bind fun _ => .pure rfl

theorem keyOf (v : Value) : Carries m id (Builtin.keyOf v) (Builtin.keyOf (v.relocated m)) := by
  unfold Builtin.keyOf
  rw [Value.provenance_relocated, Value.asKey_relocated]
  refine .locating _ (.ofExcept ?_)
  cases v.asKey <;> rfl

/-- A look at a value that comes to the same, whether or not it fails. -/
theorem same (x : Except Error α) : Carries m id (Run.ofExcept x) (Run.ofExcept x) := by
  refine .ofExcept ?_
  cases x <;> rfl

theorem primitive (host : Host) (ev : Evaluator) (env : FrameId) {p : Primitive} (hp : p ≠ .load)
    (args : Value) : Follows m (p.call host ev env args) (p.call host ev env (args.relocated m)) := by
  cases p with
  | load => exact absurd rfl hp
  | isNull | isSymbol | isAtom | isPair | isList =>
    refine (oneArgument _ args).bind fun a => .pure ?_
    simp
  | inspect =>
    refine (oneArgument _ args).bind fun a => .pure ?_
    rw [Value.describe_relocated]
    rfl
  | isEqual =>
    refine (twoArguments _ args).bind ?_
    rintro ⟨a, b⟩
    exact .read fun s t hst => congrArg Value.bool (hst.equal a b)
  | add =>
    refine (listElements args).bind fun vs => ?_
    rw [sum_relocated]
    exact (same _).bind fun n => .pure rfl
  | not =>
    refine (oneArgument _ args).bind fun a => ?_
    rw [Value.asBool_relocated]
    exact (same _).bind fun b => .pure rfl
  | assert | warn =>
    refine (oneArgument _ args).bind fun a => ?_
    rw [Value.asBool_relocated]
    refine (same _).bind fun b => ?_
    cases b
    · exact .fail _
    · exact .pure rfl
  | car =>
    refine (oneArgument _ args).bind fun a => ?_
    rw [Value.asList_relocated]
    refine (same _).bind fun _ => .read fun s t hst => ?_
    rw [Store.car?, Store.car?, Value.cell?_relocated]
    cases a.cell? with
    | none => rfl
    | some c => exact congrArg Cell.car (hst.cell c)
  | cdr =>
    refine (oneArgument _ args).bind fun a => ?_
    rw [Value.asList_relocated]
    refine (same _).bind fun _ => .read fun s t hst => ?_
    rw [Store.cdr?, Store.cdr?, Value.cell?_relocated]
    cases a.cell? with
    | none => rfl
    | some c =>
      show (t.cell (m c)).cdr.getD .nil = ((s.cell c).cdr.getD .nil).relocated m
      rw [hst.cell]
      show ((s.cell c).cdr.map (Value.relocated m)).getD .nil = _
      cases (s.cell c).cdr <;> rfl
  | cons =>
    refine (twoArguments _ args).bind ?_
    rintro ⟨a, b⟩
    exact .make (fun t => (t.adds_cons _ _).extends) fun s t hst => hst.cons a b
  | list => exact .pure rfl
  | length =>
    refine (oneArgument _ args).bind fun a => .check fun s t hst => ?_
    rw [Builtin.lengthOf, Builtin.lengthOf, hst.elements]
    cases s.elements a with
    | error fault => rfl
    | ok vs => simp [Except.map, Value.int, Value.number, Value.ofAtom, Value.relocated, Datum.relocated]
  | setCar =>
    refine (twoArguments _ args).bind ?_
    rintro ⟨p, v⟩
    refine Carries.bind (φ := m) (.ofExcept (p.asCell_relocated m _)) fun c => ?_
    exact change_nil fun s t hst => ⟨hst.setCar c v, .cell c, _, t.sets_setCar (m c) _⟩
  | setCdr =>
    refine (twoArguments _ args).bind ?_
    rintro ⟨p, v⟩
    refine Carries.bind (φ := m) (.ofExcept (p.asCell_relocated m _)) fun c => ?_
    exact change_nil fun s t hst => ⟨hst.setCdr c v, .cell c, _, t.sets_setCdr (m c) _⟩
  | makeHash =>
    refine (noArguments _ args).bind fun _ => ?_
    exact .make (fun t => t.adds_newTable.extends) fun s t hst => hst.newTable
  | hashSet =>
    refine (threeArguments _ args).bind ?_
    rintro ⟨h, k, v⟩
    simp only [Prod.map, Value.asTable_relocated]
    refine (same _).bind fun u => (keyOf k).bind fun key => ?_
    exact change_nil fun s t hst => ⟨hst.setEntry u key v, .table u, _, t.sets_setEntry u key _⟩
  | hashRef =>
    refine (twoArguments _ args).bind ?_
    rintro ⟨h, k⟩
    simp only [Prod.map, Value.asTable_relocated]
    refine (same _).bind fun u => (keyOf k).bind fun key => .read fun s t hst => ?_
    show ((t.table u).find? key).getD .nil = _
    rw [hst.table u key]
    cases (s.table u).find? key <;> rfl

/-! ## Several forms -/

variable {ev : Evaluator} {env : FrameId}

/-- The evaluator gives the same for a form wherever its pairs are. -/
def Evaluates (m : CellId → CellId) (ev : Evaluator) : Prop :=
  ∀ env form, Follows m (ev env form) (ev env (form.relocated m))

theorem evalAll (hev : Evaluates m ev) (forms : List Value) :
    Carries m (List.map (Value.relocated m)) (evalAll ev env forms)
      (evalAll ev env (forms.map (Value.relocated m))) := by
  induction forms with
  | nil => exact .pure rfl
  | cons form forms ih => exact (hev env form).bind fun v => ih.bind fun vs => .pure rfl

theorem evalSequence (hev : Evaluates m ev) (forms : List Value) :
    Follows m (evalSequence ev env forms) (evalSequence ev env (forms.map (Value.relocated m))) :=
  Carries.foldlM (fun _ form => hev env form) forms Value.nil

theorem evalTop (hev : Evaluates m ev) (policy : WarnPolicy) (result form : Value) :
    Follows m (evalTop ev policy env result form)
      (evalTop ev policy env (result.relocated m) (form.relocated m)) := by
  intro s t hst
  have hform := hev env form s t hst
  unfold Lisplet.evalTop
  generalize ev env form s = r at hform
  generalize ev env (form.relocated m) t = r' at hform
  cases hform with
  | ok hst' => exact .ok hst'
  | @error why s' t' hst' =>
    cases why with
    | raised e =>
      have hskip : Follows m (do Run.note (.skipped e); Pure.pure result)
          (do Run.note (.skipped e); Pure.pure (result.relocated m)) :=
        (Carries.note _).bind fun _ => .pure rfl
      by_cases hwarned : (!e.isFatal && policy == .keepGoing) = true
      · simpa only [hwarned, if_true] using (hskip s' t' hst'.stores).after hst'
      · simpa only [hwarned, Bool.false_eq_true, if_false] using .error hst'
    | exhausted | withheld => exact .error hst'

theorem evalToplevel (hev : Evaluates m ev) (forms : List Value) :
    Follows m (evalToplevel ev env forms) (evalToplevel ev env (forms.map (Value.relocated m))) :=
  (Carries.read (φ := id) fun _ _ hst => hst.policy env).bind fun policy =>
    Carries.foldlM (fun result form => evalTop hev policy result form) forms Value.nil

theorem readSource (text file : String) :
    Carries m (List.map (Value.relocated m)) (readSource text file) (readSource text file) := by
  have hnotes : ∀ forms : List Form, Carries m id
      (forms.forM fun form => Run.note (.read form.text (form.position.inFile file)))
      (forms.forM fun form => Run.note (.read form.text (form.position.inFile file))) := by
    intro forms
    induction forms with
    | nil => exact .pure rfl
    | cons form forms ih => exact (Carries.note _).bind fun _ => ih
  refine (hnotes _).bind fun _ => ?_
  cases (Reading.ofText text).error with
  | none => exact .make (Store.extends_ofForms file _) fun s t hst => hst.ofForms file _
  | some e => exact .raise _

theorem runSource (hev : Evaluates m ev) (text file : String) :
    Follows m (runSource ev env text file) (runSource ev env text file) :=
  (readSource text file).bind fun forms => evalToplevel hev forms

/-! ## Applications -/

theorem loadFile (hev : Evaluates m ev) (host : Host) (args : Value) :
    Follows m (loadFile host ev env args) (loadFile host ev env (args.relocated m)) := by
  refine (oneArgument _ args).bind fun a => ?_
  rw [Value.asString_relocated]
  refine (same _).bind fun path => (Carries.note _).bind fun _ => ?_
  rw [id]
  cases host.files path with
  | ok text => exact runSource hev text path
  | error fault => exact .raise _

theorem applyClosure (hev : Evaluates m ev) (k : Closure) (args : List Value) :
    Follows m (applyClosure ev k args)
      (applyClosure ev (k.relocated m) (args.map (Value.relocated m))) := by
  unfold Lisplet.applyClosure
  rw [List.length_map]
  show Follows m _ (if args.length = k.params.length then _ else _)
  split
  · have hextend : Carries m id (Run.make (Store.extend k.frame k.params args))
        (Run.make (Store.extend k.frame k.params (args.map (Value.relocated m)))) :=
      .make (fun t => (t.adds_newFrame _).extends) fun s t hst => hst.extend k.frame k.params args
    exact hextend.bind fun frame => evalSequence hev k.body
  · exact .fail _

theorem apply (hev : Evaluates m ev) (host : Host) (func : Value) (args : List Value) :
    Follows m (apply host ev env func args)
      (apply host ev env (func.relocated m) (args.map (Value.relocated m))) := by
  have hother : Follows m (Run.check fun s => .error (.ofCause (.notApplicable func.typeName (s.text func))))
      (Run.check fun s => .error
        (.ofCause (.notApplicable (func.relocated m).typeName (s.text (func.relocated m))))) := by
    refine .check fun s t hst => ?_
    rw [hst.text, Value.typeName_relocated]
    rfl
  obtain ⟨x, q⟩ := func
  cases x with
  | native p =>
    show Follows m (if host.permits p = true then _ else _) (if host.permits p = true then _ else _)
    split
    · refine Carries.bind (.make (Store.extends_ofList _) fun s t hst => hst.ofList args) fun list => ?_
      by_cases hp : p = .load
      · subst hp
        exact loadFile hev host list
      · exact primitive host ev env hp list
    · exact .stop _
  | closure id =>
    exact Carries.bind (.read fun s t hst => hst.closure id) fun k => applyClosure hev k args
  | nil | pair | atom | hash => exact hother

/-! ## Special forms -/

theorem testResult (form : String) (v : Value) :
    Carries m id (testResult form v) (testResult form (v.relocated m)) := by
  unfold Lisplet.testResult
  rw [Value.bool?_relocated, Value.typeName_relocated]
  cases v.bool? with
  | none => exact .fail _
  | some b => exact .pure rfl

theorem evalCond (hev : Evaluates m ev) (clauses : List Value) :
    Follows m (evalCond ev env clauses) (evalCond ev env (clauses.map (Value.relocated m))) := by
  induction clauses with
  | nil => exact .pure rfl
  | cons clause clauses ih =>
    rw [List.map_cons, Lisplet.evalCond, Lisplet.evalCond]
    refine (listElements clause).bind fun parts => ?_
    cases parts with
    | nil => exact .fail _
    | cons test body =>
      have htest : Follows m (clauseTest ev env test) (clauseTest ev env (test.relocated m)) := by
        unfold clauseTest
        rw [Value.isSymbol_relocated]
        split
        · exact .pure rfl
        · exact hev env test
      refine htest.bind fun v => (testResult "cond" v).bind fun chosen => ?_
      rw [List.isEmpty_map]
      show Follows m (if chosen = true then _ else _) (if chosen = true then _ else _)
      split
      · split
        · exact .pure rfl
        · exact evalSequence hev body
      · exact ih

theorem parameterNames_relocated (seen : List String) (vs : List Value) :
    parameterNames seen (vs.map (Value.relocated m)) = parameterNames seen vs := by
  induction vs generalizing seen with
  | nil => rfl
  | cons v vs ih =>
    rw [List.map_cons, parameterNames, parameterNames]
    simp only [Value.symbol?_relocated, Value.typeName_relocated, Value.provenance_relocated, ih]

theorem conditional (hev : Evaluates m ev) (test consequent : Value) {otherwise otherwise' : Run Value}
    (hotherwise : Follows m otherwise otherwise') :
    Follows m (do if ← Lisplet.testResult "if" (← ev env test) then ev env consequent else otherwise)
      (do
        if ← Lisplet.testResult "if" (← ev env (test.relocated m)) then ev env (consequent.relocated m)
        else otherwise') := by
  refine (hev env test).bind fun v => (testResult "if" v).bind fun chosen => ?_
  show Follows m (if chosen = true then _ else _) (if chosen = true then _ else _)
  split
  · exact hev env consequent
  · exact hotherwise

theorem evalSpecial (hev : Evaluates m ev) (location : Location) (form : SpecialForm)
    (operands : List Value) :
    Follows m (evalSpecial ev env location form operands)
      (evalSpecial ev env location form (operands.map (Value.relocated m))) := by
  unfold Lisplet.evalSpecial
  cases form with
  | quote =>
    match operands with
    | [datum] => exact .pure rfl
    | [] | _ :: _ :: _ =>
      simp only [List.map_cons, List.map_nil, List.length_cons, List.length_map]
      exact .fail _
  | conditional =>
    match operands with
    | [test, consequent] => exact conditional hev test consequent (.pure rfl)
    | [test, consequent, alternative] => exact conditional hev test consequent (hev env alternative)
    | [] | [_] | _ :: _ :: _ :: _ :: _ =>
      simp only [List.map_cons, List.map_nil, List.length_cons, List.length_map]
      exact .fail _
  | cond => exact evalCond hev operands
  | define =>
    match operands with
    | [target, expr] =>
      simp only [List.map_cons, List.map_nil, Value.symbol?_relocated, Value.typeName_relocated]
      cases target.symbol? with
      | none => exact .fail _
      | some name =>
        refine (hev env expr).bind fun v => ?_
        have htype : ((v.relocated m).withBound name).typeName = (v.withBound name).typeName :=
          Value.typeName_relocated m v
        rw [htype]
        refine (Carries.note _).bind fun _ => ?_
        have hdefine := Carries.change fun (s t : Store) (hst : Relocated m s t) =>
          And.intro (hst.define env name (v.withBound name))
            ⟨.frame env, _, t.sets_define env name _⟩
        exact hdefine.bind fun _ => .pure rfl
    | [] | [_] | _ :: _ :: _ :: _ =>
      simp only [List.map_cons, List.map_nil, List.length_cons, List.length_map]
      exact .fail _
  | lambda =>
    match operands with
    | params :: body :: bodies =>
      refine (listElements params).bind fun vs => ?_
      rw [parameterNames_relocated]
      refine (same _).bind fun names => ?_
      have hmake := Carries.make (fun t => (t.adds_newClosure _).extends)
        fun (s t : Store) (hst : Relocated m s t) => hst.newClosure ⟨names, body :: bodies, env⟩
      exact hmake.bind fun v => .pure rfl
    | [] | [_] =>
      simp only [List.map_cons, List.map_nil, List.length_cons]
      exact .fail _
  | begin => exact evalSequence hev operands

/-! ## Evaluation -/

theorem operandsOf (rest : Option Value) :
    Carries m (List.map (Value.relocated m)) (operandsOf rest)
      (operandsOf (rest.map (Value.relocated m))) := by
  cases rest with
  | none => exact .pure rfl
  | some list => exact listElements list

theorem evalPair (hev : Evaluates m ev) (host : Host) (location : Location) (cell : Cell) :
    Follows m (evalPair host ev env location cell)
      (evalPair host ev env location (cell.relocated m)) := by
  unfold Lisplet.evalPair
  simp only [Cell.relocated, Value.symbol?_relocated]
  cases cell.car.symbol?.bind SpecialForm.ofName? with
  | some form =>
    exact (operandsOf cell.cdr).bind fun operands => evalSpecial hev location form operands
  | none =>
    refine (hev env cell.car).bind fun func => (operandsOf cell.cdr).bind fun operands => ?_
    exact (evalAll hev operands).bind fun args => apply hev host func args

theorem step (hev : Evaluates m ev) (host : Host) : Evaluates m (step host ev) := by
  rintro env ⟨x, p⟩
  refine .locating p ?_
  have hself : Follows m (pure ⟨x, p⟩) (pure (Value.relocated m ⟨x, p⟩)) := .pure rfl
  cases x with
  | nil | closure | native | hash => exact hself
  | pair c => exact Carries.bind (.read fun s t hst => hst.cell c) fun cell => evalPair hev host _ cell
  | atom a =>
    cases a with
    | number | string | bool => exact hself
    | symbol name =>
      refine .check fun s t hst => ?_
      rw [hst.lookup env name]
      cases s.lookup env name <;> rfl

/-- Whatever is evaluated, to whatever depth, it does not matter where pairs are. -/
theorem eval (host : Host) (n : Nat) : Evaluates m (eval host n) := by
  induction n with
  | zero => exact fun env form => .stop _
  | succ n ih => exact step ih host

end Follows

end Lisplet
