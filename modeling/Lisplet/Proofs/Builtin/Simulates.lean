/-
# Lisplet.Proofs.Builtin.Simulates -- primitives on alike arguments

Every primitive but one looks at its arguments through their data alone, and reports an argument it
does not take by its type.  Called with alike arguments it therefore does alike things.  The exception
is `inspect`, whose purpose is to tell where a value comes from; it is not treated here.
-/

import Mathlib.Tactic
import Lisplet.Builtin
import Lisplet.Proofs.Run.Simulates
import Lisplet.Proofs.Store.Observing
import Lisplet.Proofs.Store.Walking

namespace Lisplet.Renaming

variable {R : Renaming} {v w : Value}

/-! ## Arguments -/

theorem Attempts.bind {α β γ δ : Type} {Q : α → β → Prop} {P : γ → δ → Prop} {x : Except Error α}
    {y : Except Error β} {f : α → Except Error γ} {g : β → Except Error δ} (h : Attempts Q x y)
    (hfg : ∀ a b, Q a b → Attempts P (f a) (g b)) : Attempts P (x >>= f) (y >>= g) := by
  cases h with
  | ok h => exact hfg _ _ h
  | error h => exact .error h

section Arguments

variable {s t : Store}

theorem Stores.listElements (h : R.Stores s t) (hvw : R.Values v w) :
    Attempts (List.Forall₂ R.Values) (s.listElements v) (t.listElements w) := by
  unfold Store.listElements
  rcases h.elements hvw with ⟨vs, ws, hv, hw, hvs⟩ | ⟨fault, hv, hw⟩
  · rw [hv, hw]
    exact .ok hvs
  · rw [hv, hw]
    exact .error rfl

theorem Stores.noArguments (h : R.Stores s t) (name : String) (hvw : R.Values v w) :
    Attempts (fun _ _ => True) (s.noArguments name v) (t.noArguments name w) := by
  apply (h.listElements hvw).bind
  intro vs ws hvs
  have hcount := congrArg (Cause.argumentCount name 0) hvs.length_eq
  rcases hvs with - | ⟨-, -⟩
  · exact .ok trivial
  · exact .error hcount

theorem Stores.oneArgument (h : R.Stores s t) (name : String) (hvw : R.Values v w) :
    Attempts R.Values (s.oneArgument name v) (t.oneArgument name w) := by
  apply (h.listElements hvw).bind
  intro vs ws hvs
  have hcount := congrArg (Cause.argumentCount name 1) hvs.length_eq
  rcases hvs with - | ⟨ha, - | ⟨-, -⟩⟩
  · exact .error hcount
  · exact .ok ha
  · exact .error hcount

theorem Stores.twoArguments (h : R.Stores s t) (name : String) (hvw : R.Values v w) :
    Attempts (fun p q => R.Values p.1 q.1 ∧ R.Values p.2 q.2) (s.twoArguments name v)
      (t.twoArguments name w) := by
  apply (h.listElements hvw).bind
  intro vs ws hvs
  have hcount := congrArg (Cause.argumentCount name 2) hvs.length_eq
  rcases hvs with - | ⟨ha, - | ⟨hb, - | ⟨-, -⟩⟩⟩
  · exact .error hcount
  · exact .error hcount
  · exact .ok ⟨ha, hb⟩
  · exact .error hcount

theorem Stores.threeArguments (h : R.Stores s t) (name : String) (hvw : R.Values v w) :
    Attempts (fun p q => R.Values p.1 q.1 ∧ R.Values p.2.1 q.2.1 ∧ R.Values p.2.2 q.2.2)
      (s.threeArguments name v) (t.threeArguments name w) := by
  apply (h.listElements hvw).bind
  intro vs ws hvs
  have hcount := congrArg (Cause.argumentCount name 3) hvs.length_eq
  rcases hvs with - | ⟨ha, - | ⟨hb, - | ⟨hc, - | ⟨-, -⟩⟩⟩⟩
  · exact .error hcount
  · exact .error hcount
  · exact .error hcount
  · exact .ok ⟨ha, hb, hc⟩
  · exact .error hcount

end Arguments

/-! ## Looks at an argument -/

theorem Values.mismatch (h : R.Values v w) (name expected : String) :
    (v.mismatch name expected).cause = (w.mismatch name expected).cause := by
  rw [Value.mismatch, Value.mismatch, Error.cause_locate, Error.cause_locate, h.typeName_eq]

theorem Values.expecting {α β : Type} {Q : α → β → Prop} {x : Option α} {y : Option β}
    (h : R.Values v w) (name expected : String) (hxy : Option.Rel Q x y) :
    Attempts Q (v.expecting name expected x) (w.expecting name expected y) := by
  cases hxy with
  | none => exact .error (h.mismatch name expected)
  | some hxy => exact .ok hxy

theorem optionRel_of_eq {α : Type} {x y : Option α} (h : x = y) : Option.Rel Eq x y := by
  subst h
  cases x with
  | none => exact .none
  | some a => exact .some rfl

theorem Values.asBool (h : R.Values v w) (name : String) :
    Attempts Eq (v.asBool name) (w.asBool name) :=
  h.expecting name "bool" (optionRel_of_eq h.bool?_eq)

theorem Values.asNumber (h : R.Values v w) (name : String) :
    Attempts Eq (v.asNumber name) (w.asNumber name) :=
  h.expecting name "number" (optionRel_of_eq h.number?_eq)

theorem Values.asString (h : R.Values v w) (name : String) :
    Attempts Eq (v.asString name) (w.asString name) :=
  h.expecting name "str" (optionRel_of_eq h.string?_eq)

theorem Values.asCell (h : R.Values v w) (name : String) :
    Attempts (fun c d => R (.cell c) (.cell d)) (v.asCell name) (w.asCell name) :=
  h.expecting name "pair" h.cell?

theorem Values.asTable (h : R.Values v w) (name : String) :
    Attempts (fun t u => R (.table t) (.table u)) (v.asTable name) (w.asTable name) :=
  h.expecting name "hash" h.table?

theorem Values.asList (h : R.Values v w) (name : String) :
    Attempts (fun _ _ => True) (v.asList name) (w.asList name) := by
  unfold Value.asList
  rw [h.isNil_eq, h.isPair_eq]
  split
  · exact .ok trivial
  · exact .error (h.mismatch name "list")

theorem Values.asKey (h : R.Values v w) : Attempts Eq v.asKey w.asKey := by
  unfold Value.asKey
  rw [h.key?_eq, h.typeName_eq]
  split
  · exact .ok rfl
  · exact .error rfl

/-! ## Computations that look at their arguments first -/

namespace Simulates

variable {α β : Type} {Q : Renaming → α → β → Prop} {args args' : Value}

theorem oneArgument_bind (hargs : R.Values args args') (name : String) {f : Value → Run α}
    {g : Value → Run β}
    (hfg : ∀ R' : Renaming, R ≤ R' → ∀ a b, R'.Values a b → R'.Simulates Q (f a) (g b)) :
    R.Simulates Q (Run.check (·.oneArgument name args) >>= f)
      (Run.check (·.oneArgument name args') >>= g) := by
  have hcheck : R.Simulates Values (Run.check (·.oneArgument name args))
      (Run.check (·.oneArgument name args')) := check fun s t h => h.oneArgument name hargs
  exact bind hcheck hfg

theorem twoArguments_bind (hargs : R.Values args args') (name : String) {f : Value × Value → Run α}
    {g : Value × Value → Run β}
    (hfg : ∀ R' : Renaming, R ≤ R' → ∀ a b a' b', R'.Values a b → R'.Values a' b' →
      R'.Simulates Q (f (a, a')) (g (b, b'))) :
    R.Simulates Q (Run.check (·.twoArguments name args) >>= f)
      (Run.check (·.twoArguments name args') >>= g) := by
  have hcheck : R.Simulates (fun R p q => R.Values p.1 q.1 ∧ R.Values p.2 q.2)
      (Run.check (·.twoArguments name args)) (Run.check (·.twoArguments name args')) :=
    check fun s t h => h.twoArguments name hargs
  apply bind hcheck
  rintro R' hR' ⟨a, a'⟩ ⟨b, b'⟩ ⟨hab, hab'⟩
  exact hfg R' hR' a b a' b' hab hab'

theorem ofExcept_bind {γ δ : Type} {P : γ → δ → Prop} {x : Except Error γ} {y : Except Error δ}
    (h : Attempts P x y) {f : γ → Run α} {g : δ → Run β}
    (hfg : ∀ a b, P a b → R.Simulates Q (f a) (g b)) :
    R.Simulates Q (Run.ofExcept x >>= f) (Run.ofExcept y >>= g) := by
  cases h with
  | ok h => exact hfg _ _ h
  | error h => exact raise h

theorem keyOf_bind (h : R.Values v w) {f : HashKey → Run α} {g : HashKey → Run β}
    (hfg : ∀ R' : Renaming, R ≤ R' → ∀ key, R'.Simulates Q (f key) (g key)) :
    R.Simulates Q (Builtin.keyOf v >>= f) (Builtin.keyOf w >>= g) := by
  have hkey : R.Simulates (fun _ => Eq) (Builtin.keyOf v) (Builtin.keyOf w) :=
    locating v.provenance w.provenance (ofExcept h.asKey)
  apply bind hkey
  rintro R' hR' key _ rfl
  exact hfg R' hR' key

theorem change_nil {f g : Store → Store} (h : ∀ s t, R.Stores s t → R.Stores (f s) (g t)) :
    R.Simulates Values (do Run.change f; Pure.pure Value.nil)
      (do Run.change g; Pure.pure Value.nil) := by
  apply bind (change h)
  intro R' _ _ _ _
  exact pure .nil

/-! ## Primitives -/

theorem test (hargs : R.Values args args') (name : String) {p : Value → Bool}
    (hp : ∀ (R : Renaming) v w, R.Values v w → p v = p w) :
    R.Simulates Values (Builtin.test name p args) (Builtin.test name p args') := by
  apply oneArgument_bind hargs
  intro R' _ a b hab
  rw [hp R' a b hab]
  exact pure (.atom _)

theorem isEqual (hargs : R.Values args args') :
    R.Simulates Values (Builtin.isEqual args) (Builtin.isEqual args') := by
  apply twoArguments_bind hargs
  intro R' _ a b a' b' hab hab'
  apply read
  intro s t h
  show R'.Values (.bool (s.equal a a')) (.bool (t.equal b b'))
  rw [h.equal hab hab']
  exact .atom _

theorem sum {vs ws : List Value} (h : List.Forall₂ R.Values vs ws) (total : Number) :
    Attempts Eq (Builtin.sum total vs) (Builtin.sum total ws) := by
  induction h generalizing total with
  | nil => exact .ok rfl
  | cons hvw _ ih =>
    apply (hvw.asNumber "+").bind
    rintro n _ rfl
    exact ih _

theorem add (hargs : R.Values args args') :
    R.Simulates Values (Builtin.add args) (Builtin.add args') := by
  have hcheck : R.Simulates (fun R => List.Forall₂ R.Values) (Run.check (·.listElements args))
      (Run.check (·.listElements args')) := check fun s t h => h.listElements hargs
  apply bind hcheck
  intro R' _ vs ws hvs
  apply ofExcept_bind (sum hvs _)
  rintro n _ rfl
  exact pure (.atom _)

theorem not (hargs : R.Values args args') :
    R.Simulates Values (Builtin.not args) (Builtin.not args') := by
  apply oneArgument_bind hargs
  intro R' _ a b hab
  apply ofExcept_bind (hab.asBool _)
  rintro c _ rfl
  exact pure (.atom _)

theorem require (hargs : R.Values args args') (name : String) (cause : Cause) :
    R.Simulates Values (Builtin.require name cause args) (Builtin.require name cause args') := by
  apply oneArgument_bind hargs
  intro R' _ a b hab
  apply ofExcept_bind (hab.asBool _)
  rintro c _ rfl
  cases c with
  | true => exact pure .nil
  | false => exact fail cause

theorem car (hargs : R.Values args args') :
    R.Simulates Values (Builtin.car args) (Builtin.car args') := by
  apply oneArgument_bind hargs
  intro R' _ a b hab
  apply ofExcept_bind (hab.asList _)
  intro _ _ _
  exact read fun s t h => optionRel_getD (h.car? hab) hab

theorem cdr (hargs : R.Values args args') :
    R.Simulates Values (Builtin.cdr args) (Builtin.cdr args') := by
  apply oneArgument_bind hargs
  intro R' _ a b hab
  apply ofExcept_bind (hab.asList _)
  intro _ _ _
  exact read fun s t h => optionRel_getD (h.cdr? hab) .nil

theorem cons (hargs : R.Values args args') :
    R.Simulates Values (Builtin.cons args) (Builtin.cons args') := by
  apply twoArguments_bind hargs
  intro R' _ a b a' b' hab hab'
  exact make fun s t h => made_cons h hab hab'

theorem length (hargs : R.Values args args') :
    R.Simulates Values (Builtin.length args) (Builtin.length args') := by
  apply oneArgument_bind hargs
  intro R' _ a b hab
  apply check
  intro s t h
  -- a list that cannot be counted is at fault for the same reason on both sides
  unfold Builtin.lengthOf
  rcases h.elements hab with ⟨vs, ws, hv, hw, hvs⟩ | ⟨fault, hv, hw⟩
  · rw [hv, hw]
    refine .ok ?_
    rw [hvs.length_eq]
    exact .atom _
  · rw [hv, hw]
    refine .error ?_
    rw [Error.cause_locate, Error.cause_locate]

theorem setCar (hargs : R.Values args args') :
    R.Simulates Values (Builtin.setCar args) (Builtin.setCar args') := by
  apply twoArguments_bind hargs
  intro R' _ a b a' b' hab hab'
  apply ofExcept_bind (hab.asCell _)
  intro c d hcd
  exact change_nil fun s t h => h.setCar hcd hab'

theorem setCdr (hargs : R.Values args args') :
    R.Simulates Values (Builtin.setCdr args) (Builtin.setCdr args') := by
  apply twoArguments_bind hargs
  intro R' _ a b a' b' hab hab'
  apply ofExcept_bind (hab.asCell _)
  intro c d hcd
  exact change_nil fun s t h => h.setCdr hcd hab'

theorem makeHash (hargs : R.Values args args') :
    R.Simulates Values (Builtin.makeHash args) (Builtin.makeHash args') := by
  have hcheck : R.Simulates (fun _ _ _ => True) (Run.check (·.noArguments "make-hash" args))
      (Run.check (·.noArguments "make-hash" args')) := check fun s t h => h.noArguments _ hargs
  apply bind hcheck
  intro R' _ _ _ _
  exact make fun s t h => made_newTable h

theorem hashSet (hargs : R.Values args args') :
    R.Simulates Values (Builtin.hashSet args) (Builtin.hashSet args') := by
  have hcheck : R.Simulates
      (fun R p q => R.Values p.1 q.1 ∧ R.Values p.2.1 q.2.1 ∧ R.Values p.2.2 q.2.2)
      (Run.check (·.threeArguments "hash-set!" args))
      (Run.check (·.threeArguments "hash-set!" args')) :=
    check fun s t h => h.threeArguments _ hargs
  apply bind hcheck
  rintro R' _ ⟨a, k, v⟩ ⟨b, l, w⟩ ⟨hab, hkl, hvw⟩
  apply ofExcept_bind (hab.asTable _)
  intro t u htu
  apply keyOf_bind hkl
  intro R'' hR'' key
  exact change_nil fun s t h => h.setEntry (hR'' _ _ htu) key (hvw.mono hR'')

theorem hashRef (hargs : R.Values args args') :
    R.Simulates Values (Builtin.hashRef args) (Builtin.hashRef args') := by
  apply twoArguments_bind hargs
  intro R' _ a b k l hab hkl
  apply ofExcept_bind (hab.asTable _)
  intro t u htu
  apply keyOf_bind hkl
  intro R'' hR'' key
  exact read fun s t h => optionRel_getD (h.table (hR'' _ _ htu) key) .nil

end Simulates

end Lisplet.Renaming
