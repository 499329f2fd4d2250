/-
# Lisplet.Proofs.NestedIf -- cond means nested if

A `cond` and the row of nested `if`s that it stands for are different forms around the same tests and bodies.
Each of them, read into a store, is evaluated as the `Branches` are that have the values of these tests and
bodies in a store that has read nothing else: for `cond` all of them at one depth (`endsLike_evalCond`), for
the nested form each one level below the one before (`endsLike_nested`).  What is evaluated on the way is the
same in both stores but for where its pairs are, and it leaves the pairs around it alone, since it has no way
to get at them.

So the two come to the same in all that a program can see.  What differs is the name in the message about a
test that is no boolean, where an error is reported, and the provenance of the truth that a clause without a
body comes to.
-/

import Mathlib.Tactic
import Lisplet.Proofs.Evaluator.Branches
import Lisplet.Proofs.Evaluator.Relocated
import Lisplet.Proofs.LexicalScope
import Lisplet.Proofs.Store.Skeletons

namespace Lisplet

open Run

/-! ## The two forms -/

/-- The form is the symbol of this name. -/
def Form.isSymbol (name : String) : Form → Bool
  | .atom _ (.symbol other) => other == name
  | _ => false

/-- A clause: a list that is not empty. -/
structure Clause where
  form : Form
  test : Form
  body : List Form
  elements : form.elements? = some (test :: body)

namespace Clause

def isElse (c : Clause) : Bool := c.test.isSymbol "else"

end Clause

/-- What a body means as one form: what it means in sequence, and truth if it is empty. -/
def bodyForm (p : Position) : List Form → Form
  | [] => .atom p (.bool true)
  | form :: forms => .listAt p (.atom p (.symbol "begin") :: form :: forms)

/-- The clauses, and behind them the forms `more`, as a row of nested forms.  Nothing stands behind an `else`;
forms that are left stay in a `cond`, and if there are none the row ends. -/
def nestedIf (p : Position) : List Clause → List Form → Option Form
  | [], [] => none
  | [], form :: forms => some (.listAt p (.atom p (.symbol "cond") :: form :: forms))
  | c :: cs, more =>
    if c.isElse then some (bodyForm p c.body)
    else some (.listAt p
      (.atom p (.symbol "if") :: c.test :: bodyForm p c.body :: (nestedIf p cs more).toList))

/-- Forms that are evaluated: all tests and bodies up to an `else`. -/
def branchForms : List Clause → List Form → List Form
  | [], more => more
  | c :: cs, more => if c.isElse then c.body else c.test :: (c.body ++ branchForms cs more)

namespace Skeleton

/-- The list at `p` whose elements are marked in this way. -/
def listAt (p : Position) (ks : List Skeleton) : Skeleton := list (.listAt p (ks.map form)) ks

@[simp] theorem form_listAt (p : Position) (ks : List Skeleton) :
    (listAt p ks).form = .listAt p (ks.map form) :=
  form_list (Form.elements?_listAt p _)

@[simp] theorem parts_listAt (p : Position) (ks : List Skeleton) : (listAt p ks).parts = ks.flatMap parts :=
  parts_list (Form.elements?_listAt p _)

theorem map_form_part (fs : List Form) : (fs.map part).map form = fs := by
  rw [List.map_map]
  exact List.map_id' fs

theorem map_form_rest (fs : List Form) : (fs.map rest).map form = fs := by
  rw [List.map_map]
  exact List.map_id' fs

theorem flatMap_parts_part (fs : List Form) : (fs.map part).flatMap parts = fs := by
  rw [List.flatMap_map]
  exact List.flatMap_singleton' fs

theorem flatMap_parts_rest (fs : List Form) : (fs.map rest).flatMap parts = [] := by
  rw [List.flatMap_map]
  exact List.flatMap_eq_nil_iff.2 fun _ _ => rfl

/-- The body of a clause, as one form. -/
def body (p : Position) : List Form → Skeleton
  | [] => .rest (bodyForm p [])
  | form :: forms => listAt p (.rest (.atom p (.symbol "begin")) :: (form :: forms).map part)

theorem form_body (p : Position) (fs : List Form) : (body p fs).form = bodyForm p fs := by
  cases fs with
  | nil => rfl
  | cons f fs =>
    rw [body, form_listAt, List.map_cons, map_form_part]
    rfl

theorem parts_body (p : Position) (fs : List Form) : (body p fs).parts = fs := by
  cases fs with
  | nil => rfl
  | cons f fs =>
    rw [body, parts_listAt, List.flatMap_cons, flatMap_parts_part]
    rfl

/-- The clauses of a `cond`. -/
def clauses : List Clause → List Form → List Skeleton
  | [], more => more.map part
  | c :: cs, more =>
    if c.isElse then list c.form (.rest c.test :: c.body.map part) :: (cs.map Clause.form ++ more).map rest
    else list c.form (.part c.test :: c.body.map part) :: clauses cs more

theorem form_clause {c : Clause} {k : Skeleton} (hk : k.form = c.test) :
    c.form.elements? = some ((k :: c.body.map part).map form) := by
  rw [List.map_cons, map_form_part, hk]
  exact c.elements

theorem map_form_clauses (cs : List Clause) (more : List Form) :
    (clauses cs more).map form = cs.map Clause.form ++ more := by
  induction cs with
  | nil => exact map_form_part more
  | cons c cs ih =>
    rw [clauses]
    split
    · rw [List.map_cons, map_form_rest, form_list (form_clause rfl)]
      rfl
    · rw [List.map_cons, ih, form_list (form_clause rfl)]
      rfl

theorem flatMap_parts_clauses (cs : List Clause) (more : List Form) :
    (clauses cs more).flatMap parts = branchForms cs more := by
  induction cs with
  | nil => exact flatMap_parts_part more
  | cons c cs ih =>
    rw [clauses, branchForms]
    split
    · rw [List.flatMap_cons, flatMap_parts_rest, parts_list (form_clause rfl), List.flatMap_cons,
        flatMap_parts_part]
      exact List.append_nil _
    · rw [List.flatMap_cons, ih, parts_list (form_clause rfl), List.flatMap_cons, flatMap_parts_part]
      rfl

/-- The row of nested forms. -/
def nested (p : Position) : List Clause → List Form → Option Skeleton
  | [], [] => none
  | [], form :: forms => some (listAt p (.rest (.atom p (.symbol "cond")) :: (form :: forms).map part))
  | c :: cs, more =>
    if c.isElse then some (body p c.body)
    else some (listAt p (.rest (.atom p (.symbol "if")) :: .part c.test :: body p c.body ::
      (nested p cs more).toList))

theorem map_form_nested (p : Position) (cs : List Clause) (more : List Form) :
    (nested p cs more).map form = nestedIf p cs more := by
  induction cs with
  | nil =>
    cases more with
    | nil => rfl
    | cons f fs =>
      rw [nested, Option.map_some, form_listAt, List.map_cons, map_form_part]
      rfl
  | cons c cs ih =>
    rw [nested, nestedIf]
    split
    · rw [Option.map_some, form_body]
    · rw [Option.map_some, form_listAt, List.map_cons, List.map_cons, List.map_cons, form_body, ← ih]
      cases nested p cs more <;> rfl

theorem flatMap_parts_nested (p : Position) (cs : List Clause) (more : List Form) :
    (nested p cs more).toList.flatMap parts = branchForms cs more := by
  induction cs with
  | nil =>
    cases more with
    | nil => rfl
    | cons f fs =>
      rw [nested, Option.toList_some, List.flatMap_singleton, parts_listAt, List.flatMap_cons,
        flatMap_parts_part]
      rfl
  | cons c cs ih =>
    rw [nested, branchForms]
    split
    · rw [Option.toList_some, List.flatMap_singleton, parts_body]
    · rw [Option.toList_some, List.flatMap_singleton, parts_listAt, List.flatMap_cons, List.flatMap_cons,
        List.flatMap_cons, parts_body, ih]
      rfl

end Skeleton

/-! ## Runs that end alike -/

/-- Reasons to stop of one kind. -/
inductive Stop.SameKind : Stop → Stop → Prop
  | raised {e e' : Error} (h : e.kind = e'.kind) : SameKind (.raised e) (.raised e')
  | exhausted : SameKind .exhausted .exhausted
  | withheld (p : Primitive) : SameKind (.withheld p) (.withheld p)

theorem Stop.SameKind.refl (why : Stop) : why.SameKind why := by
  cases why with
  | raised e => exact .raised rfl
  | exhausted => exact .exhausted
  | withheld p => exact .withheld p

/-- From `s` and `t` on, the two runs have gone the same way and ended alike: with one value but for its
provenance, or for reasons of one kind. -/
inductive EndsLike (m : CellId → CellId) (s t : State) :
    EStateM.Result Stop State Value → EStateM.Result Stop State Value → Prop
  | ok {v w : Value} {s' t' : State} (h : Abreast m s t s' t') (hvalue : w.datum = v.datum.relocated m) :
      EndsLike m s t (.ok v s') (.ok w t')
  | error {why why' : Stop} {s' t' : State} (h : Abreast m s t s' t') (hwhy : why.SameKind why') :
      EndsLike m s t (.error why s') (.error why' t')

namespace EndsLike

variable {α β : Type} {φ : α → β} {m : CellId → CellId} {s t s' t' : State}
  {r r' : EStateM.Result Stop State Value}

theorem of_endsAlike (h : EndsAlike m (Value.relocated m) s t r r') : EndsLike m s t r r' := by
  cases h with
  | ok h => exact .ok h rfl
  | error h => exact .error h (.refl _)

theorem after (h : Abreast m s t s' t') (hends : EndsLike m s' t' r r') : EndsLike m s t r r' := by
  cases hends with
  | ok h' hvalue => exact .ok (h.trans h') hvalue
  | error h' hwhy => exact .error (h.trans h') hwhy

theorem bind {act : Run α} {act' : Run β} {f : α → Run Value} {f' : β → Run Value}
    (h : EndsAlike m φ s t (act s) (act' t))
    (hf : ∀ a s' t', Abreast m s t s' t' → EndsLike m s' t' (f a s') (f' (φ a) t')) :
    EndsLike m s t ((act >>= f) s) ((act' >>= f') t) := by
  generalize hr : act s = r at h
  generalize hr' : act' t = r' at h
  cases h with
  | ok h =>
    rw [bind_of_ok hr, bind_of_ok hr']
    exact (hf _ _ _ h).after h
  | error h =>
    rw [bind_of_error hr, bind_of_error hr']
    exact .error h (.refl _)

/-- A form that gives an error its location changes nothing about its kind. -/
theorem locating (p : Provenance) {act : Run Value} (h : EndsLike m s t r (act t)) :
    EndsLike m s t r (locating p act t) := by
  unfold Run.locating
  generalize act t = r' at h
  cases h with
  | ok h hvalue => exact .ok h hvalue
  | error h hwhy =>
    cases hwhy with
    | raised he => exact .error h (.raised (he.trans (congrArg Cause.kind (Error.cause_locate _ _)).symm))
    | exhausted => exact .error h .exhausted
    | withheld p => exact .error h (.withheld p)

/-- Either form takes a boolean for a test, and raises an error of one kind for anything else. -/
theorem test (name name' : String) {v : Value} {x x' y y' : Run Value} (hst : Relocated m s.store t.store)
    (hthen : v.datum = .atom (.bool true) → EndsLike m s t (x s) (x' t))
    (helse : EndsLike m s t (y s) (y' t)) :
    EndsLike m s t ((do if ← testResult name v then x else y) s)
      ((do if ← testResult name' (v.relocated m) then x' else y') t) := by
  unfold testResult
  rw [Value.bool?_relocated, Value.typeName_relocated]
  cases hbool : v.bool? with
  | none => exact .error (.refl hst) (.raised rfl)
  | some b =>
    cases b with
    | false => exact helse
    | true =>
      refine hthen ?_
      obtain ⟨x, p⟩ := v
      unfold Value.bool? at hbool
      split at hbool
      · next h =>
        cases hbool
        exact h
      · cases hbool

end EndsLike

/-! ## The clauses of cond -/

/-- The values of the tests and bodies, one after the other, as branches. -/
def branchesOf : List Clause → List Value → Branches
  | [], vs => .clauses vs
  | c :: cs, vs =>
    if c.isElse then .otherwise vs
    else .test (vs.headD .nil) (vs.tail.take c.body.length) (branchesOf cs (vs.tail.drop c.body.length))

theorem branchesOf_test {c : Clause} (hc : c.isElse = false) (cs : List Clause) (t : Value)
    {body : List Value} (hlength : body.length = c.body.length) (vs : List Value) :
    branchesOf (c :: cs) (t :: (body ++ vs)) = .test t body (branchesOf cs vs) := by
  rw [branchesOf, hc]
  simp [List.take_left' hlength, List.drop_left' hlength]

section

variable {m : CellId → CellId} {s t : State} {apart : CellId → Prop} {v : Value} {vs : List Value}

theorem Form.isSymbol_of_leaf? {f : Form} (h : v.datum.leaf? = f.leaf?) (name : String) :
    v.isSymbol name = f.isSymbol name := by
  obtain ⟨x, p⟩ := v
  cases f with
  | atom q a =>
    obtain rfl : x = .atom a := Datum.eq_of_leaf? h
    cases a with
    | symbol other =>
      show ((some other : Option String) == some name) = (other == name)
      simp
    | number | bool | string => rfl
  | empty q =>
    obtain rfl : x = .nil := Datum.eq_of_leaf? h
    rfl
  | single | pair => cases x <;> first | rfl | cases h

/-- What was set apart is left alone on the way. -/
theorem Store.Shows.abreast {s' t' : State} {k : Skeleton} (h : t.store.Shows (fun c => ∀ d, m d ≠ c) k v vs)
    (hst : Abreast m s t s' t') : t'.store.Shows (fun c => ∀ d, m d ≠ c) k v vs :=
  h.mono fun c hc => ⟨hc, hst.spared c hc⟩

/-- A clause is a list of its test and its body. -/
theorem Store.Shows.clause {u : Store} {c : Clause} {k : Skeleton} (hk : k.form = c.test)
    (h : u.Shows apart (.list c.form (k :: c.body.map .part)) v vs) :
    ∃ a as body, u.Shows apart k a as ∧ u.Lists v (a :: body) ∧ body.length = c.body.length ∧
      vs = as ++ body := by
  obtain ⟨xs, hall, hlists, rfl⟩ := h.elements (Skeleton.form_clause hk)
  cases hall with
  | @cons _ x _ xs htest hbody =>
    obtain ⟨hfst, hlength⟩ := Store.ShowsAll.of_parts hbody
    refine ⟨x.1, x.2, xs.map Prod.fst, htest, hlists, by rw [List.length_map, hlength], ?_⟩
    rw [List.flatMap_cons, hfst]

variable {host : Host} {n : Nat} {env : FrameId}

/-- A body is evaluated alike in both stores, and one without forms comes to the truth that it stands for. -/
theorem endsLike_body (hst : Relocated m s.store t.store) {w : Value} (hw : w.datum = .atom (.bool true))
    (body : List Value) :
    EndsLike m s t (evalBody (eval host n) env body s)
      ((if (body.map (Value.relocated m)).isEmpty then pure w
        else evalSequence (eval host n) env (body.map (Value.relocated m)) : Run Value) t) := by
  cases body with
  | nil => exact .ok (.refl hst) hw
  | cons form forms =>
    exact .of_endsAlike (Follows.evalSequence (Follows.eval host n) (form :: forms) s t hst)

/-- The clauses of a `cond` are evaluated as the branches are. -/
theorem endsLike_evalCond (cs : List Clause) (more : List Form) (hst : Relocated m s.store t.store)
    {xs : List (Value × List Value)}
    (hshown : t.store.ShowsAll (fun c => ∀ d, m d ≠ c) (Skeleton.clauses cs more) xs)
    (hvs : xs.flatMap Prod.snd = vs.map (Value.relocated m)) :
    EndsLike m s t ((branchesOf cs vs).eval (eval host n) env s)
      (evalCond (eval host n) env (xs.map Prod.fst) t) := by
  induction cs generalizing s t vs xs with
  | nil =>
    rw [(Store.ShowsAll.of_parts hshown).1, hvs]
    exact .of_endsAlike (Follows.evalCond (Follows.eval host n) vs s t hst)
  | cons c cs ih =>
    rw [Skeleton.clauses] at hshown
    cases hc : c.isElse with
    | true =>
      rw [hc, if_pos rfl] at hshown
      cases hshown with
      | @cons _ x _ xs hclause hrest =>
        obtain ⟨a, as, body, hname, hlists, -, hparts⟩ := hclause.clause rfl
        have helse : a.isSymbol "else" = true := by
          cases hname with
          | rest h => exact (Form.isSymbol_of_leaf? h "else").trans hc
        obtain rfl : body = vs.map (Value.relocated m) := by
          rw [← hvs, List.flatMap_cons, Store.ShowsAll.of_rest hrest, hparts, hname.of_rest]
          simp
        rw [branchesOf, hc, if_pos rfl, List.map_cons, evalCond,
          bind_of_ok (check_of_ok (f := (·.listElements x.1)) (Store.listElements_of_lists hlists))]
        simp only [clauseTest, helse, if_true]
        exact endsLike_body hst rfl vs
    | false =>
      rw [hc, if_neg (by simp)] at hshown
      cases hshown with
      | @cons _ x _ xs hclause hrest =>
        obtain ⟨a, as, body, htest, hlists, hlength, hparts⟩ := hclause.clause rfl
        have helse : a.isSymbol "else" = false := by
          cases htest with
          | part h => exact (Form.isSymbol_of_leaf? h "else").trans hc
        -- the values in the other store are parted in the same way
        rw [List.flatMap_cons, hparts, htest.of_part, List.append_assoc, List.singleton_append] at hvs
        obtain ⟨v, vs, rfl, rfl, hbehind⟩ := List.map_eq_cons_iff.1 hvs.symm
        obtain ⟨body, vs, rfl, rfl, hothers⟩ := List.map_eq_append_iff.1 hbehind
        rw [List.length_map] at hlength
        rw [branchesOf_test hc cs v hlength vs, List.map_cons, evalCond,
          bind_of_ok (check_of_ok (f := (·.listElements x.1)) (Store.listElements_of_lists hlists))]
        simp only [clauseTest, helse, Branches.eval]
        refine .bind (Follows.eval host n env v s t hst) fun w s' t' h => ?_
        refine .test "cond" "cond" h.stores (fun hw => ?_) ?_
        · exact endsLike_body h.stores (by rw [Value.relocated, hw]; rfl) body
        · exact ih h.stores (hrest.imp fun _ _ hx => hx.abreast h) hothers.symm

/-! ## The nested form -/

/-- A special form whose operands are all parts is evaluated with the values of these. -/
theorem Store.Shows.eval_special {p : Position} {name : String} {special : SpecialForm} {fs : List Form}
    (h : t.store.Shows apart (.listAt p (.rest (.atom p (.symbol name)) :: fs.map .part)) v vs)
    (hspecial : SpecialForm.ofName? name = some special) :
    eval host (n + 1) env v t =
      locating v.provenance (evalSpecial (eval host n) env v.provenance.location special vs) t := by
  obtain ⟨c, xs, hpair, hname, hall, hlists, rfl⟩ := h.operands (Form.elements?_listAt p _)
  rw [(Store.ShowsAll.of_parts hall).1] at hlists
  exact Lisplet.eval_special hpair hname hspecial hlists

/-- An `if` has a test, the form of a body and, if there is one, the form that is next in the row. -/
theorem Store.Shows.conditional {p : Position} {test : Form} {body : List Form} {k : Option Skeleton}
    (h : t.store.Shows apart
      (.listAt p (.rest (.atom p (.symbol "if")) :: .part test :: Skeleton.body p body :: k.toList)) v
      (vs.map (Value.relocated m))) :
    ∃ x forms rest w others, vs = x :: (forms ++ rest) ∧ forms.length = body.length ∧
      t.store.Shows apart (Skeleton.body p body) w (forms.map (Value.relocated m)) ∧
      t.store.ShowsAll apart k.toList others ∧ others.flatMap Prod.snd = rest.map (Value.relocated m) ∧
      ∀ host env n, eval host (n + 1) env v t = locating v.provenance
        (evalSpecial (eval host n) env v.provenance.location .conditional
          (x.relocated m :: w :: others.map Prod.fst)) t := by
  obtain ⟨c, xs, hpair, hname, hall, hlists, hparts⟩ := h.operands (Form.elements?_listAt p _)
  cases hall with
  | @cons _ y _ xs htest hall =>
    cases hall with
    | @cons _ w _ others hbody hothers =>
      rw [List.flatMap_cons, List.flatMap_cons, htest.of_part, List.singleton_append] at hparts
      obtain ⟨x, ws, rfl, hx, hbehind⟩ := List.map_eq_cons_iff.1 hparts
      obtain ⟨forms, rest, rfl, hforms, hrest⟩ := List.map_eq_append_iff.1 hbehind
      rw [← hforms] at hbody
      have hlength := hbody.length_eq
      rw [List.length_map, Skeleton.parts_body] at hlength
      refine ⟨x, forms, rest, w.1, others, rfl, hlength, hbody, hothers, hrest.symm, fun host env n => ?_⟩
      rw [hx]
      exact Lisplet.eval_special hpair hname rfl hlists

/-- The form of a body is evaluated as the body is, one level below. -/
theorem endsLike_bodyForm (p : Position) (fs : List Form) (hst : Relocated m s.store t.store)
    (hshown : t.store.Shows apart (Skeleton.body p fs) v (vs.map (Value.relocated m))) :
    EndsLike m s t (nestedBody host env vs n s) (eval host n env v t) := by
  cases n with
  | zero => exact .error (.refl hst) .exhausted
  | succ n =>
    have hlength := hshown.length_eq
    rw [List.length_map, Skeleton.parts_body] at hlength
    cases fs with
    | nil =>
      obtain rfl := List.length_eq_zero_iff.1 hlength
      cases hshown with
      | rest h =>
        have htrue : v.datum = .atom (.bool true) := Datum.eq_of_leaf? h
        rw [eval_atom htrue (by rw [Value.symbol?, htrue])]
        exact .ok (.refl hst) htrue
    | cons f fs =>
      rw [hshown.eval_special rfl]
      obtain ⟨form, forms, rfl, -⟩ := List.length_eq_succ_iff.1 hlength
      exact .locating _ (.of_endsAlike (Follows.evalSequence (Follows.eval host n) (form :: forms) s t hst))

theorem nested_eq_none {p : Position} {cs : List Clause} {more : List Form}
    (h : Skeleton.nested p cs more = none) : cs = [] ∧ more = [] := by
  cases cs with
  | nil =>
    cases more with
    | nil => exact ⟨rfl, rfl⟩
    | cons => cases h
  | cons c cs =>
    rw [Skeleton.nested] at h
    split at h <;> cases h

theorem nestedIf_eq_none {p : Position} {cs : List Clause} {more : List Form}
    (h : nestedIf p cs more = none) : cs = [] ∧ more = [] := by
  rw [← Skeleton.map_form_nested, Option.map_eq_none_iff] at h
  exact nested_eq_none h

/-- The row of nested forms is evaluated as the branches are, each one level below the one before. -/
theorem endsLike_nested (p : Position) (cs : List Clause) (more : List Form) {k : Skeleton}
    (hk : Skeleton.nested p cs more = some k) (hst : Relocated m s.store t.store)
    (hshown : t.store.Shows (fun c => ∀ d, m d ≠ c) k v (vs.map (Value.relocated m))) :
    EndsLike m s t ((branchesOf cs vs).nested host env n s) (eval host n env v t) := by
  induction cs generalizing s t vs v k n with
  | nil =>
    cases more with
    | nil => cases hk
    | cons f fs =>
      obtain rfl := Option.some.inj hk
      have hlength := hshown.length_eq
      rw [List.length_map, Skeleton.parts_listAt, List.flatMap_cons, Skeleton.flatMap_parts_part] at hlength
      obtain ⟨form, forms, rfl, -⟩ := List.length_eq_succ_iff.1 hlength
      cases n with
      | zero => exact .error (.refl hst) .exhausted
      | succ n =>
        rw [hshown.eval_special rfl]
        exact .locating _ (.of_endsAlike (Follows.evalCond (Follows.eval host n) (form :: forms) s t hst))
  | cons c cs ih =>
    rw [Skeleton.nested] at hk
    cases hc : c.isElse with
    | true =>
      rw [hc, if_pos rfl] at hk
      obtain rfl := Option.some.inj hk
      rw [branchesOf, hc, if_pos rfl]
      exact endsLike_bodyForm p c.body hst hshown
    | false =>
      rw [hc, if_neg (by simp)] at hk
      obtain rfl := Option.some.inj hk
      obtain ⟨x, forms, rest, w, others, rfl, hlength, hbody, hothers, hrest, heval⟩ := hshown.conditional
      rw [branchesOf_test hc cs x hlength rest]
      cases n with
      | zero => exact .error (.refl hst) .exhausted
      | succ n =>
        rw [heval]
        refine .locating _ ?_
        have hthen : ∀ s' t', Abreast m s t s' t' →
            EndsLike m s' t' (nestedBody host env forms n s') (eval host n env w t') := fun s' t' h =>
          endsLike_bodyForm p c.body h.stores (hbody.abreast h)
        cases hnested : Skeleton.nested p cs more with
        | none =>
          -- nothing is left, and an `if` without an alternative comes to the empty list
          obtain ⟨rfl, rfl⟩ := nested_eq_none hnested
          rw [hnested] at hothers
          cases hothers
          obtain rfl := List.map_eq_nil_iff.1 hrest.symm
          refine .bind (Follows.eval host n env x s t hst) fun _ s' t' h => ?_
          exact .test "cond" "if" h.stores (fun _ => hthen s' t' h) (.ok (.refl h.stores) rfl)
        | some k =>
          rw [hnested] at hothers
          cases hothers with
          | cons hother hnil =>
            cases hnil
            rw [List.flatMap_singleton] at hrest
            rw [hrest] at hother
            refine .bind (Follows.eval host n env x s t hst) fun _ s' t' h => ?_
            refine .test "cond" "if" h.stores (fun _ => hthen s' t' h) ?_
            exact ih hnested h.stores (hother.abreast h)

end

/-! ## The main statement -/

/-- Nothing in the store of a session refers to anything that was never made. -/
theorem Session.closed_of_reaches {policy : WarnPolicy} {s : Store} (h : Session.Reaches policy s) :
    s.Closed := by
  obtain ⟨calls, rfl | ⟨m, hm, rfl⟩⟩ := h
  · exact Session.closed_ofCalls policy calls
  · have hinv := History.upheld_ofCalls
      (fun host => (confined host {} {}).recalling (fun m => m.store.Closed) fun hw _ => hw)
      (fun h => h) (fun h => h) (fun _ _ _ _ => trivial) (fun _ _ _ => trivial) policy
      (.ofFiles fun _ => .error .notFound) ⟨Store.closed_empty policy, by simp⟩ Nat.one_pos calls
    exact hinv.1.2 m hm

/-- The form is read from `file` in the state `s` and evaluated in `env`, to a depth that is enough for it, and
this is how it ends. -/
def Form.EndsIn (host : Host) (env : FrameId) (file : String) (s : State) (f : Form)
    (r : EStateM.Result Stop State Value) : Prop :=
  (∀ t, r ≠ .error .exhausted t) ∧
    ∃ n, eval host n env (s.store.ofForm file f).1 ⟨(s.store.ofForm file f).2, s.log⟩ = r

/-- Two states are the same but for where their pairs are, and but for pairs that nothing refers to: both hold
all that `u` holds, down to the provenance of every value, and the pairs of `s` are where they were. -/
structure SameStates (s u : Store) (m m' : CellId → CellId) (a b : State) : Prop where
  left : Relocated m u a.store
  right : Relocated m' u b.store
  fixed : ∀ c, s.Holds (.cell c) → m c = c ∧ m' c = c
  logs : a.log = b.log

/-- Two runs that began with the pairs of `s` ended in the same state, with the same value or for the same
reason, errors by their kind. -/
inductive SameEnd (s : Store) : EStateM.Result Stop State Value → EStateM.Result Stop State Value → Prop
  | value {u : Store} {m m' : CellId → CellId} {a b : State} {v w : Value} {x : Datum}
      (h : SameStates s u m m' a b) (hv : v.datum = x.relocated m) (hw : w.datum = x.relocated m') :
      SameEnd s (.ok v a) (.ok w b)
  | raised {u : Store} {m m' : CellId → CellId} {a b : State} {e e' : Error}
      (h : SameStates s u m m' a b) (hkind : e.kind = e'.kind) :
      SameEnd s (.error (.raised e) a) (.error (.raised e') b)
  | withheld {u : Store} {m m' : CellId → CellId} {a b : State} {p : Primitive}
      (h : SameStates s u m m' a b) : SameEnd s (.error (.withheld p) a) (.error (.withheld p) b)

section

variable {s : Store} {m m' : CellId → CellId} {σ a b : State} {r r₁ r₂ : EStateM.Result Stop State Value}

theorem EndsLike.finished (h : EndsLike m σ a r r₁) :
    (∀ t, r ≠ .error .exhausted t) ↔ ∀ t, r₁ ≠ .error .exhausted t := by
  cases h with
  | ok => simp
  | error _ hwhy => cases hwhy <;> simp

/-- What ends as the same run does ends the same. -/
theorem EndsLike.sameEnd (h₁ : EndsLike m σ a r r₁) (h₂ : EndsLike m' σ b r r₂)
    (hfixed : ∀ c, s.Holds (.cell c) → m c = c ∧ m' c = c) (hlog : a.log = b.log)
    (hfinished : ∀ t, r ≠ .error .exhausted t) : SameEnd s r₁ r₂ := by
  have hstates : ∀ {σ' a' b'}, Abreast m σ a σ' a' → Abreast m' σ b σ' b' →
      SameStates s σ'.store m m' a' b' := by
    intro σ' a' b' ha hb
    obtain ⟨entries, hσ, ha'⟩ := ha.logs
    obtain ⟨entries', hσ', hb'⟩ := hb.logs
    have hentries : entries = entries' := Array.append_right_inj σ.log |>.1 (hσ.symm.trans hσ')
    exact ⟨ha.stores, hb.stores, hfixed, by rw [ha', hb', hlog, hentries]⟩
  cases h₁ with
  | ok ha hv =>
    cases h₂ with
    | ok hb hw => exact .value (hstates ha hb) hv hw
  | error ha hwhy =>
    cases h₂ with
    | error hb hwhy' =>
      cases hwhy with
      | raised he =>
        cases hwhy' with
        | raised he' => exact .raised (hstates ha hb) (he.symm.trans he')
      | exhausted => exact absurd rfl (hfinished _)
      | withheld p =>
        cases hwhy' with
        | withheld => exact .withheld (hstates ha hb)

/-- Of two computations one does what the other does, if it comes to an end. -/
theorem Run.UpTo.eq_of_finished {act act' : Run Value} (h : UpTo .exhausted act act')
    (hfinished : ∀ t, act' σ ≠ .error .exhausted t) : act σ = act' σ :=
  ((h σ).resolve_right fun ⟨t, ht⟩ => hfinished t ht).symm

/-- A `cond` that is read from a file ends as the branches do that are made from what is evaluated in it. -/
theorem exists_endsLike_cond (hclosed : s.Closed) (host : Host) (env : FrameId) (log : Array LogEntry)
    (file : String) {q : Position} {f : Form} {cs : List Clause} {more : List Form}
    (written : f.elements? = some (.atom q (.symbol "cond") :: (cs.map Clause.form ++ more))) :
    let made := s.ofForms file (branchForms cs more)
    ∃ m, (∀ c, s.Holds (.cell c) → m c = c) ∧ ∀ n, EndsLike m ⟨made.2, log⟩ ⟨(s.ofForm file f).2, log⟩
      ((branchesOf cs made.1).eval (eval host n) env ⟨made.2, log⟩)
      (eval host (n + 1) env (s.ofForm file f).1 ⟨(s.ofForm file f).2, log⟩) := by
  have hwritten : f.elements? = some
      (.atom q (.symbol "cond") :: (Skeleton.clauses cs more).map Skeleton.form) := by
    rw [Skeleton.map_form_clauses]
    exact written
  obtain ⟨m, hstores, hshown, hsame⟩ := Store.exists_shown hclosed file
    (.list f (.rest (.atom q (.symbol "cond")) :: Skeleton.clauses cs more))
  rw [Skeleton.form_list hwritten, Skeleton.parts_list hwritten, List.flatMap_cons,
    Skeleton.flatMap_parts_clauses, Skeleton.parts, List.nil_append] at hstores hshown
  refine ⟨m, hsame, fun n => ?_⟩
  obtain ⟨c, xs, hpair, hname, hall, hlists, hvs⟩ := hshown.operands hwritten
  rw [eval_special (s := ⟨_, log⟩) hpair hname rfl hlists]
  exact .locating _ (endsLike_evalCond cs more hstores hall hvs.symm)

/-- The nested form ends as the same branches do, nested. -/
theorem exists_endsLike_nested (hclosed : s.Closed) (host : Host) (env : FrameId) (log : Array LogEntry)
    (file : String) {p : Position} {g : Form} {cs : List Clause} {more : List Form}
    (hg : nestedIf p cs more = some g) :
    let made := s.ofForms file (branchForms cs more)
    ∃ m, (∀ c, s.Holds (.cell c) → m c = c) ∧ ∀ n, EndsLike m ⟨made.2, log⟩ ⟨(s.ofForm file g).2, log⟩
      ((branchesOf cs made.1).nested host env n ⟨made.2, log⟩)
      (eval host n env (s.ofForm file g).1 ⟨(s.ofForm file g).2, log⟩) := by
  rw [← Skeleton.map_form_nested] at hg
  obtain ⟨k, hk, rfl⟩ := Option.map_eq_some_iff.1 hg
  have hparts := Skeleton.flatMap_parts_nested p cs more
  rw [hk, Option.toList_some, List.flatMap_singleton] at hparts
  obtain ⟨m, hstores, hshown, hsame⟩ := Store.exists_shown hclosed file k
  rw [hparts] at hstores hshown
  exact ⟨m, hsame, fun n => endsLike_nested p cs more hk hstores hshown⟩

end

/-- `cond` means nested `if`.  A `cond` and the row of nested forms, read in the same state of a session and
evaluated in the same environment, come to the same: if one of them comes to an end, so does the other, with
the same value, or the same kind of error, and in the same state.  The clauses may be followed by anything: it
stays in a `cond` that is the innermost alternative, so it is neither evaluated nor looked at once a test is
true. -/
theorem cond_means_nested_if (policy : WarnPolicy) (s : Store) (reached : Session.Reaches policy s)
    (host : Host) (env : FrameId) (log : Array LogEntry) (file : String) (p q : Position) (f : Form)
    (clauses : List Clause) (more : List Form) (nonempty : clauses ≠ [])
    (written : f.elements? = some (.atom q (.symbol "cond") :: (clauses.map Clause.form ++ more))) :
    ∃ g, nestedIf p clauses more = some g ∧
      (∀ r, f.EndsIn host env file ⟨s, log⟩ r →
        ∃ r', g.EndsIn host env file ⟨s, log⟩ r' ∧ SameEnd s r r') ∧
      ∀ r', g.EndsIn host env file ⟨s, log⟩ r' →
        ∃ r, f.EndsIn host env file ⟨s, log⟩ r ∧ SameEnd s r r' := by
  have hclosed := Session.closed_of_reaches reached
  obtain ⟨g, hg⟩ : ∃ g, nestedIf p clauses more = some g :=
    Option.ne_none_iff_exists'.1 fun hnone => nonempty (nestedIf_eq_none hnone).1
  obtain ⟨m₁, hsame₁, hcond⟩ := exists_endsLike_cond hclosed host env log file written
  obtain ⟨m₂, hsame₂, hnested⟩ := exists_endsLike_nested hclosed host env log file hg
  generalize s.ofForms file (branchForms clauses more) = made at hcond hnested
  obtain ⟨vs, b⟩ := made
  have hplaces : ∀ c, s.Holds (.cell c) → m₁ c = c ∧ m₂ c = c := fun c hc => ⟨hsame₁ c hc, hsame₂ c hc⟩
  refine ⟨g, hg, ?_, ?_⟩
  · rintro _ ⟨hfinished, n, rfl⟩
    cases n with
    | zero => exact absurd rfl (hfinished _)
    | succ n =>
      -- the nested form needs as much more depth as there are levels
      have hspec := (hcond n).finished.2 hfinished
      have hsame : (branchesOf clauses vs).nested host env (n + (branchesOf clauses vs).depth) ⟨b, log⟩ =
          (branchesOf clauses vs).eval (eval host n) env ⟨b, log⟩ :=
        ((branchesOf clauses vs).upTo_eval le_rfl).eq_of_finished hspec
      have hends := hnested (n + (branchesOf clauses vs).depth)
      rw [hsame] at hends
      exact ⟨_, ⟨hends.finished.1 hspec, _, rfl⟩, (hcond n).sameEnd hends hplaces rfl hspec⟩
  · rintro _ ⟨hfinished, n, rfl⟩
    have hspec := (hnested n).finished.2 hfinished
    have hsame : (branchesOf clauses vs).eval (eval host n) env ⟨b, log⟩ =
        (branchesOf clauses vs).nested host env n ⟨b, log⟩ :=
      ((branchesOf clauses vs).upTo_nested le_rfl).eq_of_finished hspec
    have hends := hcond n
    rw [hsame] at hends
    exact ⟨_, ⟨hends.finished.1 hspec, _, rfl⟩, hends.sameEnd (hnested n) hplaces rfl hspec⟩

/-- The tests `(null? (define x (list 1)))` and `#t`. -/
def definingTest : List Clause :=
  let p : Position := ⟨1, 1⟩
  let one : Form := .listAt p [.atom p (.symbol "list"), .atom p (.number (.int 1))]
  let test : Form := .listAt p [.atom p (.symbol "null?"),
    .listAt p [.atom p (.symbol "define"), .atom p (.symbol "x"), one]]
  [⟨.listAt p [test, .atom p (.number (.int 2))], test, [.atom p (.number (.int 2))], rfl⟩,
    ⟨.listAt p [.atom p (.bool true)], .atom p (.bool true), [], rfl⟩]

/-- Behind these clauses stands a number, which is no clause. -/
theorem cond_means_nested_if_defining :
    let s := (Session.new .abort).state.store
    let host : Host := .ofFiles fun _ => .error .notFound
    let p : Position := ⟨1, 1⟩
    let more : List Form := [.atom p (.number (.int 3))]
    let f : Form := .listAt p (.atom p (.symbol "cond") :: (definingTest.map Clause.form ++ more))
    Session.Reaches .abort s ∧ definingTest ≠ [] ∧
      f.elements? = some (.atom p (.symbol "cond") :: (definingTest.map Clause.form ++ more)) ∧
      ∃ g v t r', nestedIf p definingTest more = some g ∧ v.bool? = some true ∧
        f.EndsIn host ⟨0⟩ "a" ⟨s, #[]⟩ (.ok v t) ∧ g.EndsIn host ⟨0⟩ "a" ⟨s, #[]⟩ r' ∧
        SameEnd s (.ok v t) r' := by
  intro s host p more f
  have reached : Session.Reaches .abort s := ⟨[], Or.inl rfl⟩
  have nonempty : definingTest ≠ [] := by simp [definingTest]
  have written := Form.elements?_listAt p (.atom p (.symbol "cond") :: (definingTest.map Clause.form ++ more))
  -- the first test is false and the second is true
  have hvalue : ((eval host 9 ⟨0⟩ (s.ofForm "a" f).1).run' ⟨(s.ofForm "a" f).2, #[]⟩).bind Value.bool? =
      some true := by decide +kernel
  delta EStateM.run' EStateM.run at hvalue
  generalize hrun : eval host 9 ⟨0⟩ (s.ofForm "a" f).1 ⟨(s.ofForm "a" f).2, #[]⟩ = r at hvalue
  cases r with
  | error => cases hvalue
  | ok v t =>
    have hends : f.EndsIn host ⟨0⟩ "a" ⟨s, #[]⟩ (.ok v t) := ⟨by simp, 9, hrun⟩
    obtain ⟨g, hg, hthere, -⟩ := cond_means_nested_if .abort s reached host ⟨0⟩ #[] "a" p p f
      definingTest more nonempty written
    obtain ⟨r', hr', hsame⟩ := hthere _ hends
    exact ⟨reached, nonempty, written, g, v, t, r', hg, hvalue, hends, hr', hsame⟩

end Lisplet
