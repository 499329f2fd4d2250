/-
# Lisplet.Proofs.Evaluator.Calls -- a call of a primitive, as a form

A form that calls a primitive by its name takes two levels of evaluation of its own: one for the form and
one, below it, for the name and the operands.  The values of the operands are put into a new list, and
the primitive is called with that (`eval_call`).  What is left is a statement about the primitive alone.
-/

import Lisplet.Evaluator
import Lisplet.Proofs.HashTables
import Lisplet.Proofs.ListWalks

namespace Lisplet

open Run

namespace Store

variable {s t : Store}

/-- A pair in front of a list. -/
theorem lists_of_pair {v : Value} {c : CellId} (hv : v.datum = .pair c) {vs : List Value}
    (hrest : s.Lists ((s.cell c).cdr.getD .nil) vs) : s.Lists v ((s.cell c).car :: vs) := by
  refine Or.inr ⟨c, hv, ?_⟩
  cases hcdr : (s.cell c).cdr with
  | none =>
    rw [hcdr] at hrest
    rcases hrest with ⟨-, rfl⟩ | ⟨d, hd, -⟩
    · exact .last hcdr
    · cases hd
  | some rest =>
    rw [hcdr] at hrest
    rcases hrest with ⟨hnil, rfl⟩ | ⟨d, hd, hchain⟩
    · exact .nil hcdr hnil
    · exact .next hcdr hd hchain

/-- A new list has the elements it was made of. -/
theorem lists_ofList (vs : List Value) (s : Store) : (s.ofList vs).2.Lists (s.ofList vs).1 vs := by
  obtain ⟨passed, h⟩ := madeAfresh_ofList vs s
  refine elements_eq_ok_iff.1 ?_
  rw [elements_of_takes h.takes, outcome, h.elements]

/-! ## Stores that grow -/

/-- Nothing was changed, and what is new are pairs. -/
structure Grows (s t : Store) : Prop where
  kept : s.Extends t
  tables : t.tables = s.tables
  closures : t.closures = s.closures
  frames : t.frames = s.frames

namespace Grows

variable {u : Store}

theorem refl (s : Store) : s.Grows s := ⟨.refl s, rfl, rfl, rfl⟩

theorem trans (h : s.Grows t) (h' : t.Grows u) : s.Grows u :=
  ⟨h.kept.trans h'.kept, h'.tables.trans h.tables, h'.closures.trans h.closures,
    h'.frames.trans h.frames⟩

theorem cons (s : Store) (a d : Value) : s.Grows (s.cons a d).2 :=
  ⟨(adds_cons s a d).extends, rfl, rfl, rfl⟩

theorem ofList (vs : List Value) (s : Store) : s.Grows (s.ofList vs).2 := by
  induction vs with
  | nil => exact refl s
  | cons v vs ih => exact ih.trans (cons _ _ _)

theorem ofForm (file : String) (f : Form) (s : Store) : s.Grows (s.ofForm file f).2 := by
  induction f generalizing s with
  | atom | empty => exact refl s
  | single p car ih => exact (ih s).trans (cons _ _ _)
  | pair p car cdr ihcar ihcdr => exact ((ihcar s).trans (ihcdr _)).trans (cons _ _ _)

theorem ofForms (file : String) (fs : List Form) (s : Store) : s.Grows (s.ofForms file fs).2 := by
  obtain ⟨hframes, hclosures⟩ := frames_ofForms file fs s
  exact ⟨extends_ofForms file fs s, tables_ofForms file fs s, hclosures, hframes⟩

end Grows

end Store

/-! ## Calls -/

theorem Value.datum_of_symbol? {v : Value} {name : String} (h : v.symbol? = some name) :
    v.datum = .atom (.symbol name) := by
  unfold Value.symbol? at h
  split at h
  · next hd =>
    cases h
    exact hd
  · cases h

section

variable {host : Host} {n : Nat} {env : FrameId} {form : Value} {s t : State}

theorem eval_symbol {name : String} {v : Value} (hname : form.symbol? = some name)
    (hbound : s.store.lookup env name = some v) : eval host (n + 1) env form s = .ok v s := by
  simp only [eval, step, Value.datum_of_symbol? hname, locating, Run.check, hbound]

/-- An atom other than a symbol means itself. -/
theorem eval_atom {a : Atom} (hatom : form.datum = .atom a) (hplain : form.symbol? = none) :
    eval host (n + 1) env form s = .ok form s := by
  cases a with
  | symbol name => simp [Value.symbol?, hatom] at hplain
  | number | bool | string =>
    simp only [eval, step, hatom]
    rfl

theorem operandsOf_of_lists {rest : Option Value} {operands : List Value}
    (h : s.store.Lists (rest.getD .nil) operands) : operandsOf rest s = .ok operands s := by
  cases rest with
  | none =>
    rcases h with ⟨-, rfl⟩ | ⟨c, hc, -⟩
    · rfl
    · cases hc
  | some list =>
    exact check_of_ok (f := (·.listElements list)) (Store.listElements_of_lists h)

/-- A form that begins with the name of a special form: the operands are those behind the name, as they are. -/
theorem eval_special {c : CellId} {name : String} {special : SpecialForm} {operands : List Value}
    (hpair : form.datum = .pair c) (hname : (s.store.cell c).car.symbol? = some name)
    (hspecial : SpecialForm.ofName? name = some special)
    (hrest : s.store.Lists ((s.store.cell c).cdr.getD .nil) operands) :
    eval host (n + 1) env form s = locating form.provenance
      (evalSpecial (eval host n) env form.provenance.location special operands) s := by
  have hpairs : evalPair host (eval host n) env form.provenance.location (s.store.cell c) s =
      evalSpecial (eval host n) env form.provenance.location special operands s := by
    simp only [evalPair, hname, Option.bind_some, hspecial]
    rw [bind_of_ok (operandsOf_of_lists hrest)]
  have hstep : eval host (n + 1) env form s = locating form.provenance
      (evalPair host (eval host n) env form.provenance.location (s.store.cell c)) s := by
    simp only [eval, step, hpair]
    rfl
  rw [hstep]
  simp only [locating, hpairs]

/-- A form that calls a primitive: the primitive is called with a new list of the operands' values, and
an error without a location takes that of the form. -/
theorem eval_call {c : CellId} {name : String} {func : Value} {p : Primitive} {operands vs : List Value}
    (hpair : form.datum = .pair c) (hname : (s.store.cell c).car.symbol? = some name)
    (hplain : SpecialForm.ofName? name = none) (hbound : s.store.lookup env name = some func)
    (hfunc : func.datum = .native p) (hpermits : host.permits p = true)
    (hrest : s.store.Lists ((s.store.cell c).cdr.getD .nil) operands)
    (hargs : evalAll (eval host (n + 1)) env operands s = .ok vs t) :
    eval host (n + 2) env form s = locating form.provenance
      (p.call host (eval host (n + 1)) env (t.store.ofList vs).1) ⟨(t.store.ofList vs).2, t.log⟩ := by
  have hpairs : evalPair host (eval host (n + 1)) env form.provenance.location (s.store.cell c) s =
      p.call host (eval host (n + 1)) env (t.store.ofList vs).1 ⟨(t.store.ofList vs).2, t.log⟩ := by
    simp only [evalPair, hname, Option.bind_some, hplain]
    rw [bind_of_ok (eval_symbol hname hbound), bind_of_ok (operandsOf_of_lists hrest), bind_of_ok hargs]
    simp only [apply, hfunc, hpermits, if_true]
    rfl
  have hstep : eval host (n + 2) env form s = locating form.provenance
      (evalPair host (eval host (n + 1)) env form.provenance.location (s.store.cell c)) s := by
    simp only [eval, step, hpair]
    rfl
  rw [hstep]
  simp only [locating, hpairs]

end

end Lisplet
