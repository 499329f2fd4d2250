/-
# Lisplet.Proofs.Store.Forms -- forms as values of a store

`Depicts s file v f` says that in the store `s` the value `v` is the tree `f`, read from `file`: the
same atoms, the same pairs, and every node where the form has it.  A form is made into exactly such a
value (`depicts_ofForm`), provided that none of its rests is the empty list.  What a form is made into
later does not disturb the values made before it.  Reading a text makes its forms into values, and
changes nothing if the text cannot be read (`readSource_eq`).
-/

import Mathlib.Tactic
import Lisplet.Evaluator.Sequence
import Lisplet.Proofs.Store.Contents

namespace Lisplet

/-- No rest in the tree is the empty list. -/
def Form.Folded : Form → Prop
  | .atom _ _ | .empty _ => True
  | .single _ car => car.Folded
  | .pair _ car cdr => car.Folded ∧ cdr.Folded ∧ ∀ p, cdr ≠ .empty p

theorem Form.folded_cons (p : Position) {car : Form} (hcar : car.Folded) {cdr : Option Form}
    (hcdr : ∀ f ∈ cdr, f.Folded) : (Form.cons p car cdr).Folded := by
  match cdr with
  | none | some (.empty _) => exact hcar
  | some (.atom _ _) | some (.single _ _) | some (.pair _ _ _) =>
    exact ⟨hcar, hcdr _ rfl, fun _ h => by cases h⟩

namespace Store

/-- In the store, the value is the tree, with every node at its position in `file`. -/
inductive Depicts (s : Store) (file : String) : Value → Form → Prop
  | atom (p : Position) (a : Atom) : Depicts s file ⟨.atom a, .ofLocation (p.inFile file)⟩ (.atom p a)
  | empty (p : Position) : Depicts s file ⟨.nil, .ofLocation (p.inFile file)⟩ (.empty p)
  | single (p : Position) {c : CellId} {v : Value} {car : Form} (hc : c.index < s.cells.size)
      (hcell : s.cell c = ⟨v, none⟩) (hcar : Depicts s file v car) :
      Depicts s file ⟨.pair c, .ofLocation (p.inFile file)⟩ (.single p car)
  | pair (p : Position) {c : CellId} {v w : Value} {car cdr : Form} (hc : c.index < s.cells.size)
      (hcell : s.cell c = ⟨v, some w⟩) (hcar : Depicts s file v car) (hcdr : Depicts s file w cdr) :
      Depicts s file ⟨.pair c, .ofLocation (p.inFile file)⟩ (.pair p car cdr)

variable {s t : Store} {file : String} {v : Value} {f : Form}

/-- What is made later does not disturb a depicted form. -/
theorem Depicts.extends (h : s.Depicts file v f) (hst : s.Extends t) : t.Depicts file v f := by
  induction h with
  | atom p a => exact .atom p a
  | empty p => exact .empty p
  | single p hc hcell _ ih =>
    obtain ⟨hc', heq⟩ := hst.cell_eq hc
    exact .single p hc' (heq.trans hcell) ih
  | pair p hc hcell _ _ ih ih' =>
    obtain ⟨hc', heq⟩ := hst.cell_eq hc
    exact .pair p hc' (heq.trans hcell) ih ih'

/-- The value stands where the tree does. -/
theorem Depicts.provenance (h : s.Depicts file v f) : v.provenance = .ofLocation (f.position.inFile file) := by
  cases h <;> rfl

theorem Depicts.isNil_eq_false (h : s.Depicts file v f) (hf : ∀ p, f ≠ .empty p) : v.isNil = false := by
  cases h with
  | atom | single | pair => rfl
  | empty p => exact absurd rfl (hf p)

/-- A form is made into a value that depicts it. -/
theorem depicts_ofForm (file : String) (hf : f.Folded) (s : Store) :
    (s.ofForm file f).2.Depicts file (s.ofForm file f).1 f := by
  induction f generalizing s with
  | atom p a => exact .atom p a
  | empty p => exact .empty p
  | single p car ih =>
    have hadds := adds_cons (s.ofForm file car).2 (s.ofForm file car).1 .nil
    exact .single p (by simp [ofForm, cons]) (cell_cons_self _ _ _) ((ih hf s).extends hadds.extends)
  | pair p car cdr ihcar ihcdr =>
    obtain ⟨hcar, hcdr, hne⟩ := hf
    have hcdr' := ihcdr hcdr (s.ofForm file car).2
    have hcar' := (ihcar hcar s).extends (extends_ofForm file cdr _)
    have hadds := adds_cons ((s.ofForm file car).2.ofForm file cdr).2 (s.ofForm file car).1
      ((s.ofForm file car).2.ofForm file cdr).1
    have hcell := cell_cons_self ((s.ofForm file car).2.ofForm file cdr).2 (s.ofForm file car).1
      ((s.ofForm file car).2.ofForm file cdr).1
    rw [restOf, hcdr'.isNil_eq_false hne] at hcell
    exact .pair p (by simp [ofForm, cons]) hcell (hcar'.extends hadds.extends)
      (hcdr'.extends hadds.extends)

theorem extends_ofForms (file : String) (fs : List Form) (s : Store) :
    s.Extends (s.ofForms file fs).2 := by
  induction fs generalizing s with
  | nil => exact Extends.refl s
  | cons f fs ih => exact (extends_ofForm file f s).trans (ih _)

theorem ofForms_append (file : String) (fs gs : List Form) (s : Store) :
    s.ofForms file (fs ++ gs) = ((s.ofForms file fs).1 ++ ((s.ofForms file fs).2.ofForms file gs).1,
      ((s.ofForms file fs).2.ofForms file gs).2) := by
  induction fs generalizing s with
  | nil => rfl
  | cons f fs ih => simp [ofForms, ih]

/-- Forms are made into values that depict them, one by one and in order. -/
theorem depicts_ofForms (file : String) {fs : List Form} (hfs : ∀ f ∈ fs, f.Folded) (s : Store) :
    List.Forall₂ ((s.ofForms file fs).2.Depicts file) (s.ofForms file fs).1 fs := by
  induction fs generalizing s with
  | nil => exact .nil
  | cons f fs ih =>
    obtain ⟨hf, hfs⟩ := List.forall_mem_cons.1 hfs
    have hfirst := depicts_ofForm file hf s
    exact .cons (hfirst.extends (extends_ofForms file fs _)) (ih hfs _)

end Store

/-! ## Texts -/

theorem forM_note (forms : List Form) (entry : Form → LogEntry) (state : State) :
    (forms.forM fun form => Run.note (entry form)) state =
      .ok () ⟨state.store, state.log ++ (forms.map entry).toArray⟩ := by
  induction forms generalizing state with
  | nil => simp [pure, EStateM.pure]
  | cons form forms ih =>
    have hrest := ih ⟨state.store, state.log.push (entry form)⟩
    rw [← Array.toList_inj.1 (by simp : (state.log.push (entry form) ++ (forms.map entry).toArray).toList =
      (state.log ++ ((form :: forms).map entry).toArray).toList)]
    exact hrest

/-- What is logged of forms that are read from `file`. -/
def Form.notes (file : String) (forms : List Form) : Array LogEntry :=
  (forms.map fun form => LogEntry.read form.text (form.position.inFile file)).toArray

/-- The store is changed only by a text that can be read to its end, and then holds its forms. -/
theorem readSource_eq (text file : String) (state : State) :
    readSource text file state =
      match (Reading.ofText text).toExcept with
      | .ok forms => .ok (state.store.ofForms file forms).1
          ⟨(state.store.ofForms file forms).2, state.log ++ Form.notes file forms⟩
      | .error e => .error (.raised (.ofReadError e file))
          ⟨state.store, state.log ++ Form.notes file (Reading.ofText text).forms⟩ := by
  have hlog := forM_note (Reading.ofText text).forms
    (fun form => .read form.text (form.position.inFile file)) state
  unfold readSource Reading.toExcept
  simp only [bind, EStateM.bind, hlog]
  cases (Reading.ofText text).error <;> rfl

end Lisplet
