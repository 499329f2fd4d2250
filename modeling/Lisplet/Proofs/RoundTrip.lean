/-
# Lisplet.Proofs.RoundTrip -- what is written reads back

Data is readable when it is a finite tree of pairs over atoms whose written form reads back.  Its
written form is then the text of one form, and reading it makes a copy: the same tree with the same
atoms, in pairs of its own.

`Spells s v f` ties the two sides together: in the store `s`, the value `v` is the tree `f`.  A tree
is no part of itself, so the printer never comes back to a pair it is inside of and writes the text of
the tree (`text_of_spells`); and a form that was read as the tree makes a value that is the tree again
(`spells_ofForm`).
-/

import Mathlib.Tactic
import Lisplet.Evaluator.Sequence
import Lisplet.Proofs.Bisimulation
import Lisplet.Proofs.Form.Reading
import Lisplet.Proofs.Store.Printing

namespace Lisplet

theorem Atom.Readable.same {a : Atom} (h : a.Readable) : a.Same a := by
  match a with
  | .symbol name => exact .symbol name
  | .number (.int n) => exact .int n
  | .number (.float x) => exact .float (.finite h h rfl)
  | .string content => exact .string content
  | .bool b => exact .bool b

namespace Store

variable {s t : Store} {v w : Value}

/-! ## Readable data -/

/-- Finite trees of pairs over readable atoms and the empty list, where no rest is the empty list. -/
inductive Readable (s : Store) : Value → Prop
  | nil {v : Value} (h : v.datum = .nil) : Readable s v
  | atom {v : Value} {a : Atom} (h : v.datum = .atom a) (ha : a.Readable) : Readable s v
  | last {v : Value} {c : CellId} (h : v.datum = .pair c) (hc : c.index < s.cells.size)
      (hcdr : (s.cell c).cdr = none) (car : Readable s (s.cell c).car) : Readable s v
  | pair {v rest : Value} {c : CellId} (h : v.datum = .pair c) (hc : c.index < s.cells.size)
      (hcdr : (s.cell c).cdr = some rest) (hrest : rest.isNil = false)
      (car : Readable s (s.cell c).car) (cdr : Readable s rest) : Readable s v

/-- Two values, each in its store, are trees of one structure with the same atoms. -/
inductive SameTree (s t : Store) : Value → Value → Prop
  | nil {v w : Value} (hv : v.datum = .nil) (hw : w.datum = .nil) : SameTree s t v w
  | atom {v w : Value} {a : Atom} (hv : v.datum = .atom a) (hw : w.datum = .atom a) : SameTree s t v w
  | last {v w : Value} {c d : CellId} (hv : v.datum = .pair c) (hw : w.datum = .pair d)
      (hc : (s.cell c).cdr = none) (hd : (t.cell d).cdr = none)
      (car : SameTree s t (s.cell c).car (t.cell d).car) : SameTree s t v w
  | pair {v w v' w' : Value} {c d : CellId} (hv : v.datum = .pair c) (hw : w.datum = .pair d)
      (hc : (s.cell c).cdr = some v') (hd : (t.cell d).cdr = some w')
      (car : SameTree s t (s.cell c).car (t.cell d).car) (cdr : SameTree s t v' w') : SameTree s t v w

/-- In the store `s`, the value is the tree `f`, all of it at the start of the text. -/
inductive Spells (s : Store) : Value → Form → Prop
  | nil {v : Value} (h : v.datum = .nil) : Spells s v (.empty .start)
  | atom {v : Value} {a : Atom} (h : v.datum = .atom a) : Spells s v (.atom .start a)
  | last {v : Value} {c : CellId} {car : Form} (h : v.datum = .pair c) (hc : c.index < s.cells.size)
      (hcdr : (s.cell c).cdr = none) (hcar : Spells s (s.cell c).car car) :
      Spells s v (.single .start car)
  | pair {v rest : Value} {c : CellId} {car cdr : Form} (h : v.datum = .pair c)
      (hc : c.index < s.cells.size) (hcdr : (s.cell c).cdr = some rest)
      (hcar : Spells s (s.cell c).car car) (hrest : Spells s rest cdr) :
      Spells s v (.pair .start car cdr)

theorem Spells.ne_empty {f : Form} (h : s.Spells v f) (hv : v.isNil = false) (p : Position) :
    f ≠ .empty p := by
  rintro rfl
  cases h with
  | nil h => simp [Value.isNil, h] at hv

/-- Readable data is a readable tree. -/
theorem Readable.spells (h : s.Readable v) : ∃ f, s.Spells v f ∧ f.Readable := by
  induction h with
  | nil h => exact ⟨_, .nil h, .empty⟩
  | atom h ha => exact ⟨_, .atom h, .atom ha⟩
  | last h hc hcdr _ ih =>
    obtain ⟨car, hcar, hreadable⟩ := ih
    exact ⟨_, .last h hc hcdr hcar, .single hreadable⟩
  | pair h hc hcdr hrest _ _ ih ih' =>
    obtain ⟨car, hcar, hreadable⟩ := ih
    obtain ⟨cdr, hcdr', hreadable'⟩ := ih'
    exact ⟨_, .pair h hc hcdr hcar hcdr', .pair hreadable hreadable' (hcdr'.ne_empty hrest)⟩

theorem Spells.unplaced_eq {f : Form} (h : s.Spells v f) : f.unplaced = f := by
  induction h with
  | nil | atom => rfl
  | last _ _ _ _ ih => simp [Form.unplaced, ih]
  | pair _ _ _ _ _ ih ih' => simp [Form.unplaced, ih, ih']

/-- A value is one tree at most. -/
theorem Spells.unique {f g : Form} (h : s.Spells v f) (hvw : v.datum = w.datum) (h' : s.Spells w g) :
    f = g := by
  induction h generalizing w g with
  | nil h =>
    rw [h] at hvw
    cases h' with
    | nil => rfl
    | atom h' | last h' | pair h' => rw [h'] at hvw; cases hvw
  | atom h =>
    rw [h] at hvw
    cases h' with
    | atom h' => rw [h'] at hvw; cases hvw; rfl
    | nil h' | last h' | pair h' => rw [h'] at hvw; cases hvw
  | last h hc hcdr _ ih =>
    rw [h] at hvw
    cases h' with
    | nil h' | atom h' => rw [h'] at hvw; cases hvw
    | last h' _ _ hcar' =>
      rw [h'] at hvw
      cases hvw
      rw [ih rfl hcar']
    | pair h' _ hcdr' =>
      rw [h'] at hvw
      cases hvw
      rw [hcdr] at hcdr'
      cases hcdr'
  | pair h hc hcdr _ _ ih ih' =>
    rw [h] at hvw
    cases h' with
    | nil h' | atom h' => rw [h'] at hvw; cases hvw
    | last h' _ hcdr' =>
      rw [h'] at hvw
      cases hvw
      rw [hcdr] at hcdr'
      cases hcdr'
    | pair h' _ hcdr' hcar' hrest' =>
      rw [h'] at hvw
      cases hvw
      rw [hcdr] at hcdr'
      cases hcdr'
      rw [ih rfl hcar', ih' rfl hrest']

theorem Spells.extends {f : Form} (h : s.Spells v f) (hst : s.Extends t) : t.Spells v f := by
  induction h with
  | nil h => exact .nil h
  | atom h => exact .atom h
  | last h hc hcdr _ ih =>
    obtain ⟨hc', hcell⟩ := hst.cell_eq hc
    exact .last h hc' (by rw [hcell, hcdr]) (by rwa [hcell])
  | pair h hc hcdr _ _ ih ih' =>
    obtain ⟨hc', hcell⟩ := hst.cell_eq hc
    exact .pair h hc' (by rw [hcell, hcdr]) (by rwa [hcell]) ih'

/-! ## Writing -/

/-- The text of a list between its parentheses. -/
def formInner : Form → String
  | .single _ car => car.text
  | .pair _ car cdr => car.text ++ cdr.restText
  | .atom _ _ | .empty _ => ""

theorem carText_of_spells {inner : CellId → String} {path : List CellId} {f : Form} (h : s.Spells v f)
    (hinner : ∀ d, v.datum = .pair d → d ∉ path ∧ inner d = formInner f) :
    carText inner path v = f.text := by
  cases h with
  | nil h => simp [carText, h, Datum.leafText, Form.text]
  | atom h => simp [carText, h, Datum.leafText, Form.text]
  | last h | pair h =>
    obtain ⟨hd, heq⟩ := hinner _ h
    simp [carText, h, hd, heq, formInner, Form.text, String.append_assoc]

theorem cdrText_of_spells {inner : CellId → String} {path : List CellId} {f : Form} (h : s.Spells v f)
    (hinner : ∀ d, v.datum = .pair d → d ∉ path ∧ inner d = formInner f) :
    cdrText inner path (some v) = f.restText := by
  cases h with
  | nil h => simp [cdrText, h, Form.restText]
  | atom h => simp [cdrText, h, Datum.leafText, Form.restText]
  | last h | pair h =>
    obtain ⟨hd, heq⟩ := hinner _ h
    simp [cdrText, h, hd, heq, formInner, Form.restText, String.append_assoc]

/-- The pairs of the path are all larger trees than `f`. -/
def Outside (s : Store) (path : List CellId) (f : Form) : Prop :=
  ∀ d ∈ path, ∀ w g, w.datum = .pair d → s.Spells w g → sizeOf f < sizeOf g

theorem Outside.not_mem {path : List CellId} {f : Form} (h : s.Outside path f) (hv : s.Spells v f)
    {c : CellId} (hc : v.datum = .pair c) : c ∉ path :=
  fun hmem => lt_irrefl _ (h c hmem v f hc hv)

theorem Outside.cons {path : List CellId} {f g : Form} (h : s.Outside path f) (hv : s.Spells v f)
    {c : CellId} (hc : v.datum = .pair c) (hlt : sizeOf g < sizeOf f) : s.Outside (c :: path) g := by
  intro d hd w e hw hwe
  -- `c` is one tree only, and that is `f`
  rcases List.mem_cons.1 hd with rfl | hd
  · rwa [← hv.unique (hc.trans hw.symm) hwe]
  · exact hlt.trans (h d hd w e hw hwe)

/-- A tree is written as it is inside larger ones. -/
theorem innerText_of_spells {f : Form} (h : s.Spells v f) {c : CellId} (hv : v.datum = .pair c)
    {n : Nat} (hn : sizeOf f ≤ n) {path : List CellId} (hpath : s.Outside path f) :
    s.innerText n path c = formInner f := by
  induction h generalizing c n path with
  | nil h | atom h => rw [h] at hv; cases hv
  | @last v c' car h hc hcdr hcar ih =>
    obtain rfl : c' = c := Datum.pair.inj (h.symm.trans hv)
    have hlt : sizeOf car < sizeOf (Form.single .start car) := by simp
    obtain ⟨n, rfl⟩ : ∃ m, n = m + 1 := ⟨n - 1, by omega⟩
    have hin := hpath.cons (.last h hc hcdr hcar) h hlt
    rw [innerText_succ, hcdr, carText_of_spells hcar fun d hd =>
      ⟨hin.not_mem hcar hd, ih hd (by omega) hin⟩]
    exact String.append_empty
  | @pair v rest c' car cdr h hc hcdr hcar hrest ih ih' =>
    obtain rfl : c' = c := Datum.pair.inj (h.symm.trans hv)
    have hlt : sizeOf car < sizeOf (Form.pair .start car cdr) := by simp; omega
    have hlt' : sizeOf cdr < sizeOf (Form.pair .start car cdr) := by simp
    obtain ⟨n, rfl⟩ : ∃ m, n = m + 1 := ⟨n - 1, by omega⟩
    have hself : s.Spells v (.pair .start car cdr) := .pair h hc hcdr hcar hrest
    have hin := hpath.cons hself h hlt
    have hin' := hpath.cons hself h hlt'
    rw [innerText_succ, hcdr,
      carText_of_spells hcar fun d hd => ⟨hin.not_mem hcar hd, ih hd (by omega) hin⟩,
      cdrText_of_spells hrest fun d hd => ⟨hin'.not_mem hrest hd, ih' hd (by omega) hin'⟩]
    rfl

/-- A tree is written as its text. -/
theorem text_of_spells {f : Form} (h : s.Spells v f) : s.text v = f.text := by
  -- the size of the tree bounds its depth, and added to the printer's own bound it changes nothing
  have hinner : ∀ {c : CellId}, v.datum = .pair c →
      s.innerText (s.cells.size + 1 + sizeOf f) [] c = formInner f := fun hv =>
    innerText_of_spells h hv (by omega) fun d hd => by simp at hd
  cases h with
  | nil h => simp [text, h, Datum.leafText, Form.text]
  | atom h => simp [text, h, Datum.leafText, Form.text]
  | last h | pair h =>
    rw [text_of_pair h (Nat.le_add_right _ _), hinner h]
    simp [formInner, Form.text, String.append_assoc]

/-! ## Reading -/

theorem Spells.isNil_eq_false {f : Form} (h : s.Spells v f) (hf : ∀ p, f ≠ .empty p) :
    v.isNil = false := by
  cases h with
  | nil h => exact absurd rfl (hf .start)
  | atom h | last h | pair h => simp [Value.isNil, h]

theorem spells_cons_nil {car : Form} (hcar : s.Spells v car) (p : Provenance) :
    (s.cons v .nil).2.Spells ⟨.pair ⟨s.cells.size⟩, p⟩ (.single .start car) := by
  have hcell := cell_cons_self s v .nil
  refine .last rfl (by simp [cons]) (by rw [hcell]; rfl) ?_
  rw [hcell]
  exact hcar.extends (adds_cons s v .nil).extends

theorem spells_cons {car cdr : Form} (hcar : s.Spells v car) (hcdr : s.Spells w cdr)
    (hne : ∀ p, cdr ≠ .empty p) (p : Provenance) :
    (s.cons v w).2.Spells ⟨.pair ⟨s.cells.size⟩, p⟩ (.pair .start car cdr) := by
  have hcell := cell_cons_self s v w
  have hrest : restOf w = some w := by simp [restOf, hcdr.isNil_eq_false hne]
  refine .pair rfl (by simp [cons]) (by rw [hcell, hrest]) ?_ (hcdr.extends (adds_cons s v w).extends)
  rw [hcell]
  exact hcar.extends (adds_cons s v w).extends

/-- A form that differs from a readable tree in positions only makes a value that is the tree. -/
theorem spells_ofForm {f g : Form} (h : f.Readable) (hg : g.unplaced = f.unplaced) (file : String)
    (s : Store) : (s.ofForm file g).2.Spells (s.ofForm file g).1 f.unplaced := by
  induction h generalizing g s with
  | atom h =>
    cases g <;> simp only [Form.unplaced, reduceCtorEq, Form.atom.injEq, true_and] at hg
    subst hg
    exact .atom rfl
  | empty =>
    cases g <;> simp only [Form.unplaced, reduceCtorEq] at hg
    exact .nil rfl
  | single h ih =>
    cases g <;> simp only [Form.unplaced, reduceCtorEq, Form.single.injEq, true_and] at hg
    exact spells_cons_nil (ih hg s) _
  | pair h h' hne ih ih' =>
    cases g <;> simp only [Form.unplaced, reduceCtorEq, Form.pair.injEq, true_and] at hg
    next p car cdr =>
      have hcar := (ih hg.1 s).extends (extends_ofForm file cdr _)
      exact spells_cons hcar (ih' hg.2 _) (Form.unplaced_ne_empty hne) _

theorem Spells.sameTree {f : Form} (hv : s.Spells v f) (hw : t.Spells w f) : SameTree s t v w := by
  induction hv generalizing w with
  | nil h => cases hw with | nil h' => exact .nil h h'
  | atom h => cases hw with | atom h' => exact .atom h h'
  | last h _ hcdr _ ih =>
    cases hw with
    | last h' _ hcdr' hcar' => exact .last h h' hcdr hcdr' (ih hcar')
  | pair h _ hcdr _ _ ih ih' =>
    cases hw with
    | pair h' _ hcdr' hcar' hrest' => exact .pair h h' hcdr hcdr' (ih hcar') (ih' hrest')

/-- Values that are one readable tree are equal. -/
theorem equal_of_spells {f : Form} (hf : f.Readable) (hv : s.Spells v f) (hw : s.Spells w f) :
    s.equal v w = true := by
  rw [equal_iff_bisimilar]
  refine ⟨fun v w => ∃ f : Form, f.Readable ∧ s.Spells v f ∧ s.Spells w f, ?_, f, hf, hv, hw⟩
  rintro v w ⟨f, hf, hv, hw⟩
  cases hf with
  | atom ha => 
    cases hv with
    | atom hv => cases hw with | atom hw => rw [hv, hw]; exact .atom ha.same
  | empty =>
    cases hv with
    | nil hv => cases hw with | nil hw => rw [hv, hw]; exact .nil
  | single hf =>
    cases hv with
    | last hv _ hcdr hcar =>
      cases hw with
      | last hw _ hcdr' hcar' =>
        rw [hv, hw]
        exact .pair ⟨_, hf, hcar, hcar'⟩ (by rw [hcdr, hcdr']; exact .none)
  | pair hf hf' =>
    cases hv with
    | pair hv _ hcdr hcar hrest =>
      cases hw with
      | pair hw _ hcdr' hcar' hrest' =>
        rw [hv, hw]
        exact .pair ⟨_, hf, hcar, hcar'⟩ (by rw [hcdr, hcdr']; exact .some ⟨_, hf', hrest, hrest'⟩)

end Store

/-! ## The round trip -/

/-- Readable data reads back from its written form: as one value, which is the same tree with the same
atoms and so equal to it. -/
theorem readSource_text (state : State) {v : Value} (h : state.store.Readable v) (file : String) :
    ∃ w state', readSource (state.store.text v) file state = .ok [w] state' ∧
      state.store.Extends state'.store ∧ Store.SameTree state.store state'.store v w ∧
      state'.store.equal v w = true := by
  obtain ⟨f, hv, hf⟩ := h.spells
  obtain ⟨g, hread, hg⟩ := Reading.ofText_text hf
  have hresult : readSource (state.store.text v) file state =
      .ok [(state.store.ofForm file g).1] ⟨(state.store.ofForm file g).2,
        state.log.push (.read g.text (g.position.inFile file))⟩ := by
    rw [Store.text_of_spells hv, readSource, hread]
    rfl
  have hextends := Store.extends_ofForm file g state.store
  have hw := Store.spells_ofForm hf hg file state.store
  rw [hv.unplaced_eq] at hw
  exact ⟨_, _, hresult, hextends, hv.sameTree hw, Store.equal_of_spells hf (hv.extends hextends) hw⟩

/-- A store with the list `(a (-0.5) . "x\n")` in its third pair. -/
def sampleStore : Store :=
  { cells := #[⟨.number (.float ⟨0xBFE0000000000000⟩), none⟩,
      ⟨⟨.pair ⟨0⟩, .unknown⟩, some (.string "x\n")⟩,
      ⟨.symbol "a", some ⟨.pair ⟨1⟩, .unknown⟩⟩] }

theorem readSource_text_sample :
    sampleStore.Readable ⟨.pair ⟨2⟩, .unknown⟩ ∧
      ∃ w state',
        readSource (sampleStore.text ⟨.pair ⟨2⟩, .unknown⟩) "a.lisp" { store := sampleStore } =
          .ok [w] state' ∧
        sampleStore.Extends state'.store ∧
        Store.SameTree sampleStore state'.store ⟨.pair ⟨2⟩, .unknown⟩ w ∧
        state'.store.equal ⟨.pair ⟨2⟩, .unknown⟩ w = true := by
  have hsymbol : Word.IsSymbol "a".toList :=
    ⟨by decide, Scan.not_delimiter_of_all rfl, by decide, by decide,
      (Word.decimal?_eq_none_iff _).1 (by decide), (Word.integer?_eq_none_iff _).1 (by decide)⟩
  have hfinite : Binary64.isFinite ⟨0xBFE0000000000000⟩ = true := by decide
  have hnumber : sampleStore.Readable ⟨.pair ⟨0⟩, .unknown⟩ :=
    .last rfl (by decide) rfl (.atom rfl hfinite)
  have h : sampleStore.Readable ⟨.pair ⟨2⟩, .unknown⟩ :=
    .pair rfl (by decide) rfl rfl (.atom rfl hsymbol)
      (.pair rfl (by decide) rfl rfl hnumber (.atom rfl trivial))
  exact ⟨h, readSource_text { store := sampleStore } h "a.lisp"⟩

end Lisplet
