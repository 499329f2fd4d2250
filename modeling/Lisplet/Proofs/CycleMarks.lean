/-
# Lisplet.Proofs.CycleMarks -- the printer marks exactly the cycles

Printing a value goes into the first halves of pairs and along their rests, and keeps one set with the
pairs that it is inside of.  A pair is put into the set when it is come to, and all pairs of a list are
taken out together behind its last one.  `Writes` is this printing, step by step: what is written, where
a reference back was marked, and what the set is afterwards.

Nothing in it bounds the depth, so that it comes to an end at all is a result: each pair that is entered
was not in the set before, and only pairs of the store lead any further (`exists_writes_value`).  What
it writes is the written form of the value, and it leaves the set as it was (`Writes.path_eq`).  With
that, the set is the row of the pairs on the way from the outermost value, and a reference is marked
exactly if the way to it comes back there (`Writes.mem_routes`).  So a mark is written if and only if a
cycle can be reached, and without one the text is that of a printer which keeps no set (`Plain`).
-/

import Mathlib.Tactic
import Lisplet.Proofs.Store.Routes

namespace Lisplet

/-! ## Printing, step by step -/

/-- What is being written. -/
inductive Part where
  | value (v : Value)
  /-- A list from this pair on, without parentheses. -/
  | inside (c : CellId)
  /-- What a pair holds behind its first half. -/
  | rest (x : Option Value)

/-- The two ways to mark a reference back: in the place of a value, or behind the last element. -/
inductive Branch where
  | element
  | rest
deriving DecidableEq

def Branch.text : Branch → String
  | .element => "..."
  | .rest => " . ..."

/-- The mark for the reference at the end of a route.  Only a rest has one of its own. -/
def Branch.ofRoute (route : List Half) : Branch :=
  if route.getLast? = some .cdr then .rest else .element

/-- A reference that was marked, by the route to it. -/
@[ext]
structure Mark where
  route : List Half
  branch : Branch
deriving DecidableEq

/-- The same mark, seen from a pair that holds the start of its route. -/
def Mark.behind (h : Half) (m : Mark) : Mark := { m with route := h :: m.route }

/-- What came of writing a part. -/
structure Writing where
  text : String
  marks : List Mark
  /-- The pairs that the printer is inside of when it is done. -/
  path : Finset CellId
  /-- The pairs that were put into the path and wait to be taken out. -/
  entered : Finset CellId := ∅

def Writing.routes (w : Writing) : List (List Half) := w.marks.map Mark.route

namespace Store

/-- Inside the pairs `P`, the part is written so. -/
inductive Writes (s : Store) : Finset CellId → Part → Writing → Prop
  | leaf {P : Finset CellId} {v : Value} (hv : ∀ c, v.datum ≠ .pair c) :
      Writes s P (.value v) { text := v.datum.leafText, marks := [], path := P }
  | again {P : Finset CellId} {v : Value} {c : CellId} (hv : v.datum = .pair c) (hc : c ∈ P) :
      Writes s P (.value v)
        { text := Branch.element.text, marks := [⟨[], .element⟩], path := P }
  | list {P : Finset CellId} {v : Value} {c : CellId} {w : Writing} (hv : v.datum = .pair c)
      (hc : c ∉ P) (h : Writes s P (.inside c) w) :
      Writes s P (.value v)
        { text := "(" ++ w.text ++ ")", marks := w.marks, path := w.path \ w.entered }
  | inside {P : Finset CellId} {c : CellId} {w w' : Writing}
      (hfirst : Writes s (insert c P) (.value (s.cell c).car) w)
      (hrest : Writes s w.path (.rest (s.cell c).cdr) w') :
      Writes s P (.inside c)
        { text := w.text ++ w'.text
          marks := w.marks.map (.behind .car) ++ w'.marks
          path := w'.path
          entered := insert c w'.entered }
  | last {P : Finset CellId} : Writes s P (.rest none) { text := "", marks := [], path := P }
  | nil {P : Finset CellId} {v : Value} (hv : v.datum = .nil) :
      Writes s P (.rest (some v)) { text := "", marks := [], path := P }
  | back {P : Finset CellId} {v : Value} {c : CellId} (hv : v.datum = .pair c) (hc : c ∈ P) :
      Writes s P (.rest (some v))
        { text := Branch.rest.text, marks := [⟨[.cdr], .rest⟩], path := P }
  | next {P : Finset CellId} {v : Value} {c : CellId} {w : Writing} (hv : v.datum = .pair c)
      (hc : c ∉ P) (h : Writes s P (.inside c) w) :
      Writes s P (.rest (some v))
        { text := " " ++ w.text
          marks := w.marks.map (.behind .cdr)
          path := w.path
          entered := w.entered }
  | dotted {P : Finset CellId} {v : Value} {w : Writing} (hnil : v.datum ≠ .nil)
      (hv : ∀ c, v.datum ≠ .pair c) (h : Writes s P (.value v) w) :
      Writes s P (.rest (some v))
        { text := " . " ++ w.text, marks := w.marks.map (.behind .cdr), path := w.path }

/-- The part is written so by a printer that does not look out for cycles. -/
inductive Plain (s : Store) : Part → String → Prop
  | leaf {v : Value} (hv : ∀ c, v.datum ≠ .pair c) : Plain s (.value v) v.datum.leafText
  | list {v : Value} {c : CellId} {text : String} (hv : v.datum = .pair c)
      (h : Plain s (.inside c) text) : Plain s (.value v) ("(" ++ text ++ ")")
  | inside {c : CellId} {first rest : String} (hfirst : Plain s (.value (s.cell c).car) first)
      (hrest : Plain s (.rest (s.cell c).cdr) rest) : Plain s (.inside c) (first ++ rest)
  | last : Plain s (.rest none) ""
  | nil {v : Value} (hv : v.datum = .nil) : Plain s (.rest (some v)) ""
  | next {v : Value} {c : CellId} {text : String} (hv : v.datum = .pair c)
      (h : Plain s (.inside c) text) : Plain s (.rest (some v)) (" " ++ text)
  | dotted {v : Value} {text : String} (hnil : v.datum ≠ .nil) (hv : ∀ c, v.datum ≠ .pair c)
      (h : Plain s (.value v) text) : Plain s (.rest (some v)) (" . " ++ text)

variable {s : Store} {P : Finset CellId} {part : Part} {v : Value} {w w' : Writing}

/-! ## The path is restored -/

/-- How the path stands after a part: as before, or with the pairs that were entered and not yet taken
out, none of which was in it. -/
def Restored (P : Finset CellId) : Part → Writing → Prop
  | .value _, w => w.path = P
  | .inside c, w => c ∉ P → Disjoint P w.entered ∧ w.path = P ∪ w.entered
  | .rest _, w => Disjoint P w.entered ∧ w.path = P ∪ w.entered

theorem Writes.restored (h : s.Writes P part w) : Restored P part w := by
  induction h with
  | leaf | again => exact rfl
  | @list P v c w hv hc _ ih =>
    obtain ⟨hdisjoint, hpath⟩ := ih hc
    show w.path \ w.entered = P
    rw [hpath, Finset.union_sdiff_right]
    exact Finset.sdiff_eq_self_of_disjoint hdisjoint
  | @inside P c w w' _ _ ihfirst ihrest =>
    intro hc
    obtain ⟨hdisjoint, hpath⟩ : Disjoint w.path w'.entered ∧ w'.path = w.path ∪ w'.entered := ihrest
    rw [show w.path = insert c P from ihfirst] at hdisjoint hpath
    rw [Finset.disjoint_insert_left] at hdisjoint
    refine ⟨Finset.disjoint_insert_right.2 ⟨hc, hdisjoint.2⟩, hpath.trans ?_⟩
    show insert c P ∪ w'.entered = P ∪ insert c w'.entered
    rw [Finset.insert_union, Finset.union_insert]
  | last | nil | back => exact ⟨Finset.disjoint_empty_right _, (Finset.union_empty _).symm⟩
  | next _ hc _ ih => exact ih hc
  | dotted _ _ _ ih => exact ⟨Finset.disjoint_empty_right _, ih.trans (Finset.union_empty _).symm⟩

/-- A value leaves the path as it was. -/
theorem Writes.path_eq (h : s.Writes P (.value v) w) : w.path = P := h.restored

/-! ## There is one way to write a part -/

theorem Writes.unique (h : s.Writes P part w) (h' : s.Writes P part w') : w = w' := by
  -- the datum of the value and the path decide which rule applies
  induction h generalizing w' with
  | leaf hv =>
    cases h' with
    | leaf => rfl
    | again hv' | list hv' => exact absurd hv' (hv _)
  | again hv hc =>
    cases h' with
    | leaf hv' => exact absurd hv (hv' _)
    | again => rfl
    | list hv' hc' => exact absurd (Datum.pair.inj (hv.symm.trans hv') ▸ hc) hc'
  | list hv hc _ ih =>
    cases h' with
    | leaf hv' => exact absurd hv (hv' _)
    | again hv' hc' => exact absurd (Datum.pair.inj (hv'.symm.trans hv) ▸ hc') hc
    | list hv' _ h' =>
      obtain rfl := Datum.pair.inj (hv.symm.trans hv')
      rw [ih h']
  | inside _ _ ihfirst ihrest =>
    cases h' with
    | inside hfirst' hrest' =>
      obtain rfl := ihfirst hfirst'
      rw [ihrest hrest']
  | last =>
    cases h'
    rfl
  | nil hv =>
    cases h' with
    | nil => rfl
    | back hv' | next hv' => cases hv.symm.trans hv'
    | dotted hnil => exact absurd hv hnil
  | back hv hc =>
    cases h' with
    | nil hv' => cases hv.symm.trans hv'
    | back => rfl
    | next hv' hc' => exact absurd (Datum.pair.inj (hv.symm.trans hv') ▸ hc) hc'
    | dotted _ hv' => exact absurd hv (hv' _)
  | next hv hc _ ih =>
    cases h' with
    | nil hv' => cases hv.symm.trans hv'
    | back hv' hc' => exact absurd (Datum.pair.inj (hv'.symm.trans hv) ▸ hc') hc
    | next hv' _ h' =>
      obtain rfl := Datum.pair.inj (hv.symm.trans hv')
      rw [ih h']
    | dotted _ hv' => exact absurd hv (hv' _)
  | dotted hnil hv _ ih =>
    cases h' with
    | nil hv' => exact absurd hv' hnil
    | back hv' | next hv' => exact absurd hv' (hv _)
    | dotted _ _ h' => rw [ih h']

theorem Plain.unique {text text' : String} (h : s.Plain part text) (h' : s.Plain part text') :
    text = text' := by
  induction h generalizing text' with
  | leaf hv =>
    cases h' with
    | leaf => rfl
    | list hv' => exact absurd hv' (hv _)
  | list hv _ ih =>
    cases h' with
    | leaf hv' => exact absurd hv (hv' _)
    | list hv' h' =>
      obtain rfl := Datum.pair.inj (hv.symm.trans hv')
      rw [ih h']
  | inside _ _ ihfirst ihrest =>
    cases h' with
    | inside hfirst' hrest' => rw [ihfirst hfirst', ihrest hrest']
  | last =>
    cases h'
    rfl
  | nil hv =>
    cases h' with
    | nil => rfl
    | next hv' => cases hv.symm.trans hv'
    | dotted hnil => exact absurd hv hnil
  | next hv _ ih =>
    cases h' with
    | nil hv' => cases hv.symm.trans hv'
    | next hv' h' =>
      obtain rfl := Datum.pair.inj (hv.symm.trans hv')
      rw [ih h']
    | dotted _ hv' => exact absurd hv (hv' _)
  | dotted hnil hv _ ih =>
    cases h' with
    | nil hv' => exact absurd hv' hnil
    | next hv' => exact absurd hv' (hv _)
    | dotted _ _ h' => rw [ih h']

/-! ## Writing comes to an end -/

/-- The list holds the pairs of the path. -/
def Listed (path : List CellId) (P : Finset CellId) : Prop := ∀ d, d ∈ path ↔ d ∈ P

section Ends

variable {f : List CellId → CellId → String}

/-- A value can be written if the pairs outside of the path can. -/
theorem exists_writes_value_of
    (h : ∀ d, d ∉ P → ∃ w, s.Writes P (.inside d) w ∧ ∀ path, Listed path P → w.text = f path d)
    (v : Value) : ∃ w, s.Writes P (.value v) w ∧
      ∀ path, Listed path P → w.text = carText (f path) path v := by
  by_cases hpair : ∃ d, v.datum = .pair d
  · obtain ⟨d, hd⟩ := hpair
    by_cases hmem : d ∈ P
    · refine ⟨_, .again hd hmem, fun path hpath => ?_⟩
      simp [carText, hd, (hpath d).2 hmem, Branch.text]
    · obtain ⟨w, hw, htext⟩ := h d hmem
      refine ⟨_, .list hd hmem hw, fun path hpath => ?_⟩
      simp [carText, hd, (hpath d).not.2 hmem, htext path hpath]
  · refine ⟨_, .leaf fun c hc => hpair ⟨c, hc⟩, fun path _ => ?_⟩
    unfold carText
    split
    next d hd => exact absurd ⟨d, hd⟩ hpair
    next => rfl

/-- A rest can be written if the pairs outside of the path can. -/
theorem exists_writes_rest_of
    (h : ∀ d, d ∉ P → ∃ w, s.Writes P (.inside d) w ∧ ∀ path, Listed path P → w.text = f path d)
    (x : Option Value) : ∃ w, s.Writes P (.rest x) w ∧
      ∀ path, Listed path P → w.text = cdrText (f path) path x := by
  cases x with
  | none => exact ⟨_, .last, fun _ _ => rfl⟩
  | some v =>
    cases hv : v.datum with
    | nil => exact ⟨_, .nil hv, fun path _ => by simp [cdrText, hv]⟩
    | pair d =>
      by_cases hmem : d ∈ P
      · refine ⟨_, .back hv hmem, fun path hpath => ?_⟩
        simp [cdrText, hv, (hpath d).2 hmem, Branch.text]
      · obtain ⟨w, hw, htext⟩ := h d hmem
        refine ⟨_, .next hv hmem hw, fun path hpath => ?_⟩
        simp [cdrText, hv, (hpath d).not.2 hmem, htext path hpath]
    | atom | closure | native | hash =>
      have hpair : ∀ c, v.datum ≠ .pair c := by simp [hv]
      refine ⟨_, .dotted (by simp [hv]) hpair (.leaf hpair), fun path _ => ?_⟩
      simp [cdrText, hv]

end Ends

/-- Every pair outside of the path can be written, and its text is the one under any bound on the pairs
of the store that are left. -/
theorem exists_writes_inside {n : Nat} {c : CellId} (hc : c ∉ P) (hn : (s.cellIds \ P).card < n) :
    ∃ w, s.Writes P (.inside c) w ∧ ∀ path, Listed path P → w.text = s.innerText n path c := by
  induction n generalizing P c with
  | zero => exact absurd hn (Nat.not_lt_zero _)
  | succ n ih =>
    by_cases hmem : c ∈ s.cellIds
    · have hless : (s.cellIds \ insert c P).card < n := by
        have hcard := Finset.card_erase_lt_of_mem (Finset.mem_sdiff.2 ⟨hmem, hc⟩)
        rw [← Finset.sdiff_insert] at hcard
        omega
      have hinside := fun d (hd : d ∉ insert c P) => ih hd hless
      obtain ⟨w, hw, htext⟩ := exists_writes_value_of hinside (s.cell c).car
      obtain ⟨w', hw', htext'⟩ := exists_writes_rest_of hinside (s.cell c).cdr
      refine ⟨_, .inside hw (hw.path_eq ▸ hw'), fun path hpath => ?_⟩
      have hlisted : Listed (c :: path) (insert c P) := by
        intro d
        rw [List.mem_cons, Finset.mem_insert, hpath d]
      rw [innerText_succ, ← htext _ hlisted, ← htext' _ hlisted]
    · -- a pair that was never made has nothing inside
      have hcell : s.cell c = {} := cell_of_size_le (not_lt.1 fun hlt => hmem (mem_cellIds hlt))
      have hrest : s.Writes (insert c P) (.rest (s.cell c).cdr) ⟨"", [], insert c P, ∅⟩ := by
        rw [hcell]
        exact .last
      refine ⟨_, .inside (.leaf (by simp [hcell, Value.nil])) hrest, fun path _ => ?_⟩
      simp [innerText_succ, hcell, carText, cdrText, Value.nil]

/-- Writing a value comes to an end, inside of any pairs. -/
theorem exists_writes_value (s : Store) (P : Finset CellId) (v : Value) :
    ∃ w, s.Writes P (.value v) w := by
  obtain ⟨w, hw, -⟩ := exists_writes_value_of
    (fun d hd => exists_writes_inside hd (Nat.lt_succ_self (s.cellIds \ P).card)) v
  exact ⟨w, hw⟩

/-- Inside of no pair, it gives the written form. -/
theorem Writes.text_eq (h : s.Writes ∅ (.value v) w) : w.text = s.text v := by
  have hroom : (s.cellIds \ ∅).card < s.cells.size + 1 := by
    rw [Finset.sdiff_empty]
    exact Nat.lt_succ_of_le s.card_cellIds_le
  obtain ⟨w', hw', htext⟩ :=
    exists_writes_value_of (fun d hd => exists_writes_inside hd hroom) v
  rw [h.unique hw', htext [] (by simp [Listed])]
  unfold carText text
  cases v.datum with
  | pair d => simp
  | nil | atom | closure | native | hash => rfl

/-! ## Where a mark is written -/

/-- The routes of the marks in a part: those that come back inside of `P`. -/
def MarksReturns (s : Store) (P : Finset CellId) : Part → Writing → Prop
  | .value v, w => ∀ route, route ∈ w.routes ↔ s.ComesBack P v.datum route
  | .inside c, w => c ∉ P → ∀ route, route ∈ w.routes ↔ s.ComesBack P (.pair c) route
  | .rest x, w => ∀ route, route ∈ w.routes ↔
      ∃ v route', x = some v ∧ route = .cdr :: route' ∧ s.ComesBack P v.datum route'

theorem not_comesBack_of_leaf {x : Datum} (hx : ∀ c, x ≠ .pair c) (route : List Half) :
    ¬ s.ComesBack P x route := by
  rintro ⟨trail, c, hleads, -⟩
  obtain ⟨d, hd⟩ := hleads.pair_of_pair
  exact hx d hd

theorem comesBack_of_mem {c : CellId} (hc : c ∈ P) (route : List Half) :
    s.ComesBack P (.pair c) route ↔ route = [] := by
  cases route with
  | nil => simp [comesBack_nil, hc]
  | cons h route =>
    rw [comesBack_cons]
    constructor
    · rintro ⟨d, u, hd, hnot, -⟩
      exact absurd (Datum.pair.inj hd ▸ hc) hnot
    · intro h
      cases h

theorem comesBack_of_notMem {c : CellId} (hc : c ∉ P) (route : List Half) :
    s.ComesBack P (.pair c) route ↔ ∃ h u route', route = h :: route' ∧ s.half? c h = some u ∧
      s.ComesBack (insert c P) u.datum route' := by
  cases route with
  | nil => simp [comesBack_nil, hc]
  | cons h route => simp [comesBack_cons, hc]

theorem mem_routes_behind {h : Half} {marks : List Mark} {route : List Half} :
    route ∈ (marks.map (Mark.behind h)).map Mark.route ↔
      ∃ route' ∈ marks.map Mark.route, route = h :: route' := by
  simp [Mark.behind, eq_comm]

theorem marksReturns_rest {x : Datum} (hv : v.datum = x)
    (h : ∀ route, route ∈ w.routes ↔ s.ComesBack P x route) (route : List Half) :
    route ∈ (w.marks.map (Mark.behind .cdr)).map Mark.route ↔
      ∃ v' route', some v = some v' ∧ route = .cdr :: route' ∧ s.ComesBack P v'.datum route' := by
  subst hv
  rw [mem_routes_behind]
  constructor
  · rintro ⟨route', hmem, rfl⟩
    exact ⟨v, route', rfl, rfl, (h route').1 hmem⟩
  · rintro ⟨_, route', ⟨rfl⟩, rfl, hback⟩
    exact ⟨route', (h route').2 hback, rfl⟩

theorem Writes.marksReturns (h : s.Writes P part w) : s.MarksReturns P part w := by
  induction h with
  | leaf hv =>
    intro route
    simp [Writing.routes, not_comesBack_of_leaf hv]
  | again hv hc =>
    intro route
    rw [hv, comesBack_of_mem hc]
    simp [Writing.routes]
  | list hv hc _ ih =>
    intro route
    rw [hv]
    exact ih hc route
  | @inside P c w w' hfirst _ ihfirst ihrest =>
    intro hc route
    -- behind the first half the path is still the one that it was written in
    rw [hfirst.path_eq] at ihrest
    rw [comesBack_of_notMem hc, Writing.routes, List.map_append, List.mem_append, mem_routes_behind]
    constructor
    · rintro (⟨route', hmem, rfl⟩ | hmem)
      · exact ⟨.car, _, route', rfl, rfl, (ihfirst route').1 hmem⟩
      · obtain ⟨v, route', hv, rfl, hback⟩ := (ihrest route).1 hmem
        exact ⟨.cdr, v, route', rfl, hv, hback⟩
    · rintro ⟨h, u, route', rfl, hu, hback⟩
      cases h with
      | car =>
        obtain rfl := Option.some.inj hu
        exact Or.inl ⟨route', (ihfirst route').2 hback, rfl⟩
      | cdr => exact Or.inr ((ihrest _).2 ⟨u, route', hu, rfl, hback⟩)
  | last =>
    intro route
    simp [Writing.routes]
  | nil hv =>
    intro route
    simp [Writing.routes, hv, not_comesBack_of_leaf]
  | back hv hc =>
    intro route
    simp [Writing.routes, hv, comesBack_of_mem hc]
  | next hv hc _ ih => exact marksReturns_rest hv (ih hc)
  | dotted _ _ _ ih => exact marksReturns_rest rfl ih

/-- A reference is marked exactly if the route to it comes back there. -/
theorem Writes.mem_routes (h : s.Writes P (.value v) w) {route : List Half} :
    route ∈ w.routes ↔ s.ComesBack P v.datum route := h.marksReturns route

/-! ## Which mark is written -/

theorem Branch.ofRoute_behind {h : Half} {route : List Half} (hroute : h = .car ∨ route ≠ []) :
    Branch.ofRoute (h :: route) = Branch.ofRoute route := by
  cases route with
  | nil =>
    obtain rfl : h = .car := by simpa using hroute
    rfl
  | cons h' route => simp [Branch.ofRoute]

/-- Every mark is the one for its route.  Only a value can be a reference back itself. -/
def MarksFit : Part → Writing → Prop
  | .value _, w => ∀ m ∈ w.marks, m.branch = .ofRoute m.route
  | .inside _, w | .rest _, w => ∀ m ∈ w.marks, m.branch = .ofRoute m.route ∧ m.route ≠ []

theorem Writes.marksFit (h : s.Writes P part w) : MarksFit part w := by
  induction h with
  | leaf | last | nil => exact fun m hm => absurd hm List.not_mem_nil
  | again =>
    intro m hm
    obtain rfl := List.mem_singleton.1 hm
    rfl
  | list _ _ _ ih => exact fun m hm => (ih m hm).1
  | inside _ _ ihfirst ihrest =>
    intro m hm
    rcases List.mem_append.1 hm with hm | hm
    · obtain ⟨m', hm', rfl⟩ := List.mem_map.1 hm
      exact ⟨(ihfirst m' hm').trans (Branch.ofRoute_behind (Or.inl rfl)).symm, List.cons_ne_nil _ _⟩
    · exact ihrest m hm
  | back =>
    intro m hm
    obtain rfl := List.mem_singleton.1 hm
    exact ⟨rfl, List.cons_ne_nil _ _⟩
  | next _ _ _ ih =>
    intro m hm
    obtain ⟨m', hm', rfl⟩ := List.mem_map.1 hm
    obtain ⟨hbranch, hne⟩ := ih m' hm'
    exact ⟨hbranch.trans (Branch.ofRoute_behind (Or.inr hne)).symm, List.cons_ne_nil _ _⟩
  | dotted _ hv h =>
    -- what stands behind a dot is no pair and has nothing to mark
    intro m hm
    cases h with
    | leaf => cases hm
    | again hv' | list hv' => exact absurd hv' (hv _)

/-- The marks of a value are known by their routes. -/
theorem Writes.mem_marks (h : s.Writes P (.value v) w) (m : Mark) :
    m ∈ w.marks ↔ m.branch = .ofRoute m.route ∧ s.ComesBack P v.datum m.route := by
  have hfit : ∀ m ∈ w.marks, m.branch = .ofRoute m.route := h.marksFit
  constructor
  · intro hm
    exact ⟨hfit m hm, h.mem_routes.1 (List.mem_map_of_mem hm)⟩
  · rintro ⟨hbranch, hback⟩
    obtain ⟨m', hm', hroute⟩ := List.mem_map.1 (h.mem_routes.2 hback)
    have hsame : m' = m := Mark.ext hroute (by rw [hfit m' hm', hbranch, hroute])
    exact hsame ▸ hm'

/-! ## Without marks -/

/-- Where no reference is marked, the path has made no difference. -/
theorem Writes.plain (h : s.Writes P part w) (hmarks : w.marks = []) : s.Plain part w.text := by
  induction h with
  | leaf hv => exact .leaf hv
  | again | back => cases hmarks
  | list hv _ _ ih => exact .list hv (ih hmarks)
  | inside _ _ ihfirst ihrest =>
    obtain ⟨hfirst, hrest⟩ := List.append_eq_nil_iff.1 hmarks
    exact .inside (ihfirst (List.map_eq_nil_iff.1 hfirst)) (ihrest hrest)
  | last => exact .last
  | nil hv => exact .nil hv
  | next hv _ _ ih => exact .next hv (ih (List.map_eq_nil_iff.1 hmarks))
  | dotted hnil hv _ ih => exact .dotted hnil hv (ih (List.map_eq_nil_iff.1 hmarks))

/-- There is a mark exactly if a cycle can be reached. -/
theorem Writes.marks_ne_nil_iff (h : s.Writes ∅ (.value v) w) : w.marks ≠ [] ↔ s.CycleFrom v.datum := by
  rw [cycleFrom_iff_comesBack]
  constructor
  · intro hne
    obtain ⟨m, hm⟩ := List.exists_mem_of_ne_nil _ hne
    exact ⟨m.route, ((h.mem_marks m).1 hm).2⟩
  · rintro ⟨route, hback⟩
    exact List.ne_nil_of_mem ((h.mem_marks ⟨route, .ofRoute route⟩).2 ⟨rfl, hback⟩)

end Store

/-- The printer comes to an end and marks exactly the cycles.  Inside of whatever pairs, writing a value
ends, in one way, and leaves the path as it was.  Inside of none it gives the written form.  If no cycle
can be reached from the value, however much it shares, that is the text of a printer which does not look
out for cycles; if one can be reached, some reference is marked.  And a reference is marked exactly if a
route leads to it, from the value through pairs that are all different, and it refers to one of these;
the mark is that for a rest exactly if the last step went to one. -/
theorem printer_marks_exactly_the_cycles (s : Store) (v : Value) :
    (∀ P : Finset CellId, ∃ w, s.Writes P (.value v) w ∧ w.path = P ∧
      ∀ w', s.Writes P (.value v) w' → w' = w) ∧
    ∃ w, s.Writes ∅ (.value v) w ∧ w.text = s.text v ∧
      (¬ s.CycleFrom v.datum → ∀ text, s.Plain (.value v) text ↔ text = w.text) ∧
      (s.CycleFrom v.datum ↔ w.marks ≠ []) ∧
      ∀ m : Mark, m ∈ w.marks ↔ m.branch = .ofRoute m.route ∧
        ∃ trail c, s.Leads v.datum m.route trail (.pair c) ∧ trail.Nodup ∧ c ∈ trail := by
  constructor
  · intro P
    obtain ⟨w, hw⟩ := s.exists_writes_value P v
    exact ⟨w, hw, hw.path_eq, fun w' hw' => hw'.unique hw⟩
  · obtain ⟨w, hw⟩ := s.exists_writes_value ∅ v
    refine ⟨w, hw, hw.text_eq, fun hcycle text => ?_, hw.marks_ne_nil_iff.symm, fun m => ?_⟩
    · have hplain := hw.plain (by simpa using hw.marks_ne_nil_iff.not.2 hcycle)
      exact ⟨fun htext => htext.unique hplain, fun htext => htext ▸ hplain⟩
    · simpa [Store.ComesBack] using hw.mem_marks m

/-- The list `((7 . #0) 7 . #0)`, where `#0` is the list itself and its first element is its rest as
well. -/
def sharedLoop : Store where
  cells := #[⟨⟨.pair ⟨1⟩, .unknown⟩, some ⟨.pair ⟨1⟩, .unknown⟩⟩,
    ⟨.int 7, some ⟨.pair ⟨0⟩, .unknown⟩⟩]

/-- Both references back are marked, and the pair that is shared is written twice. -/
theorem printer_marks_exactly_the_cycles_shared :
    sharedLoop.CycleFrom (.pair ⟨0⟩) ∧ ∃ w, sharedLoop.Writes ∅ (.value ⟨.pair ⟨0⟩, .unknown⟩) w ∧
      w.text = "((7 . ...) 7 . ...)" ∧ w.marks ≠ [] ∧ ⟨[.car, .cdr], .rest⟩ ∈ w.marks := by
  have hcycle : sharedLoop.CycleFrom (.pair ⟨0⟩) :=
    ⟨[], [], ⟨0⟩, .here _, .tail (.single (Or.inl rfl)) (Or.inr ⟨_, rfl, rfl⟩)⟩
  obtain ⟨-, w, hw, htext, -, hmarks, hmem⟩ :=
    printer_marks_exactly_the_cycles sharedLoop ⟨.pair ⟨0⟩, .unknown⟩
  have hwritten : sharedLoop.text ⟨.pair ⟨0⟩, .unknown⟩ = "((7 . ...) 7 . ...)" := by decide +kernel
  refine ⟨hcycle, w, hw, htext.trans hwritten, hmarks.1 hcycle, (hmem _).2 ⟨rfl, ?_⟩⟩
  exact ⟨[⟨0⟩, ⟨1⟩], ⟨0⟩, .step rfl (.step rfl (.here _)), by decide, by decide⟩

end Lisplet
