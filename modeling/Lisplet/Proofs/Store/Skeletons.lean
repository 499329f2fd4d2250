/-
# Lisplet.Proofs.Store.Skeletons -- forms around the same parts

Two forms can be made around the same parts: the parts are forms in both, in the same order, and what is
around them differs.  A `Skeleton` is a form with such parts marked in it.

When a form is read, its parts are read one after the other, and the pairs around them are made on the way.
So a store that has read the whole form is a store that has read nothing but the parts, with their pairs
elsewhere and with more pairs that nothing refers to (`Relocated.ofSkeleton`).  These are the pairs of the
skeleton, and they lead to the values of the parts (`Store.Shows`).
-/

import Mathlib.Tactic
import Lisplet.Proofs.Evaluator.Calls
import Lisplet.Proofs.Evaluator.Confined
import Lisplet.Proofs.Loading
import Lisplet.Proofs.Store.Relocation

namespace Lisplet

/-! ## Forms as lists -/

namespace Form

/-- The elements of a proper list. -/
def elements? : Form → Option (List Form)
  | .atom _ _ => none
  | .empty _ => some []
  | .single _ car => some [car]
  | .pair _ car cdr => cdr.elements?.map (car :: ·)

/-- The list of the forms, all of it at `p`. -/
def listAt (p : Position) : List Form → Form
  | [] => .empty p
  | f :: fs => .cons p f (some (listAt p fs))

@[simp] theorem elements?_cons (p : Position) (car cdr : Form) :
    (Form.cons p car (some cdr)).elements? = cdr.elements?.map (car :: ·) := by
  cases cdr <;> rfl

@[simp] theorem elements?_listAt (p : Position) (fs : List Form) : (listAt p fs).elements? = some fs := by
  induction fs with
  | nil => rfl
  | cons f fs ih => simp [listAt, ih]

/-- What a form is that is no pair. -/
def leaf? : Form → Option Datum
  | .atom _ a => some (.atom a)
  | .empty _ => some .nil
  | .single _ _ | .pair _ _ _ => none

end Form

/-- What a datum is that is no pair. -/
def Datum.leaf? : Datum → Option Datum
  | .pair _ => none
  | d => some d

theorem Store.leaf?_ofForm (file : String) (f : Form) (s : Store) :
    (s.ofForm file f).1.datum.leaf? = f.leaf? := by
  cases f <;> rfl

theorem Datum.eq_of_leaf? {x d : Datum} (h : x.leaf? = some d) : x = d := by
  cases x with
  | pair => cases h
  | nil | atom | closure | native | hash => exact Option.some.inj h

/-! ## Skeletons -/

/-- A form with some parts marked in it. -/
inductive Skeleton where
  | part (f : Form)
  /-- What belongs to no part. -/
  | rest (f : Form)
  | single (p : Position) (car : Skeleton)
  | pair (p : Position) (car cdr : Skeleton)

namespace Skeleton

/-- The form itself. -/
def form : Skeleton → Form
  | part f | rest f => f
  | single p car => .single p car.form
  | pair p car cdr => .pair p car.form cdr.form

/-- The parts, from left to right. -/
def parts : Skeleton → List Form
  | part f => [f]
  | rest _ => []
  | single _ car => car.parts
  | pair _ car cdr => car.parts ++ cdr.parts

/-- A list whose elements are marked in this way. -/
def list : Form → List Skeleton → Skeleton
  | .single p _, [k] => .single p k
  | .pair p _ cdr, k :: ks => .pair p k (list cdr ks)
  | f, _ => .rest f

variable {f : Form} {ks : List Skeleton}

theorem form_list (h : f.elements? = some (ks.map form)) : (list f ks).form = f := by
  induction f generalizing ks with
  | atom | empty => cases ks <;> rfl
  | single p car =>
    match ks, h with
    | [k], h =>
      obtain rfl : car = k.form := by simpa [Form.elements?] using h
      rfl
    | [], h | _ :: _ :: _, h => simp [Form.elements?] at h
  | pair p car cdr _ ih =>
    cases ks with
    | nil => simp [Form.elements?] at h
    | cons k ks =>
      obtain ⟨fs, hcdr, hcar⟩ := Option.map_eq_some_iff.1 h
      obtain ⟨rfl, rfl⟩ := List.cons.inj hcar
      rw [list, form, ih hcdr]

theorem parts_list (h : f.elements? = some (ks.map form)) : (list f ks).parts = ks.flatMap parts := by
  induction f generalizing ks with
  | atom => cases h
  | empty =>
    obtain rfl : ks = [] := by simpa [Form.elements?] using h
    rfl
  | single p car =>
    match ks, h with
    | [k], _ => simp [list, parts]
    | [], h | _ :: _ :: _, h => simp [Form.elements?] at h
  | pair p car cdr _ ih =>
    cases ks with
    | nil => simp [Form.elements?] at h
    | cons k ks =>
      obtain ⟨fs, hcdr, hcar⟩ := Option.map_eq_some_iff.1 h
      obtain ⟨rfl, rfl⟩ := List.cons.inj hcar
      rw [list, parts, ih hcdr, List.flatMap_cons]

end Skeleton

namespace Store

variable {s t : Store} {apart apart' : CellId → Prop} {k : Skeleton} {v : Value} {vs : List Value}

/-- The value is a form with this skeleton, whose pairs are among those set apart; and these are the values
of its parts. -/
inductive Shows (s : Store) (apart : CellId → Prop) : Skeleton → Value → List Value → Prop
  | part {f : Form} {v : Value} (h : v.datum.leaf? = f.leaf?) : Shows s apart (.part f) v [v]
  | rest {f : Form} {v : Value} (h : v.datum.leaf? = f.leaf?) : Shows s apart (.rest f) v []
  | single {p : Position} {car : Skeleton} {v a : Value} {c : CellId} {vs : List Value}
      (hv : v.datum = .pair c) (hc : apart c) (hcell : s.cell c = ⟨a, none⟩) (hcar : Shows s apart car a vs) :
      Shows s apart (.single p car) v vs
  | pair {p : Position} {car cdr : Skeleton} {v a d : Value} {c : CellId} {us ws vs : List Value}
      (hv : v.datum = .pair c) (hc : apart c) (hcell : s.cell c = ⟨a, restOf d⟩)
      (hcar : Shows s apart car a us) (hcdr : Shows s apart cdr d ws) (hvs : vs = us ++ ws) :
      Shows s apart (.pair p car cdr) v vs

theorem Shows.mono (h : s.Shows apart k v vs) (hst : ∀ c, apart c → apart' c ∧ t.cell c = s.cell c) :
    t.Shows apart' k v vs := by
  induction h with
  | part h => exact .part h
  | rest h => exact .rest h
  | single hv hc hcell _ ih => exact .single hv (hst _ hc).1 ((hst _ hc).2.trans hcell) ih
  | pair hv hc hcell _ _ hvs ih ih' => exact .pair hv (hst _ hc).1 ((hst _ hc).2.trans hcell) ih ih' hvs

/-- There is a value for each part. -/
theorem Shows.length_eq (h : s.Shows apart k v vs) : vs.length = k.parts.length := by
  induction h with
  | part | rest => rfl
  | single _ _ _ _ ih => exact ih
  | pair _ _ _ _ _ hvs ih ih' => rw [hvs, List.length_append, ih, ih', Skeleton.parts, List.length_append]

theorem Shows.of_part {f : Form} (h : s.Shows apart (.part f) v vs) : vs = [v] := by
  cases h
  rfl

theorem Shows.of_rest {f : Form} (h : s.Shows apart (.rest f) v vs) : vs = [] := by
  cases h
  rfl

/-! ### Lists -/

theorem lists_restOf {d : Value} (h : s.Lists d vs) : s.Lists ((restOf d).getD .nil) vs := by
  unfold restOf
  split
  · next hnil =>
    rcases h with ⟨-, rfl⟩ | ⟨c, hc, -⟩
    · exact Or.inl ⟨rfl, rfl⟩
    · simp [Value.isNil, hc] at hnil
  · exact h

theorem Lists.of_cons {x : Value} (h : s.Lists v (x :: vs)) :
    ∃ c, v.datum = .pair c ∧ (s.cell c).car = x ∧ s.Lists ((s.cell c).cdr.getD .nil) vs := by
  rcases h with ⟨-, hcons⟩ | ⟨c, hc, hchain⟩
  · cases hcons
  · refine ⟨c, hc, ?_⟩
    cases hchain with
    | last hcdr => exact ⟨rfl, by rw [hcdr]; exact Or.inl ⟨rfl, rfl⟩⟩
    | nil hcdr hnil => exact ⟨rfl, by rw [hcdr]; exact Or.inl ⟨hnil, rfl⟩⟩
    | next hcdr hd hrest => exact ⟨rfl, by rw [hcdr]; exact Or.inr ⟨_, hd, hrest⟩⟩

/-- Values that are forms with these skeletons, each with the values of its parts. -/
abbrev ShowsAll (s : Store) (apart : CellId → Prop) : List Skeleton → List (Value × List Value) → Prop :=
  List.Forall₂ fun k x => s.Shows apart k x.1 x.2

/-- Such a list has elements, and their parts are those of the list. -/
theorem Shows.elements {f : Form} {ks : List Skeleton} (hf : f.elements? = some (ks.map Skeleton.form))
    (h : s.Shows apart (.list f ks) v vs) :
    ∃ xs, s.ShowsAll apart ks xs ∧ s.Lists v (xs.map Prod.fst) ∧ vs = xs.flatMap Prod.snd := by
  induction f generalizing ks v vs with
  | atom => cases hf
  | empty p =>
    obtain rfl : ks = [] := by simpa [Form.elements?] using hf
    cases h with
    | rest h => exact ⟨[], .nil, Or.inl ⟨Datum.eq_of_leaf? h, rfl⟩, rfl⟩
  | single p car =>
    match ks, hf with
    | [k], _ =>
      cases h with
      | @single _ _ _ a c _ hv _ hcell hcar =>
        refine ⟨[(a, vs)], .cons hcar .nil, ?_, by simp⟩
        have hrest : s.Lists ((s.cell c).cdr.getD .nil) [] := by
          rw [hcell]
          exact Or.inl ⟨rfl, rfl⟩
        have hlists := lists_of_pair hv hrest
        rwa [hcell] at hlists
    | [], hf | _ :: _ :: _, hf => simp [Form.elements?] at hf
  | pair p car cdr _ ih =>
    cases ks with
    | nil => simp [Form.elements?] at hf
    | cons k ks =>
      obtain ⟨fs, hcdr, hcar⟩ := Option.map_eq_some_iff.1 hf
      obtain ⟨-, rfl⟩ := List.cons.inj hcar
      cases h with
      | @pair _ _ _ _ a d c us ws _ hv _ hcell hshown hrest hvs =>
        obtain ⟨xs, hall, hlists, rfl⟩ := ih hcdr hrest
        refine ⟨(a, us) :: xs, .cons hshown hall, ?_, hvs⟩
        have hbehind : s.Lists ((s.cell c).cdr.getD .nil) (xs.map Prod.fst) := by
          rw [hcell]
          exact lists_restOf hlists
        have hlist := lists_of_pair hv hbehind
        rwa [hcell] at hlist

/-- So it is with a form that begins with a name. -/
theorem Shows.operands {f : Form} {p : Position} {name : String} {ks : List Skeleton}
    (hf : f.elements? = some (.atom p (.symbol name) :: ks.map Skeleton.form))
    (h : s.Shows apart (.list f (.rest (.atom p (.symbol name)) :: ks)) v vs) :
    ∃ c xs, v.datum = .pair c ∧ (s.cell c).car.symbol? = some name ∧ s.ShowsAll apart ks xs ∧
      s.Lists ((s.cell c).cdr.getD .nil) (xs.map Prod.fst) ∧ vs = xs.flatMap Prod.snd := by
  obtain ⟨xs, hall, hlists, rfl⟩ := h.elements hf
  cases hall with
  | @cons _ x _ xs hname hall =>
    obtain ⟨c, hv, hcar, hrest⟩ := hlists.of_cons
    obtain ⟨a, us⟩ := x
    cases hname with
    | rest hatom =>
      refine ⟨c, xs, hv, ?_, hall, hrest, rfl⟩
      rw [hcar, Value.symbol?, Datum.eq_of_leaf? hatom]

/-- The parts of a list of parts are its elements. -/
theorem ShowsAll.of_parts {fs : List Form} {xs : List (Value × List Value)}
    (h : s.ShowsAll apart (fs.map .part) xs) :
    xs.map Prod.fst = xs.flatMap Prod.snd ∧ xs.length = fs.length := by
  induction fs generalizing xs with
  | nil =>
    cases h
    exact ⟨rfl, rfl⟩
  | cons f fs ih =>
    cases h with
    | cons hpart hrest =>
      obtain ⟨hfst, hlength⟩ := ih hrest
      simp [hpart.of_part, hfst, hlength]

theorem ShowsAll.of_rest {fs : List Form} {xs : List (Value × List Value)}
    (h : s.ShowsAll apart (fs.map .rest) xs) : xs.flatMap Prod.snd = [] := by
  induction fs generalizing xs with
  | nil =>
    cases h
    rfl
  | cons f fs ih =>
    cases h with
    | cons hrest hall => simp [hrest.of_rest, ih hall]

/-! ### Closed stores -/

/-- A closed store stays closed when a form is read. -/
theorem closed_ofForm (h : s.Closed) (file : String) (f : Form) :
    (s.ofForm file f).2.Closed ∧ (s.ofForm file f).1.Beside {} {} (s.ofForm file f).2 := by
  have hcons : ∀ {u : Store} {a d : Value}, u.Closed → a.Beside {} {} u → d.Beside {} {} u →
      (u.cons a d).2.Closed ∧ (u.cons a d).1.Beside {} {} (u.cons a d).2 := by
    intro u a d hu ha hd
    obtain ⟨hclosed, -, hnew⟩ := (confined (.ofFiles fun _ => .error .notFound) {} {}).cons
      (w := { state := { store := u } }) hu ha hd
    exact ⟨hclosed, hnew⟩
  induction f generalizing s with
  | atom | empty => exact ⟨h, fun i hi => by cases hi⟩
  | single p car ih =>
    obtain ⟨hclosed, hcar⟩ := ih h
    exact hcons hclosed hcar fun i hi => by cases hi
  | pair p car cdr ihcar ihcdr =>
    obtain ⟨hclosed, hcar⟩ := ihcar h
    obtain ⟨hclosed', hcdr⟩ := ihcdr hclosed
    refine hcons hclosed' (hcar.mono fun i hi => ?_) hcdr
    exact (extends_ofForm file cdr _ i hi).1

theorem closed_ofForms (h : s.Closed) (file : String) (fs : List Form) :
    (s.ofForms file fs).2.Closed ∧ ∀ v ∈ (s.ofForms file fs).1, v.Beside {} {} (s.ofForms file fs).2 := by
  induction fs generalizing s with
  | nil => exact ⟨h, by simp [ofForms]⟩
  | cons f fs ih =>
    obtain ⟨hclosed, hf⟩ := closed_ofForm h file f
    obtain ⟨hclosed', hfs⟩ := ih hclosed
    refine ⟨hclosed', List.forall_mem_cons.2 ⟨hf.mono fun i hi => ?_, hfs⟩⟩
    exact (extends_ofForms file fs _ i hi).1

end Store

/-! ## Reading -/

variable {m m' m'' : CellId → CellId} {b b' b'' t t' t'' : Store}

theorem Value.relocated_congr {v : Value} (hv : v.Beside {} {} b)
    (h : ∀ c, b.Holds (.cell c) → m' c = m c) : v.relocated m' = v.relocated m := by
  obtain ⟨x, p⟩ := v
  cases x with
  | pair c => exact congrArg (fun d => Value.mk (.pair d) p) (h c (hv (.cell c) rfl).1)
  | nil | atom | closure | native | hash => rfl

theorem map_relocated_congr {vs : List Value} (hvs : ∀ v ∈ vs, v.Beside {} {} b)
    (h : ∀ c, b.Holds (.cell c) → m' c = m c) :
    vs.map (Value.relocated m') = vs.map (Value.relocated m) :=
  List.map_congr_left fun v hv => Value.relocated_congr (hvs v hv) h

namespace Relocated

/-- From relocated stores, others have grown that are relocated as well: what was there has stayed where it
was, and what was apart still is. -/
structure Grown (m : CellId → CellId) (b t : Store) (m' : CellId → CellId) (b' t' : Store) : Prop where
  stores : Relocated m' b' t'
  older : b.Extends b'
  closed : t'.Closed
  same : ∀ c, b.Holds (.cell c) → m' c = m c
  apart : ∀ c, (∀ d, m d ≠ c) → (∀ d, m' d ≠ c) ∧ t'.cell c = t.cell c

theorem Grown.trans (h : Grown m b t m' b' t') (h' : Grown m' b' t' m'' b'' t'') :
    Grown m b t m'' b'' t'' := by
  refine ⟨h'.stores, h.older.trans h'.older, h'.closed, fun c hc => ?_, fun c hc => ?_⟩
  · exact (h'.same c (h.older _ hc).1).trans (h.same c hc)
  · obtain ⟨hfree, hcell⟩ := h.apart c hc
    exact ⟨(h'.apart c hfree).1, (h'.apart c hfree).2.trans hcell⟩

/-- A part is read on both sides. -/
theorem grown_ofForm (h : Relocated m b t) (ht : t.Closed) (file : String) (f : Form) :
    Grown m b t m (b.ofForm file f).2 (t.ofForm file f).2 := by
  refine ⟨(h.ofForm file f).2, Store.extends_ofForm file f b, (Store.closed_ofForm ht file f).1,
    fun _ _ => rfl, fun c hc => ⟨hc, ?_⟩⟩
  exact ((Store.extends_ofForm file f t).cell_eq (h.holds_of_unreached hc)).2

/-- Pairs are made on one side, and they are apart. -/
theorem grown_behind (h : Relocated m b t) (ht : t.Closed) (ht' : t'.Closed) (hgrows : t.Grows t') :
    Grown m b t (t.behind t' ∘ m) b t' ∧
      ∀ c, ¬ t.Holds (.cell c) → t'.Holds (.cell c) → ∀ d, (t.behind t' ∘ m) d ≠ c := by
  have hsize : t.cells.size ≤ t'.cells.size := Store.size_le_of_holds fun i hi => (hgrows.kept i hi).1
  -- a place is that of an old pair, or it is behind all that is there
  have hplace : ∀ d, t.behind t' (m d) = m d ∨ t'.cells.size ≤ (t.behind t' (m d)).index := by
    intro d
    rcases Nat.lt_or_ge (m d).index t.cells.size with hlt | hge
    · exact Or.inl (Store.behind_of_lt hlt)
    · refine Or.inr ?_
      rw [Store.behind_of_le hge]
      show t'.cells.size ≤ (m d).index + (t'.cells.size - t.cells.size)
      omega
  refine ⟨⟨h.trans (hgrows.relocated ht), .refl b, ht', fun c hc => ?_, fun c hc => ⟨fun d hd => ?_, ?_⟩⟩,
    fun c hnew hheld d hd => ?_⟩
  · exact Store.behind_of_lt ((h.holds (.cell c)).2 hc)
  · rcases hplace d with hold | hbehind
    · exact hc d (hold.symm.trans hd)
    · have hheld : c.index < t'.cells.size := (h.holds_of_unreached hc).trans_le hsize
      rw [Function.comp_apply] at hd
      rw [hd] at hbehind
      exact absurd hheld (not_lt.2 hbehind)
  · exact (hgrows.kept.cell_eq (h.holds_of_unreached hc)).2
  · have hheld' : c.index < t'.cells.size := hheld
    rw [Function.comp_apply] at hd
    rcases hplace d with hold | hbehind
    · -- the place would be one of those to come, and they are given out behind `t'`
      rcases Nat.lt_or_ge (m d).index t.cells.size with hlt | hge
      · exact hnew (by rw [← hd, hold]; exact hlt)
      · rw [Store.behind_of_le hge] at hd
        have hindex : (m d).index + (t'.cells.size - t.cells.size) = c.index := congrArg CellId.index hd
        omega
    · rw [hd] at hbehind
      exact absurd hheld' (not_lt.2 hbehind)

/-- Who has read a form has read its parts, and besides made pairs that are apart. -/
theorem ofSkeleton (h : Relocated m b t) (hb : b.Closed) (ht : t.Closed) (file : String) (k : Skeleton) :
    ∃ m', Grown m b t m' (b.ofForms file k.parts).2 (t.ofForm file k.form).2 ∧
      (t.ofForm file k.form).2.Shows (fun c => ∀ d, m' d ≠ c) k (t.ofForm file k.form).1
        ((b.ofForms file k.parts).1.map (Value.relocated m')) := by
  -- a pair is made around what was read, and is apart
  have hpair : ∀ {m b t} (a d : Value), Relocated m b t → t.Closed → (t.cons a d).2.Closed → ∃ m',
      Grown m b t m' b (t.cons a d).2 ∧ (∀ e, m' e ≠ ⟨t.cells.size⟩) ∧
        (t.cons a d).2.cell ⟨t.cells.size⟩ = ⟨a, Store.restOf d⟩ := by
    intro m b t a d hst ht ht'
    have hadds := t.adds_cons a d
    obtain ⟨hgrown, hfree⟩ := grown_behind hst ht ht' (.cons t a d)
    exact ⟨_, hgrown, hfree _ hadds.new ((hadds.holds _).2 (Or.inr rfl)), Content.cell.inj hadds.self⟩
  induction k generalizing m b t with
  | part f =>
    refine ⟨m, grown_ofForm h ht file f, ?_⟩
    show Store.Shows _ _ _ _ [(b.ofForm file f).1.relocated m]
    rw [← (h.ofForm file f).1]
    exact .part (Store.leaf?_ofForm file f t)
  | rest f =>
    have hgrown := (grown_behind h ht (Store.closed_ofForm ht file f).1 (.ofForm file f t)).1
    exact ⟨_, hgrown, .rest (Store.leaf?_ofForm file f t)⟩
  | single p car ih =>
    obtain ⟨m₁, hgrown, hshows⟩ := ih h hb ht
    have hclosed := (Store.closed_ofForm ht file (.single p car.form)).1
    obtain ⟨m₂, hgrown', hfree, hcell⟩ := hpair _ .nil hgrown.stores hgrown.closed hclosed
    refine ⟨m₂, hgrown.trans hgrown', ?_⟩
    rw [Skeleton.parts, map_relocated_congr (Store.closed_ofForms hb file _).2 hgrown'.same]
    exact .single rfl hfree hcell (hshows.mono hgrown'.apart)
  | pair p car cdr ihcar ihcdr =>
    obtain ⟨m₁, hgrown₁, hcar⟩ := ihcar h hb ht
    obtain ⟨hclosed₁, hheld₁⟩ := Store.closed_ofForms hb file car.parts
    obtain ⟨m₂, hgrown₂, hcdr⟩ := ihcdr hgrown₁.stores hclosed₁ hgrown₁.closed
    obtain ⟨hclosed₂, hheld₂⟩ := Store.closed_ofForms hclosed₁ file cdr.parts
    have hclosed := (Store.closed_ofForm ht file (.pair p car.form cdr.form)).1
    obtain ⟨m₃, hgrown₃, hfree, hcell⟩ := hpair _ _ hgrown₂.stores hgrown₂.closed hclosed
    refine ⟨m₃, ?_, ?_⟩
    · rw [Skeleton.parts, Store.ofForms_append]
      exact (hgrown₁.trans hgrown₂).trans hgrown₃
    · rw [Skeleton.parts, Store.ofForms_append, List.map_append,
        map_relocated_congr hheld₁ (hgrown₂.trans hgrown₃).same,
        map_relocated_congr hheld₂ hgrown₃.same]
      exact .pair rfl hfree hcell (hcar.mono (hgrown₂.trans hgrown₃).apart) (hcdr.mono hgrown₃.apart) rfl

end Relocated

/-- So it is for one store that reads the form or the parts, and the pairs that were there stay in their
places. -/
theorem Store.exists_shown {s : Store} (h : s.Closed) (file : String) (k : Skeleton) :
    ∃ m, Relocated m (s.ofForms file k.parts).2 (s.ofForm file k.form).2 ∧
      (s.ofForm file k.form).2.Shows (fun c => ∀ d, m d ≠ c) k (s.ofForm file k.form).1
        ((s.ofForms file k.parts).1.map (Value.relocated m)) ∧
      ∀ c, s.Holds (.cell c) → m c = c := by
  obtain ⟨m, hgrown, hshown⟩ := ((Store.Grows.refl s).relocated h).ofSkeleton h h file k
  exact ⟨m, hgrown.stores, hshown, fun c hc => (hgrown.same c hc).trans (Store.behind_of_lt hc)⟩

end Lisplet
