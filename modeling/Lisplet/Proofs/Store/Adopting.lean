/-
# Lisplet.Proofs.Store.Adopting -- forms that were made earlier

Stores can be alike although things were made in them in another order.  A store that is closed is alike
to itself (`Renaming.stores_same`), and stays so if more is made on one side: what is new there corresponds
to nothing.  Later it can be adopted: when the same is made on the other side, it corresponds to that
(`Stores.adopt`).

So it goes with the forms of a text that were made early on one side, were set aside and are untouched: the
same forms, made later on the other side, correspond to them pair by pair (`adopt_ofForms`).
-/

import Mathlib.Tactic
import Lisplet.Proofs.Evaluator.Confined
import Lisplet.Proofs.Evaluator.Simulates

namespace Lisplet

/-! ## Stores behind a text -/

namespace Store

/-- A form is made of pairs only. -/
theorem holds_ofForm {file : String} {f : Form} {s : Store} {i : Ident}
    (h : (s.ofForm file f).2.Holds i) : s.Holds i ∨ ∃ c, i = .cell c := by
  have hcons : ∀ {s : Store} {a d : Value}, (s.cons a d).2.Holds i → s.Holds i ∨ ∃ c, i = .cell c := by
    intro s a d hheld
    rcases ((adds_cons s a d).holds i).1 hheld with hs | hnew
    · exact .inl hs
    · exact .inr ⟨_, hnew⟩
  induction f generalizing s with
  | atom | empty => exact .inl h
  | single p car ih => exact (hcons h).elim ih .inr
  | pair p car cdr ihcar ihcdr => exact (hcons h).elim (fun h => (ihcdr h).elim ihcar .inr) .inr

theorem holds_ofForms {file : String} {fs : List Form} {s : Store} {i : Ident}
    (h : (s.ofForms file fs).2.Holds i) : s.Holds i ∨ ∃ c, i = .cell c := by
  induction fs generalizing s with
  | nil => exact .inl h
  | cons f fs ih => exact (ih h).elim holds_ofForm .inr

end Store

section Reading

variable {s s' : Store}

/-- What a closed store holds is not among what is made later. -/
theorem Value.Beside.later {v : Value} (h : v.Beside {} {} s) (hs : s.Extends s') :
    v.Beside s s' s' := by
  intro i hi
  obtain ⟨hheld, -⟩ := h i hi
  refine ⟨(hs i hheld).1, ?_⟩
  rintro c rfl hc
  exact absurd hheld (not_lt.2 hc.1)

/-- The forms of a text are set aside when they are made. -/
theorem confined_ofForms (h : s.Closed) (file : String) (fs : List Form) :
    Confined s (s.ofForms file fs).2 (s.ofForms file fs).2 := by
  have hextends := Store.extends_ofForms file fs s
  obtain ⟨hframes, hclosures⟩ := Store.frames_ofForms file fs s
  have hframe : ∀ f, (s.ofForms file fs).2.frame f = s.frame f := fun f => by
    rw [Store.frame, Store.frame, hframes]
  have hclosure : ∀ k, (s.ofForms file fs).2.closure k = s.closure k := fun k => by
    rw [Store.closure, Store.closure, hclosures]
  refine ⟨by rw [hframes]; exact h.frames, fun f p hp => ?_, fun i hi => ?_, fun k => ?_,
    fun c hc => ⟨hc.2, rfl⟩⟩
  · rw [hframe] at hp
    exact h.ordered f p hp
  · -- whatever is not one of the new pairs is as it was
    have hsame : (s.ofForms file fs).2.content i = s.content i := by
      by_cases hheld : s.Holds i
      · exact (hextends i hheld).2
      · refine Store.content_eq_of_not_holds hheld fun hnew => ?_
        obtain ⟨c, rfl⟩ := (Store.holds_ofForms hnew).resolve_left hheld
        exact hi c rfl ⟨not_lt.1 hheld, hnew⟩
    rw [hsame]
    exact (h.each i fun c _ => not_between_empty c).mono fun _ hv => hv.later hextends
  · rw [hclosure]
    exact (hextends _ (h.closures k)).1

end Reading

/-! ## Renamings -/

theorem optionRel_imp_of_mem {α β : Type} {P Q : α → β → Prop} {x : Option α} {y : Option β}
    (h : Option.Rel P x y) (hPQ : ∀ a ∈ x, ∀ b, P a b → Q a b) : Option.Rel Q x y := by
  cases h with
  | none => exact .none
  | some h => exact .some (hPQ _ rfl _ h)

theorem forall₂_imp_of_mem {α β : Type} {P Q : α → β → Prop} {xs : List α} {ys : List β}
    (h : List.Forall₂ P xs ys) (hPQ : ∀ a ∈ xs, ∀ b, P a b → Q a b) : List.Forall₂ Q xs ys := by
  induction h with
  | nil => exact .nil
  | cons h _ ih =>
    obtain ⟨hhead, htail⟩ := List.forall_mem_cons.1 hPQ
    exact .cons (hhead _ h) (ih htail)

namespace Renaming

variable {R : Renaming} {s t u : Store}

/-- Values alike under `R` are so under the part of it that concerns what they hold. -/
theorem Values.restrict {P : Ident → Prop} {v w : Value} (h : R.Values v w)
    (hv : ∀ i, v.ident? = some i → P i) : Values (fun i j => P i ∧ R i j) v w := by
  obtain ⟨x, p⟩ := v
  obtain ⟨y, q⟩ := w
  cases (h : R.Datums x y) with
  | nil => exact .nil
  | atom a => exact .atom a
  | native p => exact .native p
  | pair h => exact .pair ⟨hv _ rfl, h⟩
  | closure h => exact .closure ⟨hv _ rfl, h⟩
  | hash h => exact .hash ⟨hv _ rfl, h⟩

theorem Contents.restrict {P : Ident → Prop} {x y : Content} (h : R.Contents x y)
    (hx : x.Each fun v => ∀ i, v.ident? = some i → P i) (hP : ∀ f, P (.frame f)) :
    Contents (fun i j => P i ∧ R i j) x y := by
  cases h with
  | cell car cdr =>
    exact .cell (car.restrict hx.1) (optionRel_imp_of_mem cdr fun a ha _ h => h.restrict (hx.2 a ha))
  | table entries =>
    exact .table fun key => optionRel_imp_of_mem (entries key) fun a ha _ h => h.restrict (hx key a ha)
  | closure params body frame =>
    exact .closure params (forall₂_imp_of_mem body fun a ha _ h => h.restrict (hx a ha)) ⟨hP _, frame⟩
  | frame bindings parent policy =>
    refine .frame (fun name => ?_) (optionRel_imp (fun f _ h => ⟨hP f, h⟩) parent) policy
    exact optionRel_imp_of_mem (bindings name) fun a ha _ h => h.restrict (hx name a ha)

/-! ### Stores that are alike to themselves -/

/-- Everything corresponds to itself. -/
def same (s : Store) : Renaming := fun i j => s.Holds i ∧ i = j

theorem values_same {v : Value} (h : ∀ i, v.ident? = some i → s.Holds i) : (same s).Values v v := by
  refine Values.restrict ?_ h
  obtain ⟨x, p⟩ := v
  cases x with
  | nil => exact .nil
  | atom a => exact .atom a
  | native p => exact .native p
  | pair | closure | hash => constructor; rfl

theorem contents_same {x : Content} (hx : x.Each fun v => ∀ i, v.ident? = some i → s.Holds i)
    (hclosure : ∀ k, x = .closure k → s.Holds (.frame k.frame))
    (hframe : ∀ f p, x = .frame f → f.parent = some p → s.Holds (.frame p)) :
    (same s).Contents x x := by
  have hoption : ∀ {v : Option Value}, (∀ w ∈ v, ∀ i, w.ident? = some i → s.Holds i) →
      Option.Rel (same s).Values v v := by
    rintro (- | v) hv
    · exact .none
    · exact .some (values_same (hv v rfl))
  cases x with
  | cell c => exact .cell (values_same hx.1) (hoption hx.2)
  | table t => exact .table fun key => hoption (hx key)
  | closure k =>
    refine .closure rfl (List.forall₂_same.2 fun v hv => values_same (hx v hv)) ?_
    exact ⟨hclosure k rfl, rfl⟩
  | frame f =>
    refine .frame (fun name => hoption (hx name)) ?_ rfl
    cases hp : f.parent with
    | none => exact .none
    | some p => exact .some ⟨hframe f p rfl hp, rfl⟩

/-- A closed store is alike to itself. -/
theorem stores_same (h : s.Closed) : (same s).Stores s s where
  unique := by
    constructor
    · rintro i j k ⟨-, rfl⟩ ⟨-, rfl⟩
      rfl
    · rintro i j k ⟨-, rfl⟩ ⟨-, rfl⟩
      rfl
  holds := by
    rintro i j ⟨hi, rfl⟩
    exact ⟨hi, hi⟩
  contents := by
    rintro i j ⟨hi, rfl⟩
    refine contents_same ?_ (fun k hk => ?_) fun f p hf hp => ?_
    · exact (h.each i fun c _ => not_between_empty c).mono fun v hv k hk => (hv k hk).1
    · cases i with
      | closure id => exact Content.closure.inj hk ▸ h.closures id
      | cell | table | frame => cases hk
    · cases i with
      | frame id =>
        -- a parent is older than its child, and the child is there
        obtain rfl : s.frame id = f := Content.frame.inj hf
        exact (h.ordered id p hp).trans hi
      | cell | table | closure => cases hf
  ordered := ⟨h.ordered, h.ordered⟩

/-- What nothing refers to can be left out of a renaming. -/
theorem Stores.restrict (h : R.Stores u t) {s s' : Store} (hconfined : Confined s s' u) :
    Stores (fun i j => i.Outside s s' ∧ R i j) u t where
  unique := ⟨fun _ _ _ hi hj => h.unique.1 hi.2 hj.2, fun _ _ _ hi hj => h.unique.2 hi.2 hj.2⟩
  holds hij := h.holds hij.2
  contents {i j} hij := by
    refine (h.contents hij.2).restrict ?_ fun f c hc => by cases hc
    exact (hconfined.each i hij.1).mono fun v hv k hk => (hv k hk).2
  ordered := h.ordered

/-! ### Forms that await their counterparts -/

/-- The pairs that were made on the way from `u` to `u'` are in `s` as they were, and correspond to
nothing. -/
def Awaits (R : Renaming) (s u u' : Store) : Prop :=
  ∀ c, Between u u' c → s.Holds (.cell c) ∧ s.cell c = u'.cell c ∧ ∀ j, ¬ R (.cell c) j

/-- Of all pairs, only those that were made on the way from `u` to `u'` correspond to more than before. -/
structure Adopts (R : Renaming) (u u' : Store) (R' : Renaming) : Prop where
  le : R ≤ R'
  cells : ∀ c j, R' (.cell c) j → R (.cell c) j ∨ Between u u' c

section Awaiting

variable {R' R'' : Renaming} {u' u₁ : Store}

theorem Adopts.refl (R : Renaming) (u : Store) : R.Adopts u u R := ⟨le_rfl, fun _ _ => .inl⟩

theorem Adopts.trans (h : R.Adopts u u₁ R') (h' : R'.Adopts u₁ u' R'')
    (hu : u.cells.size ≤ u₁.cells.size) (hu' : u₁.cells.size ≤ u'.cells.size) : R.Adopts u u' R'' := by
  refine ⟨h.le.trans h'.le, fun c j hc => ?_⟩
  rcases h'.cells c j hc with hc | ⟨hlow, hhigh⟩
  · rcases h.cells c j hc with hc | ⟨hlow, hhigh⟩
    · exact .inl hc
    · exact .inr ⟨hlow, hhigh.trans_le hu'⟩
  · exact .inr ⟨hu.trans hlow, hhigh⟩

/-- What is made first awaits its counterparts as well. -/
theorem Awaits.first (h : R.Awaits s u u') (hu : u₁.Extends u') : R.Awaits s u u₁ := by
  intro c hc
  obtain ⟨hlt, hcell⟩ := hu.cell_eq hc.2
  obtain ⟨hheld, hsame, hfree⟩ := h c ⟨hc.1, hlt⟩
  exact ⟨hheld, hsame.trans hcell, hfree⟩

/-- Once what is made first has found its counterparts, the rest still awaits its own. -/
theorem Awaits.rest (h : R.Awaits s u u') (hR : R.Adopts u u₁ R') (hu : u.cells.size ≤ u₁.cells.size) :
    R'.Awaits s u₁ u' := by
  intro c hc
  obtain ⟨hheld, hsame, hfree⟩ := h c ⟨hu.trans hc.1, hc.2⟩
  refine ⟨hheld, hsame, fun j hj => ?_⟩
  rcases hR.cells c j hj with hj | hfirst
  · exact hfree j hj
  · exact absurd hfirst.2 (not_lt.2 hc.1)

/-- A pair finds its counterpart when that is made. -/
theorem adopt_cons {a b d e : Value} (h : R.Stores s t) (hawaits : R.Awaits s u (u.cons a d).2)
    (hcar : R.Values a b) (hcdr : R.Values d e) :
    ∃ R' : Renaming, R.Adopts u (u.cons a d).2 R' ∧ R'.Stores s (t.cons b e).2 ∧
      R'.Values (u.cons a d).1 (t.cons b e).1 := by
  have hadds := u.adds_cons a d
  have hnew : Between u (u.cons a d).2 ⟨u.cells.size⟩ := ⟨le_rfl, (hadds.holds _).2 (.inr rfl)⟩
  obtain ⟨hheld, hsame, hfree⟩ := hawaits _ hnew
  have hcontent : s.content (.cell ⟨u.cells.size⟩) = .cell ⟨a, Store.restOf d⟩ :=
    (congrArg Content.cell hsame).trans hadds.self
  refine ⟨R.add (.cell ⟨u.cells.size⟩) (.cell ⟨t.cells.size⟩), ⟨R.le_add _ _, ?_⟩, ?_,
    .pair (R.add_self _ _)⟩
  · rintro c j (hc | ⟨hc, -⟩)
    · exact .inl hc
    · obtain rfl := Ident.cell.inj hc
      exact .inr hnew
  · refine h.adopt hheld hfree (t.adds_cons b e) ?_ h.ordered.2
    rw [hcontent]
    exact .cell hcar hcdr.restOf

/-- A form that was made in `u` finds its counterpart when the same form is made again. -/
theorem adopt_ofForm (h : R.Stores s t) (file file' : String) {f g : Form}
    (hfg : f.unplaced = g.unplaced) (hawaits : R.Awaits s u (u.ofForm file f).2) :
    ∃ R' : Renaming, R.Adopts u (u.ofForm file f).2 R' ∧ R'.Stores s (t.ofForm file' g).2 ∧
      R'.Values (u.ofForm file f).1 (t.ofForm file' g).1 := by
  have hsize : ∀ (f : Form) (u : Store), u.cells.size ≤ (u.ofForm file f).2.cells.size := fun f u =>
    Store.size_le_of_holds fun i hi => (Store.extends_ofForm file f u i hi).1
  have hcons : ∀ (u : Store) (a d : Value), u.cells.size ≤ (u.cons a d).2.cells.size := fun u a d =>
    Store.size_le_of_holds fun i hi => ((u.adds_cons a d).extends i hi).1
  induction f generalizing R t u g with
  | atom p a =>
    cases g <;> simp only [Form.unplaced, reduceCtorEq, Form.atom.injEq, true_and] at hfg
    subst hfg
    exact ⟨R, .refl R u, h, .atom _⟩
  | empty p =>
    cases g <;> simp only [Form.unplaced, reduceCtorEq] at hfg
    exact ⟨R, .refl R u, h, .nil⟩
  | single p car ih =>
    cases g <;> simp only [Form.unplaced, reduceCtorEq, Form.single.injEq, true_and] at hfg
    obtain ⟨R₁, hR₁, hstores, hcar⟩ := ih h hfg (hawaits.first (Store.adds_cons _ _ _).extends)
    have hnil : R₁.Values .nil .nil := .nil
    obtain ⟨R₂, hR₂, hstores', hpair⟩ := adopt_cons hstores (hawaits.rest hR₁ (hsize car u)) hcar hnil
    exact ⟨R₂, hR₁.trans hR₂ (hsize car u) (hcons _ _ _), hstores', hpair⟩
  | pair p car cdr ihcar ihcdr =>
    cases g <;> simp only [Form.unplaced, reduceCtorEq, Form.pair.injEq, true_and] at hfg
    -- first the one half, then the other, then the pair of both
    have hlast := (Store.adds_cons ((u.ofForm file car).2.ofForm file cdr).2 (u.ofForm file car).1
      ((u.ofForm file car).2.ofForm file cdr).1).extends
    obtain ⟨R₁, hR₁, hstores, hcar⟩ :=
      ihcar h hfg.1 (hawaits.first ((Store.extends_ofForm file cdr _).trans hlast))
    have hawaits' := hawaits.rest hR₁ (hsize car u)
    obtain ⟨R₂, hR₂, hstores', hcdr⟩ := ihcdr hstores hfg.2 (hawaits'.first hlast)
    obtain ⟨R₃, hR₃, hstores'', hpair⟩ :=
      adopt_cons hstores' (hawaits'.rest hR₂ (hsize cdr _)) (hcar.mono hR₂.le) hcdr
    refine ⟨R₃, (hR₁.trans hR₂ (hsize car u) (hsize cdr _)).trans hR₃ ?_ (hcons _ _ _), hstores'', hpair⟩
    exact (hsize car u).trans (hsize cdr _)

/-- The forms of a text find their counterparts one by one and in order. -/
theorem adopt_ofForms (h : R.Stores s t) (file file' : String) {fs gs : List Form}
    (hfs : fs.map Form.unplaced = gs.map Form.unplaced) (hawaits : R.Awaits s u (u.ofForms file fs).2) :
    ∃ R' : Renaming, R ≤ R' ∧ R'.Stores s (t.ofForms file' gs).2 ∧
      List.Forall₂ R'.Values (u.ofForms file fs).1 (t.ofForms file' gs).1 := by
  induction fs generalizing R t u gs with
  | nil =>
    obtain rfl : gs = [] := by simpa using hfs.symm
    exact ⟨R, le_rfl, h, .nil⟩
  | cons f fs ih =>
    cases gs with
    | nil => simp at hfs
    | cons g gs =>
      simp only [List.map_cons, List.cons.injEq] at hfs
      have hsize : u.cells.size ≤ (u.ofForm file f).2.cells.size :=
        Store.size_le_of_holds fun i hi => (Store.extends_ofForm file f u i hi).1
      obtain ⟨R₁, hR₁, hstores, hvw⟩ :=
        adopt_ofForm h file file' hfs.1 (hawaits.first (Store.extends_ofForms file fs _))
      obtain ⟨R₂, hR₂, hstores', hrest⟩ := ih hstores hfs.2 (hawaits.rest hR₁ hsize)
      exact ⟨R₂, hR₁.le.trans hR₂, hstores', .cons (hvw.mono hR₂) hrest⟩

/-- Forms that were set aside and left alone find their counterparts when the same forms are made, and
all that is beside them keeps its own. -/
theorem Stores.adopt_confined {file : String} {fs gs : List Form} (h : R.Stores s t)
    (hconfined : Confined u (u.ofForms file fs).2 s) (file' : String)
    (hfs : fs.map Form.unplaced = gs.map Form.unplaced) :
    ∃ R' : Renaming, R'.Stores s (t.ofForms file' gs).2 ∧
      List.Forall₂ R'.Values (u.ofForms file fs).1 (t.ofForms file' gs).1 ∧
      (∀ f g, R.Frames f g → R'.Frames f g) ∧
      ∀ v w, v.Beside u (u.ofForms file fs).2 s → R.Values v w → R'.Values v w := by
  -- nothing but the forms themselves refers to them, so they can first be left out of the renaming
  have hawaits : Awaits (fun i j => i.Outside u (u.ofForms file fs).2 ∧ R i j) s u
      (u.ofForms file fs).2 := by
    intro c hc
    obtain ⟨hheld, hsame⟩ := hconfined.kept c hc
    exact ⟨hheld, hsame, fun j hj => hj.1 c rfl hc⟩
  obtain ⟨R', hR', hstores, hvalues⟩ := adopt_ofForms (h.restrict hconfined) file file' hfs hawaits
  refine ⟨R', hstores, hvalues, fun f g hfg => ?_, fun v w hv hvw => ?_⟩
  · exact hR' _ _ ⟨fun c hc => (by cases hc), hfg⟩
  · exact (hvw.restrict fun i hi => (hv i hi).2).mono hR'

end Awaiting

end Renaming

end Lisplet
