/-
# Lisplet.Proofs.Store.Renaming -- stores that are alike

Two values are alike when they differ in nothing but where they come from and in the identities under
which they hold their parts.  A `Renaming` says which identities stand for each other; under it,
`Values` compares values without their provenance and `Stores` compares stores: what stands under two
corresponding identities corresponds in all its parts.  What no value can reach need not correspond to
anything.

A renaming grows as both stores do.  Whatever was alike before stays so (`Values.mono`), and every
operation on the store takes alike stores to alike ones: those that make something extend the
renaming by it (`Stores.add`), those that change something leave it as it is (`Stores.set`).
-/

import Mathlib.Logic.Relator
import Mathlib.Tactic
import Lisplet.Proofs.Store.Contents

namespace Lisplet

theorem optionRel_imp {α β : Type} {P Q : α → β → Prop} (hPQ : ∀ a b, P a b → Q a b) {x : Option α}
    {y : Option β} (h : Option.Rel P x y) : Option.Rel Q x y := by
  cases h with
  | none => exact .none
  | some h => exact .some (hPQ _ _ h)

theorem optionRel_flip {α β : Type} {P : α → β → Prop} {Q : β → α → Prop} (hPQ : ∀ a b, P a b → Q b a)
    {x : Option α} {y : Option β} (h : Option.Rel P x y) : Option.Rel Q y x := by
  cases h with
  | none => exact .none
  | some h => exact .some (hPQ _ _ h)

theorem optionRel_some {α β : Type} {P : α → β → Prop} {x : Option α} {y : Option β} {a : α}
    (h : Option.Rel P x y) (hx : x = some a) : ∃ b, y = some b ∧ P a b := by
  cases h with
  | none => cases hx
  | some h =>
    obtain rfl := Option.some.inj hx
    exact ⟨_, rfl, h⟩

theorem optionRel_none {α β : Type} {P : α → β → Prop} {x : Option α} {y : Option β}
    (h : Option.Rel P x y) (hx : x = none) : y = none := by
  cases h with
  | none => rfl
  | some => cases hx

theorem optionRel_bind {α β γ δ : Type} {P : α → β → Prop} {Q : γ → δ → Prop} {x : Option α}
    {y : Option β} {f : α → Option γ} {g : β → Option δ} (h : Option.Rel P x y)
    (hfg : ∀ a b, P a b → Option.Rel Q (f a) (g b)) : Option.Rel Q (x.bind f) (y.bind g) := by
  cases h with
  | none => exact .none
  | some h => exact hfg _ _ h

theorem optionRel_getD {α β : Type} {P : α → β → Prop} {x : Option α} {y : Option β} {a : α} {b : β}
    (h : Option.Rel P x y) (hab : P a b) : P (x.getD a) (y.getD b) := by
  cases h with
  | none => exact hab
  | some h => exact h

/-- Which identities of two stores stand for each other. -/
abbrev Renaming := Ident → Ident → Prop

namespace Renaming

variable {R R' : Renaming}

/-! ## Values -/

/-- Data that are alike. -/
inductive Datums (R : Renaming) : Datum → Datum → Prop
  | nil : Datums R .nil .nil
  | pair {c d : CellId} (h : R (.cell c) (.cell d)) : Datums R (.pair c) (.pair d)
  | atom (a : Atom) : Datums R (.atom a) (.atom a)
  | closure {k l : ClosureId} (h : R (.closure k) (.closure l)) : Datums R (.closure k) (.closure l)
  | native (p : Primitive) : Datums R (.native p) (.native p)
  | hash {t u : TableId} (h : R (.table t) (.table u)) : Datums R (.hash t) (.hash u)

/-- Values that are alike, wherever they come from. -/
def Values (R : Renaming) (v w : Value) : Prop := R.Datums v.datum w.datum

/-- Frames that correspond. -/
def Frames (R : Renaming) (f g : FrameId) : Prop := R (.frame f) (.frame g)

theorem Datums.mono (hR : R ≤ R') {x y : Datum} (h : R.Datums x y) : R'.Datums x y := by
  cases h with
  | nil => exact .nil
  | pair h => exact .pair (hR _ _ h)
  | atom a => exact .atom a
  | closure h => exact .closure (hR _ _ h)
  | native p => exact .native p
  | hash h => exact .hash (hR _ _ h)

theorem Values.mono (hR : R ≤ R') {v w : Value} (h : R.Values v w) : R'.Values v w := Datums.mono hR h

theorem Frames.mono (hR : R ≤ R') {f g : FrameId} (h : R.Frames f g) : R'.Frames f g := hR _ _ h

theorem values_mono (hR : R ≤ R') {vs ws : List Value} (h : List.Forall₂ R.Values vs ws) :
    List.Forall₂ R'.Values vs ws :=
  h.imp fun _ _ => Values.mono hR

/-- The same correspondence read from the other side. -/
def inverse (R : Renaming) : Renaming := fun i j => R j i

theorem Datums.inverse {x y : Datum} (h : R.Datums x y) : R.inverse.Datums y x := by
  cases h with
  | nil => exact .nil
  | pair h => exact .pair h
  | atom a => exact .atom a
  | closure h => exact .closure h
  | native p => exact .native p
  | hash h => exact .hash h

theorem Values.inverse {v w : Value} (h : R.Values v w) : R.inverse.Values w v := Datums.inverse h

/-- What looks neither at provenance nor at identities does not tell alike values apart. -/
theorem Values.same {α : Type} {φ : Value → α} {v w : Value} (h : R.Values v w)
    (provenance : ∀ d p q, φ ⟨d, p⟩ = φ ⟨d, q⟩)
    (pair : ∀ c d p, φ ⟨.pair c, p⟩ = φ ⟨.pair d, p⟩)
    (closure : ∀ k l p, φ ⟨.closure k, p⟩ = φ ⟨.closure l, p⟩)
    (hash : ∀ t u p, φ ⟨.hash t, p⟩ = φ ⟨.hash u, p⟩) : φ v = φ w := by
  obtain ⟨x, p⟩ := v
  obtain ⟨y, q⟩ := w
  have h : R.Datums x y := h
  rw [provenance y q p]
  cases h with
  | nil | atom | native => rfl
  | pair => exact pair _ _ p
  | closure => exact closure _ _ p
  | hash => exact hash _ _ p

section Views

variable {v w : Value}

theorem Values.typeName_eq (h : R.Values v w) : v.typeName = w.typeName :=
  h.same (φ := Value.typeName) (fun _ _ _ => rfl) (fun _ _ _ => rfl) (fun _ _ _ => rfl) fun _ _ _ => rfl

theorem Values.isNil_eq (h : R.Values v w) : v.isNil = w.isNil :=
  h.same (φ := Value.isNil) (fun _ _ _ => rfl) (fun _ _ _ => rfl) (fun _ _ _ => rfl) fun _ _ _ => rfl

theorem Values.isPair_eq (h : R.Values v w) : v.isPair = w.isPair :=
  h.same (φ := Value.isPair) (fun _ _ _ => rfl) (fun _ _ _ => rfl) (fun _ _ _ => rfl) fun _ _ _ => rfl

theorem Values.symbol?_eq (h : R.Values v w) : v.symbol? = w.symbol? :=
  h.same (φ := Value.symbol?) (fun _ _ _ => rfl) (fun _ _ _ => rfl) (fun _ _ _ => rfl) fun _ _ _ => rfl

theorem Values.bool?_eq (h : R.Values v w) : v.bool? = w.bool? :=
  h.same (φ := Value.bool?) (fun _ _ _ => rfl) (fun _ _ _ => rfl) (fun _ _ _ => rfl) fun _ _ _ => rfl

theorem Values.number?_eq (h : R.Values v w) : v.number? = w.number? :=
  h.same (φ := Value.number?) (fun _ _ _ => rfl) (fun _ _ _ => rfl) (fun _ _ _ => rfl) fun _ _ _ => rfl

theorem Values.string?_eq (h : R.Values v w) : v.string? = w.string? :=
  h.same (φ := Value.string?) (fun _ _ _ => rfl) (fun _ _ _ => rfl) (fun _ _ _ => rfl) fun _ _ _ => rfl

theorem Values.key?_eq (h : R.Values v w) : HashKey.ofValue? v = HashKey.ofValue? w :=
  h.same (φ := HashKey.ofValue?) (fun _ _ _ => rfl) (fun _ _ _ => rfl) (fun _ _ _ => rfl)
    fun _ _ _ => rfl

theorem Values.of_pair (h : R.Values v w) {c : CellId} (hv : v.datum = .pair c) :
    ∃ d, w.datum = .pair d ∧ R (.cell c) (.cell d) := by
  unfold Values at h
  rw [hv] at h
  generalize w.datum = y at h
  cases h with
  | pair h => exact ⟨_, rfl, h⟩

theorem Values.of_nil (h : R.Values v w) (hv : v.datum = .nil) : w.datum = .nil := by
  unfold Values at h
  rw [hv] at h
  generalize w.datum = y at h
  cases h
  rfl

theorem Values.cell? (h : R.Values v w) :
    Option.Rel (fun c d => R (.cell c) (.cell d)) v.cell? w.cell? := by
  obtain ⟨x, p⟩ := v
  obtain ⟨y, q⟩ := w
  cases (h : R.Datums x y) with
  | pair h => exact .some h
  | nil | atom | closure | native | hash => exact .none

theorem Values.table? (h : R.Values v w) :
    Option.Rel (fun t u => R (.table t) (.table u)) v.table? w.table? := by
  obtain ⟨x, p⟩ := v
  obtain ⟨y, q⟩ := w
  cases (h : R.Datums x y) with
  | hash h => exact .some h
  | nil | atom | closure | native | pair => exact .none

theorem Values.restOf (h : R.Values v w) :
    Option.Rel R.Values (Store.restOf v) (Store.restOf w) := by
  unfold Store.restOf
  rw [h.isNil_eq]
  split
  · exact .none
  · exact .some h

end Views

/-! ## Contents -/

/-- Maps that bind the same keys to alike values. -/
def Maps {κ : Type} [DecidableEq κ] (R : Renaming) (m n : FiniteMap κ Value) : Prop :=
  ∀ key, Option.Rel R.Values (m.find? key) (n.find? key)

/-- Contents that are alike in all their parts. -/
inductive Contents (R : Renaming) : Content → Content → Prop
  | cell {c d : Cell} (car : R.Values c.car d.car) (cdr : Option.Rel R.Values c.cdr d.cdr) :
      Contents R (.cell c) (.cell d)
  | table {t u : Table} (entries : R.Maps t u) : Contents R (.table t) (.table u)
  | closure {k l : Closure} (params : k.params = l.params) (body : List.Forall₂ R.Values k.body l.body)
      (frame : R.Frames k.frame l.frame) : Contents R (.closure k) (.closure l)
  | frame {f g : Frame} (bindings : R.Maps f.bindings g.bindings)
      (parent : Option.Rel R.Frames f.parent g.parent) (policy : f.policy = g.policy) :
      Contents R (.frame f) (.frame g)

theorem Maps.mono {κ : Type} [DecidableEq κ] (hR : R ≤ R') {m n : FiniteMap κ Value} (h : R.Maps m n) :
    R'.Maps m n :=
  fun key => optionRel_imp (fun _ _ => Values.mono hR) (h key)

theorem Contents.mono (hR : R ≤ R') {x y : Content} (h : R.Contents x y) : R'.Contents x y := by
  cases h with
  | cell car cdr => exact .cell (car.mono hR) (optionRel_imp (fun _ _ => Values.mono hR) cdr)
  | table entries => exact .table (entries.mono hR)
  | closure params body frame => exact .closure params (values_mono hR body) (frame.mono hR)
  | frame bindings parent policy =>
    exact .frame (bindings.mono hR) (optionRel_imp (fun _ _ => Frames.mono hR) parent) policy

theorem Contents.inverse {x y : Content} (h : R.Contents x y) : R.inverse.Contents y x := by
  cases h with
  | cell car cdr => exact .cell car.inverse (optionRel_flip (fun _ _ => Values.inverse) cdr)
  | table entries => exact .table fun key => optionRel_flip (fun _ _ => Values.inverse) (entries key)
  | closure params body frame =>
    exact .closure params.symm (body.imp fun _ _ h => h.inverse).flip frame
  | frame bindings parent policy =>
    exact .frame (fun name => optionRel_flip (fun _ _ => Values.inverse) (bindings name))
      (optionRel_flip (fun _ _ h => h) parent) policy.symm

section Insertion

variable {κ : Type} [DecidableEq κ] {m n : FiniteMap κ Value}

theorem maps_empty : R.Maps (FiniteMap.empty : FiniteMap κ Value) FiniteMap.empty := fun _ => .none

theorem Maps.insert (h : R.Maps m n) (key : κ) {v w : Value} (hvw : R.Values v w) :
    R.Maps (m.insert key v) (n.insert key w) := by
  intro other
  by_cases hkey : other = key
  · subst hkey
    rw [FiniteMap.find?_insert_self, FiniteMap.find?_insert_self]
    exact .some hvw
  · rw [FiniteMap.find?_insert_of_ne _ hkey, FiniteMap.find?_insert_of_ne _ hkey]
    exact h other

/-- Parameters bound one by one to alike arguments make alike maps. -/
theorem maps_ofList_zip (keys : List κ) {vs ws : List Value} (h : List.Forall₂ R.Values vs ws) :
    R.Maps (FiniteMap.ofList (keys.zip vs)) (FiniteMap.ofList (keys.zip ws)) := by
  suffices hfold : ∀ m n : FiniteMap κ Value, R.Maps m n →
      R.Maps ((keys.zip vs).foldl (fun m p => m.insert p.1 p.2) m)
        ((keys.zip ws).foldl (fun m p => m.insert p.1 p.2) n) from hfold _ _ maps_empty
  induction h generalizing keys with
  | nil =>
    intro m n hmn
    simpa using hmn
  | cons hvw _ ih =>
    intro m n hmn
    cases keys with
    | nil => exact hmn
    | cons key keys => exact ih keys _ _ (hmn.insert key hvw)

end Insertion

end Renaming

/-! ## Stores -/

/-- A parent is older than its child. -/
def Store.Ordered (s : Store) : Prop :=
  ∀ f p : FrameId, (s.frame f).parent = some p → p.index < f.index

/-- A frame can be replaced by one with the same parent. -/
theorem Store.Ordered.set {s t : Store} {f : FrameId} {frame : Frame} (h : s.Ordered)
    (hset : s.Sets (.frame f) (.frame frame) t) (hparent : frame.parent = (s.frame f).parent) :
    t.Ordered := by
  intro g p hp
  by_cases hg : g = f
  · subst hg
    by_cases hheld : s.Holds (.frame g)
    · rw [Content.frame.inj (hset.self hheld), hparent] at hp
      exact h g p hp
    · have hout : ¬ t.Holds (.frame g) := fun hheld' => hheld ((hset.holds _).1 hheld')
      rw [Store.frame_of_size_le (not_lt.1 hout)] at hp
      cases hp
  · have hother : t.frame g = s.frame g :=
      Content.frame.inj (hset.other (.frame g) (by simpa using hg))
    rw [hother] at hp
    exact h g p hp

namespace Renaming

/-- Stores that are alike: each identity stands for one other at most, and what stands under two that
correspond is alike. -/
structure Stores (R : Renaming) (s t : Store) : Prop where
  unique : Relator.BiUnique R
  holds : ∀ {i j : Ident}, R i j → s.Holds i ∧ t.Holds j
  contents : ∀ {i j : Ident}, R i j → R.Contents (s.content i) (t.content j)
  ordered : s.Ordered ∧ t.Ordered

/-- The renaming in which `i` and `j` correspond as well. -/
def add (R : Renaming) (i j : Ident) : Renaming := fun k l => R k l ∨ k = i ∧ l = j

theorem le_add (R : Renaming) (i j : Ident) : R ≤ R.add i j := fun _ _ => Or.inl

theorem add_self (R : Renaming) (i j : Ident) : R.add i j i j := Or.inr ⟨rfl, rfl⟩

namespace Stores

variable {R : Renaming} {s s' t t' : Store} {i j : Ident} {x y : Content}

/-- What is made on one side alone corresponds to nothing. -/
theorem extend_left (h : R.Stores s t) (hs : s.Extends s') (hordered : s'.Ordered) : R.Stores s' t where
  unique := h.unique
  holds hij := ⟨(hs _ (h.holds hij).1).1, (h.holds hij).2⟩
  contents hij := by
    rw [(hs _ (h.holds hij).1).2]
    exact h.contents hij
  ordered := ⟨hordered, h.ordered.2⟩

/-- What was made on one side and corresponds to nothing is made on the other. -/
theorem adopt (h : R.Stores s t) (hi : s.Holds i) (hfree : ∀ k, ¬ R i k) (ht : t.Adds j y t')
    (hxy : R.Contents (s.content i) y) (hordered : t'.Ordered) : (R.add i j).Stores s t' := by
  refine ⟨⟨?_, ?_⟩, ?_, ?_, h.ordered.1, hordered⟩
  · rintro k k' l (hk | ⟨rfl, rfl⟩) (hk' | ⟨rfl, hl⟩)
    · exact h.unique.1 hk hk'
    · subst hl
      exact absurd (h.holds hk).2 ht.new
    · exact absurd (h.holds hk').2 ht.new
    · rfl
  · rintro k l l' (hl | ⟨rfl, rfl⟩) (hl' | ⟨hk, rfl⟩)
    · exact h.unique.2 hl hl'
    · subst hk
      exact absurd hl (hfree l)
    · exact absurd hl' (hfree l')
    · rfl
  · rintro k l (hkl | ⟨rfl, rfl⟩)
    · exact ⟨(h.holds hkl).1, (ht.holds l).2 (Or.inl (h.holds hkl).2)⟩
    · exact ⟨hi, (ht.holds l).2 (Or.inr rfl)⟩
  · rintro k l (hkl | ⟨rfl, rfl⟩)
    · rw [(ht.extends l (h.holds hkl).2).2]
      exact (h.contents hkl).mono (R.le_add i j)
    · rw [ht.self]
      exact hxy.mono (R.le_add k l)

/-- Something new on both sides. -/
theorem add (h : R.Stores s t) (hs : s.Adds i x s') (ht : t.Adds j y t') (hxy : R.Contents x y)
    (hordered : s'.Ordered ∧ t'.Ordered) : (R.add i j).Stores s' t' := by
  -- what corresponded before was given out, so `i` is not among it
  have hfree : ∀ k, ¬ R i k := fun k hk => hs.new (h.holds hk).1
  refine (h.extend_left hs.extends hordered.1).adopt ((hs.holds i).2 (.inr rfl)) hfree ht ?_ hordered.2
  rw [hs.self]
  exact hxy

/-- Something replaced on both sides. -/
theorem set (h : R.Stores s t) (hij : R i j) (hs : s.Sets i x s') (ht : t.Sets j y t')
    (hxy : R.Contents x y) (hordered : s'.Ordered ∧ t'.Ordered) : R.Stores s' t' := by
  refine ⟨h.unique, ?_, ?_, hordered⟩
  · intro k l hkl
    exact ⟨(hs.holds k).2 (h.holds hkl).1, (ht.holds l).2 (h.holds hkl).2⟩
  · intro k l hkl
    -- `i` and `j` correspond to nothing but each other
    by_cases hk : k = i
    · subst hk
      obtain rfl := h.unique.2 hkl hij
      rw [hs.self (h.holds hkl).1, ht.self (h.holds hkl).2]
      exact hxy
    · have hl : l ≠ j := by
        rintro rfl
        exact hk (h.unique.1 hkl hij)
      rw [hs.other k hk, ht.other l hl]
      exact h.contents hkl

/-- Being alike is symmetric. -/
theorem inverse (h : R.Stores s t) : R.inverse.Stores t s where
  unique := ⟨fun _ _ _ hi hj => h.unique.2 hi hj, fun _ _ _ hi hj => h.unique.1 hi hj⟩
  holds hij := (h.holds hij).symm
  contents hij := (h.contents hij).inverse
  ordered := h.ordered.symm

/-! ### Looking at a store -/

theorem cell {c d : CellId} (h : R.Stores s t) (hcd : R (.cell c) (.cell d)) :
    R.Values (s.cell c).car (t.cell d).car ∧ Option.Rel R.Values (s.cell c).cdr (t.cell d).cdr := by
  cases h.contents hcd with
  | cell car cdr => exact ⟨car, cdr⟩

theorem car? {v w : Value} (h : R.Stores s t) (hvw : R.Values v w) :
    Option.Rel R.Values (s.car? v) (t.car? w) := by
  rw [Store.car?, Store.car?, Option.map_eq_bind, Option.map_eq_bind]
  apply optionRel_bind hvw.cell?
  intro c d hcd
  exact .some (h.cell hcd).1

theorem cdr? {v w : Value} (h : R.Stores s t) (hvw : R.Values v w) :
    Option.Rel R.Values (s.cdr? v) (t.cdr? w) := by
  apply optionRel_bind hvw.cell?
  intro c d hcd
  exact (h.cell hcd).2

theorem table {u v : TableId} (h : R.Stores s t) (huv : R (.table u) (.table v)) :
    R.Maps (s.table u) (t.table v) := by
  cases h.contents huv with
  | table entries => exact entries

theorem closure {k l : ClosureId} (h : R.Stores s t) (hkl : R (.closure k) (.closure l)) :
    (s.closure k).params = (t.closure l).params ∧
      List.Forall₂ R.Values (s.closure k).body (t.closure l).body ∧
      R.Frames (s.closure k).frame (t.closure l).frame := by
  cases h.contents hkl with
  | closure params body frame => exact ⟨params, body, frame⟩

theorem frame {f g : FrameId} (h : R.Stores s t) (hfg : R.Frames f g) :
    R.Maps (s.frame f).bindings (t.frame g).bindings ∧
      Option.Rel R.Frames (s.frame f).parent (t.frame g).parent ∧
      (s.frame f).policy = (t.frame g).policy := by
  cases h.contents hfg with
  | frame bindings parent policy => exact ⟨bindings, parent, policy⟩

/-! ### Changing a store -/

theorem setCar {c d : CellId} {v w : Value} (h : R.Stores s t) (hcd : R (.cell c) (.cell d))
    (hvw : R.Values v w) : R.Stores (s.setCar c v) (t.setCar d w) :=
  h.set hcd (s.sets_setCar c v) (t.sets_setCar d w) (.cell hvw (h.cell hcd).2) h.ordered

theorem setCdr {c d : CellId} {v w : Value} (h : R.Stores s t) (hcd : R (.cell c) (.cell d))
    (hvw : R.Values v w) : R.Stores (s.setCdr c v) (t.setCdr d w) :=
  h.set hcd (s.sets_setCdr c v) (t.sets_setCdr d w) (.cell (h.cell hcd).1 hvw.restOf) h.ordered

theorem setEntry {u u' : TableId} {v w : Value} (h : R.Stores s t) (hu : R (.table u) (.table u'))
    (key : HashKey) (hvw : R.Values v w) : R.Stores (s.setEntry u key v) (t.setEntry u' key w) :=
  h.set hu (s.sets_setEntry u key v) (t.sets_setEntry u' key w) (.table ((h.table hu).insert key hvw))
    h.ordered

theorem define {f g : FrameId} {v w : Value} (h : R.Stores s t) (hfg : R.Frames f g) (name : String)
    (hvw : R.Values v w) : R.Stores (s.define f name v) (t.define g name w) := by
  obtain ⟨bindings, parent, policy⟩ := h.frame hfg
  refine h.set hfg (s.sets_define f name v) (t.sets_define g name w)
    (.frame (bindings.insert name hvw) parent policy) ⟨?_, ?_⟩
  · exact h.ordered.1.set (s.sets_define f name v) rfl
  · exact h.ordered.2.set (t.sets_define g name w) rfl

end Stores

/-! ## Making -/

/-- Both stores have grown, and what was made is alike. -/
def Made {α β : Type} (R : Renaming) (Q : Renaming → α → β → Prop) (x : α × Store) (y : β × Store) :
    Prop :=
  ∃ R' : Renaming, R ≤ R' ∧ R'.Stores x.2 y.2 ∧ Q R' x.1 y.1

section Making

variable {R : Renaming} {s t : Store}

theorem made_cons {a b c d : Value} (h : R.Stores s t) (hcar : R.Values a b) (hcdr : R.Values c d) :
    R.Made Values (s.cons a c) (t.cons b d) :=
  ⟨_, R.le_add _ _, h.add (s.adds_cons a c) (t.adds_cons b d) (.cell hcar hcdr.restOf) h.ordered,
    .pair (R.add_self _ _)⟩

theorem made_newTable (h : R.Stores s t) : R.Made Values s.newTable t.newTable :=
  ⟨_, R.le_add _ _, h.add s.adds_newTable t.adds_newTable (.table maps_empty) h.ordered,
    .hash (R.add_self _ _)⟩

theorem made_newClosure {k l : Closure} (h : R.Stores s t) (params : k.params = l.params)
    (body : List.Forall₂ R.Values k.body l.body) (frame : R.Frames k.frame l.frame) :
    R.Made Values (s.newClosure k) (t.newClosure l) :=
  ⟨_, R.le_add _ _, h.add (s.adds_newClosure k) (t.adds_newClosure l) (.closure params body frame)
    h.ordered, .closure (R.add_self _ _)⟩

theorem ordered_newFrame (h : s.Ordered) {frame : Frame}
    (hparent : ∀ p, frame.parent = some p → p.index < s.frames.size) :
    (s.newFrame frame).2.Ordered := by
  intro f p hp
  by_cases hf : f = ⟨s.frames.size⟩
  · subst hf
    have hself : (s.newFrame frame).2.frame ⟨s.frames.size⟩ = frame :=
      Content.frame.inj (s.adds_newFrame frame).self
    rw [hself] at hp
    exact hparent p hp
  · have hother : (s.newFrame frame).2.frame f = s.frame f :=
      Content.frame.inj ((s.adds_newFrame frame).other (.frame f) (by simpa using hf))
    rw [hother] at hp
    exact h f p hp

/-- New frames below frames that correspond. -/
theorem made_extend {f g : FrameId} {vs ws : List Value} (h : R.Stores s t) (hfg : R.Frames f g)
    (params : List String) (hargs : List.Forall₂ R.Values vs ws) :
    R.Made Frames (s.extend f params vs) (t.extend g params ws) := by
  refine ⟨_, R.le_add _ _, h.add (s.adds_newFrame _) (t.adds_newFrame _)
    (.frame (maps_ofList_zip params hargs) (.some hfg) rfl) ⟨?_, ?_⟩, R.add_self _ _⟩
  · refine ordered_newFrame h.ordered.1 fun p hp => ?_
    obtain rfl := Option.some.inj hp
    exact (h.holds hfg).1
  · refine ordered_newFrame h.ordered.2 fun p hp => ?_
    obtain rfl := Option.some.inj hp
    exact (h.holds hfg).2

theorem made_ofList {vs ws : List Value} (h : R.Stores s t) (hvs : List.Forall₂ R.Values vs ws) :
    R.Made Values (s.ofList vs) (t.ofList ws) := by
  induction hvs with
  | nil => exact ⟨R, le_rfl, h, .nil⟩
  | cons hvw _ ih =>
    obtain ⟨R', hR', hstores, htail⟩ := ih
    obtain ⟨R'', hR'', hstores', hlist⟩ := made_cons hstores (hvw.mono hR') htail
    exact ⟨R'', hR'.trans hR'', hstores', hlist⟩

end Making

end Renaming

end Lisplet
