/-
# Lisplet.Proofs.Store.Contents -- what a store holds

Pairs, tables, closures and frames live side by side in a store.  `Ident` names any of them and
`Store.content` gives what stands under a name, so that what can happen to a store is said once for all
four: something new is added to it (`Adds`), or something in it is replaced (`Sets`).  Every operation
on the store is one of these two.
-/

import Mathlib.Tactic
import Lisplet.Store.Environment

namespace Lisplet

/-- The identity of something in the store. -/
inductive Ident where
  | cell (c : CellId)
  | table (t : TableId)
  | closure (k : ClosureId)
  | frame (f : FrameId)
deriving DecidableEq

/-- Something in the store. -/
inductive Content where
  | cell (c : Cell)
  | table (t : Table)
  | closure (k : Closure)
  | frame (f : Frame)

namespace Store

/-- What stands under an identity. -/
def content (s : Store) : Ident → Content
  | .cell c => .cell (s.cell c)
  | .table t => .table (s.table t)
  | .closure k => .closure (s.closure k)
  | .frame f => .frame (s.frame f)

/-- The identity was given out. -/
def Holds (s : Store) : Ident → Prop
  | .cell c => c.index < s.cells.size
  | .table t => t.index < s.tables.size
  | .closure k => k.index < s.closures.size
  | .frame f => f.index < s.frames.size

/-- A pair that was never made reads as an empty one. -/
theorem cell_of_size_le {s : Store} {c : CellId} (h : s.cells.size ≤ c.index) : s.cell c = {} := by
  simp [cell, h]

theorem frame_of_size_le {s : Store} {f : FrameId} (h : s.frames.size ≤ f.index) : s.frame f = {} := by
  simp [frame, h]

/-- `t` is `s` with `x` under the new identity `i`. -/
structure Adds (s : Store) (i : Ident) (x : Content) (t : Store) : Prop where
  new : ¬ s.Holds i
  holds : ∀ j, t.Holds j ↔ s.Holds j ∨ j = i
  self : t.content i = x
  other : ∀ j, j ≠ i → t.content j = s.content j

/-- `t` is `s` with `x` in place of what stood under `i`. -/
structure Sets (s : Store) (i : Ident) (x : Content) (t : Store) : Prop where
  holds : ∀ j, t.Holds j ↔ s.Holds j
  self : s.Holds i → t.content i = x
  other : ∀ j, j ≠ i → t.content j = s.content j

/-! ## Making -/

theorem lt_push_size_iff {α : Type} (xs : Array α) (x : α) (n : Nat) :
    n < (xs.push x).size ↔ n < xs.size ∨ n = xs.size := by
  rw [Array.size_push]
  omega

theorem getD_push_of_ne {α : Type} (xs : Array α) (x d : α) {n : Nat} (h : n ≠ xs.size) :
    (xs.push x).getD n d = xs.getD n d := by
  simp [Array.getElem?_push, h]

theorem adds_cons (s : Store) (car cdr : Value) :
    s.Adds (.cell ⟨s.cells.size⟩) (.cell ⟨car, restOf cdr⟩) (s.cons car cdr).2 := by
  refine ⟨lt_irrefl s.cells.size, ?_, by simp [content, cons, cell], ?_⟩
  · rintro (c | t | k | f)
    · obtain ⟨n⟩ := c
      simpa [Holds, cons] using lt_push_size_iff s.cells ⟨car, restOf cdr⟩ n
    all_goals simp [Holds, cons]
  · rintro (c | t | k | f) hne
    · obtain ⟨n⟩ := c
      exact congrArg Content.cell (getD_push_of_ne _ _ _ (by simpa using hne))
    all_goals rfl

theorem adds_newTable (s : Store) :
    s.Adds (.table ⟨s.tables.size⟩) (.table {}) s.newTable.2 := by
  refine ⟨lt_irrefl s.tables.size, ?_, by simp [content, newTable, table], ?_⟩
  · rintro (c | t | k | f)
    case table =>
      obtain ⟨n⟩ := t
      simpa [Holds, newTable] using lt_push_size_iff s.tables {} n
    all_goals simp [Holds, newTable]
  · rintro (c | t | k | f) hne
    case table =>
      obtain ⟨n⟩ := t
      exact congrArg Content.table (getD_push_of_ne _ _ _ (by simpa using hne))
    all_goals rfl

theorem adds_newClosure (s : Store) (closure : Closure) :
    s.Adds (.closure ⟨s.closures.size⟩) (.closure closure) (s.newClosure closure).2 := by
  refine ⟨lt_irrefl s.closures.size, ?_, by simp [content, newClosure, Store.closure], ?_⟩
  · rintro (c | t | k | f)
    case closure =>
      obtain ⟨n⟩ := k
      simpa [Holds, newClosure] using lt_push_size_iff s.closures closure n
    all_goals simp [Holds, newClosure]
  · rintro (c | t | k | f) hne
    case closure =>
      obtain ⟨n⟩ := k
      exact congrArg Content.closure (getD_push_of_ne _ _ _ (by simpa using hne))
    all_goals rfl

theorem adds_newFrame (s : Store) (frame : Frame) :
    s.Adds (.frame ⟨s.frames.size⟩) (.frame frame) (s.newFrame frame).2 := by
  refine ⟨lt_irrefl s.frames.size, ?_, by simp [content, newFrame, Store.frame], ?_⟩
  · rintro (c | t | k | f)
    case frame =>
      obtain ⟨n⟩ := f
      simpa [Holds, newFrame] using lt_push_size_iff s.frames frame n
    all_goals simp [Holds, newFrame]
  · rintro (c | t | k | f) hne
    case frame =>
      obtain ⟨n⟩ := f
      exact congrArg Content.frame (getD_push_of_ne _ _ _ (by simpa using hne))
    all_goals rfl

/-! ## Changing -/

theorem sets_setCar (s : Store) (c : CellId) (v : Value) :
    s.Sets (.cell c) (.cell { s.cell c with car := v }) (s.setCar c v) := by
  refine ⟨?_, fun h => congrArg Content.cell (cell_setCar_self s v h), ?_⟩
  · rintro (d | t | k | f) <;> simp [Holds, setCar]
  · rintro (d | t | k | f) hne
    · exact congrArg Content.cell (cell_setCar_of_ne s v (by simpa using hne))
    all_goals rfl

theorem sets_setCdr (s : Store) (c : CellId) (v : Value) :
    s.Sets (.cell c) (.cell { s.cell c with cdr := restOf v }) (s.setCdr c v) := by
  refine ⟨?_, fun h => congrArg Content.cell (cell_setCdr_self s v h), ?_⟩
  · rintro (d | t | k | f) <;> simp [Holds, setCdr]
  · rintro (d | t | k | f) hne
    · exact congrArg Content.cell (cell_setCdr_of_ne s v (by simpa using hne))
    all_goals rfl

theorem sets_setEntry (s : Store) (t : TableId) (key : HashKey) (v : Value) :
    s.Sets (.table t) (.table ((s.table t).insert key v)) (s.setEntry t key v) := by
  refine ⟨?_, fun h => congrArg Content.table (table_setEntry_self s key v h), ?_⟩
  · rintro (c | u | k | f) <;> simp [Holds, setEntry]
  · rintro (c | u | k | f) hne
    case table => exact congrArg Content.table (table_setEntry_of_ne s key v (by simpa using hne))
    all_goals rfl

theorem frame_define_of_ne (s : Store) (name : String) (v : Value) {env f : FrameId} (h : f ≠ env) :
    (s.define env name v).frame f = s.frame f := by
  have hne : env.index ≠ f.index := fun e => h (by cases env; cases f; simp_all)
  simp [define, Store.frame, Array.getElem?_modify, hne]

theorem frame_define_self (s : Store) (name : String) (v : Value) {env : FrameId}
    (h : env.index < s.frames.size) : (s.define env name v).frame env =
      { s.frame env with bindings := (s.frame env).bindings.insert name v } := by
  simp [define, Store.frame, Array.getElem_modify, h]

theorem sets_define (s : Store) (env : FrameId) (name : String) (v : Value) :
    s.Sets (.frame env) (.frame { s.frame env with bindings := (s.frame env).bindings.insert name v })
      (s.define env name v) := by
  refine ⟨?_, fun h => congrArg Content.frame (frame_define_self s name v h), ?_⟩
  · rintro (c | t | k | f) <;> simp [Holds, define]
  · rintro (c | t | k | f) hne
    case frame => exact congrArg Content.frame (frame_define_of_ne s name v (by simpa using hne))
    all_goals rfl

theorem sets_setPolicy (s : Store) (f : FrameId) (policy : WarnPolicy) :
    s.Sets (.frame (s.root f)) (.frame { s.frame (s.root f) with policy := policy })
      (s.setPolicy f policy) := by
  refine ⟨?_, fun h => ?_, ?_⟩
  · rintro (c | t | k | g) <;> simp [Holds, setPolicy]
  · have hlt : (s.root f).index < s.frames.size := h
    simp [content, setPolicy, Store.frame, Array.getElem_modify, hlt]
  · rintro (c | t | k | g) hne
    case frame =>
      have hindex : (s.root f).index ≠ g.index := fun h => hne (congrArg Ident.frame (by
        cases g
        cases hroot : s.root f
        simp_all))
      simp [content, setPolicy, Store.frame, Array.getElem?_modify, hindex]
    all_goals rfl

/-! ## What stands there after an operation -/

section Cases

variable {s t : Store} {i : Ident} {x : Content}

/-- Where nothing was ever made, all stores are alike. -/
theorem content_eq_of_not_holds (hs : ¬ s.Holds i) (ht : ¬ t.Holds i) : t.content i = s.content i := by
  cases i <;> simp_all [Holds, content, cell, table, closure, frame]

theorem Adds.content_cases (h : s.Adds i x t) (j : Ident) :
    j = i ∧ t.content j = x ∨ t.content j = s.content j := by
  by_cases hj : j = i
  · subst hj
    exact Or.inl ⟨rfl, h.self⟩
  · exact Or.inr (h.other j hj)

/-- What was never made cannot be set. -/
theorem Sets.content_cases (h : s.Sets i x t) (j : Ident) :
    j = i ∧ s.Holds i ∧ t.content j = x ∨ t.content j = s.content j := by
  by_cases hj : j = i
  · subst hj
    by_cases hs : s.Holds j
    · exact Or.inl ⟨rfl, hs, h.self hs⟩
    · exact Or.inr (content_eq_of_not_holds hs fun ht => hs ((h.holds j).1 ht))
  · exact Or.inr (h.other j hj)

/-- Where a pair was added, every other pair is as it was. -/
theorem Adds.cell_cases {c : CellId} {y : Cell} (h : s.Adds (.cell c) (.cell y) t) (d : CellId) :
    d = c ∧ t.cell d = y ∨ t.cell d = s.cell d := by
  rcases h.content_cases (.cell d) with ⟨hd, hcell⟩ | hcell
  · exact Or.inl ⟨Ident.cell.inj hd, Content.cell.inj hcell⟩
  · exact Or.inr (Content.cell.inj hcell)

/-- Where a pair was set, every other pair is as it was. -/
theorem Sets.cell_cases {c : CellId} {y : Cell} (h : s.Sets (.cell c) (.cell y) t) (d : CellId) :
    d = c ∧ c.index < s.cells.size ∧ t.cell d = y ∨ t.cell d = s.cell d := by
  rcases h.content_cases (.cell d) with ⟨hd, hc, hcell⟩ | hcell
  · exact Or.inl ⟨Ident.cell.inj hd, hc, Content.cell.inj hcell⟩
  · exact Or.inr (Content.cell.inj hcell)

end Cases

/-! ## Growing -/

/-- All that `s` holds is in `t` as it was. -/
def Extends (s t : Store) : Prop := ∀ i, s.Holds i → t.Holds i ∧ t.content i = s.content i

variable {s t u : Store}

theorem Extends.refl (s : Store) : s.Extends s := fun _ hi => ⟨hi, rfl⟩

theorem Extends.trans (h : s.Extends t) (h' : t.Extends u) : s.Extends u := fun i hi =>
  ⟨(h' i (h i hi).1).1, (h' i (h i hi).1).2.trans (h i hi).2⟩

theorem Adds.extends {i : Ident} {x : Content} (h : s.Adds i x t) : s.Extends t := by
  intro j hj
  refine ⟨(h.holds j).2 (Or.inl hj), h.other j ?_⟩
  rintro rfl
  exact h.new hj

theorem size_le_of_holds (h : ∀ i, s.Holds i → t.Holds i) : s.cells.size ≤ t.cells.size :=
  le_of_forall_lt fun n hn => h (.cell ⟨n⟩) hn

theorem Extends.cell_eq (h : s.Extends t) {c : CellId} (hc : c.index < s.cells.size) :
    c.index < t.cells.size ∧ t.cell c = s.cell c := by
  obtain ⟨hlt, heq⟩ := h (.cell c) hc
  exact ⟨hlt, Content.cell.inj heq⟩

theorem extends_ofList (vs : List Value) (s : Store) : s.Extends (s.ofList vs).2 := by
  induction vs with
  | nil => exact Extends.refl s
  | cons v vs ih => exact ih.trans (adds_cons _ _ _).extends

theorem extends_ofForm (file : String) (f : Form) (s : Store) : s.Extends (s.ofForm file f).2 := by
  induction f generalizing s with
  | atom | empty => exact Extends.refl s
  | single p car ih => exact (ih s).trans (adds_cons _ _ _).extends
  | pair p car cdr ihcar ihcdr => exact ((ihcar s).trans (ihcdr _)).trans (adds_cons _ _ _).extends

end Store

/-! ## The pairs inside -/

/-- The value is no pair, or one of those with `P`. -/
def Value.Within (P : CellId → Prop) (v : Value) : Prop := ∀ c, v.datum = .pair c → P c

namespace Value.Within

variable {P Q : CellId → Prop} {v w : Value}

theorem mono (h : v.Within P) (hPQ : ∀ c, P c → Q c) : v.Within Q := fun c hc => hPQ c (h c hc)

theorem congr (h : v.Within P) (hvw : w.datum = v.datum) : w.Within P := fun c hc => h c (hvw ▸ hc)

theorem of_not_pair (h : ∀ c, v.datum ≠ .pair c) : v.Within P := fun c hc => absurd hc (h c)

theorem nil : Value.nil.Within P := of_not_pair fun _ h => by cases h

theorem atom (a : Atom) : (Value.ofAtom a).Within P := of_not_pair fun _ h => by cases h

end Value.Within

/-- Every value in it is no pair, or one of those with `P`.  The body of a closure is program text and
nothing that a program can take out of it. -/
def Content.Within (P : CellId → Prop) : Content → Prop
  | .cell x => x.car.Within P ∧ ∀ rest ∈ x.cdr, rest.Within P
  | .table m => ∀ key v, m.find? key = some v → v.Within P
  | .closure _ => True
  | .frame f => ∀ name v, f.bindings.find? name = some v → v.Within P

theorem Content.Within.mono {P Q : CellId → Prop} {x : Content} (h : x.Within P)
    (hPQ : ∀ c, P c → Q c) : x.Within Q := by
  cases x with
  | cell x => exact ⟨h.1.mono hPQ, fun rest hrest => (h.2 rest hrest).mono hPQ⟩
  | table m => exact fun key v hv => (h key v hv).mono hPQ
  | closure k => trivial
  | frame f => exact fun name v hv => (h name v hv).mono hPQ

theorem within_restOf {P : CellId → Prop} {v : Value} (h : v.Within P) :
    ∀ rest ∈ Store.restOf v, rest.Within P := by
  intro rest hrest
  unfold Store.restOf at hrest
  split at hrest
  · cases hrest
  · cases hrest
    exact h

theorem FiniteMap.forall_find?_insert {κ ν : Type} [DecidableEq κ] {m : FiniteMap κ ν} {P : ν → Prop}
    (h : ∀ key v, m.find? key = some v → P v) {k : κ} {w : ν} (hw : P w) :
    ∀ key v, (m.insert k w).find? key = some v → P v := by
  intro key v hv
  by_cases hkey : key = k
  · rw [hkey, find?_insert_self] at hv
    cases hv
    exact hw
  · rw [find?_insert_of_ne _ hkey] at hv
    exact h key v hv

theorem FiniteMap.forall_find?_ofList {κ ν : Type} [DecidableEq κ] {P : ν → Prop} {ps : List (κ × ν)}
    (h : ∀ p ∈ ps, P p.2) : ∀ key v, (FiniteMap.ofList ps).find? key = some v → P v := by
  have hfold : ∀ m : FiniteMap κ ν, (∀ key v, m.find? key = some v → P v) →
      ∀ key v, (ps.foldl (fun m p => m.insert p.1 p.2) m).find? key = some v → P v := by
    induction ps with
    | nil => exact fun m hm => hm
    | cons p ps ih =>
      obtain ⟨hp, hps⟩ := List.forall_mem_cons.1 h
      exact fun m hm => ih hps _ (forall_find?_insert hm hp)
  exact hfold _ fun key v hv => by cases hv

end Lisplet
