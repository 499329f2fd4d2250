/-
# Lisplet.Proofs.Store.Walking -- the chain behind a list

`Chain s c vs tail` says that the chain of pairs from `c` comes to an end, and what it consists of.  A
walk finds exactly that: the pairs of a chain that ends are all different, since each is a different
number of steps away from the end, so there are no more of them than the store has pairs and the bound
of the walk is never reached.  A chain that does not end is reported as circular.

The bound depends on the size of the store, the chain does not; alike stores have alike chains and so
the same lists, whatever else they hold.
-/

import Mathlib.Tactic
import Lisplet.Proofs.Store.Renaming
import Lisplet.Store.Elements

namespace Lisplet

namespace Store

variable {s : Store} {c : CellId} {vs : List Value} {tail : Option Value}

/-- The chain of pairs from `c` ends: its elements, and what stands behind its dot, if it has one. -/
inductive Chain (s : Store) : CellId → List Value → Option Value → Prop
  | last {c : CellId} (h : (s.cell c).cdr = none) : Chain s c [(s.cell c).car] none
  | nil {c : CellId} {rest : Value} (h : (s.cell c).cdr = some rest) (hrest : rest.datum = .nil) :
      Chain s c [(s.cell c).car] none
  | improper {c : CellId} {rest : Value} (h : (s.cell c).cdr = some rest) (hnil : rest.datum ≠ .nil)
      (hpair : ∀ d, rest.datum ≠ .pair d) : Chain s c [(s.cell c).car] (some rest)
  | next {c d : CellId} {rest : Value} {vs : List Value} {tail : Option Value}
      (h : (s.cell c).cdr = some rest) (hrest : rest.datum = .pair d) (hd : Chain s d vs tail) :
      Chain s c ((s.cell c).car :: vs) tail

/-- What a walk reports for a chain that ends. -/
def chainElements (vs : List Value) : Option Value → Except ListFault (List Value)
  | none => .ok vs
  | some _ => .error .improper

/-! ## Walks along a chain that ends -/

theorem walk_of_chain (h : s.Chain c vs tail) (k : Nat) (seen : List Value) :
    s.walk (vs.length + k) c seen = chainElements (seen.reverse ++ vs) tail := by
  induction h generalizing seen with
  | last h =>
    rw [List.length_singleton, Nat.add_comm]
    simp [walk, h, chainElements]
  | nil h hrest =>
    rw [List.length_singleton, Nat.add_comm]
    simp [walk, h, hrest, chainElements]
  | improper h hnil hpair =>
    rw [List.length_singleton, Nat.add_comm]
    simp only [walk, h, chainElements]
  | next h hrest _ ih =>
    rw [List.length_cons, Nat.add_right_comm]
    simp only [walk, h, hrest]
    rw [ih]
    simp

theorem chain_of_walk {n : Nat} {seen : List Value} (h : s.walk n c seen ≠ .error .circular) :
    ∃ vs tail, s.Chain c vs tail := by
  induction n generalizing c seen with
  | zero => exact absurd rfl h
  | succ n ih =>
    cases hcdr : (s.cell c).cdr with
    | none => exact ⟨_, _, .last hcdr⟩
    | some rest =>
      by_cases hnil : rest.datum = .nil
      · exact ⟨_, _, .nil hcdr hnil⟩
      · by_cases hpair : ∃ d, rest.datum = .pair d
        · obtain ⟨d, hd⟩ := hpair
          simp only [walk, hcdr, hd] at h
          obtain ⟨vs, tail, hchain⟩ := ih h
          exact ⟨_, _, .next hcdr hd hchain⟩
        · exact ⟨_, _, .improper hcdr hnil fun d hd => hpair ⟨d, hd⟩⟩

/-! ## Chains that end are short -/

/-- A chain is determined by its first pair. -/
theorem Chain.length_unique (h : s.Chain c vs tail) {ws : List Value} {tail' : Option Value}
    (h' : s.Chain c ws tail') : vs.length = ws.length := by
  induction h generalizing ws tail' with
  | last h =>
    cases h' with
    | last | nil | improper => rfl
    | next h' => rw [h] at h'; cases h'
  | nil h hrest =>
    cases h' with
    | last | nil | improper => rfl
    | next h' hrest' =>
      obtain rfl := Option.some.inj (h.symm.trans h')
      rw [hrest] at hrest'
      cases hrest'
  | improper h hnil hpair =>
    cases h' with
    | last | nil | improper => rfl
    | next h' hrest' =>
      obtain rfl := Option.some.inj (h.symm.trans h')
      exact absurd hrest' (hpair _)
  | next h hrest _ ih =>
    cases h' with
    | last h' => rw [h] at h'; cases h'
    | nil h' hrest' =>
      obtain rfl := Option.some.inj (h.symm.trans h')
      rw [hrest] at hrest'
      cases hrest'
    | improper h' _ hpair =>
      obtain rfl := Option.some.inj (h.symm.trans h')
      exact absurd hrest (hpair _)
    | next h' hrest' hd =>
      obtain rfl := Option.some.inj (h.symm.trans h')
      obtain rfl := Datum.pair.inj (hrest.symm.trans hrest')
      simp [ih hd]

/-- Different pairs of a store are no more than it has. -/
theorem length_le_cells {path : List CellId} (hnodup : path.Nodup)
    (hlt : ∀ d ∈ path, d.index < s.cells.size) : path.length ≤ s.cells.size := by
  have hinj : (path.map CellId.index).Nodup :=
    hnodup.map fun c d h => by cases c; cases d; simp_all
  have hsub : path.map CellId.index ⊆ List.range s.cells.size := by
    intro n hn
    obtain ⟨d, hd, rfl⟩ := List.mem_map.1 hn
    exact List.mem_range.2 (hlt d hd)
  simpa using hinj.length_le_of_subset hsub

/-- The pairs of a store. -/
def cellIds (s : Store) : Finset CellId := (Finset.range s.cells.size).image CellId.mk

theorem card_cellIds_le (s : Store) : s.cellIds.card ≤ s.cells.size :=
  Finset.card_image_le.trans_eq (Finset.card_range _)

theorem mem_cellIds {c : CellId} (hc : c.index < s.cells.size) : c ∈ s.cellIds :=
  Finset.mem_image.2 ⟨c.index, Finset.mem_range.2 hc, rfl⟩

theorem index_lt_of_cdr {rest : Value} (h : (s.cell c).cdr = some rest) : c.index < s.cells.size := by
  by_contra hlt
  simp [cell, Array.getD, hlt] at h

/-- Behind the pairs of `path`, each with a longer way to the end, no more pairs can follow than are
left in the store. -/
theorem Chain.length_add_le (h : s.Chain c vs tail) {path : List CellId} (hnodup : path.Nodup)
    (hlt : ∀ d ∈ path, d.index < s.cells.size)
    (hlong : ∀ d ∈ path, ∃ ws tail', s.Chain d ws tail' ∧ vs.length < ws.length) :
    vs.length + path.length ≤ s.cells.size + 1 := by
  induction h generalizing path with
  | last | nil | improper =>
    have hle := length_le_cells hnodup hlt
    simp only [List.length_singleton]
    omega
  | @next c d rest vs tail hcdr hrest hd ih =>
    have hc : s.Chain c ((s.cell c).car :: vs) tail := .next hcdr hrest hd
    -- on the path, `c` would be two different numbers of steps away from the end
    have hfresh : c ∉ path := by
      intro hmem
      obtain ⟨ws, tail', hws, hlen⟩ := hlong c hmem
      rw [hc.length_unique hws] at hlen
      exact lt_irrefl _ hlen
    have hnodup' : (c :: path).Nodup := List.nodup_cons.2 ⟨hfresh, hnodup⟩
    have hlt' : ∀ e ∈ c :: path, e.index < s.cells.size := by
      simpa using ⟨index_lt_of_cdr hcdr, hlt⟩
    have hlong' : ∀ e ∈ c :: path, ∃ ws tail', s.Chain e ws tail' ∧ vs.length < ws.length := by
      intro e he
      rcases List.mem_cons.1 he with rfl | he
      · exact ⟨_, _, hc, Nat.lt_succ_self _⟩
      · obtain ⟨ws, tail', hws, hlen⟩ := hlong e he
        exact ⟨ws, tail', hws, (Nat.lt_succ_self _).trans hlen⟩
    have hle := ih hnodup' hlt' hlong'
    simp only [List.length_cons] at hle ⊢
    omega

theorem Chain.length_le (h : s.Chain c vs tail) : vs.length ≤ s.cells.size + 1 :=
  h.length_add_le List.nodup_nil (by simp) (by simp)

/-! ## The elements of a list -/

variable {v : Value}

theorem elements_of_chain (hv : v.datum = .pair c) (h : s.Chain c vs tail) :
    s.elements v = chainElements vs tail := by
  obtain ⟨k, hk⟩ := Nat.exists_eq_add_of_le h.length_le
  simp only [elements, hv, hk]
  exact walk_of_chain h k []

/-- A proper list is the empty list or begins a chain that ends without a rest. -/
theorem elements_eq_ok {v : Value} (h : s.elements v = .ok vs) :
    v.datum = .nil ∧ vs = [] ∨ ∃ c, v.datum = .pair c ∧ s.Chain c vs none := by
  cases hv : v.datum with
  | nil =>
    simp only [elements, hv, Except.ok.injEq] at h
    exact Or.inl ⟨rfl, h.symm⟩
  | pair c =>
    have hwalk : s.walk (s.cells.size + 1) c [] ≠ .error .circular := by
      simp only [elements, hv] at h
      simp [h]
    obtain ⟨us, tail, hchain⟩ := chain_of_walk hwalk
    rw [elements_of_chain hv hchain] at h
    cases tail with
    | none =>
      obtain rfl : us = vs := Except.ok.inj h
      exact Or.inr ⟨c, rfl, hchain⟩
    | some rest => cases h
  | atom | closure | native | hash => simp [elements, hv] at h

theorem elements_of_circular (hv : v.datum = .pair c) (h : ∀ vs tail, ¬ s.Chain c vs tail) :
    s.elements v = .error .circular := by
  simp only [elements, hv]
  by_contra hwalk
  obtain ⟨vs, tail, hchain⟩ := chain_of_walk hwalk
  exact h vs tail hchain

/-- The value is a proper list of these elements: it is empty, or a chain of pairs that ends without a
rest. -/
def Lists (s : Store) (v : Value) (vs : List Value) : Prop :=
  v.datum = .nil ∧ vs = [] ∨ ∃ c, v.datum = .pair c ∧ s.Chain c vs none

/-- The value is no proper list, for this reason. -/
inductive Faulty (s : Store) (v : Value) : ListFault → Prop
  | notList (hnil : v.datum ≠ .nil) (hpair : ∀ c, v.datum ≠ .pair c) : Faulty s v (.notList v.typeName)
  | improper {c : CellId} {vs : List Value} {tail : Value} (hv : v.datum = .pair c)
      (h : s.Chain c vs (some tail)) : Faulty s v .improper
  | circular {c : CellId} (hv : v.datum = .pair c) (h : ∀ vs tail, ¬ s.Chain c vs tail) :
      Faulty s v .circular

theorem elements_of_faulty {fault : ListFault} (h : s.Faulty v fault) : s.elements v = .error fault := by
  cases h with
  | notList hnil hpair => cases hv : v.datum <;> simp_all [elements]
  | improper hv h => exact elements_of_chain hv h
  | circular hv h => exact elements_of_circular hv h

/-- A walk finds the elements of every proper list. -/
theorem elements_eq_ok_iff : s.elements v = .ok vs ↔ s.Lists v vs := by
  refine ⟨elements_eq_ok, ?_⟩
  rintro (⟨hnil, rfl⟩ | ⟨c, hc, hchain⟩)
  · simp only [elements, hnil]
  · exact elements_of_chain hc hchain

/-- Every value is a proper list, or none for some reason. -/
theorem lists_or_faulty (s : Store) (v : Value) : (∃ vs, s.Lists v vs) ∨ ∃ fault, s.Faulty v fault := by
  by_cases hnil : v.datum = .nil
  · exact Or.inl ⟨[], Or.inl ⟨hnil, rfl⟩⟩
  by_cases hpair : ∃ c, v.datum = .pair c
  · obtain ⟨c, hc⟩ := hpair
    by_cases hends : ∃ vs tail, s.Chain c vs tail
    · obtain ⟨vs, tail, hchain⟩ := hends
      cases tail with
      | none => exact Or.inl ⟨vs, Or.inr ⟨c, hc, hchain⟩⟩
      | some rest => exact Or.inr ⟨_, .improper hc hchain⟩
    · exact Or.inr ⟨_, .circular hc fun vs tail hchain => hends ⟨vs, tail, hchain⟩⟩
  · exact Or.inr ⟨_, .notList hnil fun c hc => hpair ⟨c, hc⟩⟩

/-! ## Counting -/

/-- Count the pairs of a chain, at most `n` of them, behind `count` others. -/
def countFrom (s : Store) : Nat → CellId → Nat → Except ListFault Nat
  | 0, _, _ => .error .circular
  | n + 1, c, count =>
    match (s.cell c).cdr with
    | none => .ok (count + 1)
    | some rest =>
      match rest.datum with
      | .nil => .ok (count + 1)
      | .pair next => countFrom s n next (count + 1)
      | _ => .error .improper

/-- The number of elements of a proper list. -/
def listLength (s : Store) (v : Value) : Except ListFault Nat :=
  match v.datum with
  | .nil => .ok 0
  | .pair c => s.countFrom (s.cells.size + 1) c 0
  | _ => .error (.notList v.typeName)

theorem countFrom_eq (s : Store) (n : Nat) (c : CellId) (seen : List Value) :
    s.countFrom n c seen.length = (s.walk n c seen).map List.length := by
  induction n generalizing c seen with
  | zero => rfl
  | succ n ih =>
    unfold countFrom walk
    dsimp only
    cases (s.cell c).cdr with
    | none => simp [Except.map]
    | some rest =>
      dsimp only
      cases rest.datum with
      | nil => simp [Except.map]
      | pair next => exact ih next ((s.cell c).car :: seen)
      | atom | closure | native | hash => rfl

/-- A list has as many elements as are counted, and what is no list is none for either walk. -/
theorem listLength_eq (s : Store) (v : Value) : s.listLength v = (s.elements v).map List.length := by
  unfold listLength elements
  cases v.datum with
  | pair c => exact s.countFrom_eq _ c []
  | nil | atom | closure | native | hash => rfl

end Store

/-! ## Alike chains -/

namespace Renaming.Stores

variable {R : Renaming} {s t : Store}

/-- Corresponding pairs begin alike chains. -/
theorem chain (h : R.Stores s t) {c d : CellId} (hcd : R (.cell c) (.cell d)) {vs : List Value}
    {tail : Option Value} (hc : s.Chain c vs tail) :
    ∃ ws tail', t.Chain d ws tail' ∧ List.Forall₂ R.Values vs ws ∧ tail.isSome = tail'.isSome := by
  induction hc generalizing d with
  | last hcdr =>
    obtain ⟨car, cdr⟩ := h.cell hcd
    exact ⟨_, _, .last (optionRel_none cdr hcdr), .cons car .nil, rfl⟩
  | nil hcdr hrest =>
    obtain ⟨car, cdr⟩ := h.cell hcd
    obtain ⟨rest', hcdr', hvalues⟩ := optionRel_some cdr hcdr
    exact ⟨_, _, .nil hcdr' (hvalues.of_nil hrest), .cons car .nil, rfl⟩
  | improper hcdr hnil hpair =>
    obtain ⟨car, cdr⟩ := h.cell hcd
    obtain ⟨rest', hcdr', hvalues⟩ := optionRel_some cdr hcdr
    refine ⟨_, _, .improper hcdr' ?_ ?_, .cons car .nil, rfl⟩
    · exact fun hnil' => hnil (hvalues.inverse.of_nil hnil')
    · intro d' hd'
      obtain ⟨c', hc', -⟩ := hvalues.inverse.of_pair hd'
      exact hpair c' hc'
  | next hcdr hrest _ ih =>
    obtain ⟨car, cdr⟩ := h.cell hcd
    obtain ⟨rest', hcdr', hvalues⟩ := optionRel_some cdr hcdr
    obtain ⟨d', hd', hnext⟩ := hvalues.of_pair hrest
    obtain ⟨ws, tail', hchain, hws, htail⟩ := ih hnext
    exact ⟨_, _, .next hcdr' hd' hchain, .cons car hws, htail⟩

/-- Alike values are alike lists, or no lists for the same reason. -/
theorem elements (h : R.Stores s t) {v w : Value} (hvw : R.Values v w) :
    (∃ vs ws, s.elements v = .ok vs ∧ t.elements w = .ok ws ∧ List.Forall₂ R.Values vs ws) ∨
      ∃ fault, s.elements v = .error fault ∧ t.elements w = .error fault := by
  by_cases hpair : ∃ c, v.datum = .pair c
  · obtain ⟨c, hc⟩ := hpair
    obtain ⟨d, hd, hcd⟩ := hvw.of_pair hc
    by_cases hends : ∃ vs tail, s.Chain c vs tail
    · obtain ⟨vs, tail, hchain⟩ := hends
      obtain ⟨ws, tail', hchain', hws, htail⟩ := h.chain hcd hchain
      rw [Store.elements_of_chain hc hchain, Store.elements_of_chain hd hchain']
      cases tail with
      | none =>
        obtain rfl : tail' = none := by simpa using htail.symm
        exact Or.inl ⟨vs, ws, rfl, rfl, hws⟩
      | some rest =>
        obtain ⟨rest', rfl⟩ := Option.isSome_iff_exists.1 htail.symm
        exact Or.inr ⟨_, rfl, rfl⟩
    · -- a chain on the other side would end on this side as well
      refine Or.inr ⟨_, Store.elements_of_circular hc fun vs tail hchain => hends ⟨vs, tail, hchain⟩,
        Store.elements_of_circular hd fun ws tail hchain => ?_⟩
      obtain ⟨vs, tail', hchain', -, -⟩ := h.inverse.chain hcd hchain
      exact hends ⟨vs, tail', hchain'⟩
  · have htype := hvw.typeName_eq
    obtain ⟨x, p⟩ := v
    obtain ⟨y, q⟩ := w
    cases (hvw : R.Datums x y) with
    | nil => exact Or.inl ⟨[], [], rfl, rfl, .nil⟩
    | pair => exact absurd ⟨_, rfl⟩ hpair
    | atom | closure | native | hash => exact Or.inr ⟨_, rfl, by rw [htype]; rfl⟩

end Renaming.Stores

end Lisplet
