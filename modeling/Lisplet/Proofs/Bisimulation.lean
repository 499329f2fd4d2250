/-
# Lisplet.Proofs.Bisimulation -- structural equality is bisimilarity

Two values are bisimilar when some relation holds of them that is closed under taking first halves and
rests and relates no two things that differ at the top.  On cyclic data there is no other way to say
that following halves never leads to a difference.

The comparison takes pending pairs of values one at a time.  `compareStep` is what it does with one of
them, and `Compares` is the whole loop without any bound.  Three facts make up the main statement: the
loop ends within the bound that `equal` gives it (a comparison of two new cells uses up one of the
pairs of cells not yet assumed, everything else uses up a pending pair); when it ends with a yes, what
it assumed on the way is a bisimulation; and a bisimulation that holds of all pending pairs is never
left.
-/

import Mathlib.Tactic
import Mathlib.Data.Finset.Prod
import Lisplet.Store.Equality
import Lisplet.Proofs.Binary64.Rounding
import Lisplet.Proofs.Store.Contents

namespace Lisplet

/-! ## Atoms -/

/-- Two atoms are the same datum: integers and floating point numbers never are, and of the latter
those that are the same number. -/
inductive Atom.Same : Atom → Atom → Prop
  | symbol (name : String) : Same (.symbol name) (.symbol name)
  | int (n : Int64) : Same (.number (.int n)) (.number (.int n))
  | float {x y : Binary64} (h : x.SameNumber y) : Same (.number (.float x)) (.number (.float y))
  | string (content : String) : Same (.string content) (.string content)
  | bool (b : Bool) : Same (.bool b) (.bool b)

theorem Atom.equals_iff (a b : Atom) : a.equals b = true ↔ a.Same b := by
  constructor
  · intro h
    match a, b with
    | .symbol a, .symbol b =>
      obtain rfl : a = b := by simpa [equals] using h
      exact .symbol a
    | .number (.int m), .number (.int n) =>
      obtain rfl : m = n := by simpa [equals, Number.equals] using h
      exact .int m
    | .number (.float x), .number (.float y) => exact .float ((Binary64.equals_iff x y).1 h)
    | .string a, .string b =>
      obtain rfl : a = b := by simpa [equals] using h
      exact .string a
    | .bool a, .bool b =>
      obtain rfl : a = b := by simpa [equals] using h
      exact .bool a
  · rintro (_ | _ | hxy | _ | _)
    case float => exact (Binary64.equals_iff _ _).2 hxy
    all_goals simp [equals, Number.equals]

namespace Store

variable {s : Store}

/-! ## Bisimulations -/

/-- Two data agree at the top, and `R` holds of what is below: the halves of two pairs, where a rest
that is there never agrees with one that is not. -/
inductive Agree (s : Store) (R : Value → Value → Prop) : Datum → Datum → Prop
  | nil : Agree s R .nil .nil
  | atom {a b : Atom} (h : a.Same b) : Agree s R (.atom a) (.atom b)
  | native (p : Primitive) : Agree s R (.native p) (.native p)
  | closure (k : ClosureId) : Agree s R (.closure k) (.closure k)
  | hash (t : TableId) : Agree s R (.hash t) (.hash t)
  | cell (c : CellId) : Agree s R (.pair c) (.pair c)
  | pair {c d : CellId} (car : R (s.cell c).car (s.cell d).car)
      (cdr : Option.Rel R (s.cell c).cdr (s.cell d).cdr) : Agree s R (.pair c) (.pair d)

/-- A relation that holds only of values that agree, with the relation itself below. -/
def IsBisimulation (s : Store) (R : Value → Value → Prop) : Prop :=
  ∀ x y, R x y → s.Agree R x.datum y.datum

/-- Some bisimulation holds of the two values. -/
def Bisimilar (s : Store) (x y : Value) : Prop := ∃ R, s.IsBisimulation R ∧ R x y

/-! ## One comparison -/

/-- What is left to compare of two cells, unless only one of them has a rest. -/
def halves (s : Store) (c d : CellId) : Option (List (Value × Value)) :=
  match (s.cell c).cdr, (s.cell d).cdr with
  | some a, some b => some [((s.cell c).car, (s.cell d).car), (a, b)]
  | none, none => some [((s.cell c).car, (s.cell d).car)]
  | _, _ => none

/-- Compare two values at the top.  The result is what is left to compare and the pairs of cells now
assumed equal, or nothing if the values differ. -/
def compareStep (s : Store) (assumed : List (CellId × CellId)) (x y : Value) :
    Option (List (Value × Value) × List (CellId × CellId)) :=
  match x.datum, y.datum with
  | .nil, .nil => some ([], assumed)
  | .atom a, .atom b => if a.equals b then some ([], assumed) else none
  | .native p, .native q => if p == q then some ([], assumed) else none
  | .closure k, .closure l => if k == l then some ([], assumed) else none
  | .hash t, .hash u => if t == u then some ([], assumed) else none
  | .pair c, .pair d =>
    if c = d || assumed.contains (c, d) then some ([], assumed)
    else (s.halves c d).map fun new => (new, (c, d) :: assumed)
  | _, _ => none

/-- The bounded loop takes one comparison after the other. -/
theorem equalAll_succ (s : Store) (n : Nat) (x y : Value) (pending : List (Value × Value))
    (assumed : List (CellId × CellId)) :
    s.equalAll (n + 1) ((x, y) :: pending) assumed =
      match s.compareStep assumed x y with
      | some (new, assumed) => s.equalAll n (new ++ pending) assumed
      | none => false := by
  obtain ⟨x, px⟩ := x
  obtain ⟨y, py⟩ := y
  cases x <;> cases y <;> simp only [equalAll, compareStep, List.nil_append]
  case pair.pair c d =>
    split
    · rfl
    · unfold halves
      cases (s.cell c).cdr <;> cases (s.cell d).cdr <;> rfl
  all_goals split <;> simp_all

/-- Two data agree by themselves, or are cells whose agreement is assumed. -/
inductive Covered (assumed : List (CellId × CellId)) : Datum → Datum → Prop
  | nil : Covered assumed .nil .nil
  | atom {a b : Atom} (h : a.Same b) : Covered assumed (.atom a) (.atom b)
  | native (p : Primitive) : Covered assumed (.native p) (.native p)
  | closure (k : ClosureId) : Covered assumed (.closure k) (.closure k)
  | hash (t : TableId) : Covered assumed (.hash t) (.hash t)
  | cell (c : CellId) : Covered assumed (.pair c) (.pair c)
  | assumed {c d : CellId} (h : (c, d) ∈ assumed) : Covered assumed (.pair c) (.pair d)

theorem Covered.mono {A B : List (CellId × CellId)} (hAB : A ⊆ B) {x y : Datum}
    (h : Covered A x y) : Covered B x y := by
  cases h with
  | nil => exact .nil
  | atom h => exact .atom h
  | native p => exact .native p
  | closure k => exact .closure k
  | hash t => exact .hash t
  | cell c => exact .cell c
  | assumed h => exact .assumed (hAB h)

/-- A comparison that finds no difference either settles two values at once or assumes two new cells
equal and leaves their halves. -/
theorem compareStep_some {A A' : List (CellId × CellId)} {x y : Value} {new : List (Value × Value)}
    (h : s.compareStep A x y = some (new, A')) :
    (Covered A x.datum y.datum ∧ new = [] ∧ A' = A) ∨
      ∃ c d, x.datum = .pair c ∧ y.datum = .pair d ∧ (c, d) ∉ A ∧ A' = (c, d) :: A ∧
        s.halves c d = some new := by
  obtain ⟨x, px⟩ := x
  obtain ⟨y, py⟩ := y
  cases x <;> cases y <;> simp only [compareStep, Option.ite_none_right_eq_some,
    Option.some.injEq, Prod.mk.injEq, reduceCtorEq] at h
  case nil.nil => exact Or.inl ⟨.nil, h.1.symm, h.2.symm⟩
  case atom.atom a b => exact Or.inl ⟨.atom ((Atom.equals_iff a b).1 h.1), h.2.1.symm, h.2.2.symm⟩
  case native.native p q =>
    obtain rfl : p = q := eq_of_beq h.1
    exact Or.inl ⟨.native p, h.2.1.symm, h.2.2.symm⟩
  case closure.closure k l =>
    obtain rfl : k = l := eq_of_beq h.1
    exact Or.inl ⟨.closure k, h.2.1.symm, h.2.2.symm⟩
  case hash.hash t u =>
    obtain rfl : t = u := eq_of_beq h.1
    exact Or.inl ⟨.hash t, h.2.1.symm, h.2.2.symm⟩
  case pair.pair c d =>
    split at h
    · next hseen =>
      cases h
      simp only [Bool.or_eq_true, decide_eq_true_eq, List.contains_iff_mem] at hseen
      rcases hseen with rfl | hseen
      · exact Or.inl ⟨.cell c, rfl, rfl⟩
      · exact Or.inl ⟨.assumed hseen, rfl, rfl⟩
    · next hnew =>
      simp only [Bool.or_eq_true, decide_eq_true_eq, List.contains_iff_mem, not_or] at hnew
      obtain ⟨new', hhalves, heq⟩ := Option.map_eq_some_iff.1 h
      cases heq
      exact Or.inr ⟨c, d, rfl, rfl, hnew.2, rfl, hhalves⟩

/-- The halves of two cells are related exactly if all that is left to compare of them is. -/
theorem halves_iff {R : Value → Value → Prop} {c d : CellId} :
    (∃ new, s.halves c d = some new ∧ ∀ p ∈ new, R p.1 p.2) ↔
      R (s.cell c).car (s.cell d).car ∧ Option.Rel R (s.cell c).cdr (s.cell d).cdr := by
  unfold halves
  cases (s.cell c).cdr <;> cases (s.cell d).cdr <;> simp [-Prod.forall]

/-- Values that a bisimulation relates do not differ at the top. -/
theorem compareStep_ne_none {R : Value → Value → Prop} (hR : s.IsBisimulation R) {x y : Value}
    (h : R x y) (A : List (CellId × CellId)) :
    ∃ new A', s.compareStep A x y = some (new, A') ∧ ∀ p ∈ new, R p.1 p.2 := by
  have hagree := hR x y h
  obtain ⟨x, px⟩ := x
  obtain ⟨y, py⟩ := y
  cases hagree with
  | nil => exact ⟨[], A, rfl, by simp⟩
  | @atom a b hab =>
    refine ⟨[], A, ?_, by simp⟩
    simp [compareStep, (Atom.equals_iff a b).2 hab]
  | native p => exact ⟨[], A, by simp [compareStep], by simp⟩
  | closure k => exact ⟨[], A, by simp [compareStep], by simp⟩
  | hash t => exact ⟨[], A, by simp [compareStep], by simp⟩
  | cell c => exact ⟨[], A, by simp [compareStep], by simp⟩
  | @pair c d hcar hcdr =>
    by_cases hseen : (decide (c = d) || A.contains (c, d)) = true
    · exact ⟨[], A, by simp only [compareStep, hseen, if_true], by simp⟩
    · obtain ⟨new, hhalves, hnew⟩ := halves_iff.2 ⟨hcar, hcdr⟩
      refine ⟨new, (c, d) :: A, ?_, hnew⟩
      simp only [compareStep, hseen, hhalves, Bool.false_eq_true, if_false, Option.map_some]

/-! ## The loop without a bound -/

/-- Comparing all pending pairs under the given assumptions comes to an end with the given answer. -/
inductive Compares (s : Store) : List (Value × Value) → List (CellId × CellId) → Bool → Prop
  | done (A : List (CellId × CellId)) : Compares s [] A true
  | differ {x y : Value} {A : List (CellId × CellId)} (pending : List (Value × Value))
      (h : s.compareStep A x y = none) : Compares s ((x, y) :: pending) A false
  | next {x y : Value} {pending new : List (Value × Value)} {A A' : List (CellId × CellId)}
      {b : Bool} (h : s.compareStep A x y = some (new, A'))
      (rest : Compares s (new ++ pending) A' b) : Compares s ((x, y) :: pending) A b

/-- A loop that ends with a yes has assumed a set of cells that covers what was pending, and whose new
members have their halves covered. -/
theorem Compares.covered {pending : List (Value × Value)} {A : List (CellId × CellId)}
    (h : s.Compares pending A true) :
    ∃ B, A ⊆ B ∧ (∀ p ∈ pending, Covered B p.1.datum p.2.datum) ∧
      ∀ c d, (c, d) ∈ B → (c, d) ∉ A →
        ∃ new, s.halves c d = some new ∧ ∀ p ∈ new, Covered B p.1.datum p.2.datum := by
  -- `B` is what the last comparison leaves assumed; the halves of a member of `A` may have been
  -- compared before, so only the other members are said to be closed
  generalize hb : true = b at h
  induction h with
  | done A => exact ⟨A, fun _ h => h, by simp, fun c d h hn => absurd h hn⟩
  | differ pending h => cases hb
  | @next x y pending new A A' b hstep rest ih =>
    obtain ⟨B, hsub, hpending, hclosed⟩ := ih hb
    rcases compareStep_some hstep with ⟨hcov, rfl, rfl⟩ | ⟨c, d, hx, hy, hnot, rfl, hhalves⟩
    · refine ⟨B, hsub, ?_, hclosed⟩
      rw [List.forall_mem_cons]
      exact ⟨hcov.mono hsub, by simpa using hpending⟩
    · have hmem : (c, d) ∈ B := hsub List.mem_cons_self
      refine ⟨B, fun p hp => hsub (List.mem_cons_of_mem _ hp), ?_, ?_⟩
      · rw [List.forall_mem_cons]
        refine ⟨?_, fun p hp => hpending p (List.mem_append_right _ hp)⟩
        simp only [hx, hy]
        exact .assumed hmem
      · intro c' d' hB hA
        by_cases heq : (c', d') = (c, d)
        · cases heq
          exact ⟨new, hhalves, fun p hp => hpending p (List.mem_append_left _ hp)⟩
        · exact hclosed c' d' hB (by simp [heq, hA])

/-- A loop that ends with a yes has found a bisimulation. -/
theorem Compares.bisimilar {x y : Value} (h : s.Compares [(x, y)] [] true) : s.Bisimilar x y := by
  obtain ⟨B, -, hpending, hclosed⟩ := h.covered
  refine ⟨fun x y => Covered B x.datum y.datum, ?_, hpending (x, y) (by simp)⟩
  intro x y hcov
  generalize x.datum = dx, y.datum = dy at hcov
  cases hcov with
  | nil => exact .nil
  | atom h => exact .atom h
  | native p => exact .native p
  | closure k => exact .closure k
  | hash t => exact .hash t
  | cell c => exact .cell c
  | @assumed c d hmem =>
    -- nothing was assumed at the start, so every assumed pair of cells has its halves covered
    have hhalves := hclosed c d hmem (by simp)
    obtain ⟨hcar, hcdr⟩ := (halves_iff (R := fun x y => Covered B x.datum y.datum)).1 hhalves
    exact .pair hcar hcdr

/-- A loop never leaves a bisimulation that holds of all pending pairs, so it ends with a yes. -/
theorem Compares.eq_true {R : Value → Value → Prop} (hR : s.IsBisimulation R)
    {pending : List (Value × Value)} {A : List (CellId × CellId)} {b : Bool}
    (h : s.Compares pending A b) (hpending : ∀ p ∈ pending, R p.1 p.2) : b = true := by
  induction h with
  | done A => rfl
  | @differ x y A pending hstep =>
    obtain ⟨new, A', hsome, -⟩ := compareStep_ne_none hR (hpending (x, y) (by simp)) A
    simp [hstep] at hsome
  | @next x y pending new A A' b hstep rest ih =>
    apply ih
    obtain ⟨new', A'', hsome, hnew⟩ := compareStep_ne_none hR (hpending (x, y) (by simp)) A
    rw [hstep] at hsome
    cases hsome
    intro p hp
    rcases List.mem_append.1 hp with hp | hp
    · exact hnew p hp
    · exact hpending p (List.mem_cons_of_mem _ hp)

/-! ## The bound -/

/-- The pairs of cells of the store that are not yet assumed equal. -/
def unassumed (s : Store) (A : List (CellId × CellId)) : Finset (Nat × Nat) :=
  (Finset.range s.cells.size ×ˢ Finset.range s.cells.size).filter fun p => (⟨p.1⟩, ⟨p.2⟩) ∉ A

/-- Two pairs may still be two cells that are not of the store, which takes one comparison more. -/
def weight (p : Value × Value) : Nat := if p.1.isPair && p.2.isPair then 2 else 1

/-- How many comparisons can still follow. -/
def work (s : Store) (pending : List (Value × Value)) (A : List (CellId × CellId)) : Nat :=
  4 * (s.unassumed A).card + (pending.map weight).sum

theorem weight_pos (p : Value × Value) : 0 < weight p := by
  unfold weight
  split <;> decide

theorem weight_le (p : Value × Value) : weight p ≤ 2 := by
  unfold weight
  split <;> decide

theorem unassumed_cons_subset (s : Store) (p : CellId × CellId) (A : List (CellId × CellId)) :
    s.unassumed (p :: A) ⊆ s.unassumed A := by
  intro q hq
  simp only [unassumed, Finset.mem_filter, List.mem_cons, not_or] at hq ⊢
  exact ⟨hq.1, hq.2.2⟩

/-- Assuming two cells of the store equal leaves fewer to assume. -/
theorem card_unassumed_cons {c d : CellId} {A : List (CellId × CellId)}
    (hc : c.index < s.cells.size) (hd : d.index < s.cells.size) (h : (c, d) ∉ A) :
    (s.unassumed ((c, d) :: A)).card < (s.unassumed A).card := by
  refine Finset.card_lt_card (Finset.ssubset_iff_subset_ne.2 ⟨unassumed_cons_subset s _ A, ?_⟩)
  intro heq
  have hmem : (c.index, d.index) ∈ s.unassumed A := by simp [unassumed, hc, hd, h]
  rw [← heq] at hmem
  simp [unassumed] at hmem

theorem sum_weight_halves_le {c d : CellId} {new : List (Value × Value)}
    (h : s.halves c d = some new) : (new.map weight).sum ≤ 4 := by
  have hcar := weight_le ((s.cell c).car, (s.cell d).car)
  unfold halves at h
  split at h
  · next a b _ _ =>
    have hcdr := weight_le (a, b)
    cases h
    simp only [List.map_cons, List.map_nil, List.sum_cons, List.sum_nil]
    omega
  · cases h
    simp only [List.map_cons, List.map_nil, List.sum_cons, List.sum_nil]
    omega
  · cases h

/-- A cell that is not of the store has the empty list as its first half and no rest, so one light
comparison is left. -/
theorem sum_weight_halves_outside {c d : CellId} {new : List (Value × Value)}
    (h : s.halves c d = some new) (hout : ¬ (c.index < s.cells.size ∧ d.index < s.cells.size)) :
    (new.map weight).sum = 1 := by
  unfold halves at h
  rcases not_and_or.1 hout with hc | hd
  · rw [cell_of_size_le (not_lt.1 hc)] at h
    split at h <;> cases h <;> simp_all [weight, Value.isPair, Value.cell?, Value.nil]
  · rw [cell_of_size_le (not_lt.1 hd)] at h
    split at h <;> cases h <;> simp_all [weight, Value.isPair, Value.cell?, Value.nil]

/-- Every comparison that finds no difference leaves less work. -/
theorem work_lt {x y : Value} {new : List (Value × Value)} {A A' : List (CellId × CellId)}
    (pending : List (Value × Value)) (h : s.compareStep A x y = some (new, A')) :
    s.work (new ++ pending) A' < s.work ((x, y) :: pending) A := by
  unfold work
  simp only [List.map_append, List.sum_append, List.map_cons, List.sum_cons]
  rcases compareStep_some h with ⟨-, rfl, rfl⟩ | ⟨c, d, hx, hy, hnot, rfl, hhalves⟩
  · have hpos := weight_pos (x, y)
    simp only [List.map_nil, List.sum_nil]
    omega
  · -- two cells of the store pay for their halves with a pair that is no longer unassumed; cells
    -- that are not of the store cannot, and pay with their own weight
    have hpair : weight (x, y) = 2 := by simp [weight, Value.isPair, Value.cell?, hx, hy]
    have hsub := Finset.card_le_card (unassumed_cons_subset s (c, d) A)
    by_cases hin : c.index < s.cells.size ∧ d.index < s.cells.size
    · have hcard := card_unassumed_cons hin.1 hin.2 hnot
      have hnew := sum_weight_halves_le hhalves
      omega
    · have hnew := sum_weight_halves_outside hhalves hin
      omega

/-- With a bound not below the work the bounded loop is the loop without a bound. -/
theorem compares_equalAll (n : Nat) (pending : List (Value × Value)) (A : List (CellId × CellId))
    (h : s.work pending A ≤ n) : s.Compares pending A (s.equalAll n pending A) := by
  induction n generalizing pending A with
  | zero =>
    cases pending with
    | nil => exact .done A
    | cons p pending =>
      have := weight_pos p
      simp [work] at h
      omega
  | succ n ih =>
    cases pending with
    | nil => exact .done A
    | cons p pending =>
      obtain ⟨x, y⟩ := p
      rw [equalAll_succ]
      cases hstep : s.compareStep A x y with
      | none => exact .differ pending hstep
      | some result =>
        obtain ⟨new, A'⟩ := result
        have hless := work_lt pending hstep
        exact .next hstep (ih _ _ (by omega))

theorem work_le_equalBound (s : Store) (x y : Value) : s.work [(x, y)] [] ≤ s.equalBound := by
  have hcard : (s.unassumed []).card ≤ s.cells.size * s.cells.size := by
    have hle := Finset.card_filter_le (Finset.range s.cells.size ×ˢ Finset.range s.cells.size)
      fun p => ((⟨p.1⟩, ⟨p.2⟩) : CellId × CellId) ∉ []
    simp only [Finset.card_product, Finset.card_range] at hle
    exact hle
  have hweight := weight_le (x, y)
  have hexp : (s.cells.size + 1) * (s.cells.size + 1) = s.cells.size * s.cells.size +
      2 * s.cells.size + 1 := by ring
  simp only [work, equalBound, hexp, List.map_cons, List.map_nil, List.sum_cons, List.sum_nil]
  omega

/-- The comparison of two values ends. -/
theorem compares_equal (s : Store) (x y : Value) : s.Compares [(x, y)] [] (s.equal x y) :=
  compares_equalAll _ _ _ (work_le_equalBound s x y)

/-- Equal values are the bisimilar ones. -/
theorem equal_iff_bisimilar (s : Store) (x y : Value) : s.equal x y = true ↔ s.Bisimilar x y := by
  constructor
  · intro h
    exact (h ▸ compares_equal s x y).bisimilar
  · rintro ⟨R, hR, hxy⟩
    refine (compares_equal s x y).eq_true hR ?_
    rintro p hp
    obtain rfl := List.mem_singleton.1 hp
    exact hxy

/-- Structural equality decides bisimilarity: on every store, cyclic or not, the comparison of two
values ends, and with a yes exactly if some bisimulation holds of them. -/
theorem equal_decides_bisimilarity (s : Store) (x y : Value) :
    s.Compares [(x, y)] [] (s.equal x y) ∧ (s.equal x y = true ↔ s.Bisimilar x y) :=
  ⟨compares_equal s x y, equal_iff_bisimilar s x y⟩

end Store

end Lisplet
