/-
# Lisplet.Proofs.Store.Acyclic -- stores without a cycle of pairs

A pair points to the pairs that are its halves.  Where no pair points back to itself, however many
steps it takes, the printer never meets a pair that it is inside of: every pair on its path points, in
some steps, to where it is.  `traced` is the printer with a note of whether it met one.

If each pair points only to pairs that were made before it, then there is no cycle, and the chain of
every list ends.
-/

import Mathlib.Tactic
import Mathlib.Logic.Relation
import Lisplet.Proofs.Store.Printing
import Lisplet.Proofs.Store.Walking

namespace Lisplet

namespace Store

variable {s : Store} {c d : CellId}

/-! ## Cycles -/

/-- The pair `d` is the first half or the rest of the pair `c`. -/
def Points (s : Store) (c d : CellId) : Prop :=
  (s.cell c).car.datum = .pair d ∨ ∃ rest ∈ (s.cell c).cdr, rest.datum = .pair d

/-- Following the halves of a pair never leads back to it. -/
def Acyclic (s : Store) : Prop := ∀ c, ¬ Relation.TransGen s.Points c c

/-! ## The printer -/

/-- What is written for the first half of a pair, and whether a reference back was marked. -/
def carTrace (inner : CellId → String × Bool) (path : List CellId) (v : Value) : String × Bool :=
  match v.datum with
  | .pair d =>
    if path.contains d then ("...", true) else ("(" ++ (inner d).1 ++ ")", (inner d).2)
  | leaf => (leaf.leafText, false)

/-- What is written for the rest of a pair, and whether a reference back was marked. -/
def cdrTrace (inner : CellId → String × Bool) (path : List CellId) : Option Value → String × Bool
  | none => ("", false)
  | some rest =>
    match rest.datum with
    | .nil => ("", false)
    | .pair d => if path.contains d then (" . ...", true) else (" " ++ (inner d).1, (inner d).2)
    | leaf => (" . " ++ leaf.leafText, false)

/-- The written form of a pair without its parentheses, and whether a reference back was marked. -/
def tracedText (s : Store) : Nat → List CellId → CellId → String × Bool
  | 0, _, _ => ("", false)
  | n + 1, path, c =>
    let first := carTrace (tracedText s n (c :: path)) (c :: path) (s.cell c).car
    let rest := cdrTrace (tracedText s n (c :: path)) (c :: path) (s.cell c).cdr
    (first.1 ++ rest.1, first.2 || rest.2)

/-- The written form of a value, and whether a reference back was marked. -/
def traced (s : Store) (v : Value) : String × Bool :=
  match v.datum with
  | .pair c =>
    let inner := s.tracedText (s.cells.size + 1) [] c
    ("(" ++ inner.1 ++ ")", inner.2)
  | leaf => (leaf.leafText, false)

theorem carTrace_fst {inner : CellId → String × Bool} {inner' : CellId → String}
    (h : ∀ d, (inner d).1 = inner' d) (path : List CellId) (v : Value) :
    (carTrace inner path v).1 = carText inner' path v := by
  unfold carTrace carText
  cases v.datum with
  | pair d =>
    dsimp only
    rw [h]
    split <;> rfl
  | nil | atom | closure | native | hash => rfl

theorem cdrTrace_fst {inner : CellId → String × Bool} {inner' : CellId → String}
    (h : ∀ d, (inner d).1 = inner' d) (path : List CellId) (rest : Option Value) :
    (cdrTrace inner path rest).1 = cdrText inner' path rest := by
  cases rest with
  | none => rfl
  | some rest =>
    unfold cdrTrace cdrText
    dsimp only
    cases rest.datum with
    | pair d =>
      dsimp only
      rw [h]
      split <;> rfl
    | nil | atom | closure | native | hash => rfl

/-- The printer that takes notes writes what the printer writes. -/
theorem tracedText_fst (s : Store) (n : Nat) (path : List CellId) (c : CellId) :
    (s.tracedText n path c).1 = s.innerText n path c := by
  induction n generalizing path c with
  | zero => rfl
  | succ n ih =>
    rw [innerText_succ, ← carTrace_fst (ih (c :: path)), ← cdrTrace_fst (ih (c :: path))]
    rfl

/-- Inside pairs that all lead to `c`, no reference back is met. -/
theorem Acyclic.tracedText_snd (h : s.Acyclic) (n : Nat) {path : List CellId}
    (hpath : ∀ p ∈ path, Relation.TransGen s.Points p c) : (s.tracedText n path c).2 = false := by
  induction n generalizing path c with
  | zero => rfl
  | succ n ih =>
    -- a pair that `c` points to is led to by the whole path and by `c`
    have hnext : ∀ {d}, s.Points c d → ∀ p ∈ c :: path, Relation.TransGen s.Points p d := by
      intro d hd p hp
      rcases List.mem_cons.1 hp with rfl | hp
      · exact .single hd
      · exact (hpath p hp).tail hd
    have hnew : ∀ {d}, s.Points c d → d ∉ c :: path := fun hd hmem => h _ (hnext hd _ hmem)
    have hcar : (carTrace (s.tracedText n (c :: path)) (c :: path) (s.cell c).car).2 = false := by
      unfold carTrace
      cases hd : (s.cell c).car.datum with
      | pair d => simpa [hnew (Or.inl hd)] using ih (hnext (Or.inl hd))
      | nil | atom | closure | native | hash => rfl
    have hcdr : (cdrTrace (s.tracedText n (c :: path)) (c :: path) (s.cell c).cdr).2 = false := by
      cases hrest : (s.cell c).cdr with
      | none => rfl
      | some rest =>
        unfold cdrTrace
        cases hd : rest.datum with
        | pair d =>
          have hpoints : s.Points c d := Or.inr ⟨rest, hrest, hd⟩
          simpa [hd, hnew hpoints] using ih (hnext hpoints)
        | nil | atom | closure | native | hash => simp [hd]
    show (_ || _) = false
    rw [hcar, hcdr]
    rfl

/-- Without cycles, the printer writes every value without marking a reference back. -/
theorem Acyclic.traced_eq (h : s.Acyclic) (v : Value) : s.traced v = (s.text v, false) := by
  unfold traced text
  cases v.datum with
  | pair c =>
    have hmarked : (s.tracedText (s.cells.size + 1) [] c).2 = false := h.tracedText_snd _ (by simp)
    dsimp only
    rw [hmarked, tracedText_fst]
  | nil | atom | closure | native | hash => rfl

/-! ## Pairs that point to older ones -/

/-- Each pair points only to pairs that were made before it. -/
def Descends (s : Store) : Prop := ∀ c d, s.Points c d → d.index < c.index

theorem Descends.lt_of_transGen (h : s.Descends) (hcd : Relation.TransGen s.Points c d) :
    d.index < c.index := by
  induction hcd with
  | single hcd => exact h _ _ hcd
  | tail _ hde ih => exact (h _ _ hde).trans ih

theorem Descends.acyclic (h : s.Descends) : s.Acyclic := fun _ hc => lt_irrefl _ (h.lt_of_transGen hc)

/-- A chain of rests goes to ever older pairs, so it ends. -/
theorem Descends.chain (h : s.Descends) (c : CellId) : ∃ vs tail, s.Chain c vs tail := by
  induction hn : c.index using Nat.strong_induction_on generalizing c with
  | _ n ih =>
    subst hn
    cases hcdr : (s.cell c).cdr with
    | none => exact ⟨_, _, .last hcdr⟩
    | some rest =>
      by_cases hnil : rest.datum = .nil
      · exact ⟨_, _, .nil hcdr hnil⟩
      · by_cases hpair : ∃ d, rest.datum = .pair d
        · obtain ⟨d, hd⟩ := hpair
          obtain ⟨vs, tail, hchain⟩ := ih d.index (h c d (Or.inr ⟨rest, hcdr, hd⟩)) d rfl
          exact ⟨_, _, .next hcdr hd hchain⟩
        · exact ⟨_, _, .improper hcdr hnil fun d hd => hpair ⟨d, hd⟩⟩

theorem Descends.elements_ne (h : s.Descends) (v : Value) : s.elements v ≠ .error .circular := by
  cases hv : v.datum with
  | pair c =>
    obtain ⟨vs, tail, hchain⟩ := h.chain c
    rw [elements_of_chain hv hchain]
    cases tail <;> simp [chainElements]
  | nil | atom | closure | native | hash => simp [elements, hv]

end Store

end Lisplet
