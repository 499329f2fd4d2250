/-
# Lisplet.Proofs.Store.Printing -- written forms do not depend on the bound

The printer stops at a pair that it is already inside of, so the pairs it is inside of are all
different and there are no more of them than the store has.  The bound on its depth is therefore never
reached: any larger bound gives the same text (`text_of_pair`).  What is written for a value then
depends on what can be reached from it alone, and alike values in alike stores are written alike.
-/

import Mathlib.Tactic
import Lisplet.Proofs.Store.Walking
import Lisplet.Store.Printer

namespace Lisplet

namespace Store

/-- What is written for the first half of a pair, if `inner` writes pairs without parentheses. -/
def carText (inner : CellId → String) (path : List CellId) (v : Value) : String :=
  match v.datum with
  | .pair d => if path.contains d then "..." else "(" ++ inner d ++ ")"
  | leaf => leaf.leafText

/-- What is written for the rest of a pair. -/
def cdrText (inner : CellId → String) (path : List CellId) : Option Value → String
  | none => ""
  | some rest =>
    match rest.datum with
    | .nil => ""
    | .pair d => if path.contains d then " . ..." else " " ++ inner d
    | leaf => " . " ++ leaf.leafText

/-- A pair is written as its first half and then its rest. -/
theorem innerText_succ (s : Store) (n : Nat) (path : List CellId) (c : CellId) :
    s.innerText (n + 1) path c =
      carText (s.innerText n (c :: path)) (c :: path) (s.cell c).car ++
        cdrText (s.innerText n (c :: path)) (c :: path) (s.cell c).cdr := by
  have hrest : ∀ (first : String) (inner : CellId → String) (path : List CellId) (cdr : Option Value),
      (match cdr with
        | none => first
        | some rest =>
          match rest.datum with
          | .nil => first
          | .pair d => if path.contains d then first ++ " . ..." else first ++ " " ++ inner d
          | leaf => first ++ " . " ++ leaf.leafText) = first ++ cdrText inner path cdr := by
    intro first inner path cdr
    rcases cdr with - | ⟨- | d | a | k | p | t, q⟩
    case some.pair =>
      simp only [cdrText]
      split <;> simp [String.append_assoc]
    all_goals simp [cdrText, String.append_assoc]
  exact hrest _ _ _ _

/-! ## Alike pairs -/

section Congruence

variable {R : Renaming} {inner inner' : CellId → String} {path path' : List CellId}

/-- A pair is marked on both sides or written out on both. -/
theorem marked_congr {c d : CellId} (hcd : R (.cell c) (.cell d))
    (hpath : ∀ e e', R (.cell e) (.cell e') → (e ∈ path ↔ e' ∈ path'))
    (hinner : ∀ e e', R (.cell e) (.cell e') → e ∉ path → inner e = inner' e') (mark : String)
    (write : String → String) :
    (if path.contains c then mark else write (inner c)) =
      if path'.contains d then mark else write (inner' d) := by
  by_cases hc : c ∈ path
  · simp [hc, (hpath c d hcd).1 hc]
  · simp [hc, (hpath c d hcd).not.1 hc, hinner c d hcd hc]

theorem carText_congr {v w : Value} (h : R.Values v w)
    (hpath : ∀ e e', R (.cell e) (.cell e') → (e ∈ path ↔ e' ∈ path'))
    (hinner : ∀ e e', R (.cell e) (.cell e') → e ∉ path → inner e = inner' e') :
    carText inner path v = carText inner' path' w := by
  obtain ⟨x, p⟩ := v
  obtain ⟨y, q⟩ := w
  cases (h : R.Datums x y) with
  | pair h => exact marked_congr h hpath hinner "..." fun text => "(" ++ text ++ ")"
  | nil | atom | closure | native | hash => rfl

theorem cdrText_congr {x y : Option Value} (h : Option.Rel R.Values x y)
    (hpath : ∀ e e', R (.cell e) (.cell e') → (e ∈ path ↔ e' ∈ path'))
    (hinner : ∀ e e', R (.cell e) (.cell e') → e ∉ path → inner e = inner' e') :
    cdrText inner path x = cdrText inner' path' y := by
  cases h with
  | none => rfl
  | @some v w h =>
    obtain ⟨x, p⟩ := v
    obtain ⟨y, q⟩ := w
    cases (h : R.Datums x y) with
    | pair h => exact marked_congr h hpath hinner " . ..." fun text => " " ++ text
    | nil | atom | closure | native | hash => rfl

end Congruence

/-! ## The bound is never reached -/

theorem datums_eq (x : Datum) : Renaming.Datums Eq x x := by
  cases x with
  | nil => exact .nil
  | pair c => exact .pair rfl
  | atom a => exact .atom a
  | closure k => exact .closure rfl
  | native p => exact .native p
  | hash t => exact .hash rfl

theorem optionRel_values_eq (x : Option Value) : Option.Rel (Renaming.Values Eq) x x := by
  cases x with
  | none => exact .none
  | some v => exact .some (datums_eq v.datum)

/-- Inside `path`, a bound on what is left of the store is as good as a larger one. -/
theorem innerText_stable {s : Store} {n : Nat} {path : List CellId} {c : CellId}
    (hnodup : path.Nodup) (hlt : ∀ d ∈ path, d.index < s.cells.size) (hc : c ∉ path)
    (hn : s.cells.size < n + path.length) : s.innerText (n + 1) path c = s.innerText n path c := by
  induction n generalizing path c with
  | zero =>
    have hle := length_le_cells hnodup hlt
    omega
  | succ n ih =>
    rw [innerText_succ, innerText_succ]
    -- inside `c` the path is longer by one, which makes up for the smaller bound
    by_cases hrange : c.index < s.cells.size
    · have hinner : ∀ d d', Ident.cell d = Ident.cell d' → d ∉ c :: path →
          s.innerText (n + 1) (c :: path) d = s.innerText n (c :: path) d' := by
        intro d d' hdd hd
        obtain rfl := Ident.cell.inj hdd
        refine ih (List.nodup_cons.2 ⟨hc, hnodup⟩) ?_ hd (by simp only [List.length_cons]; omega)
        simpa using ⟨hrange, hlt⟩
      have hpath : ∀ d d', Ident.cell d = Ident.cell d' → (d ∈ c :: path ↔ d' ∈ c :: path) := by
        intro d d' hdd
        rw [Ident.cell.inj hdd]
      rw [carText_congr (R := Eq) (datums_eq _) hpath hinner,
        cdrText_congr (R := Eq) (optionRel_values_eq _) hpath hinner]
    · -- a pair that was never made has nothing inside
      rw [cell_of_size_le (not_lt.1 hrange)]
      rfl

theorem innerText_of_le {s : Store} {n : Nat} (hn : s.cells.size + 1 ≤ n) (c : CellId) :
    s.innerText n [] c = s.innerText (s.cells.size + 1) [] c := by
  induction n, hn using Nat.le_induction with
  | base => rfl
  | succ n hn ih => exact (innerText_stable List.nodup_nil (by simp) (by simp) hn).trans ih

/-- The written form of a pair, under any bound that is large enough. -/
theorem text_of_pair {s : Store} {v : Value} {c : CellId} (hv : v.datum = .pair c) {n : Nat}
    (hn : s.cells.size + 1 ≤ n) : s.text v = "(" ++ s.innerText n [] c ++ ")" := by
  simp only [text, hv, innerText_of_le hn]

end Store

/-! ## Alike values -/

namespace Renaming.Stores

variable {R : Renaming} {s t : Store}

theorem innerText (h : R.Stores s t) (n : Nat) {path path' : List CellId} {c d : CellId}
    (hcd : R (.cell c) (.cell d))
    (hpath : ∀ e e', R (.cell e) (.cell e') → (e ∈ path ↔ e' ∈ path')) :
    s.innerText n path c = t.innerText n path' d := by
  induction n generalizing path path' c d with
  | zero => rfl
  | succ n ih =>
    have hpath' : ∀ e e', R (.cell e) (.cell e') → (e ∈ c :: path ↔ e' ∈ d :: path') := by
      intro e e' hee
      -- the two paths come back to corresponding pairs at the same time
      have hself : e = c ↔ e' = d := by
        constructor
        · rintro rfl
          exact Ident.cell.inj (h.unique.2 hee hcd)
        · rintro rfl
          exact Ident.cell.inj (h.unique.1 hee hcd)
      rw [List.mem_cons, List.mem_cons, hself, hpath e e' hee]
    rw [Store.innerText_succ, Store.innerText_succ]
    obtain ⟨car, cdr⟩ := h.cell hcd
    rw [Store.carText_congr car hpath' fun e e' hee _ => ih hee hpath',
      Store.cdrText_congr cdr hpath' fun e e' hee _ => ih hee hpath']

/-- Alike values are written alike. -/
theorem text (h : R.Stores s t) {v w : Value} (hvw : R.Values v w) : s.text v = t.text w := by
  by_cases hpair : ∃ c, v.datum = .pair c
  · obtain ⟨c, hc⟩ := hpair
    obtain ⟨d, hd, hcd⟩ := hvw.of_pair hc
    -- the stores may differ in size, so both texts are taken under a bound that does for either
    have hs : s.cells.size + 1 ≤ max s.cells.size t.cells.size + 1 := by omega
    have ht : t.cells.size + 1 ≤ max s.cells.size t.cells.size + 1 := by omega
    have hnil : ∀ e e', R (.cell e) (.cell e') →
        (e ∈ ([] : List CellId) ↔ e' ∈ ([] : List CellId)) := by simp
    rw [Store.text_of_pair hc hs, Store.text_of_pair hd ht, h.innerText _ hcd hnil]
  · obtain ⟨x, p⟩ := v
    obtain ⟨y, q⟩ := w
    cases (hvw : R.Datums x y) with
    | pair => exact absurd ⟨_, rfl⟩ hpair
    | nil | atom | closure | native | hash => rfl

end Renaming.Stores

end Lisplet
