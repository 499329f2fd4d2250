/-
# Lisplet.Proofs.Sharing -- what equality makes of a value and its copies

A pair is equal to itself without a look at what it holds.  Whether that is harmless depends on the one
datum that is not equal to itself: what is not a number, which a sum of opposite infinities gives.  A
value is equal to itself unless it is such a number, and equal to a copy of itself unless it holds one
anywhere.  So a pair that holds one is equal to itself and different from its copies.

`Matches` is equality without the shortcut, which looks into a pair also where it is compared with
itself.  The main statement says how far the two are apart: values match exactly if they are equal and
nothing in them is not a number.
-/

import Mathlib.Tactic
import Lisplet.Proofs.Bisimulation
import Lisplet.Proofs.ListEnds
import Lisplet.Proofs.Store.Routes
import Lisplet.Session

namespace Lisplet

/-- Is the datum a floating point number that is not a number? -/
def Datum.isNaN : Datum → Bool
  | .atom (.number (.float x)) => x.isNaN
  | _ => false

theorem Atom.Same.isNaN_eq {a b : Atom} (h : a.Same b) : (Datum.atom a).isNaN = false := by
  cases h with
  | float h =>
    have hequals := (Binary64.equals_iff _ _).2 h
    simp only [Binary64.equals, Bool.and_eq_true, Bool.not_eq_true'] at hequals
    exact hequals.1.1
  | symbol | int | string | bool => rfl

theorem Atom.same_self {a : Atom} (h : (Datum.atom a).isNaN = false) : a.Same a := by
  match a with
  | .number (.float x) =>
    refine .float ((Binary64.equals_iff x x).1 ?_)
    have hx : x.isNaN = false := h
    simp [Binary64.equals, hx]
  | .number (.int n) => exact .int n
  | .symbol name => exact .symbol name
  | .string content => exact .string content
  | .bool b => exact .bool b

namespace Store

/-! ## Copies and comparisons without a shortcut -/

/-- Something that is not a number can be reached from the datum. -/
def HoldsNaN (s : Store) (x : Datum) : Prop :=
  ∃ route trail y, s.Leads x route trail y ∧ y.isNaN = true

/-- The second datum stands for the first where `R` says which pair stands for which: a pair by its
copy, all else by itself. -/
inductive Stands (R : CellId → CellId → Prop) : Datum → Datum → Prop
  | leaf {x : Datum} (hx : ∀ c, x ≠ .pair c) : Stands R x x
  | pair {c d : CellId} (h : R c d) : Stands R (.pair c) (.pair d)

/-- The halves of the two pairs are related: both have a rest, or none has. -/
def HalvesRelated (s : Store) (R : Value → Value → Prop) (c d : CellId) : Prop :=
  ∀ h, Option.Rel R (s.half? c h) (s.half? d h)

/-- Each pair has another one as its copy, and the halves of the copy stand for its halves. -/
structure IsCopying (s : Store) (R : CellId → CellId → Prop) : Prop where
  fresh : ∀ c d, R c d → c ≠ d
  halves : ∀ c d, R c d → s.HalvesRelated (fun v w => Stands R v.datum w.datum) c d

/-- The second value is a copy of the first, with other pairs and with the same atoms, functions and
hash tables. -/
def Copies (s : Store) (v w : Value) : Prop := ∃ R, s.IsCopying R ∧ Stands R v.datum w.datum

/-- A bisimulation that takes no pair on trust: the halves of related pairs are related, also if it is
the same pair twice. -/
def IsThorough (s : Store) (R : Value → Value → Prop) : Prop :=
  s.IsBisimulation R ∧
    ∀ x y c d, R x y → x.datum = .pair c → y.datum = .pair d → s.HalvesRelated R c d

/-- Comparing first halves and rests throughout finds no difference. -/
def Matches (s : Store) (x y : Value) : Prop := ∃ R, s.IsThorough R ∧ R x y

variable {s : Store} {v w : Value} {R : Value → Value → Prop}

/-! ## A value and itself -/

/-- What is not a number agrees with nothing. -/
theorem Agree.isNaN_eq {x y : Datum} (h : s.Agree R x y) : x.isNaN = false := by
  cases h with
  | atom h => exact h.isNaN_eq
  | nil | native | closure | hash | cell | pair => rfl

theorem agree_self {x : Datum} (h : x.isNaN = false) : s.Agree R x x := by
  cases x with
  | nil => exact .nil
  | atom a => exact .atom (Atom.same_self h)
  | native p => exact .native p
  | closure k => exact .closure k
  | hash t => exact .hash t
  | pair c => exact .cell c

theorem bisimilar_self (h : v.datum.isNaN = false) : s.Bisimilar v v := by
  refine ⟨fun x y => x.datum = y.datum ∧ x.datum.isNaN = false, ?_, rfl, h⟩
  rintro x y ⟨hxy, hx⟩
  rw [← hxy]
  exact agree_self hx

theorem Bisimilar.agree (h : s.Bisimilar v w) : s.Agree s.Bisimilar v.datum w.datum := by
  obtain ⟨R, hR, hvw⟩ := h
  exact (hR v w hvw).mono fun a b hab => ⟨R, hR, hab⟩

/-- A value is equal to itself unless it is not a number. -/
theorem equal_self_iff (s : Store) (v : Value) : s.equal v v = true ↔ v.datum.isNaN = false := by
  rw [equal_iff_bisimilar]
  exact ⟨fun h => h.agree.isNaN_eq, bisimilar_self⟩

/-! ## What is held -/

theorem HoldsNaN.of_isNaN {x : Datum} (h : x.isNaN = true) : s.HoldsNaN x := ⟨[], [], x, .here x, h⟩

theorem HoldsNaN.of_half {c : CellId} {h : Half} {u : Value} (hu : s.half? c h = some u)
    (hnan : s.HoldsNaN u.datum) : s.HoldsNaN (.pair c) := by
  obtain ⟨route, trail, y, hleads, hy⟩ := hnan
  exact ⟨_, _, y, .step hu hleads, hy⟩

theorem isNaN_eq_of_not_holdsNaN {x : Datum} (h : ¬ s.HoldsNaN x) : x.isNaN = false :=
  Bool.eq_false_iff.2 fun hnan => h (.of_isNaN hnan)

/-! ## Halves -/

section Halves

variable {Q : Value → Value → Prop} {c d : CellId}

theorem HalvesRelated.half (h : s.HalvesRelated R c d) {half : Half} {u : Value}
    (hu : s.half? c half = some u) : ∃ u', s.half? d half = some u' ∧ R u u' :=
  optionRel_some (h half) hu

theorem HalvesRelated.imp (h : s.HalvesRelated R c d)
    (hRQ : ∀ half u u', s.half? c half = some u → s.half? d half = some u' → R u u' → Q u u') :
    s.HalvesRelated Q c d := by
  intro half
  have hhalf := h half
  cases hc : s.half? c half <;> cases hd : s.half? d half <;> rw [hc, hd] at hhalf <;> cases hhalf
  · exact .none
  · next u u' hu => exact .some (hRQ half u u' hc hd hu)

theorem HalvesRelated.agree (h : s.HalvesRelated R c d) : s.Agree R (.pair c) (.pair d) := by
  obtain ⟨u, hu, hcar⟩ := optionRel_some (h .car) rfl
  obtain rfl := Option.some.inj hu
  exact .pair hcar (h .cdr)

theorem Agree.exists_pair {y : Datum} (h : s.Agree R (.pair c) y) : ∃ d, y = .pair d := by
  cases h with
  | cell => exact ⟨c, rfl⟩
  | @pair _ d => exact ⟨d, rfl⟩

/-- Pairs that agree have related halves, or are one pair. -/
theorem Agree.halvesRelated (h : s.Agree R (.pair c) (.pair d)) : c = d ∨ s.HalvesRelated R c d := by
  cases h with
  | cell => exact Or.inl rfl
  | pair car cdr =>
    refine Or.inr fun half => ?_
    cases half with
    | car => exact .some car
    | cdr => exact cdr

/-- Agreement at the top depends on the relation only for the halves of pairs. -/
theorem Agree.change {x y : Datum} (h : s.Agree R x y)
    (hQ : ∀ c d, x = .pair c → y = .pair d → s.HalvesRelated Q c d) : s.Agree Q x y := by
  cases h with
  | nil => exact .nil
  | atom h => exact .atom h
  | native p => exact .native p
  | closure k => exact .closure k
  | hash t => exact .hash t
  | cell c => exact .cell c
  | pair => exact (hQ _ _ rfl rfl).agree

end Halves

/-- A relation of bisimilar values that relates the halves of pairs is thorough. -/
theorem isThorough_of_bisimilar (hbisimilar : ∀ x y, R x y → s.Bisimilar x y)
    (hhalves : ∀ x y c d, R x y → x.datum = .pair c → y.datum = .pair d → s.HalvesRelated R c d) :
    s.IsThorough R :=
  ⟨fun x y hxy => (hbisimilar x y hxy).agree.change fun c d => hhalves x y c d hxy, hhalves⟩

/-! ## Equality without the shortcut -/

/-- Values that match hold nothing that is not a number. -/
theorem IsThorough.not_holdsNaN (hR : s.IsThorough R) (h : R v w) : ¬ s.HoldsNaN v.datum := by
  rintro ⟨route, trail, y, hleads, hy⟩
  generalize hx : v.datum = x at hleads
  induction hleads generalizing v w with
  | here =>
    have hnan := (hR.1 v w h).isNaN_eq
    rw [hx, hy] at hnan
    cases hnan
  | @step c half u _ _ _ hu _ ih =>
    obtain ⟨d, hd⟩ := (hx ▸ hR.1 v w h : s.Agree R (.pair c) w.datum).exists_pair
    obtain ⟨u', -, huu⟩ := (hR.2 v w c d h hx hd).half hu
    exact ih huu hy rfl

/-- Values match exactly if they are equal and hold nothing that is not a number. -/
theorem matches_iff (s : Store) (v w : Value) :
    s.Matches v w ↔ s.equal v w = true ∧ ¬ s.HoldsNaN v.datum := by
  rw [equal_iff_bisimilar]
  constructor
  · rintro ⟨R, hR, hvw⟩
    exact ⟨⟨R, hR.1, hvw⟩, hR.not_holdsNaN hvw⟩
  · rintro ⟨hvw, hnot⟩
    refine ⟨fun x y => s.Bisimilar x y ∧ ¬ s.HoldsNaN x.datum, ?_, hvw, hnot⟩
    refine isThorough_of_bisimilar (fun x y hxy => hxy.1) ?_
    rintro x y c d ⟨hxy, hx⟩ hc hd
    rw [hc] at hx
    have hhalf : ∀ {half u}, s.half? c half = some u → ¬ s.HoldsNaN u.datum :=
      fun hu hnan => hx (.of_half hu hnan)
    have hagree := hxy.agree
    rw [hc, hd] at hagree
    rcases hagree.halvesRelated with rfl | hhalves
    · -- the same pair twice: its halves are numbers or the like, which are equal to themselves
      intro half
      cases hu : s.half? c half with
      | none => exact .none
      | some u => exact .some ⟨bisimilar_self (isNaN_eq_of_not_holdsNaN (hhalf hu)), hhalf hu⟩
    · exact hhalves.imp fun half u u' hu _ huu => ⟨huu, hhalf hu⟩

/-! ## Copies -/

/-- No pair is its own copy, so a comparison with a copy takes no shortcut. -/
theorem Copies.matches_of_bisimilar (h : s.Copies v w) (hvw : s.Bisimilar v w) : s.Matches v w := by
  obtain ⟨R, hR, hstands⟩ := h
  refine ⟨fun x y => s.Bisimilar x y ∧ Stands R x.datum y.datum, ?_, hvw, hstands⟩
  refine isThorough_of_bisimilar (fun x y hxy => hxy.1) ?_
  rintro x y c d ⟨hxy, hstands⟩ hc hd
  have hagree := hxy.agree
  rw [hc, hd] at hagree hstands
  cases hstands with
  | leaf hx => exact absurd rfl (hx c)
  | pair hcd =>
    have hhalves := hagree.halvesRelated.resolve_left (hR.fresh c d hcd)
    refine hhalves.imp fun half u u' hu hu' huu => ⟨huu, ?_⟩
    obtain ⟨u'', hu'', hstands⟩ := (hR.halves c d hcd).half hu
    obtain rfl := Option.some.inj (hu'.symm.trans hu'')
    exact hstands

theorem Copies.bisimilar (h : s.Copies v w) (hnot : ¬ s.HoldsNaN v.datum) : s.Bisimilar v w := by
  obtain ⟨R, hR, hstands⟩ := h
  refine ⟨fun x y => Stands R x.datum y.datum ∧ ¬ s.HoldsNaN x.datum, ?_, hstands, hnot⟩
  rintro x y ⟨hstands, hx⟩
  generalize x.datum = x at hstands hx
  generalize y.datum = y at hstands
  cases hstands with
  | leaf => exact agree_self (isNaN_eq_of_not_holdsNaN hx)
  | pair hcd =>
    refine ((hR.halves _ _ hcd).imp fun half u u' hu _ huu => ⟨huu, fun hnan => ?_⟩).agree
    exact hx (.of_half hu hnan)

/-- A value is equal to its copy unless it holds something that is not a number. -/
theorem Copies.equal_iff (h : s.Copies v w) : s.equal v w = true ↔ ¬ s.HoldsNaN v.datum := by
  rw [equal_iff_bisimilar]
  refine ⟨fun hvw => ?_, h.bisimilar⟩
  exact ((matches_iff s v w).1 (h.matches_of_bisimilar hvw)).2

end Store

/-- Where equality sees sharing.  A value is equal to itself exactly if it is not the one datum that is
not a number, and to a copy with other pairs exactly if it holds no such datum.  Taking the same pair as
equal at once gives the answer that its first halves and rests would give exactly where nothing is held
that is not a number. -/
theorem sharing_shows_only_where_no_number (s : Store) (v : Value) :
    (s.equal v v = true ↔ v.datum.isNaN = false) ∧
    (∀ w, s.Copies v w → (s.equal v w = true ↔ ¬ s.HoldsNaN v.datum)) ∧
    ∀ w, s.Matches v w ↔ s.equal v w = true ∧ ¬ s.HoldsNaN v.datum :=
  ⟨s.equal_self_iff v, fun _ h => h.equal_iff, s.matches_iff v⟩

/-- The list `(1 #0)` that holds itself, and a copy of it. -/
def loopAndCopy : Store where
  cells := #[⟨.int 1, some ⟨.pair ⟨1⟩, .unknown⟩⟩, ⟨⟨.pair ⟨0⟩, .unknown⟩, none⟩,
    ⟨.int 1, some ⟨.pair ⟨3⟩, .unknown⟩⟩, ⟨⟨.pair ⟨2⟩, .unknown⟩, none⟩]

/-- The list is equal to its copy, though both run in a circle. -/
theorem sharing_shows_only_where_no_number_loop :
    let v : Value := ⟨.pair ⟨0⟩, .unknown⟩
    let w : Value := ⟨.pair ⟨2⟩, .unknown⟩
    loopAndCopy.Copies v w ∧ ¬ loopAndCopy.HoldsNaN v.datum ∧ loopAndCopy.Matches v w := by
  intro v w
  obtain ⟨-, hcopies, hmatches⟩ := sharing_shows_only_where_no_number loopAndCopy v
  have hcopy : loopAndCopy.Copies v w := by
    refine ⟨fun c d => d.index = c.index + 2 ∧ c.index < 2, ⟨?_, ?_⟩, .pair ⟨rfl, by decide⟩⟩
    · rintro c d ⟨hd, -⟩ rfl
      omega
    · rintro ⟨c⟩ ⟨d⟩ ⟨hd, hc⟩ half
      obtain rfl : d = c + 2 := hd
      match c, half, hc with
      | 0, .car, _ => exact .some (.leaf fun _ h => Datum.noConfusion h)
      | 0, .cdr, _ | 1, .car, _ => exact .some (.pair ⟨rfl, by decide⟩)
      | 1, .cdr, _ => exact .none
  have hequal : loopAndCopy.equal v w = true := by decide +kernel
  have hnot := (hcopies w hcopy).1 hequal
  exact ⟨hcopy, hnot, (hmatches w).2 ⟨hequal, hnot⟩⟩

/-- A literal of three hundred and ten digits. -/
def longLiteral (negative : Bool) : List Char :=
  (if negative then ['-'] else []) ++ '1' :: List.replicate 309 '0' ++ ['.']

/-- What such a literal reads as. -/
def overflow (negative : Bool) : Binary64 := .ofDecimal negative (Binary64.tenPow 309) 0

/-- A fresh session with names for two such literals of opposite sign. -/
def overflowing : Session where
  env := (Session.new .abort).env
  state :=
    { store := ((Session.new .abort).state.store.define (Session.new .abort).env "big"
        (.number (.float (overflow false)))).define (Session.new .abort).env "-big"
        (.number (.float (overflow true))) }

/-- A program that compares a sum with itself, a list that holds it with that list, and the list with a
copy. -/
def comparingSum : String :=
  "((lambda (p) (list (equal? (car p) (car p)) (equal? p p) (equal? p (list (car p)))))
    (list (+ big -big)))"

/-- The sum is not a number, so it is not equal to itself; the list is, but not to its copy. -/
theorem equal_not_reflexive :
    (∀ negative, Word.decimal? (longLiteral negative) = some (overflow negative)) ∧
    (match overflowing.runSource (.ofFiles fun _ => .error .notFound) 9 comparingSum "a" with
      | (.ok v, session) => session.state.store.text v
      | _ => "") = "(#f #t #f)" := by
  decide +kernel

end Lisplet
