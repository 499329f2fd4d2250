/-
# Lisplet.Proofs.ListWalks -- how a walk along a list ends

To follow the rests from a value is to pass pairs one after the other (`Passes`).  That comes to its end
in one of three ways: no rest or the empty list is left, or something that is no list, or a pair that
was passed before.  `Course` names the three, each with the pairs that were passed by then, and every
value takes exactly one course, in a store of any shape.

`search` finds the course with the pairs it has passed in hand, and stops because there are fewer left
each time.  The walks of the program carry a bound in place of these pairs.  They come to the same: a
course that ends or breaks off is a chain that the bound is large enough for, and behind a pair that was
passed before no chain ends, since the way on leads through that pair again and again.
-/

import Mathlib.Tactic
import Lisplet.Argument
import Lisplet.Proofs.Store.Walking

namespace Lisplet

/-- How following the rests from a value comes to its end, with the pairs passed by then. -/
inductive Course where
  /-- Nothing or the empty list is left. -/
  | ends (passed : List CellId)
  /-- What is left is no list. -/
  | breaks (passed : List CellId)
  /-- What is left is a pair that was passed. -/
  | returns (passed : List CellId)
deriving DecidableEq

namespace Course

def passed : Course → List CellId
  | ends passed | breaks passed | returns passed => passed

/-- The course is at its end where this value is left, if one is. -/
def Leaves : Course → Option Value → Prop
  | ends _, left => ∀ w ∈ left, w.datum = .nil
  | breaks _, left => ∃ w ∈ left, w.datum ≠ .nil ∧ ∀ c, w.datum ≠ .pair c
  | returns passed, left => passed.Nodup ∧ ∃ w ∈ left, ∃ c ∈ passed, w.datum = .pair c

/-- What is no pair ends a course or breaks it off. -/
theorem leaves_of_no_pair (passed : List CellId) {left : Option Value}
    (h : ∀ w ∈ left, ∀ c, w.datum ≠ .pair c) :
    (ends passed).Leaves left ∨ (breaks passed).Leaves left := by
  cases left with
  | none => exact Or.inl (by simp [Leaves])
  | some w =>
    by_cases hnil : w.datum = .nil
    · exact Or.inl (by simpa [Leaves] using hnil)
    · exact Or.inr ⟨w, rfl, hnil, h w rfl⟩

/-- What is left tells the courses apart. -/
theorem Leaves.unique {k k' : Course} {left : Option Value} (h : k.Leaves left) (h' : k'.Leaves left)
    (hpassed : k.passed = k'.passed) : k = k' := by
  cases k with
  | ends p =>
    cases k' with
    | ends q => exact congrArg ends hpassed
    | breaks q =>
      obtain ⟨w, hw, hnil, -⟩ := h'
      exact absurd (h w hw) hnil
    | returns q =>
      obtain ⟨-, w, hw, c, -, hc⟩ := h'
      exact absurd ((h w hw).symm.trans hc) (by simp)
  | breaks p =>
    obtain ⟨w, hw, hnil, hpair⟩ := h
    cases k' with
    | ends q => exact absurd (h' w hw) hnil
    | breaks q => exact congrArg breaks hpassed
    | returns q =>
      obtain ⟨-, w', hw', c, -, hc⟩ := h'
      obtain rfl := Option.mem_unique hw hw'
      exact absurd hc (hpair c)
  | returns p =>
    obtain ⟨-, w, hw, c, -, hc⟩ := h
    cases k' with
    | ends q => exact absurd ((h' w hw).symm.trans hc) (by simp)
    | breaks q =>
      obtain ⟨w', hw', -, hpair⟩ := h'
      obtain rfl := Option.mem_unique hw hw'
      exact absurd hc (hpair c)
    | returns q => exact congrArg returns hpassed

end Course

namespace Store

/-- Following the rests from the first value, if there is one, passes the pairs and leaves the second. -/
inductive Passes (s : Store) : Option Value → List CellId → Option Value → Prop
  | here (u : Option Value) : Passes s u [] u
  | next {v : Value} {c : CellId} {passed : List CellId} {u : Option Value} (hv : v.datum = .pair c)
      (h : Passes s (s.cell c).cdr passed u) : Passes s (some v) (c :: passed) u

/-- Following the rests from the value takes the course. -/
def Takes (s : Store) (v : Value) (k : Course) : Prop :=
  ∃ left, s.Passes (some v) k.passed left ∧ k.Leaves left

variable {s : Store} {v w : Value} {u u' : Option Value} {c : CellId} {passed more : List CellId}

/-! ## Following the rests -/

theorem Passes.trans (h : s.Passes u passed u') {u'' : Option Value} (h' : s.Passes u' more u'') :
    s.Passes u (passed ++ more) u'' := by
  induction h with
  | here => exact h'
  | next hv _ ih => exact .next hv (ih h')

/-- One more pair. -/
theorem Passes.concat (h : s.Passes u passed (some w)) (hw : w.datum = .pair c) :
    s.Passes u (passed ++ [c]) (s.cell c).cdr :=
  h.trans (.next hw (.here _))

/-- From each pair that is passed, the way goes on as before. -/
theorem Passes.of_mem (h : s.Passes u passed u') (hc : c ∈ passed) :
    ∃ more, s.Passes (s.cell c).cdr more u' := by
  induction h with
  | here => cases hc
  | next hv h ih =>
    rcases List.mem_cons.1 hc with rfl | hc
    · exact ⟨_, h⟩
    · exact ih hc

/-- There is one way only: of two, one goes on where the other is. -/
theorem Passes.compare (h : s.Passes u passed u') {passed' : List CellId} {u'' : Option Value}
    (h' : s.Passes u passed' u'') :
    (∃ more, passed' = passed ++ more ∧ s.Passes u' more u'') ∨
      ∃ more, passed = passed' ++ more ∧ s.Passes u'' more u' := by
  induction h generalizing passed' with
  | here => exact Or.inl ⟨passed', rfl, h'⟩
  | next hv h ih =>
    cases h' with
    | here => exact Or.inr ⟨_, rfl, .next hv h⟩
    | next hv' h' =>
      obtain rfl := Datum.pair.inj (hv.symm.trans hv')
      rcases ih h' with ⟨more, rfl, hmore⟩ | ⟨more, rfl, hmore⟩
      · exact Or.inl ⟨more, rfl, hmore⟩
      · exact Or.inr ⟨more, rfl, hmore⟩

/-- What no pair stands before cannot be followed. -/
theorem Passes.stay (h : s.Passes u passed u') (hu : ∀ w ∈ u, ∀ c, w.datum ≠ .pair c) :
    passed = [] ∧ u' = u := by
  cases h with
  | here => exact ⟨rfl, rfl⟩
  | next hv => exact absurd hv (hu _ rfl _)

/-- Back at a pair that was passed, pairs follow without end. -/
theorem Passes.returns (h : s.Passes u passed (some w)) (hw : w.datum = .pair c) (hc : c ∈ passed)
    (h' : s.Passes (some w) more u') : ∃ x d, u' = some x ∧ x.datum = .pair d := by
  obtain ⟨round, hround⟩ := h.of_mem hc
  -- the way on is compared with the way around; what is left behind a whole round is shorter
  induction hn : more.length using Nat.strong_induction_on generalizing more with
  | _ n ih =>
    cases h' with
    | here => exact ⟨w, c, rfl, hw⟩
    | next hv hmore =>
      obtain rfl := Datum.pair.inj (hw.symm.trans hv)
      rcases hround.compare hmore with ⟨more', rfl, hmore'⟩ | ⟨rest, -, hrest⟩
      · exact ih more'.length (by simp at hn; omega) hmore' rfl
      · cases hrest with
        | here => exact ⟨w, c, rfl, hw⟩
        | next hv => exact ⟨_, _, rfl, hv⟩

/-! ## A value takes one course -/

/-- Fewer pairs are left behind one that was not passed before. -/
theorem card_sdiff_cons_lt {rest : Value} (hc : c ∉ passed) (hrest : (s.cell c).cdr = some rest) :
    (s.cellIds \ (c :: passed).toFinset).card < (s.cellIds \ passed.toFinset).card := by
  have hmem : c ∈ s.cellIds \ passed.toFinset :=
    Finset.mem_sdiff.2 ⟨mem_cellIds (index_lt_of_cdr hrest), by simpa using hc⟩
  rw [List.toFinset_cons, Finset.sdiff_insert]
  exact Finset.card_erase_lt_of_mem hmem

/-- Follow the rests from a pair, behind the pairs passed so far, newest first. -/
def search (s : Store) (passed : List CellId) (c : CellId) : Course :=
  if c ∈ passed then .returns passed.reverse
  else match _h : (s.cell c).cdr with
    | none => .ends (c :: passed).reverse
    | some rest =>
      match rest.datum with
      | .nil => .ends (c :: passed).reverse
      | .pair d => search s (c :: passed) d
      | _ => .breaks (c :: passed).reverse
termination_by (s.cellIds \ passed.toFinset).card
decreasing_by exact card_sdiff_cons_lt ‹_› ‹_›

/-- The course of a value. -/
def course (s : Store) (v : Value) : Course :=
  match v.datum with
  | .nil => .ends []
  | .pair c => s.search [] c
  | _ => .breaks []

theorem takes_search (hnodup : passed.Nodup) (h : s.Passes (some v) passed.reverse (some w))
    (hw : w.datum = .pair c) : s.Takes v (s.search passed c) := by
  have hconcat := h.concat hw
  rw [← List.reverse_cons] at hconcat
  fun_induction search s passed c generalizing w with
  | case1 passed c hc =>
    exact ⟨some w, h, List.nodup_reverse.2 hnodup, w, rfl, c, List.mem_reverse.2 hc, hw⟩
  | case2 passed c hc hrest => exact ⟨none, hrest ▸ hconcat, by simp [Course.Leaves]⟩
  | case3 passed c hc rest hrest hnil =>
    exact ⟨some rest, hrest ▸ hconcat, by simpa [Course.Leaves] using hnil⟩
  | case4 passed c hc rest hrest d hpair ih =>
    rw [hrest] at hconcat
    have hnext := hconcat.concat hpair
    rw [← List.reverse_cons] at hnext
    exact ih (List.nodup_cons.2 ⟨hc, hnodup⟩) hconcat hpair hnext
  | case5 passed c hc rest hrest hnil hpair =>
    exact ⟨some rest, hrest ▸ hconcat, rest, rfl, hnil, hpair⟩

/-- Every value takes its course. -/
theorem takes_course (s : Store) (v : Value) : s.Takes v (s.course v) := by
  have hhere : s.Passes (some v) [] (some v) := .here _
  unfold course
  split
  · next hnil => exact ⟨some v, hhere, by simpa [Course.Leaves] using hnil⟩
  · next c hpair => exact takes_search List.nodup_nil hhere hpair
  · next hnil hpair => exact ⟨some v, hhere, v, rfl, hnil, hpair⟩

/-- Where one course is at its end, no other goes on. -/
theorem Takes.stays {k k' : Course} {left left' : Option Value} (h : s.Passes (some v) k.passed left)
    (hk : k.Leaves left) (hk' : k'.Leaves left') (hmore : s.Passes left more left')
    (hpassed : k'.passed = k.passed ++ more) : k'.passed = k.passed ∧ left' = left := by
  have hstays : (∀ w ∈ left, ∀ c, w.datum ≠ .pair c) → k'.passed = k.passed ∧ left' = left := by
    intro hleft
    obtain ⟨rfl, hsame⟩ := hmore.stay hleft
    exact ⟨by simpa using hpassed, hsame⟩
  cases k with
  | ends p => exact hstays fun w hw c hc => by simp [hk w hw] at hc
  | breaks p =>
    obtain ⟨w, hw, -, hpair⟩ := hk
    exact hstays fun w' hw' => Option.mem_unique hw hw' ▸ hpair
  | returns p =>
    obtain ⟨-, w, rfl, c, hc, hw⟩ := hk
    cases hmore with
    | here => exact ⟨by simpa using hpassed, rfl⟩
    | next hv hnext =>
      obtain rfl := Datum.pair.inj (hw.symm.trans hv)
      -- on the way on there are pairs only, so the other course returns too, but then it passed `c` twice
      obtain ⟨x, d, rfl, hx⟩ := h.returns hw hc (.next hv hnext)
      cases k' with
      | ends q => exact absurd ((hk' x rfl).symm.trans hx) (by simp)
      | breaks q =>
        obtain ⟨y, hy, -, hpair⟩ := hk'
        obtain rfl := Option.some.inj hy
        exact absurd hx (hpair d)
      | returns q =>
        obtain ⟨hnodup, -⟩ := hk'
        obtain rfl : q = p ++ _ := hpassed
        exact (List.disjoint_of_nodup_append hnodup hc List.mem_cons_self).elim

/-- A value takes one course only. -/
theorem Takes.unique {k k' : Course} (h : s.Takes v k) (h' : s.Takes v k') : k = k' := by
  obtain ⟨left, hpassed, hk⟩ := h
  obtain ⟨left', hpassed', hk'⟩ := h'
  rcases hpassed.compare hpassed' with ⟨more, happend, hmore⟩ | ⟨more, happend, hmore⟩
  · obtain ⟨hsame, rfl⟩ := Takes.stays hpassed hk hk' hmore happend
    exact hk.unique hk' hsame.symm
  · obtain ⟨hsame, rfl⟩ := Takes.stays hpassed' hk' hk hmore happend
    exact hk.unique hk' hsame

/-! ## Walks -/

/-- Pairs that are passed up to something that is no pair are a chain that ends, with a tail if that is
not the empty list either. -/
theorem Passes.chain (h : s.Passes u passed u') (hu : u = some v) (hv : v.datum = .pair c)
    (hleft : ∀ w ∈ u', ∀ d, w.datum ≠ .pair d) :
    s.Chain c (passed.map fun d => (s.cell d).car) (u'.bind restOf) := by
  induction h generalizing v c with
  | here =>
    obtain rfl := hu
    exact absurd hv (hleft v rfl c)
  | @next v' d passed left hd h ih =>
    obtain rfl := Option.some.inj hu
    obtain rfl := Datum.pair.inj (hd.symm.trans hv)
    cases hrest : (s.cell d).cdr with
    | none =>
      rw [hrest] at h
      cases h
      exact .last hrest
    | some rest =>
      rw [hrest] at h
      cases h with
      | here =>
        by_cases hnil : rest.datum = .nil
        · have hfolded : (some rest).bind restOf = none := by simp [restOf, Value.isNil, hnil]
          rw [hfolded]
          exact .nil hrest hnil
        · have hkept : (some rest).bind restOf = some rest := by simp [restOf, Value.isNil, hnil]
          rw [hkept]
          exact .improper hrest hnil (hleft rest rfl)
      | next hpair h' => exact .next hrest hpair (ih hrest hpair hleft)

/-- A chain that ends is passed. -/
theorem Chain.passes {vs : List Value} {tail : Option Value} (h : s.Chain c vs tail)
    (hv : v.datum = .pair c) :
    ∃ passed left, s.Passes (some v) passed left ∧ ∀ w ∈ left, ∀ d, w.datum ≠ .pair d := by
  induction h generalizing v with
  | last hrest => exact ⟨_, _, .next hv (.here _), by simp [hrest]⟩
  | nil hrest hnil => exact ⟨_, _, .next hv (.here _), by simp [hrest, hnil]⟩
  | improper hrest hnil hpair => exact ⟨_, _, .next hv (.here _), by simpa [hrest] using hpair⟩
  | next hrest hpair _ ih =>
    obtain ⟨passed, left, hpassed, hleft⟩ := ih hpair
    exact ⟨_, left, .next hv (hrest ▸ hpassed), hleft⟩

/-- Where pairs return no chain ends. -/
theorem Takes.not_chain (h : s.Takes v (.returns passed)) (hv : v.datum = .pair c) (vs : List Value)
    (tail : Option Value) : ¬ s.Chain c vs tail := by
  intro hchain
  obtain ⟨passed', left, hpassed, hleft⟩ := hchain.passes hv
  rcases Course.leaves_of_no_pair passed' hleft with hends | hbreaks
  · have hsame : Course.returns passed = .ends passed' := h.unique ⟨left, hpassed, hends⟩
    cases hsame
  · have hsame : Course.returns passed = .breaks passed' := h.unique ⟨left, hpassed, hbreaks⟩
    cases hsame

/-- The outcome of a walk that takes the course. -/
def outcome (s : Store) (v : Value) : Course → Except ListFault (List Value)
  | .ends passed => .ok (passed.map fun c => (s.cell c).car)
  | .breaks [] => .error (.notList v.typeName)
  | .breaks (_ :: _) => .error .improper
  | .returns _ => .error .circular

/-- A bounded walk has the outcome of the course. -/
theorem elements_of_takes {k : Course} (h : s.Takes v k) : s.elements v = s.outcome v k := by
  obtain ⟨left, hpassed, hk⟩ := id h
  cases k with
  | ends passed =>
    refine elements_eq_ok_iff.2 ?_
    cases hpassed with
    | here => exact Or.inl ⟨hk v rfl, rfl⟩
    | @next v c passed left hv hrest =>
      have hleft : ∀ w ∈ left, ∀ d, w.datum ≠ .pair d := fun w hw d hd => by simp [hk w hw] at hd
      have hfolded : left.bind restOf = none := by
        cases left with
        | none => rfl
        | some w => simp [restOf, Value.isNil, hk w rfl]
      have hchain := (Passes.next hv hrest).chain rfl hv hleft
      rw [hfolded] at hchain
      exact Or.inr ⟨c, hv, hchain⟩
  | breaks passed =>
    obtain ⟨w, rfl, hnil, hpair⟩ := hk
    cases hpassed with
    | here => exact elements_of_faulty (.notList hnil hpair)
    | @next v c passed left hv hrest =>
      have hchain := (Passes.next hv hrest).chain rfl hv (by simpa using hpair)
      have hkept : (some w).bind restOf = some w := by simp [restOf, Value.isNil, hnil]
      rw [hkept] at hchain
      exact elements_of_faulty (.improper hv hchain)
  | returns passed =>
    obtain ⟨-, w, rfl, c, hc, -⟩ := hk
    cases hpassed with
    | here => cases hc
    | next hv hrest => exact elements_of_circular hv (h.not_chain hv)

/-! ## Lists that are made -/

/-- What is made later does not disturb the way along pairs that were there. -/
theorem Passes.extends {t : Store} (h : s.Passes u passed u') (hst : s.Extends t)
    (hold : ∀ c ∈ passed, s.Holds (.cell c)) : t.Passes u passed u' := by
  induction h with
  | here => exact .here _
  | next hv h ih =>
    obtain ⟨hc, hold⟩ := List.forall_mem_cons.1 hold
    refine .next hv ?_
    rw [(hst.cell_eq hc).2]
    exact ih hold

/-- A list that ends is left behind a pair as the pair's rest. -/
theorem Takes.restOf (h : s.Takes v (.ends passed)) :
    ∃ left, s.Passes (restOf v) passed left ∧ ∀ w ∈ left, w.datum = .nil := by
  obtain ⟨left, hpassed, hleft⟩ := h
  by_cases hnil : v.datum = .nil
  · have hrest : Store.restOf v = none := by simp [Store.restOf, Value.isNil, hnil]
    obtain ⟨hnone, rfl⟩ := hpassed.stay (by simp [hnil])
    obtain rfl : passed = [] := hnone
    exact ⟨none, by rw [hrest]; exact .here none, by simp⟩
  · have hrest : Store.restOf v = some v := by simp [Store.restOf, Value.isNil, hnil]
    exact ⟨left, by rwa [hrest], hleft⟩

/-- In the store `t`, made from `s`, the value `l` is a list of `vs` that consists of the pairs `passed`,
all of them new. -/
structure MadeAfresh (s : Store) (vs : List Value) (l : Value) (t : Store) (passed : List CellId) :
    Prop where
  takes : t.Takes l (.ends passed)
  elements : (passed.map fun c => (t.cell c).car) = vs
  nodup : passed.Nodup
  notBefore : ∀ c ∈ passed, ¬ s.Holds (.cell c)
  holds : ∀ c ∈ passed, t.Holds (.cell c)
  kept : s.Extends t

/-- A new pair in front. -/
theorem MadeAfresh.cons {vs : List Value} {l : Value} {t : Store} (h : s.MadeAfresh vs l t passed)
    (v : Value) :
    s.MadeAfresh (v :: vs) (t.cons v l).1 (t.cons v l).2 (⟨t.cells.size⟩ :: passed) := by
  have hadds := adds_cons t v l
  have hcell := cell_cons_self t v l
  have hsize : s.cells.size ≤ t.cells.size := size_le_of_holds fun i hi => (h.kept i hi).1
  have hsame : ∀ c ∈ passed, (t.cons v l).2.cell c = t.cell c := fun c hc =>
    (hadds.extends.cell_eq (h.holds c hc)).2
  obtain ⟨left, hpassed, hleft⟩ := h.takes.restOf
  refine ⟨⟨left, .next (c := ⟨t.cells.size⟩) rfl ?_, hleft⟩, ?_, List.nodup_cons.2 ⟨?_, h.nodup⟩,
    List.forall_mem_cons.2 ⟨?_, h.notBefore⟩, List.forall_mem_cons.2 ⟨?_, fun c hc => ?_⟩,
    h.kept.trans hadds.extends⟩
  · rw [hcell]
    exact hpassed.extends hadds.extends h.holds
  · rw [List.map_cons, hcell, ← h.elements]
    exact congrArg (v :: ·) (List.map_congr_left fun c hc => by rw [hsame c hc])
  · exact fun hc => hadds.new (h.holds _ hc)
  · exact Nat.not_lt.2 hsize
  · exact (hadds.holds _).2 (Or.inr rfl)
  · exact (hadds.holds _).2 (Or.inl (h.holds c hc))

theorem madeAfresh_ofList (vs : List Value) (s : Store) :
    ∃ passed, s.MadeAfresh vs (s.ofList vs).1 (s.ofList vs).2 passed := by
  induction vs with
  | nil =>
    refine ⟨[], ⟨some .nil, .here _, ?_⟩, rfl, List.nodup_nil, by simp, by simp, .refl s⟩
    rintro w ⟨⟩
    rfl
  | cons v vs ih =>
    obtain ⟨passed, h⟩ := ih
    exact ⟨_, h.cons v⟩

/-! ## The classification -/

/-- Both walks along the value are refused with a type error of these words, which has no location. -/
def Refuses (s : Store) (v : Value) (message : String) : Prop :=
  ∃ e : Error, s.listElements v = .error e ∧
    (s.listLength v).mapError (fun fault => Error.ofCause (.list fault)) = .error e ∧
    e.kind = .type ∧ e.message = message ∧ e.location = none

theorem refuses_of_elements {fault : ListFault} (h : s.elements v = .error fault) :
    s.Refuses v fault.message := by
  refine ⟨.ofCause (.list fault), ?_, ?_, rfl, rfl, rfl⟩
  · simp [listElements, h]
  · rw [listLength_eq, h]
    rfl

/-- Every value takes exactly one course, and the walks along it tell which.  Where the course ends, the
elements are the first halves of the pairs that were passed, and are as many; where it breaks off, the
value is refused as no list, or as no proper one if pairs were passed; where it returns, as circular.
The list made of a row of values has that row as its elements, and consists of new pairs. -/
theorem list_walks_are_classified (s : Store) (v : Value) :
    (∃! k, s.Takes v k) ∧
    (∀ passed, s.Takes v (.ends passed) →
      s.listElements v = .ok (passed.map fun c => (s.cell c).car) ∧
      s.listLength v = .ok passed.length) ∧
    (∀ passed, s.Takes v (.breaks passed) →
      s.Refuses v (if passed = [] then "expected list, got " ++ v.typeName.text
        else "expected proper list")) ∧
    (∀ passed, s.Takes v (.returns passed) → s.Refuses v "circular list") ∧
    ∀ vs, (s.ofList vs).2.listElements (s.ofList vs).1 = .ok vs ∧
      ∃ passed, s.MadeAfresh vs (s.ofList vs).1 (s.ofList vs).2 passed := by
  refine ⟨⟨s.course v, s.takes_course v, fun k h => h.unique (s.takes_course v)⟩, ?_, ?_, ?_, ?_⟩
  · intro passed h
    have helements := elements_of_takes h
    rw [listLength_eq, listElements, helements]
    simp [outcome, Except.map]
  · intro passed h
    have helements := elements_of_takes h
    cases passed with
    | nil => exact refuses_of_elements helements
    | cons c passed => exact refuses_of_elements helements
  · exact fun passed h => refuses_of_elements (elements_of_takes h)
  · intro vs
    obtain ⟨passed, h⟩ := madeAfresh_ofList vs s
    refine ⟨?_, passed, h⟩
    rw [listElements, elements_of_takes h.takes, outcome, h.elements]

/-- Behind a first pair, two pairs that are each other's rest. -/
example :
    let s : Store := { cells := #[⟨.int 1, some ⟨.pair ⟨1⟩, .unknown⟩⟩,
      ⟨.int 2, some ⟨.pair ⟨2⟩, .unknown⟩⟩, ⟨.int 3, some ⟨.pair ⟨1⟩, .unknown⟩⟩] }
    s.listElements ⟨.pair ⟨0⟩, .unknown⟩ = .error (.ofCause (.list .circular)) := rfl

end Store

end Lisplet
