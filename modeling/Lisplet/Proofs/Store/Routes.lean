/-
# Lisplet.Proofs.Store.Routes -- ways from a datum through the halves of pairs

A route says which half to take of each pair on the way; its trail is the row of the pairs that it goes
through.  A route comes back if it ends at a pair of its own trail, or at one of the pairs `P` that were
passed before it began, and meets none of these earlier.

A cycle can be reached exactly if some route comes back (`cycleFrom_iff_comesBack`): a way once around
the cycle meets a pair for the second time somewhere, and the first such place ends a route that comes
back.
-/

import Mathlib.Tactic
import Mathlib.Logic.Relation
import Lisplet.Proofs.Store.Acyclic

namespace Lisplet

/-- A half of a pair. -/
inductive Half where
  | car
  | cdr
deriving DecidableEq

namespace Store

/-- What a pair holds as its half `h`. -/
def half? (s : Store) (c : CellId) : Half → Option Value
  | .car => some (s.cell c).car
  | .cdr => (s.cell c).cdr

/-- The route leads from the first datum to the second, through the pairs of the trail. -/
inductive Leads (s : Store) : Datum → List Half → List CellId → Datum → Prop
  | here (x : Datum) : Leads s x [] [] x
  | step {c : CellId} {h : Half} {u : Value} {route : List Half} {trail : List CellId} {y : Datum}
      (hu : s.half? c h = some u) (hrest : Leads s u.datum route trail y) :
      Leads s (.pair c) (h :: route) (c :: trail) y

/-- A pair that a value leads to can be reached from itself. -/
def CycleFrom (s : Store) (x : Datum) : Prop :=
  ∃ route trail c, s.Leads x route trail (.pair c) ∧ Relation.TransGen s.Points c c

/-- The route leads to a pair that it has passed or that is in `P`, and meets no such pair before. -/
def ComesBack (s : Store) (P : Finset CellId) (x : Datum) (route : List Half) : Prop :=
  ∃ trail c, s.Leads x route trail (.pair c) ∧ trail.Nodup ∧ (∀ d ∈ trail, d ∉ P) ∧
    (c ∈ P ∨ c ∈ trail)

variable {s : Store} {x y z : Datum} {c d : CellId} {route : List Half} {trail : List CellId}
  {P : Finset CellId}

/-! ## Routes and steps -/

theorem points_iff_half : s.Points c d ↔ ∃ h u, s.half? c h = some u ∧ u.datum = .pair d := by
  constructor
  · rintro (hcar | ⟨rest, hrest, hd⟩)
    · exact ⟨.car, _, rfl, hcar⟩
    · exact ⟨.cdr, rest, hrest, hd⟩
  · rintro ⟨h, u, hu, hd⟩
    cases h with
    | car =>
      obtain rfl := Option.some.inj hu
      exact Or.inl hd
    | cdr => exact Or.inr ⟨u, hu, hd⟩

theorem Leads.trans {route' : List Half} {trail' : List CellId} (h : s.Leads x route trail y)
    (h' : s.Leads y route' trail' z) : s.Leads x (route ++ route') (trail ++ trail') z := by
  induction h with
  | here => exact h'
  | step hu _ ih => exact .step hu (ih h')

/-- Only pairs lead to pairs. -/
theorem Leads.pair_of_pair (h : s.Leads x route trail (.pair d)) : ∃ c, x = .pair c := by
  cases h with
  | here => exact ⟨d, rfl⟩
  | @step c => exact ⟨c, rfl⟩

theorem Leads.reflTransGen (h : s.Leads x route trail y) (hx : x = .pair c) (hy : y = .pair d) :
    Relation.ReflTransGen s.Points c d := by
  induction h generalizing c with
  | here =>
    obtain rfl := Datum.pair.inj (hx.symm.trans hy)
    exact .refl
  | @step e half u route trail y hu hrest ih =>
    obtain rfl := Datum.pair.inj hx
    obtain ⟨e', he'⟩ := (hy ▸ hrest).pair_of_pair
    exact .head (points_iff_half.2 ⟨half, u, hu, he'⟩) (ih he' hy)

/-- Every pair on the trail comes before the pair at its end. -/
theorem Leads.transGen (h : s.Leads x route trail y) (hy : y = .pair d) (hc : c ∈ trail) :
    Relation.TransGen s.Points c d := by
  induction h with
  | here => cases hc
  | @step e half u route trail y hu hrest ih =>
    rcases List.mem_cons.1 hc with rfl | hc
    · obtain ⟨e', he'⟩ := (hy ▸ hrest).pair_of_pair
      exact .head' (points_iff_half.2 ⟨half, u, hu, he'⟩) (hrest.reflTransGen he' hy)
    · exact ih hy hc

theorem Points.leads (h : s.Points c d) : ∃ half, s.Leads (.pair c) [half] [c] (.pair d) := by
  obtain ⟨half, u, hu, hd⟩ := points_iff_half.1 h
  exact ⟨half, .step hu (hd ▸ .here _)⟩

/-- What comes after a pair is at the end of a trail through it. -/
theorem exists_leads_of_transGen (h : Relation.TransGen s.Points c d) :
    ∃ route trail, s.Leads (.pair c) route trail (.pair d) ∧ c ∈ trail := by
  induction h with
  | single hd =>
    obtain ⟨half, hleads⟩ := Points.leads hd
    exact ⟨[half], [c], hleads, List.mem_cons_self⟩
  | tail _ he ih =>
    obtain ⟨route, trail, hleads, hc⟩ := ih
    obtain ⟨half, hnext⟩ := Points.leads he
    exact ⟨_, _, hleads.trans hnext, List.mem_append_left _ hc⟩

/-! ## Routes that come back -/

theorem comesBack_nil : s.ComesBack P x [] ↔ ∃ c ∈ P, x = .pair c := by
  constructor
  · rintro ⟨trail, c, hleads, -, -, hc⟩
    cases hleads
    exact ⟨c, by simpa using hc, rfl⟩
  · rintro ⟨c, hc, rfl⟩
    exact ⟨[], c, .here _, List.nodup_nil, by simp, Or.inl hc⟩

theorem comesBack_cons {h : Half} : s.ComesBack P x (h :: route) ↔
    ∃ c u, x = .pair c ∧ c ∉ P ∧ s.half? c h = some u ∧ s.ComesBack (insert c P) u.datum route := by
  constructor
  · rintro ⟨trail, d, hleads, hnodup, hnew, hd⟩
    cases hleads with
    | @step c _ u _ trail _ hu hrest =>
      obtain ⟨hc, hnodup⟩ := List.nodup_cons.1 hnodup
      obtain ⟨hcP, hnew⟩ := List.forall_mem_cons.1 hnew
      refine ⟨c, u, rfl, hcP, hu, trail, d, hrest, hnodup, fun e he heP => ?_, ?_⟩
      · rcases Finset.mem_insert.1 heP with rfl | heP
        · exact hc he
        · exact hnew e he heP
      · rw [List.mem_cons] at hd
        rw [Finset.mem_insert]
        tauto
  · rintro ⟨c, u, rfl, hc, hu, trail, d, hleads, hnodup, hnew, hd⟩
    have hctrail : c ∉ trail := fun hmem => hnew c hmem (Finset.mem_insert_self c P)
    refine ⟨c :: trail, d, .step hu hleads, List.nodup_cons.2 ⟨hctrail, hnodup⟩,
      List.forall_mem_cons.2 ⟨hc, fun e he heP => hnew e he (Finset.mem_insert_of_mem heP)⟩, ?_⟩
    rw [Finset.mem_insert] at hd
    rw [List.mem_cons]
    tauto

/-- On the way to a pair that was met before, some route comes back for the first time. -/
theorem Leads.exists_comesBack (h : s.Leads x route trail y) (hy : y = .pair d)
    (hd : d ∈ P ∨ d ∈ trail) : ∃ route', s.ComesBack P x route' := by
  -- whatever the route passes counts as met for the rest of it
  induction h generalizing P with
  | here => exact ⟨[], comesBack_nil.2 ⟨d, by simpa using hd, hy⟩⟩
  | @step c half u route trail y hu _ ih =>
    by_cases hc : c ∈ P
    · exact ⟨[], comesBack_nil.2 ⟨c, hc, rfl⟩⟩
    · have hd' : d ∈ insert c P ∨ d ∈ trail := by
        rw [List.mem_cons] at hd
        rw [Finset.mem_insert]
        tauto
      obtain ⟨route', hback⟩ := ih hy hd'
      exact ⟨half :: route', comesBack_cons.2 ⟨c, u, rfl, hc, hu, hback⟩⟩

/-- A cycle can be reached exactly if some route comes back. -/
theorem cycleFrom_iff_comesBack : s.CycleFrom x ↔ ∃ route, s.ComesBack ∅ x route := by
  constructor
  · rintro ⟨route, trail, c, hleads, hcycle⟩
    obtain ⟨around, through, hreturn, hc⟩ := exists_leads_of_transGen hcycle
    exact (hleads.trans hreturn).exists_comesBack rfl (Or.inr (List.mem_append_right _ hc))
  · rintro ⟨route, trail, c, hleads, -, -, hc⟩
    exact ⟨route, trail, c, hleads, hleads.transGen rfl (by simpa using hc)⟩

end Store

end Lisplet
