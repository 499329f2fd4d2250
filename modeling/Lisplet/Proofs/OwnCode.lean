/-
# Lisplet.Proofs.OwnCode -- a program cannot modify its own code

A text is read into pairs, and its forms are evaluated where they stand: a quotation hands out the very
pairs of the text, and pairs can be set.  Still no program gets at its own code.  The pairs that were
read as code, by whatever text or loaded file of a session, are as they were read at every later moment
of the session, and nothing that a program holds leads to them: no value that is bound in a frame, is
passed to a primitive or is returned.

The discipline behind it: a program may hold the pairs that exist and were not read as code.
-/

import Mathlib.Tactic
import Lisplet.Proofs.Evaluator.Discipline
import Lisplet.Proofs.Store.Code

namespace Lisplet

/-! ## Code at a moment -/

/-- The pair `c` is in `t` what it was in `s`, and no frame of `t` and none of `vs` leads to it. -/
structure Store.Untouched (s t : Store) (vs : List Value) (c : CellId) : Prop where
  cell : t.cell c = s.cell c
  frames : ∀ f name v, (t.frame f).bindings.find? name = some v → ¬ t.Reaches c v
  values : ∀ v ∈ vs, ¬ t.Reaches c v

/-- What is apart from code and holds it as it was leaves it untouched. -/
theorem Store.Apart.untouched {s t : Store} {Code : CellId → Prop} (h : t.Apart Code) {c : CellId}
    (hc : Code c) (hcell : t.cell c = s.cell c) {vs : List Value}
    (hvs : ∀ v ∈ vs, v.Within (t.Data Code)) : s.Untouched t vs c where
  cell := hcell
  frames f name v hv := h.not_reaches (h.content (.frame f) (by rintro _ ⟨⟩) name v hv) hc
  values v hv := h.not_reaches (hvs v hv) hc

/-- The pair was read as code at this moment. -/
def Moment.ReadsCode (m : Moment) (c : CellId) : Prop := m.store.IsCodeOf m.event.forms c

/-- The code that was read at the moment `earlier` is untouched at the moment `later`. -/
def Moment.Respects (later earlier : Moment) : Prop :=
  ∀ c, earlier.ReadsCode c → earlier.store.Untouched later.store later.event.values c

/-- The pair was read as code at one of the moments. -/
def WasCode (moments : List Moment) (c : CellId) : Prop := ∃ m ∈ moments, m.ReadsCode c

theorem wasCode_cons {m : Moment} {moments : List Moment} {c : CellId} :
    WasCode (m :: moments) c ↔ WasCode moments c ∨ m.ReadsCode c := by
  simp [WasCode, or_comm]

/-! ## The discipline -/

/-- All code that was read is as it was and kept apart, now and at all moments before. -/
structure CodeKept (w : World) : Prop where
  apart : w.store.Apart (WasCode w.moments)
  frozen : ∀ m ∈ w.moments, ∀ c, m.ReadsCode c → w.store.cell c = m.store.cell c
  past : w.moments.Pairwise Moment.Respects
  own : ∀ m ∈ w.moments, m.Respects m

namespace CodeKept

variable {w : World}

theorem empty : CodeKept ⟨{}, []⟩ where
  apart := .empty (by rintro c ⟨m, hm, -⟩; cases hm)
  frozen _ hm := by cases hm
  past := .nil
  own _ hm := by cases hm

/-- What leaves the code as it is and apart keeps it. -/
theorem goto (h : CodeKept w) {t : Store} (hapart : t.Apart (WasCode w.moments))
    (hcell : ∀ c, WasCode w.moments c → t.cell c = w.store.cell c) : CodeKept (w.goto t) where
  apart := hapart
  frozen m hm c hc := (hcell c ⟨m, hm, hc⟩).trans (h.frozen m hm c hc)
  past := h.past
  own := h.own

/-- One more moment, with the code that is read at it. -/
theorem add (h : CodeKept w) {t : Store} {e : Event}
    (hcell : ∀ c, WasCode w.moments c → t.cell c = w.store.cell c)
    (hapart : t.Apart (WasCode (⟨e, t⟩ :: w.moments)))
    (hvalues : ∀ v ∈ e.values, v.Within (t.Data (WasCode (⟨e, t⟩ :: w.moments)))) :
    CodeKept ((w.goto t).add e) := by
  have hfrozen : ∀ m ∈ ⟨e, t⟩ :: w.moments, ∀ c, m.ReadsCode c → t.cell c = m.store.cell c := by
    intro m hm c hc
    rcases List.mem_cons.1 hm with rfl | hm
    · rfl
    · exact (hcell c ⟨m, hm, hc⟩).trans (h.frozen m hm c hc)
  have hnow : ∀ m ∈ ⟨e, t⟩ :: w.moments, Moment.Respects ⟨e, t⟩ m := fun m hm c hc =>
    hapart.untouched ⟨m, hm, hc⟩ (hfrozen m hm c hc) hvalues
  obtain ⟨hself, hearlier⟩ := List.forall_mem_cons.1 hnow
  exact ⟨hapart, hfrozen, .cons hearlier h.past, List.forall_mem_cons.2 ⟨hself, h.own⟩⟩

end CodeKept

/-- The store has grown, and of the pairs that existed none has become code. -/
structure Grows (w w' : World) : Prop where
  size : w.store.cells.size ≤ w'.store.cells.size
  code : ∀ c, WasCode w'.moments c → WasCode w.moments c ∨ w.store.cells.size ≤ c.index

namespace Grows

variable {w w' w'' : World}

theorem refl (w : World) : Grows w w := ⟨le_rfl, fun _ hc => Or.inl hc⟩

theorem trans (h : Grows w w') (h' : Grows w' w'') : Grows w w'' := by
  refine ⟨h.size.trans h'.size, fun c hc => ?_⟩
  rcases h'.code c hc with hc | hc
  · exact h.code c hc
  · exact Or.inr (h.size.trans hc)

/-- No code is read while only the store changes. -/
theorem goto {t : Store} (hholds : ∀ i, w.store.Holds i → t.Holds i) : Grows w (w.goto t) :=
  ⟨Store.size_le_of_holds hholds, fun _ hc => Or.inl hc⟩

end Grows

namespace CodeKept

variable {w : World} {i : Ident} {x : Content} {t : Store}

theorem adds (h : CodeKept w) (hadds : w.store.Adds i x t)
    (hx : x.Within (w.store.Data (WasCode w.moments))) : CodeKept (w.goto t) := by
  refine h.goto (h.apart.adds hadds hx) fun c hc => ?_
  exact (hadds.extends.cell_eq (h.apart.made c hc)).2

/-- What is set is never code. -/
theorem sets (h : CodeKept w) (hsets : w.store.Sets i x t)
    (hi : ∀ c, i = .cell c → w.store.Data (WasCode w.moments) c)
    (hx : x.Within (w.store.Data (WasCode w.moments))) : CodeKept (w.goto t) := by
  refine h.goto (h.apart.sets hsets hx) fun c hc => ?_
  exact Content.cell.inj (hsets.other (.cell c) fun hci => (hi c hci.symm).2 hc)

/-- A text that is read brings new code and leaves the old as it is. -/
theorem read (h : CodeKept w) {file : String} {fs : List Form} {forms : List Value}
    (hread : w.store.ofForms file fs = (forms, t)) :
    CodeKept ((w.goto t).add (.read forms)) ∧ Grows w ((w.goto t).add (.read forms)) := by
  have hextends : w.store.Extends t := by
    simpa only [hread] using Store.extends_ofForms file fs w.store
  have hcode : WasCode (⟨.read forms, t⟩ :: w.moments) =
      fun c => WasCode w.moments c ∨ t.IsCodeOf forms c := by
    funext c
    rw [wasCode_cons]
    rfl
  have hcell : ∀ c, WasCode w.moments c → t.cell c = w.store.cell c := fun c hc =>
    (hextends.cell_eq (h.apart.made c hc)).2
  refine ⟨h.add hcell ?_ (fun _ hv => by cases hv), ?_, fun c hc => ?_⟩
  · rw [hcode]
    exact h.apart.read hread
  · exact Store.size_le_of_holds fun i hi => (hextends i hi).1
  · replace hc : WasCode w.moments c ∨ t.IsCodeOf forms c := (congrFun hcode c).mp hc
    exact hc.imp_right fun hnew => (hnew.bounds_of_read hread).1

/-- Any other event shows data only. -/
theorem event (h : CodeKept w) {e : Event} (hforms : e.forms = [])
    (hvalues : ∀ v ∈ e.values, v.Within (w.store.Data (WasCode w.moments))) :
    CodeKept (w.add e) ∧ Grows w (w.add e) := by
  have hcode : WasCode (⟨e, w.store⟩ :: w.moments) = WasCode w.moments := by
    funext c
    rw [wasCode_cons]
    simp [Moment.ReadsCode, Store.IsCodeOf, hforms]
  refine ⟨h.add (fun _ _ => rfl) (hcode ▸ h.apart) (hcode ▸ hvalues), le_rfl, fun c hc => ?_⟩
  exact Or.inl ((congrFun hcode c).mp hc)

end CodeKept

/-- A program may hold the pairs that exist and were not read as code. -/
def ownCode : Discipline where
  Inv := CodeKept
  Le := Grows
  Free w := w.store.Data (WasCode w.moments)
  refl := Grows.refl
  trans := Grows.trans
  mono h := Store.data_mono h.size h.code
  content h i hi := h.apart.content i fun c hc => (hi c hc).2
  quoted h := h.apart.quoted
  adds h hadds hx _ := by
    refine ⟨h.adds hadds hx, .goto fun j hj => (hadds.holds j).2 (Or.inl hj), ?_⟩
    rintro c rfl
    exact ⟨(hadds.holds _).2 (Or.inr rfl), fun hc => hadds.new (h.apart.made c hc)⟩
  sets h hsets hi hx _ :=
    ⟨h.sets hsets (fun c hc => (hi c hc).1) hx, .goto fun j hj => (hsets.holds j).2 hj⟩
  read h file fs := h.read rfl
  add h hforms hvalues := h.event hforms hvalues

/-! ## Sessions -/

/-- A program cannot modify its own code.  Over any calls of a fresh session, whatever was read as code
at some moment is as it was at every later moment and in the end, and no value leads to it that is then
bound in a frame, passed to a primitive or returned.  The moments are held newest first. -/
theorem code_is_never_modified (policy : WarnPolicy) (calls : List Call) :
    (History.ofCalls policy calls).state = (Session.ofCalls policy calls).state ∧
    (History.ofCalls policy calls).moments.Pairwise Moment.Respects ∧
    ∀ m ∈ (History.ofCalls policy calls).moments, m.Respects m ∧
      ∀ c, m.ReadsCode c → m.store.Untouched (Session.ofCalls policy calls).state.store [] c := by
  have hstate := History.state_ofCalls policy calls
  have hkept : CodeKept (History.ofCalls policy calls).world :=
    ownCode.ofCalls CodeKept.empty policy calls
  refine ⟨hstate, hkept.past, fun m hm => ⟨hkept.own m hm, fun c hc => ?_⟩⟩
  rw [← hstate]
  exact hkept.apart.untouched ⟨m, hm, hc⟩ (hkept.frozen m hm c hc) (fun _ hv => by cases hv)

/-- The call of a program that sets a pair which it quotes. -/
def settingQuoted : Call :=
  ⟨.ofFiles fun _ => .error .notFound, 9, .source "(set-car! '(1) 2)" "a"⟩

/-- The quoted pair is changed, and the list that sets it is not. -/
theorem code_is_never_modified_quoted :
    ∃ m ∈ (History.ofCalls .abort [settingQuoted]).moments, ∃ c d : CellId,
      m.ReadsCode c ∧
      m.store.Untouched (Session.ofCalls .abort [settingQuoted]).state.store [] c ∧
      (Session.ofCalls .abort [settingQuoted]).state.store.cell d ≠ m.store.cell d := by
  have hread : (History.ofCalls .abort [settingQuoted]).moments.getLast?.map
      (fun m => (m.event.forms.map (·.datum), (m.store.cell ⟨0⟩).car.datum)) =
        some ([.pair ⟨5⟩], .atom (.number (.int 1))) := by decide +kernel
  have hset : ((Session.ofCalls .abort [settingQuoted]).state.store.cell ⟨0⟩).car.datum =
      .atom (.number (.int 2)) := by decide +kernel
  obtain ⟨m, hlast, hm⟩ := Option.map_eq_some_iff.1 hread
  obtain ⟨hforms, hquoted⟩ := Prod.mk.inj hm
  have hmem := List.mem_of_getLast? hlast
  have hcode : m.ReadsCode ⟨5⟩ := by
    have hpair : Datum.pair ⟨5⟩ ∈ m.event.forms.map (·.datum) := by simp [hforms]
    obtain ⟨v, hv, hdatum⟩ := List.mem_map.1 hpair
    exact ⟨v, hv, .here hdatum⟩
  have huntouched := ((code_is_never_modified .abort [settingQuoted]).2.2 m hmem).2 ⟨5⟩ hcode
  refine ⟨m, hmem, ⟨5⟩, ⟨0⟩, hcode, huntouched, fun hsame => ?_⟩
  rw [hsame, hquoted] at hset
  cases hset

end Lisplet
