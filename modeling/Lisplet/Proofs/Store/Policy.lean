/-
# Lisplet.Proofs.Store.Policy -- what does not depend on the warn policy

`withPolicy g policy s` is the store `s` with another policy on the frame `g`.  Nothing that is looked
up in a store depends on it, save the policy itself, and every operation on a store commutes with it.

A store is `Timid` when no frame has a policy to keep going.  In such a store the policy in force is to
stop, wherever the chain of parents ends.
-/

import Mathlib.Tactic
import Lisplet.Argument
import Lisplet.Builtin
import Lisplet.Proofs.Store.Rooted
import Lisplet.Store.Equality
import Lisplet.Store.Printer

namespace Lisplet

namespace Store

variable {s t : Store} {g : FrameId} {policy : WarnPolicy}

/-- The store with another policy on the frame `g`. -/
def withPolicy (g : FrameId) (policy : WarnPolicy) (s : Store) : Store :=
  { s with frames := s.frames.modify g.index fun frame => { frame with policy } }

/-! ## What only pairs decide -/

section Cells

theorem cell_congr (h : t.cells = s.cells) (c : CellId) : t.cell c = s.cell c := by
  rw [cell, cell, h]

theorem walk_congr (h : t.cells = s.cells) (n : Nat) (c : CellId) (seen : List Value) :
    t.walk n c seen = s.walk n c seen := by
  induction n generalizing c seen with
  | zero => rfl
  | succ n ih =>
    rw [walk, walk, cell_congr h]
    simp only [ih]

theorem elements_congr (h : t.cells = s.cells) (v : Value) : t.elements v = s.elements v := by
  unfold elements
  rw [h]
  simp only [walk_congr h]

theorem innerText_congr (h : t.cells = s.cells) (n : Nat) (path : List CellId) (c : CellId) :
    t.innerText n path c = s.innerText n path c := by
  induction n generalizing path c with
  | zero => rfl
  | succ n ih =>
    rw [innerText, innerText, cell_congr h]
    simp only [ih]

theorem text_congr (h : t.cells = s.cells) (v : Value) : t.text v = s.text v := by
  unfold text
  rw [h]
  simp only [innerText_congr h]

theorem equalAll_congr (h : t.cells = s.cells) (n : Nat) (pending : List (Value × Value))
    (assumed : List (CellId × CellId)) :
    t.equalAll n pending assumed = s.equalAll n pending assumed := by
  induction n generalizing pending assumed with
  | zero => cases pending <;> rfl
  | succ n ih =>
    cases pending with
    | nil => rfl
    | cons p pending =>
      rw [equalAll, equalAll]
      simp only [ih, cell_congr h]

theorem equal_congr (h : t.cells = s.cells) (x y : Value) : t.equal x y = s.equal x y := by
  unfold equal equalBound
  rw [h, equalAll_congr h]

end Cells

@[simp] theorem cells_withPolicy (g : FrameId) (policy : WarnPolicy) (s : Store) :
    (s.withPolicy g policy).cells = s.cells := rfl

@[simp] theorem elements_withPolicy (g : FrameId) (policy : WarnPolicy) (s : Store) (v : Value) :
    (s.withPolicy g policy).elements v = s.elements v :=
  elements_congr (cells_withPolicy g policy s) v

theorem listElements_withPolicy (g : FrameId) (policy : WarnPolicy) (s : Store) (v : Value) :
    (s.withPolicy g policy).listElements v = s.listElements v := by
  rw [listElements, listElements, elements_withPolicy]

@[simp] theorem text_withPolicy (g : FrameId) (policy : WarnPolicy) (s : Store) (v : Value) :
    (s.withPolicy g policy).text v = s.text v :=
  text_congr (cells_withPolicy g policy s) v

@[simp] theorem equal_withPolicy (g : FrameId) (policy : WarnPolicy) (s : Store) (x y : Value) :
    (s.withPolicy g policy).equal x y = s.equal x y :=
  equal_congr (cells_withPolicy g policy s) x y

/-! ## Frames -/

@[simp] theorem size_frames_withPolicy (g : FrameId) (policy : WarnPolicy) (s : Store) :
    (s.withPolicy g policy).frames.size = s.frames.size := by
  simp [withPolicy]

/-- Another policy, and nothing else. -/
theorem frame_withPolicy (g f : FrameId) (policy : WarnPolicy) (s : Store) :
    (s.withPolicy g policy).frame f =
      if f = g ∧ f.index < s.frames.size then { s.frame f with policy } else s.frame f := by
  obtain ⟨n⟩ := f
  obtain ⟨m⟩ := g
  by_cases hlt : n < s.frames.size
  · by_cases hnm : m = n
    · subst hnm
      simp [withPolicy, frame, Array.getElem_modify, hlt]
    · simp [withPolicy, frame, Array.getElem_modify, hlt, hnm, Ne.symm hnm]
  · simp [withPolicy, frame, hlt]

@[simp] theorem parent_withPolicy (g f : FrameId) (policy : WarnPolicy) (s : Store) :
    ((s.withPolicy g policy).frame f).parent = (s.frame f).parent := by
  rw [frame_withPolicy]
  split <;> rfl

@[simp] theorem bindings_withPolicy (g f : FrameId) (policy : WarnPolicy) (s : Store) :
    ((s.withPolicy g policy).frame f).bindings = (s.frame f).bindings := by
  rw [frame_withPolicy]
  split <;> rfl

@[simp] theorem chain_withPolicy (g f : FrameId) (policy : WarnPolicy) (s : Store) :
    (s.withPolicy g policy).chain f = s.chain f := by
  rw [chain, chain, size_frames_withPolicy, chainFrom_congr fun f => parent_withPolicy g f policy s]

@[simp] theorem lookup_withPolicy (g f : FrameId) (policy : WarnPolicy) (s : Store) (name : String) :
    (s.withPolicy g policy).lookup f name = s.lookup f name := by
  simp [lookup]

/-- Of two policies for one frame the last counts. -/
theorem withPolicy_withPolicy (g : FrameId) (policy policy' : WarnPolicy) (s : Store) :
    (s.withPolicy g policy).withPolicy g policy' = s.withPolicy g policy' := by
  have hframes : (s.withPolicy g policy).frames.modify g.index
        (fun frame => { frame with policy := policy' }) =
      s.frames.modify g.index fun frame => { frame with policy := policy' } := by
    refine Array.ext (by simp [withPolicy]) fun n hn hn' => ?_
    by_cases hg : g.index = n <;> simp [withPolicy, Array.getElem_modify, hg]
  rw [withPolicy, hframes]
  rfl

/-! ## Operations -/

theorem withPolicy_define (g f : FrameId) (policy : WarnPolicy) (name : String) (v : Value)
    (s : Store) :
    (s.withPolicy g policy).define f name v = (s.define f name v).withPolicy g policy := by
  have hframes : ((s.withPolicy g policy).define f name v).frames =
      ((s.define f name v).withPolicy g policy).frames := by
    refine Array.ext (by simp [withPolicy, define]) fun n hn hn' => ?_
    simp only [withPolicy, define, Array.getElem_modify]
    split_ifs <;> rfl
  rw [define, withPolicy, Store.mk.injEq]
  exact ⟨rfl, rfl, rfl, hframes⟩

/-- A new frame, if `g` is there already. -/
theorem withPolicy_newFrame (policy : WarnPolicy) (frame : Frame) (hg : g.index < s.frames.size) :
    (s.withPolicy g policy).newFrame frame =
      ((s.newFrame frame).1, (s.newFrame frame).2.withPolicy g policy) := by
  have hframes : (s.withPolicy g policy).frames.push frame =
      (s.frames.push frame).modify g.index fun frame => { frame with policy } := by
    refine Array.ext (by simp [withPolicy]) fun n hn hn' => ?_
    simp only [withPolicy, Array.getElem_modify, Array.getElem_push, Array.size_modify]
    split_ifs with hlt hn <;> first | rfl | omega
  refine Prod.ext ?_ ?_
  · simp [newFrame]
  · show { s.withPolicy g policy with frames := (s.withPolicy g policy).frames.push frame } = _
    rw [hframes]
    rfl

theorem withPolicy_ofForm (policy : WarnPolicy) (file : String) (f : Form) (s : Store) :
    (s.withPolicy g policy).ofForm file f =
      ((s.ofForm file f).1, (s.ofForm file f).2.withPolicy g policy) := by
  induction f generalizing s with
  | atom | empty => rfl
  | single p car ih =>
    simp only [ofForm, ih]
    rfl
  | pair p car cdr ihcar ihcdr =>
    simp only [ofForm, ihcar, ihcdr]
    rfl

theorem withPolicy_ofForms (policy : WarnPolicy) (file : String) (fs : List Form) (s : Store) :
    (s.withPolicy g policy).ofForms file fs =
      ((s.ofForms file fs).1, (s.ofForms file fs).2.withPolicy g policy) := by
  induction fs generalizing s with
  | nil => rfl
  | cons f fs ih => simp only [ofForms, withPolicy_ofForm, ih]

theorem withPolicy_ofList (policy : WarnPolicy) (vs : List Value) (s : Store) :
    (s.withPolicy g policy).ofList vs = ((s.ofList vs).1, (s.ofList vs).2.withPolicy g policy) := by
  induction vs with
  | nil => rfl
  | cons v vs ih =>
    simp only [ofList, ih]
    rfl

theorem frames_ofList (vs : List Value) (s : Store) : (s.ofList vs).2.frames = s.frames := by
  induction vs with
  | nil => rfl
  | cons v vs ih => exact ih

/-! ## Timid stores -/

/-- The frame `g` is there, and no frame has a policy to keep going. -/
structure Timid (g : FrameId) (s : Store) : Prop where
  held : g.index < s.frames.size
  policy : ∀ f, (s.frame f).policy = .abort

namespace Timid

theorem congr (h : Timid g s) (hframes : t.frames = s.frames) : Timid g t := by
  have hframe : ∀ f, t.frame f = s.frame f := fun f => by rw [frame, frame, hframes]
  exact ⟨by rw [hframes]; exact h.held, fun f => by rw [hframe]; exact h.policy f⟩

theorem define (h : Timid g s) (f : FrameId) (name : String) (v : Value) :
    Timid g (s.define f name v) := by
  refine ⟨by simpa [Store.define] using h.held, fun f' => ?_⟩
  rcases (sets_define s f name v).content_cases (.frame f') with ⟨-, -, hself⟩ | hother
  · rw [Content.frame.inj hself]
    exact h.policy f
  · rw [Content.frame.inj hother]
    exact h.policy f'

theorem newFrame (h : Timid g s) {frame : Frame} (hframe : frame.policy = .abort) :
    Timid g (s.newFrame frame).2 := by
  refine ⟨h.held.trans (by simp [Store.newFrame]), fun f => ?_⟩
  rcases (adds_newFrame s frame).content_cases (.frame f) with ⟨-, hself⟩ | hother
  · rw [Content.frame.inj hself]
    exact hframe
  · rw [Content.frame.inj hother]
    exact h.policy f

end Timid

/-! ## Rooted stores -/

/-- The global frame takes the new policy. -/
theorem Rooted.withPolicy {policy' : WarnPolicy} (h : s.Rooted g policy) :
    (s.withPolicy g policy').Rooted g policy' := by
  refine ⟨by simpa using h.global, fun f hf => ?_, fun k => ?_, ?_, fun f hf => ?_⟩
  · rw [size_frames_withPolicy] at hf
    exact (h.frames f hf).mono (by simp) fun f _ => by simp
  · rw [size_frames_withPolicy]
    exact h.closures k
  · rw [frame_withPolicy, if_pos ⟨rfl, h.global⟩]
  · rw [frame_withPolicy, if_neg fun hg => hf hg.1]
    exact h.others f hf

theorem Rooted.timid (h : s.Rooted g .abort) : Timid g s := by
  refine ⟨h.global, fun f => ?_⟩
  by_cases hf : f = g
  · rw [hf]
    exact h.policy
  · exact h.others f hf

/-- To set the policy from the global frame is to set its own. -/
theorem Rooted.setPolicy_eq (h : s.Rooted g policy) (policy' : WarnPolicy) :
    s.setPolicy g policy' = s.withPolicy g policy' := by
  have hroot : s.root g = g := (h.frames g h.global).root
  show s.withPolicy (s.root g) policy' = _
  rw [hroot]

end Store

end Lisplet
