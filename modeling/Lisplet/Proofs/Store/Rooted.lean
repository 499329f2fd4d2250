/-
# Lisplet.Proofs.Store.Rooted -- frames under one global frame

`Under s g f` says that the frames above `f` come to an end, and that the last of them is `g`.  The
chain that a look-up follows is then long enough to get there, so `g` is the global frame of `f` and its
policy is the one in force (`Under.root`).

In a `Rooted` store all frames are under one global frame, and the frames of closures are among them.
A new frame is made below one that is there, and no frame is ever moved, so a rooted store stays
rooted.
-/

import Mathlib.Tactic
import Lisplet.Proofs.Store.Contents
import Lisplet.Store.Environment

namespace Lisplet

namespace Store

variable {s t : Store} {g f : FrameId} {policy : WarnPolicy}

/-! ## Parents -/

/-- The chain of parents from a frame of the store ends in `g`. -/
inductive Under (s : Store) (g : FrameId) : FrameId → Prop
  | top (hg : g.index < s.frames.size) (h : (s.frame g).parent = none) : Under s g g
  | child {f p : FrameId} (hf : f.index < s.frames.size) (h : (s.frame f).parent = some p)
      (hlt : p.index < f.index) (hp : Under s g p) : Under s g f

theorem Under.mono (h : s.Under g f) (hsize : s.frames.size ≤ t.frames.size)
    (hparent : ∀ f, f.index < s.frames.size → (t.frame f).parent = (s.frame f).parent) :
    t.Under g f := by
  induction h with
  | top hg h => exact .top (hg.trans_le hsize) ((hparent _ hg).trans h)
  | child hf h hlt _ ih => exact .child (hf.trans_le hsize) ((hparent _ hf).trans h) hlt ih

theorem Under.getLastD_chainFrom (h : s.Under g f) {n : Nat} (hn : f.index < n) (d : FrameId) :
    (s.chainFrom n f).getLastD d = g := by
  induction h generalizing n d with
  | top hg h =>
    obtain ⟨n, rfl⟩ : ∃ m, n = m + 1 := ⟨n - 1, by omega⟩
    simp [chainFrom, h]
  | child hf h hlt _ ih =>
    obtain ⟨n, rfl⟩ : ∃ m, n = m + 1 := ⟨n - 1, by omega⟩
    rw [chainFrom, h, List.getLastD_cons]
    exact ih (by omega) _

theorem Under.index_lt (h : s.Under g f) : f.index < s.frames.size := by
  cases h with
  | top hg _ => exact hg
  | child hf _ _ _ => exact hf

/-- The global frame is found. -/
theorem Under.root (h : s.Under g f) : s.root f = g :=
  h.getLastD_chainFrom (Nat.lt_succ_of_lt h.index_lt) f

/-- The chain of a frame depends on the parents only. -/
theorem chainFrom_congr (h : ∀ f, (t.frame f).parent = (s.frame f).parent) (n : Nat) (f : FrameId) :
    t.chainFrom n f = s.chainFrom n f := by
  induction n generalizing f with
  | zero => rfl
  | succ n ih =>
    rw [chainFrom, chainFrom, h]
    cases (s.frame f).parent with
    | none => rfl
    | some p => exact congrArg (f :: ·) (ih p)

theorem frame_congr (h : t.frames = s.frames) (f : FrameId) : t.frame f = s.frame f := by
  rw [frame, frame, h]

theorem chain_congr (h : t.frames = s.frames) (f : FrameId) : t.chain f = s.chain f := by
  rw [chain, chain, h]
  exact chainFrom_congr (fun g => by rw [frame_congr h]) _ f

/-- What a name means depends on the frames and on nothing else. -/
theorem lookup_congr (h : t.frames = s.frames) (f : FrameId) (name : String) :
    t.lookup f name = s.lookup f name := by
  simp only [lookup, chain_congr h, frame_congr h]

theorem policy_congr (h : t.frames = s.frames) (f : FrameId) : t.policy f = s.policy f := by
  simp only [policy, root, chain_congr h, frame_congr h]

/-! ## Rooted stores -/

/-- All frames are under the global frame `g`, which has the given policy; the policy that each other
frame has of its own is the default.  Closures stand in frames of the store. -/
structure Rooted (s : Store) (g : FrameId) (policy : WarnPolicy) : Prop where
  global : g.index < s.frames.size
  frames : ∀ f, f.index < s.frames.size → s.Under g f
  closures : ∀ k, (s.closure k).frame.index < s.frames.size
  policy : (s.frame g).policy = policy
  others : ∀ f, f ≠ g → (s.frame f).policy = .abort

theorem frames_le_of_holds (h : ∀ i, s.Holds i → t.Holds i) : s.frames.size ≤ t.frames.size :=
  le_of_forall_lt fun n hn => h (.frame ⟨n⟩) hn

namespace Rooted

/-- The policy of the global frame is in force in all frames. -/
theorem policy_eq (h : s.Rooted g policy) (hf : f.index < s.frames.size) : s.policy f = policy := by
  unfold Store.policy
  rw [(h.frames f hf).root]
  exact h.policy

/-- What touches neither frames nor closures. -/
theorem congr (h : s.Rooted g policy) (hframes : t.frames = s.frames)
    (hclosures : t.closures = s.closures) : t.Rooted g policy := by
  have hframe : ∀ f, t.frame f = s.frame f := fun f => by rw [frame, frame, hframes]
  have hclosure : ∀ k, t.closure k = s.closure k := fun k => by rw [closure, closure, hclosures]
  refine ⟨by rw [hframes]; exact h.global, fun f hf => ?_, fun k => ?_, ?_, fun f hf => ?_⟩
  · rw [hframes] at hf
    exact (h.frames f hf).mono (by rw [hframes]) fun f _ => by rw [hframe]
  · rw [hclosure, hframes]
    exact h.closures k
  · rw [hframe]
    exact h.policy
  · rw [hframe]
    exact h.others f hf

/-- Something new: if it is a frame, its parent exists and it has no policy of its own; if it is a
closure, its frame exists. -/
theorem adds (h : s.Rooted g policy) {i : Ident} {x : Content} (hadds : s.Adds i x t)
    (hclosure : ∀ k, x = .closure k → k.frame.index < s.frames.size)
    (hframe : ∀ frame, x = .frame frame →
      ∃ p, frame.parent = some p ∧ p.index < s.frames.size ∧ frame.policy = .abort) :
    t.Rooted g policy := by
  have hsize := frames_le_of_holds fun j hj => (hadds.holds j).2 (Or.inl hj)
  have hold : ∀ f, f.index < s.frames.size → t.frame f = s.frame f := fun f hf =>
    Content.frame.inj (hadds.extends (.frame f) hf).2
  have hunder : ∀ f, f.index < s.frames.size → t.Under g f := fun f hf =>
    (h.frames f hf).mono hsize fun f hf => by rw [hold f hf]
  refine ⟨h.global.trans_le hsize, fun f hf => ?_, fun k => ?_, ?_, fun f hf => ?_⟩
  · rcases (hadds.holds (.frame f)).1 hf with hheld | rfl
    · exact hunder f hheld
    · -- the new frame is younger than its parent
      obtain ⟨p, hp, hlt, -⟩ := hframe (t.frame f) hadds.self.symm
      exact .child hf hp (hlt.trans_le (not_lt.1 hadds.new)) (hunder p hlt)
  · rcases hadds.content_cases (.closure k) with ⟨-, hself⟩ | hother
    · exact (hclosure (t.closure k) hself.symm).trans_le hsize
    · rw [Content.closure.inj hother]
      exact (h.closures k).trans_le hsize
  · rw [hold g h.global]
    exact h.policy
  · rcases hadds.content_cases (.frame f) with ⟨-, hself⟩ | hother
    · obtain ⟨p, -, -, hpolicy⟩ := hframe (t.frame f) hself.symm
      exact hpolicy
    · rw [Content.frame.inj hother]
      exact h.others f hf

/-- Something is replaced: no closure, and a frame by one with the same parent and policy. -/
theorem sets (h : s.Rooted g policy) {i : Ident} {x : Content} (hsets : s.Sets i x t)
    (hclosure : ∀ k, i ≠ .closure k)
    (hframe : ∀ f frame, i = .frame f → x = .frame frame →
      frame.parent = (s.frame f).parent ∧ frame.policy = (s.frame f).policy) :
    t.Rooted g policy := by
  have hsize := frames_le_of_holds fun j hj => (hsets.holds j).2 hj
  have hsize' := frames_le_of_holds fun j hj => (hsets.holds j).1 hj
  have hkept : ∀ f, (t.frame f).parent = (s.frame f).parent ∧
      (t.frame f).policy = (s.frame f).policy := by
    intro f
    rcases hsets.content_cases (.frame f) with ⟨hi, -, hself⟩ | hother
    · exact hframe f (t.frame f) hi.symm hself.symm
    · rw [Content.frame.inj hother]
      exact ⟨rfl, rfl⟩
  refine ⟨h.global.trans_le hsize, fun f hf => ?_, fun k => ?_, ?_, fun f hf => ?_⟩
  · exact (h.frames f (hf.trans_le hsize')).mono hsize fun f _ => (hkept f).1
  · rw [Content.closure.inj (hsets.other (.closure k) (hclosure k).symm)]
    exact (h.closures k).trans_le hsize
  · rw [(hkept g).2]
    exact h.policy
  · rw [(hkept f).2]
    exact h.others f hf

end Rooted

/-! ## Reading -/

theorem frames_ofForm (file : String) (f : Form) (s : Store) :
    (s.ofForm file f).2.frames = s.frames ∧ (s.ofForm file f).2.closures = s.closures := by
  induction f generalizing s with
  | atom | empty => exact ⟨rfl, rfl⟩
  | single p car ih => exact ih s
  | pair p car cdr ihcar ihcdr =>
    obtain ⟨hframes, hclosures⟩ := ihcar s
    obtain ⟨hframes', hclosures'⟩ := ihcdr (s.ofForm file car).2
    exact ⟨hframes'.trans hframes, hclosures'.trans hclosures⟩

/-- Forms are made of pairs only. -/
theorem frames_ofForms (file : String) (fs : List Form) (s : Store) :
    (s.ofForms file fs).2.frames = s.frames ∧ (s.ofForms file fs).2.closures = s.closures := by
  induction fs generalizing s with
  | nil => exact ⟨rfl, rfl⟩
  | cons f fs ih =>
    obtain ⟨hframes, hclosures⟩ := frames_ofForm file f s
    obtain ⟨hframes', hclosures'⟩ := ih (s.ofForm file f).2
    exact ⟨hframes'.trans hframes, hclosures'.trans hclosures⟩

end Store

end Lisplet
