/-
# Lisplet.Proofs.Evaluator.Frames -- evaluation binds names in its own frame only

However an evaluation ends, the frames that were there before are as they were, save that in the frame
it was given names may have been bound or bound anew.  A closure runs its body in a frame of its own,
so its application changes no frame at all that was there before the call, neither the caller's nor
the one the closure was made in.

The statement is carried through the evaluator as an invariant of the store relative to the store `s₀`
at the start: an evaluation may write to a frame that is named as its own or that is younger than `s₀`.
-/

import Mathlib.Tactic
import Lisplet.Proofs.Evaluator.Invariant
import Lisplet.Proofs.Store.Contents

namespace Lisplet

/-! ## Frames of a store -/

namespace Store

/-- Nothing happened to the frames of `s` but that names were bound in those marked as `own`. -/
structure FramesKept (own : FrameId → Prop) (s t : Store) : Prop where
  size_le : s.frames.size ≤ t.frames.size
  unchanged : ∀ f : FrameId, f.index < s.frames.size → ¬ own f → t.frame f = s.frame f
  parent : ∀ f : FrameId, f.index < s.frames.size → (t.frame f).parent = (s.frame f).parent
  policy : ∀ f : FrameId, f.index < s.frames.size → (t.frame f).policy = (s.frame f).policy
  bound : ∀ f : FrameId, f.index < s.frames.size → ∀ name : String,
    ((s.frame f).bindings.find? name).isSome = true → ((t.frame f).bindings.find? name).isSome = true

/-- Every frame of `s` is in `t` as it was. -/
def FramesUnchanged (s t : Store) : Prop :=
  ∀ f : FrameId, f.index < s.frames.size → t.frame f = s.frame f

/-- A frame that an evaluation may write to: its own, or one made since. -/
def MayBind (own : FrameId → Prop) (s : Store) (f : FrameId) : Prop := own f ∨ s.frames.size ≤ f.index

variable {s t : Store}

theorem frame_newFrame_of_lt (t : Store) (frame : Frame) {f : FrameId} (h : f.index < t.frames.size) :
    (t.newFrame frame).2.frame f = t.frame f :=
  Content.frame.inj ((adds_newFrame t frame).extends (.frame f) h).2

namespace FramesKept

variable {own : FrameId → Prop}

theorem refl (own : FrameId → Prop) (s : Store) : FramesKept own s s :=
  ⟨le_rfl, fun _ _ _ => rfl, fun _ _ => rfl, fun _ _ => rfl, fun _ _ _ h => h⟩

theorem framesUnchanged (h : FramesKept (fun _ => False) s t) : FramesUnchanged s t :=
  fun f hf => h.unchanged f hf fun hown => hown

/-- What leaves the frames alone keeps them. -/
theorem of_frames_eq {u : Store} (h : FramesKept own s t) (heq : u.frames = t.frames) :
    FramesKept own s u := by
  have hframe : ∀ f, u.frame f = t.frame f := fun f => by simp [Store.frame, heq]
  refine ⟨heq ▸ h.size_le, ?_, ?_, ?_, ?_⟩
  · exact fun f hf hown => (hframe f).trans (h.unchanged f hf hown)
  · exact fun f hf => hframe f ▸ h.parent f hf
  · exact fun f hf => hframe f ▸ h.policy f hf
  · exact fun f hf => hframe f ▸ h.bound f hf

theorem newFrame (frame : Frame) (h : FramesKept own s t) : FramesKept own s (t.newFrame frame).2 := by
  have hframe : ∀ f : FrameId, f.index < s.frames.size → (t.newFrame frame).2.frame f = t.frame f :=
    fun f hf => frame_newFrame_of_lt t frame (hf.trans_le h.size_le)
  refine ⟨?_, ?_, ?_, ?_, ?_⟩
  · exact h.size_le.trans (by simp [Store.newFrame])
  · exact fun f hf hown => (hframe f hf).trans (h.unchanged f hf hown)
  · exact fun f hf => hframe f hf ▸ h.parent f hf
  · exact fun f hf => hframe f hf ▸ h.policy f hf
  · exact fun f hf => hframe f hf ▸ h.bound f hf

theorem define {env : FrameId} (name : String) (v : Value) (henv : MayBind own s env)
    (h : FramesKept own s t) : FramesKept own s (t.define env name v) := by
  -- a frame of `s` other than `env` is not touched, and `env` itself is one of its own
  have hcases : ∀ f : FrameId, f.index < s.frames.size →
      (t.define env name v).frame f = t.frame f ∨
        own f ∧ (t.define env name v).frame f =
          { t.frame f with bindings := (t.frame f).bindings.insert name v } := by
    intro f hf
    by_cases hne : f = env
    · subst hne
      have hown : own f := henv.resolve_right (by omega)
      exact Or.inr ⟨hown, frame_define_self t name v (hf.trans_le h.size_le)⟩
    · exact Or.inl (frame_define_of_ne t name v hne)
  refine ⟨?_, ?_, ?_, ?_, ?_⟩
  · exact h.size_le.trans (by simp [Store.define])
  · intro f hf hown
    rcases hcases f hf with heq | ⟨hown', -⟩
    · exact heq.trans (h.unchanged f hf hown)
    · exact absurd hown' hown
  · intro f hf
    rcases hcases f hf with heq | ⟨-, heq⟩ <;> rw [heq] <;> exact h.parent f hf
  · intro f hf
    rcases hcases f hf with heq | ⟨-, heq⟩ <;> rw [heq] <;> exact h.policy f hf
  · intro f hf other hother
    have hkept := h.bound f hf other hother
    rcases hcases f hf with heq | ⟨-, heq⟩ <;> rw [heq]
    · exact hkept
    · by_cases hname : other = name
      · simp [hname]
      · simpa [FiniteMap.find?_insert_of_ne _ hname] using hkept

/-- All that an evaluation does to a store keeps its frames, if it binds names only where it may. -/
theorem invariant (own : FrameId → Prop) (s : Store) :
    Invariant (FramesKept own s) (MayBind own s) where
  cons _ _ _ h := h.of_frames_eq rfl
  newTable _ h := h.of_frames_eq rfl
  newClosure _ _ h := h.of_frames_eq rfl
  newFrame frame _ h := ⟨h.newFrame frame, Or.inr h.size_le⟩
  setCar _ _ _ h := h.of_frames_eq rfl
  setCdr _ _ _ h := h.of_frames_eq rfl
  setEntry _ _ _ _ h := h.of_frames_eq rfl
  define _ name v _ henv h := h.define name v henv

end FramesKept

end Store

/-! ## Evaluation -/

open Run Store

/-- The application of a closure changes no frame, whatever frames its body may be evaluated in. -/
theorem framesUnchanged_apply (host : Host) (n : Nat) (env : FrameId) (id : ClosureId) (p : Provenance)
    (args : List Value) (s : State) :
    FramesUnchanged s.store ((apply host (eval host n) env ⟨.closure id, p⟩ args).storeAfter s) := by
  have hinv := FramesKept.invariant (fun _ => False) s.store
  have hbody : Keeps' _ (applyClosure (eval host n) (s.store.closure id) args) :=
    hinv.applyClosure (fun _ hf form => hinv.eval host n hf form) _ args
  exact (hbody.storeAfter (FramesKept.refl _ s.store)).framesUnchanged

/-- An evaluation binds names in its own frame only, and takes none away there; the application of a
closure leaves every frame as it was, from wherever it is called. -/
theorem eval_binds_own_frame (host : Host) (n : Nat) (env : FrameId) (s : State) :
    (∀ form, FramesKept (· = env) s.store ((eval host n env form).storeAfter s)) ∧
      ∀ id p args, FramesUnchanged s.store
        ((apply host (eval host n) env ⟨.closure id, p⟩ args).storeAfter s) := by
  refine ⟨fun form => ?_, fun id p args => framesUnchanged_apply host n env id p args s⟩
  have hinv := FramesKept.invariant (· = env) s.store
  exact (hinv.eval host n (Or.inl rfl) form).storeAfter (FramesKept.refl _ s.store)

end Lisplet
