/-
# Lisplet.Proofs.Store.Observing -- what alike stores agree on

Names mean alike values in alike stores, environments have the same warn policy, and two values are
equal in one store exactly if their counterparts are in the other.  None of this depends on what else
the stores hold: an environment is a chain of frames that ends, since parents are older than their
children, and equality is bisimilarity, which looks only at what can be reached.
-/

import Mathlib.Tactic
import Lisplet.Proofs.Bisimulation
import Lisplet.Proofs.Store.Renaming

namespace Lisplet.Renaming.Stores

variable {R : Renaming} {s t : Store} {f g : FrameId}

/-! ## Environments -/

/-- Environments have alike chains, under any bounds that exceed the ages of their frames. -/
theorem chainFrom (h : R.Stores s t) (hfg : R.Frames f g) {m n : Nat} (hm : f.index < m)
    (hn : g.index < n) : List.Forall₂ R.Frames (s.chainFrom m f) (t.chainFrom n g) := by
  induction m generalizing f g n with
  | zero => exact absurd hm (Nat.not_lt_zero _)
  | succ m ih =>
    obtain ⟨n, rfl⟩ : ∃ k, n = k + 1 := ⟨n - 1, by omega⟩
    obtain ⟨-, hparent, -⟩ := h.frame hfg
    rw [Store.chainFrom, Store.chainFrom]
    apply List.Forall₂.cons hfg
    cases hf : (s.frame f).parent with
    | none =>
      rw [optionRel_none hparent hf]
      exact .nil
    | some p =>
      obtain ⟨q, hg, hpq⟩ := optionRel_some hparent hf
      have hp : p.index < f.index := h.ordered.1 f p hf
      have hq : q.index < g.index := h.ordered.2 g q hg
      rw [hg]
      exact ih hpq (by omega) (by omega)

theorem environment (h : R.Stores s t) (hfg : R.Frames f g) :
    List.Forall₂ R.Frames (s.chain f) (t.chain g) :=
  h.chainFrom hfg (Nat.lt_succ_of_lt (h.holds hfg).1) (Nat.lt_succ_of_lt (h.holds hfg).2)

/-- A name means alike values. -/
theorem lookup (h : R.Stores s t) (hfg : R.Frames f g) (name : String) :
    Option.Rel R.Values (s.lookup f name) (t.lookup g name) := by
  have hchain := h.environment hfg
  unfold Store.lookup
  generalize s.chain f = fs at hchain ⊢
  generalize t.chain g = gs at hchain ⊢
  induction hchain with
  | nil => exact .none
  | @cons f' g' fs gs hfg' _ ih =>
    obtain ⟨hbindings, -, -⟩ := h.frame hfg'
    rw [List.findSome?_cons, List.findSome?_cons]
    cases hf : (s.frame f').bindings.find? name with
    | none =>
      rw [optionRel_none (hbindings name) hf]
      exact ih
    | some v =>
      obtain ⟨w, hg, hvw⟩ := optionRel_some (hbindings name) hf
      rw [hg]
      exact .some hvw

theorem root (h : R.Stores s t) (hfg : R.Frames f g) : R.Frames (s.root f) (t.root g) := by
  have hlast : ∀ {fs gs : List FrameId}, List.Forall₂ R.Frames fs gs →
      ∀ {f g : FrameId}, R.Frames f g → R.Frames (fs.getLastD f) (gs.getLastD g) := by
    intro fs gs hfs
    induction hfs with
    | nil => exact fun hfg => hfg
    | cons hfg' _ ih =>
      intro f g _
      rw [List.getLastD_cons, List.getLastD_cons]
      exact ih hfg'
  exact hlast (h.environment hfg) hfg

/-- Environments have one policy. -/
theorem policy (h : R.Stores s t) (hfg : R.Frames f g) : s.policy f = t.policy g :=
  (h.frame (h.root hfg)).2.2

theorem setPolicy (h : R.Stores s t) (hfg : R.Frames f g) (policy : WarnPolicy) :
    R.Stores (s.setPolicy f policy) (t.setPolicy g policy) := by
  obtain ⟨bindings, parent, -⟩ := h.frame (h.root hfg)
  refine h.set (h.root hfg) (s.sets_setPolicy f policy) (t.sets_setPolicy g policy)
    (.frame bindings parent rfl) ⟨?_, ?_⟩
  · exact h.ordered.1.set (s.sets_setPolicy f policy) rfl
  · exact h.ordered.2.set (t.sets_setPolicy g policy) rfl

/-! ## Equality -/

/-- Bisimilar values have bisimilar counterparts. -/
theorem bisimilar (h : R.Stores s t) {v v' w w' : Value} (hv : R.Values v w) (hv' : R.Values v' w')
    (hbis : s.Bisimilar v v') : t.Bisimilar w w' := by
  obtain ⟨Q, hQ, hvv'⟩ := hbis
  refine ⟨fun w w' => ∃ v v', R.Values v w ∧ R.Values v' w' ∧ Q v v', ?_, v, v', hv, hv', hvv'⟩
  rintro ⟨y, q⟩ ⟨y', q'⟩ ⟨⟨x, p⟩, ⟨x', p'⟩, hv, hv', hvv'⟩
  have hagree : s.Agree Q x x' := hQ _ _ hvv'
  have hx : R.Datums x y := hv
  have hx' : R.Datums x' y' := hv'
  show t.Agree _ y y'
  -- on both sides, what agrees at the top is of one kind
  cases hagree with
  | nil =>
    cases hx
    cases hx'
    exact .nil
  | atom hsame =>
    cases hx
    cases hx'
    exact .atom hsame
  | native p =>
    cases hx
    cases hx'
    exact .native p
  | closure k =>
    cases hx with
    | closure hk =>
      cases hx' with
      | closure hk' =>
        rw [Ident.closure.inj (h.unique.2 hk hk')]
        exact .closure _
  | hash u =>
    cases hx with
    | hash hu =>
      cases hx' with
      | hash hu' =>
        rw [Ident.table.inj (h.unique.2 hu hu')]
        exact .hash _
  | cell c =>
    cases hx with
    | pair hc =>
      cases hx' with
      | pair hc' =>
        rw [Ident.cell.inj (h.unique.2 hc hc')]
        exact .cell _
  | pair car cdr =>
    cases hx with
    | pair hc =>
      cases hx' with
      | pair hd =>
        obtain ⟨hcar, hcdr⟩ := h.cell hc
        obtain ⟨hcar', hcdr'⟩ := h.cell hd
        refine .pair ⟨_, _, hcar, hcar', car⟩ ?_
        generalize (s.cell _).cdr = a at cdr hcdr
        generalize (s.cell _).cdr = a' at cdr hcdr'
        cases cdr with
        | none =>
          rw [optionRel_none hcdr rfl, optionRel_none hcdr' rfl]
          exact .none
        | some hrest =>
          obtain ⟨b, hb, hrel⟩ := optionRel_some hcdr rfl
          obtain ⟨b', hb', hrel'⟩ := optionRel_some hcdr' rfl
          rw [hb, hb']
          exact .some ⟨_, _, hrel, hrel', hrest⟩

/-- Equality does not tell alike stores apart. -/
theorem equal (h : R.Stores s t) {v v' w w' : Value} (hv : R.Values v w) (hv' : R.Values v' w') :
    s.equal v v' = t.equal w w' := by
  rw [Bool.eq_iff_iff, Store.equal_iff_bisimilar, Store.equal_iff_bisimilar]
  constructor
  · exact h.bisimilar hv hv'
  · exact h.inverse.bisimilar hv.inverse hv'.inverse

end Lisplet.Renaming.Stores
