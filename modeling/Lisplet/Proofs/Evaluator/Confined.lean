/-
# Lisplet.Proofs.Evaluator.Confined -- what nothing refers to is left alone

The pairs of a text that was read and is not yet evaluated are in the store, and no value of the program
leads to them.  `Confined s t u` says that this is how things are in `u` with the pairs that were made on
the way from `s` to `t`: they are as they were in `t`, nothing else refers to them, and whatever else is
referred to is in the store.  A program keeps it that way, because it can only get at what it holds
(`confined`).

With no pairs set aside, this says that the store is closed: nothing in it refers to anything that was
never made.  So it is in every session (`Session.closed_ofCalls`).
-/

import Mathlib.Tactic
import Lisplet.Proofs.Evaluator.Upheld
import Lisplet.Proofs.Store.Renaming
import Lisplet.Proofs.Store.Rooted

namespace Lisplet

/-- The pair was made on the way from `s` to `t`. -/
def Between (s t : Store) (c : CellId) : Prop := s.cells.size ≤ c.index ∧ c.index < t.cells.size

/-- What stands under the identity is no pair that was made on the way from `s` to `t`. -/
def Ident.Outside (s t : Store) (i : Ident) : Prop := ∀ c, i = .cell c → ¬ Between s t c

/-- The value is there in `u`, and is no pair that was made on the way from `s` to `t`. -/
def Value.Beside (s t u : Store) (v : Value) : Prop :=
  ∀ i, v.ident? = some i → u.Holds i ∧ i.Outside s t

/-- The pairs that were made on the way from `s` to `t` are as they were, and all else refers to what is
there and not to them. -/
structure Confined (s t u : Store) : Prop where
  frames : 0 < u.frames.size
  ordered : u.Ordered
  each : ∀ i : Ident, i.Outside s t → (u.content i).Each (Value.Beside s t u)
  closures : ∀ k, u.Holds (.frame (u.closure k).frame)
  kept : ∀ c, Between s t c → u.Holds (.cell c) ∧ u.cell c = t.cell c

/-- Nothing in the store refers to anything that was never made. -/
abbrev Store.Closed (u : Store) : Prop := Confined {} {} u

theorem not_between_empty (c : CellId) : ¬ Between {} {} c := fun h => Nat.not_lt_zero _ h.2

theorem Value.Beside.mono {s t u u' : Store} (h : ∀ i, u.Holds i → u'.Holds i) {v : Value}
    (hv : v.Beside s t u) : v.Beside s t u' :=
  fun i hi => ⟨h i (hv i hi).1, (hv i hi).2⟩

theorem Value.Beside.outside {s t u : Store} {v : Value} (hv : v.Beside s t u) {c : CellId}
    (hc : v.datum = .pair c) : (Ident.cell c).Outside s t := by
  refine (hv (.cell c) ?_).2
  unfold Value.ident?
  rw [hc]
  rfl

/-! ## Making and changing -/

namespace Confined

variable {s t u u' : Store} {i : Ident} {x : Content}

theorem ordered_adds (h : Confined s t u) (hadds : u.Adds i x u')
    (hbelow : x.Below fun f => u.Holds (.frame f)) : u'.Ordered := by
  intro f p hp
  rcases hadds.content_cases (.frame f) with ⟨rfl, hself⟩ | hother
  · -- the new frame is younger than all that are there
    obtain rfl : Content.frame (u'.frame f) = x := hself
    obtain ⟨parent, hparent, hheld⟩ := hbelow
    obtain rfl := Option.some.inj (hp.symm.trans hparent)
    exact lt_of_lt_of_le hheld (not_lt.1 hadds.new)
  · rw [Content.frame.inj hother] at hp
    exact h.ordered f p hp

theorem adds (h : Confined s t u) (hadds : u.Adds i x u') (hx : x.Each (Value.Beside s t u))
    (hbelow : x.Below fun f => u.Holds (.frame f)) : Confined s t u' := by
  have hmono : ∀ j, u.Holds j → u'.Holds j := fun j hj => (hadds.holds j).2 (.inl hj)
  refine ⟨?_, h.ordered_adds hadds hbelow, fun j hj => ?_, fun k => ?_, fun c hc => ?_⟩
  · exact h.frames.trans_le (Store.frames_le_of_holds hmono)
  · rcases hadds.content_cases j with ⟨-, hself⟩ | hother
    · rw [hself]
      exact hx.mono fun _ => Value.Beside.mono hmono
    · rw [hother]
      exact (h.each j hj).mono fun _ => Value.Beside.mono hmono
  · rcases hadds.content_cases (.closure k) with ⟨-, hself⟩ | hother
    · obtain rfl : Content.closure (u'.closure k) = x := hself
      exact hmono _ hbelow
    · rw [Content.closure.inj hother]
      exact hmono _ (h.closures k)
  · obtain ⟨hheld, hcell⟩ := h.kept c hc
    obtain ⟨hheld', hcontent⟩ := hadds.extends (.cell c) hheld
    exact ⟨hheld', (Content.cell.inj hcontent).trans hcell⟩

theorem ordered_sets (h : Confined s t u) (hsets : u.Sets i x u')
    (hreplaces : x.Replaces (u.content i)) : u'.Ordered := by
  intro f p hp
  rcases hsets.content_cases (.frame f) with ⟨rfl, -, hself⟩ | hother
  · obtain rfl : Content.frame (u'.frame f) = x := hself
    exact h.ordered f p (hreplaces.1 ▸ hp)
  · rw [Content.frame.inj hother] at hp
    exact h.ordered f p hp

theorem sets (h : Confined s t u) (hsets : u.Sets i x u') (hi : i.Outside s t)
    (hx : x.Each (Value.Beside s t u)) (hreplaces : x.Replaces (u.content i)) : Confined s t u' := by
  have hmono : ∀ j, u.Holds j → u'.Holds j := fun j hj => (hsets.holds j).2 hj
  refine ⟨?_, h.ordered_sets hsets hreplaces, fun j hj => ?_, fun k => ?_, fun c hc => ?_⟩
  · exact h.frames.trans_le (Store.frames_le_of_holds hmono)
  · rcases hsets.content_cases j with ⟨-, -, hself⟩ | hother
    · rw [hself]
      exact hx.mono fun _ => Value.Beside.mono hmono
    · rw [hother]
      exact (h.each j hj).mono fun _ => Value.Beside.mono hmono
  · rcases hsets.content_cases (.closure k) with ⟨rfl, -, hself⟩ | hother
    · obtain rfl : Content.closure (u'.closure k) = x := hself
      exact hreplaces.elim
    · rw [Content.closure.inj hother]
      exact hmono _ (h.closures k)
  · obtain ⟨hheld, hcell⟩ := h.kept c hc
    have hother : u'.content (.cell c) = u.content (.cell c) :=
      hsets.other (.cell c) fun hci => hi c hci.symm hc
    exact ⟨hmono _ hheld, (Content.cell.inj hother).trans hcell⟩

end Confined

/-! ## The standard -/

/-- A program holds what is there, and nothing that was made on the way from `s` to `t`. -/
def confined (host : Host) (s t : Store) : Standard host where
  Inv w := Confined s t w.state.store
  Le w w' := ∀ i, w.state.store.Holds i → w'.state.store.Holds i
  Meets w v := v.Beside s t w.state.store
  Env w f := w.state.store.Holds (.frame f)
  refl _ _ h := h
  trans h h' i hi := h' i (h i hi)
  mono h _ hv := hv.mono h
  monoEnv h f hf := h (.frame f) hf
  leaf hident _ i hi := by
    rw [hident] at hi
    cases hi
  bound h _ := h
  located h _ := h
  placed h _ _ := h
  content h i hi := by
    refine h.each i fun c hc => ?_
    obtain ⟨v, hv, hpair⟩ := hi c hc
    exact hv.outside hpair c rfl
  closure h := h.closures
  adds {w i x u} h hadds hx hbelow := by
    have hmono : ∀ j, w.state.store.Holds j → u.Holds j := fun j hj => (hadds.holds j).2 (.inl hj)
    have hnew : u.Holds i := (hadds.holds i).2 (.inr rfl)
    refine ⟨h.adds hadds hx hbelow, hmono, fun v hv _ j hj => ?_, ?_⟩
    · obtain rfl := Option.some.inj (hv.symm.trans hj)
      refine ⟨hnew, ?_⟩
      -- the pairs that are set aside have been there before
      rintro c rfl hc
      exact hadds.new (h.kept c hc).1
    · rintro f rfl
      exact hnew
  sets {w i x u} h hsets hi hx hreplaces := by
    refine ⟨h.sets hsets (fun c hc => ?_) hx hreplaces, fun j hj => (hsets.holds j).2 hj⟩
    obtain ⟨v, hv, hpair⟩ := hi c hc
    exact hv.outside hpair c rfl
  add h _ := ⟨h, fun _ hi => hi⟩
  note h _ := ⟨h, fun _ hi => hi⟩

/-! ## Sessions -/

theorem Store.closed_empty (policy : WarnPolicy) :
    Store.Closed { frames := #[{ policy := policy }] } := by
  have hparent : ∀ f : FrameId, (Store.frame { frames := #[{ policy := policy }] } f).parent = none := by
    rintro ⟨n⟩
    cases n <;> rfl
  refine ⟨Nat.one_pos, fun f p hp => ?_, ?_, fun k => Nat.one_pos, fun c hc => ?_⟩
  · rw [hparent f] at hp
    cases hp
  · rintro (c | t | k | f) -
    · rw [Store.content, Store.cell_of_size_le (Nat.zero_le _)]
      exact ⟨fun _ h => (by cases h), by simp⟩
    · exact fun key v hv => by cases hv
    · exact fun form hform => by cases hform
    · intro name v hv
      obtain ⟨n⟩ := f
      cases n <;> cases hv
  · exact absurd hc (not_between_empty c)

theorem History.closed_ofCalls (policy : WarnPolicy) (calls : List Call) :
    (History.ofCalls policy calls).state.store.Closed ∧
      (History.ofCalls policy calls).state.store.Holds (.frame (Session.new policy).env) :=
  History.upheld_ofCalls (fun host => confined host {} {}) (fun h => h) (fun h => h)
    (fun _ _ _ _ => trivial) (fun _ _ _ => trivial) policy (.ofFiles fun _ => .error .notFound)
    (Store.closed_empty policy) Nat.one_pos calls

/-- So it was at every moment, and what an event showed was there. -/
theorem History.shown_ofCalls (policy : WarnPolicy) (calls : List Call) :
    ∀ m ∈ (History.ofCalls policy calls).moments, ∀ v ∈ m.event.shows,
      m.store.Closed ∧ v.Beside {} {} m.store := by
  let shown (m : Moment) : Prop := ∀ v ∈ m.event.shows, m.store.Closed ∧ v.Beside {} {} m.store
  have hinv := History.upheld_ofCalls
    (fun host => (confined host {} {}).recalling shown fun hw he v hv => ⟨hw, he v hv⟩)
    (fun h => h) (fun h => h) (fun _ _ _ _ => trivial) (fun _ _ _ => trivial) policy
    (.ofFiles fun _ => .error .notFound) ⟨Store.closed_empty policy, by simp⟩ Nat.one_pos calls
  exact hinv.1.2

/-- The store of a session refers to nothing that was never made. -/
theorem Session.closed_ofCalls (policy : WarnPolicy) (calls : List Call) :
    (Session.ofCalls policy calls).state.store.Closed := by
  rw [← History.state_ofCalls]
  exact (History.closed_ofCalls policy calls).1

end Lisplet
