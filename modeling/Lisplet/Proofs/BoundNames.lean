/-
# Lisplet.Proofs.BoundNames -- the name a value says it is bound to

A value carries the name it was last given, and the name is given by definitions only.  So the name that is
seen through a binding is the name that is bound there, or the value came as an argument: then it is seen as
it was given to the call, for as long as the parameter is not defined anew.

`Truthful g w` says this of all frames of a store, `g` being the global one, with the moments that have been
recorded by then.  The record names the call that made a frame: it is what happened at the last moment at
which the frame was not there, with the function and its arguments in order (`World.MadeBy`).  So the call is
determined by the record (`World.MadeBy.find?`), and what a parameter received is one of the arguments of
that very call.  A definition gives the name that it binds and leaves all other bindings alone, a call
makes a frame and changes none, and nothing else touches a frame; so the statement is kept from moment to
moment (`truthful`).
-/

import Mathlib.Tactic
import Lisplet.Proofs.Evaluator.Bindings
import Lisplet.Proofs.Evaluator.Calls
import Lisplet.Proofs.LexicalScope

namespace Lisplet

open Run

/-! ## Bindings -/

namespace FiniteMap

variable {κ ν : Type} [DecidableEq κ] {ps : List (κ × ν)} {key : κ} {v : ν}

theorem mem_or_of_find?_foldl_insert {m : FiniteMap κ ν}
    (h : (ps.foldl (fun m p => m.insert p.1 p.2) m).find? key = some v) :
    (key, v) ∈ ps ∨ m.find? key = some v := by
  induction ps generalizing m with
  | nil => exact Or.inr h
  | cons p ps ih =>
    rcases ih h with hmem | hfind
    · exact Or.inl (List.mem_cons_of_mem p hmem)
    · by_cases hkey : key = p.1
      · subst hkey
        rw [find?_insert_self] at hfind
        cases hfind
        exact Or.inl List.mem_cons_self
      · rw [find?_insert_of_ne m hkey] at hfind
        exact Or.inr hfind

/-- What stands in a map of pairs is one of them. -/
theorem mem_of_find?_ofList (h : (ofList ps).find? key = some v) : (key, v) ∈ ps :=
  (mem_or_of_find?_foldl_insert h).resolve_right fun hempty => by cases hempty

end FiniteMap

/-- What the frame itself binds the name to. -/
def Store.binding? (s : Store) (f : FrameId) (name : String) : Option Value :=
  (s.frame f).bindings.find? name

/-- The value says that it is bound to the name. -/
def Value.Says (v : Value) (name : String) : Prop := v.provenance.bound = some name

instance (v : Value) (name : String) : Decidable (v.Says name) :=
  inferInstanceAs (Decidable (v.provenance.bound = some name))

theorem Value.says_withBound (v : Value) (name : String) : (v.withBound name).Says name := rfl

namespace Store

variable {s t : Store} {f env : FrameId} {name : String} {v : Value}

theorem binding?_congr (h : t.frames = s.frames) (f : FrameId) (name : String) :
    t.binding? f name = s.binding? f name := by
  rw [binding?, binding?, frame_congr h]

theorem binding?_define_of_ne (s : Store) (env : FrameId) (q : String) (v : Value) (h : f ≠ env ∨ name ≠ q) :
    (s.define env q v).binding? f name = s.binding? f name := by
  unfold binding?
  by_cases hf : f = env
  · subst hf
    rcases Nat.lt_or_ge f.index s.frames.size with hlt | hge
    · rw [frame_define_self s q v hlt]
      exact FiniteMap.find?_insert_of_ne _ (h.resolve_left fun hne => hne rfl) v
    · -- a frame that is not there is not changed
      have hsize : (s.define f q v).frames.size ≤ f.index := by simpa [define] using hge
      rw [frame_of_size_le hge, frame_of_size_le hsize]
  · rw [frame_define_of_ne s q v hf]

/-- A definition binds its name in its frame and leaves every other binding alone. -/
theorem binding?_define (s : Store) (env : FrameId) (q : String) (v : Value) (f : FrameId) (name : String) :
    (s.define env q v).binding? f name = s.binding? f name ∨
      f = env ∧ name = q ∧ (s.define env q v).binding? f name = some v := by
  by_cases h : f = env ∧ name = q
  · obtain ⟨rfl, rfl⟩ := h
    rcases Nat.lt_or_ge f.index s.frames.size with hlt | hge
    · refine Or.inr ⟨rfl, rfl, ?_⟩
      rw [binding?, frame_define_self s name v hlt]
      exact FiniteMap.find?_insert_self _ name v
    · have hsize : (s.define f name v).frames.size ≤ f.index := by simpa [define] using hge
      exact Or.inl (by rw [binding?, binding?, frame_of_size_le hge, frame_of_size_le hsize])
  · exact Or.inl (binding?_define_of_ne s env q v (not_and_or.1 h))

/-- A call leaves the frames that are there alone. -/
theorem binding?_extend_of_lt (s : Store) (parent : FrameId) (params : List String) (args : List Value)
    (h : s.Holds (.frame f)) (name : String) :
    (s.extend parent params args).2.binding? f name = s.binding? f name := by
  rw [binding?, binding?, extend, frame_newFrame_of_lt s _ h]

/-- In the frame of a call, a parameter is bound to its argument. -/
theorem binding?_extend_self {parent : FrameId} {params : List String} {args : List Value}
    (h : (s.extend parent params args).2.binding? (s.extend parent params args).1 name = some v) :
    ∃ i : Nat, params[i]? = some name ∧ args[i]? = some v := by
  rw [binding?, frame_extend_self] at h
  obtain ⟨i, hi⟩ := List.getElem?_of_mem (FiniteMap.mem_of_find?_ofList h)
  exact ⟨i, List.getElem?_zip_eq_some.1 hi⟩

end Store

/-! ## Frames and the calls that made them -/

/-- The frame was made by the call of `k` with `args`, which happened at the last moment at which it was not
there. -/
def World.MadeBy (w : World) (f : FrameId) (k : Closure) (args : List Value) : Prop :=
  ∃ later m before, w.moments = later ++ m :: before ∧ f = ⟨m.store.frames.size⟩ ∧
    (∀ m' ∈ later, m'.store.Holds (.frame f)) ∧ Calling m before k args

/-- The value is the argument for the parameter, and has been bound to it since the frame is there. -/
structure World.Received (w : World) (f : FrameId) (k : Closure) (args : List Value) (name : String)
    (v : Value) : Prop where
  argument : ∃ i : Nat, k.params[i]? = some name ∧ args[i]? = some v
  since : ∀ m ∈ w.moments, m.store.Holds (.frame f) → m.store.binding? f name = some v

/-- What is said by the names that values carry is true: in the global frame `g` every value says the name
that it is bound to, and in every other frame it does or is what the parameter received. -/
structure Truthful (g : FrameId) (w : World) : Prop where
  global : ∀ name v, w.store.binding? g name = some v → v.Says name
  inner : ∀ f, w.store.Holds (.frame f) → f ≠ g → ∃ k args, w.MadeBy f k args ∧
    ∀ name v, w.store.binding? f name = some v → v.Says name ∨ w.Received f k args name v

/-- It is true now and was at all moments before; no frame has disappeared. -/
structure TruthfulThroughout (g : FrameId) (w : History) : Prop where
  now : Truthful g w.world
  global : w.state.store.Holds (.frame g)
  growing : ∀ m ∈ w.moments, ∀ f, m.store.Holds (.frame f) → w.state.store.Holds (.frame f)
  past : ∀ m before, m :: before <:+ w.moments → Truthful g ⟨m.store, m :: before⟩

section

variable {g f : FrameId} {w : World} {t : Store} {k : Closure} {args : List Value}

/-- What a parameter received does not depend on what it is bound to now. -/
theorem World.Received.goto {name : String} {v : Value} (h : w.Received f k args name v) (t : Store) :
    (w.goto t).Received f k args name v := ⟨h.argument, h.since⟩

theorem World.MadeBy.add (h : w.MadeBy f k args) (hf : w.store.Holds (.frame f)) (e : Event) :
    (w.add e).MadeBy f k args := by
  obtain ⟨later, m, before, hmoments, hindex, hlater, hcalling⟩ := h
  refine ⟨⟨e, w.store⟩ :: later, m, before, ?_, hindex, List.forall_mem_cons.2 ⟨hf, hlater⟩, hcalling⟩
  rw [World.add, hmoments, List.cons_append]

/-- The call that made a frame is the latest event at which the frame was not there. -/
theorem World.MadeBy.find? (h : w.MadeBy f k args) :
    ∃ m before, w.moments.find? (fun m => m.store.frames.size ≤ f.index) = some m ∧
      Calling m before k args := by
  obtain ⟨later, m, before, hmoments, rfl, hlater, hcalling⟩ := h
  refine ⟨m, before, ?_, hcalling⟩
  rw [hmoments, List.find?_append, List.find?_eq_none.2, Option.none_or]
  · exact List.find?_cons_of_pos (by simp)
  · intro m' hm'
    have hlt : m.store.frames.size < m'.store.frames.size := hlater m' hm'
    simpa using hlt

theorem Truthful.congr (h : Truthful g w) (ht : t.frames = w.store.frames) : Truthful g (w.goto t) := by
  refine ⟨fun name v hv => h.global name v ?_, fun f hf hne => ?_⟩
  · rwa [World.goto, Store.binding?_congr ht] at hv
  · have hheld : w.store.Holds (.frame f) := by simpa only [Store.Holds, World.goto, ht] using hf
    obtain ⟨k, args, hmade, hbound⟩ := h.inner f hheld hne
    refine ⟨k, args, hmade, fun name v hv => ?_⟩
    rw [World.goto, Store.binding?_congr ht] at hv
    exact (hbound name v hv).imp_right fun hreceived => hreceived.goto t

theorem Truthful.add (h : Truthful g w) (e : Event) : Truthful g (w.add e) := by
  refine ⟨h.global, fun f hf hne => ?_⟩
  obtain ⟨k, args, hmade, hbound⟩ := h.inner f hf hne
  refine ⟨k, args, hmade.add hf e, fun name v hv => (hbound name v hv).imp_right fun hreceived => ?_⟩
  exact ⟨hreceived.argument, List.forall_mem_cons.2 ⟨fun _ => hv, hreceived.since⟩⟩

/-- A definition gives the value the name that it binds it to. -/
theorem Truthful.define (h : Truthful g w) (env : FrameId) (q : String) (v : Value) :
    Truthful g (w.goto (w.store.define env q (v.withBound q))) := by
  have hbinding := Store.binding?_define w.store env q (v.withBound q)
  have hnames : ∀ f name u, (w.store.define env q (v.withBound q)).binding? f name = some u →
      w.store.binding? f name = some u ∨ u.Says name := by
    intro f name u hu
    rcases hbinding f name with hsame | ⟨rfl, rfl, hnew⟩
    · exact Or.inl (hsame.symm.trans hu)
    · obtain rfl := Option.some.inj (hnew.symm.trans hu)
      exact Or.inr (v.says_withBound name)
  refine ⟨fun name u hu => (hnames g name u hu).elim (h.global name u) id, fun f hf hne => ?_⟩
  have hheld : w.store.Holds (.frame f) := by
    simpa [Store.Holds, World.goto, Store.define] using hf
  obtain ⟨k, args, hmade, hbound⟩ := h.inner f hheld hne
  refine ⟨k, args, hmade, fun name u hu => ?_⟩
  rcases hnames f name u hu with hold | hname
  · exact (hbound name u hold).imp_right fun hreceived => hreceived.goto _
  · exact Or.inl hname

/-- A call binds the parameters to the arguments as they are. -/
theorem Truthful.extend (h : Truthful g w) (hglobal : w.store.Holds (.frame g))
    (hgrowing : ∀ m ∈ w.moments, ∀ f, m.store.Holds (.frame f) → w.store.Holds (.frame f))
    {m : Moment} {before : List Moment} (hmoments : w.moments = m :: before) (hm : m.store = w.store)
    (hcalling : Calling m before k args) :
    Truthful g (w.goto (w.store.extend k.frame k.params args).2) := by
  have hsame : ∀ f name, w.store.Holds (.frame f) →
      (w.store.extend k.frame k.params args).2.binding? f name = w.store.binding? f name :=
    fun f name hf => Store.binding?_extend_of_lt w.store k.frame k.params args hf name
  refine ⟨fun name v hv => h.global name v (hsame g name hglobal ▸ hv), fun f hf hne => ?_⟩
  rcases ((Store.adds_newFrame w.store _).holds (.frame f)).1 hf with hheld | hnew
  · obtain ⟨k', args', hmade, hbound⟩ := h.inner f hheld hne
    refine ⟨k', args', hmade, fun name v hv => ?_⟩
    exact (hbound name v (hsame f name hheld ▸ hv)).imp_right fun hreceived => hreceived.goto _
  · obtain rfl : f = ⟨w.store.frames.size⟩ := Ident.frame.inj hnew
    refine ⟨k, args, ⟨[], m, before, hmoments, by rw [hm], by simp, hcalling⟩,
      fun name v hv => Or.inr ⟨?_, ?_⟩⟩
    · exact Store.binding?_extend_self hv
    · -- the frame was not there before
      intro m' hm' hheld
      exact absurd (hgrowing m' hm' _ hheld) (lt_irrefl _)

end

/-- Whatever happens, what is said stays true. -/
theorem truthful (g : FrameId) : Recorded.Binding (TruthfulThroughout g) fun _ => True where
  still {w s} h hs := by
    refine ⟨h.now.congr hs, ?_, fun m hm f hf => ?_, h.past⟩
    · simpa only [Store.Holds, hs] using h.global
    · simpa only [Store.Holds, hs] using h.growing m hm f hf
  event {w} h e := by
    refine ⟨h.now.add e, h.global, List.forall_mem_cons.2 ⟨fun _ hf => hf, h.growing⟩, ?_⟩
    intro m before hsuffix
    rcases List.suffix_cons_iff.1 hsuffix with heq | hsuffix
    · obtain ⟨rfl, rfl⟩ := List.cons.inj heq
      exact h.now.add e
    · exact h.past m before hsuffix
  define {w f} h _ name v := by
    have hheld : ∀ j, (w.state.store.define f name (v.withBound name)).Holds (.frame j) ↔
        w.state.store.Holds (.frame j) := fun j => by simp [Store.Holds, Store.define]
    exact ⟨h.now.define f name v, (hheld g).2 h.global,
      fun m hm j hj => (hheld j).2 (h.growing m hm j hj), h.past⟩
  call {w m before k args} h hmoments hm hcalling := by
    have hheld : ∀ j, w.state.store.Holds (.frame j) →
        (w.state.store.extend k.frame k.params args).2.Holds (.frame j) :=
      fun j hj => ((Store.adds_newFrame w.state.store _).holds _).2 (Or.inl hj)
    exact ⟨⟨h.now.extend h.global h.growing hmoments hm hcalling, hheld g h.global,
      fun m hm j hj => hheld j (h.growing m hm j hj), h.past⟩, trivial⟩

/-! ## Sessions -/

/-- What a session that was begun with the policy comes to, with what has been recorded by then: between its
calls, or at a moment of one. -/
def Session.Comes (policy : WarnPolicy) (w : World) : Prop :=
  ∃ calls, w = (History.ofCalls policy calls).world ∨
    ∃ m before, m :: before <:+ (History.ofCalls policy calls).moments ∧ w = ⟨m.store, m :: before⟩

/-- In an empty global frame nothing is said. -/
theorem truthful_global (policy : WarnPolicy) : TruthfulThroughout (Session.new policy).env
    { state := { store := { frames := #[{ policy := policy }] } } } := by
  refine ⟨⟨fun name v hv => ?_, fun f hf hne => ?_⟩, Nat.one_pos, by simp, by simp⟩
  · cases hv
  · obtain ⟨n⟩ := f
    obtain rfl : n = 0 := Nat.lt_one_iff.1 hf
    exact absurd rfl hne

theorem Session.truthful_of_comes {policy : WarnPolicy} {w : World} (h : Session.Comes policy w) :
    Truthful (Session.new policy).env w := by
  obtain ⟨calls, h⟩ := h
  have hall := History.ofCalls_of_binding (truthful (Session.new policy).env) policy trivial
    (truthful_global policy) calls
  rcases h with rfl | ⟨m, before, hsuffix, rfl⟩
  · exact hall.now
  · exact hall.past m before hsuffix

/-! ## One evaluation -/

/-- From `s` to `t`, a binding is as it was unless it is one of `env` that was defined anew, and then its
value says so. -/
def Store.Rebinds (env : FrameId) (s t : Store) : Prop :=
  ∀ f, s.Holds (.frame f) → ∀ name, t.binding? f name = s.binding? f name ∨
    f = env ∧ ∃ v, t.binding? f name = some v ∧ v.Says name

/-- Names are bound in `env` and in frames that are made on the way. -/
theorem rebinds (env : FrameId) (s : Store) :
    Recorded.Binding
      (fun w => s.frames.size ≤ w.state.store.frames.size ∧ s.Rebinds env w.state.store)
      (Store.MayBind (· = env) s) where
  still {w t} h ht := by
    refine ⟨ht ▸ h.1, fun f hf name => ?_⟩
    rw [Store.binding?_congr ht]
    exact h.2 f hf name
  event h _ := h
  define {w f} h hf name v := by
    refine ⟨by simpa [History.goto, Store.define] using h.1, fun j hj other => ?_⟩
    show (w.state.store.define f name (v.withBound name)).binding? j other = _ ∨ _
    rcases Store.binding?_define w.state.store f name (v.withBound name) j other with hsame | ⟨rfl, rfl, hnew⟩
    · rw [History.goto, hsame]
      exact h.2 j hj other
    · have henv : j = env := hf.resolve_right (not_le.2 hj)
      exact Or.inr ⟨henv, _, hnew, v.says_withBound other⟩
  call {w m before k args} h _ _ _ := by
    have hadds := Store.adds_newFrame w.state.store
      { bindings := .ofList (k.params.zip args), parent := some k.frame }
    refine ⟨⟨h.1.trans (Store.frames_le_of_holds fun j hj => (hadds.holds j).2 (Or.inl hj)), ?_⟩,
      Or.inr h.1⟩
    intro f hf name
    have hold := Store.binding?_extend_of_lt w.state.store k.frame k.params args (hf.trans_le h.1) name
    show (w.state.store.extend k.frame k.params args).2.binding? f name = _ ∨ _
    rw [History.goto, hold]
    exact h.2 f hf name

theorem rebinds_eval (host : Host) (n : Nat) (env : FrameId) (form : Value) (s : State) :
    s.store.Rebinds env ((eval host n env form).storeAfter s) := by
  have hkept := (rebinds env s.store).eval host n env (Or.inl rfl) form ⟨s, []⟩
    ⟨le_rfl, fun _ _ _ => Or.inl rfl⟩
  have herases := Recorded.Records.eval host n env form ⟨s, []⟩
  unfold Recorded.Leads at hkept
  unfold storeAfter
  cases hres : Recorded.eval host n env form ⟨s, []⟩ with
  | ok v w =>
    rw [hres] at hkept herases
    rw [show eval host n env form s = _ from herases]
    exact hkept.1.2
  | error why w =>
    rw [hres] at hkept herases
    rw [show eval host n env form s = _ from herases]
    exact hkept.1.2

/-- The form defines the name `q` by the name `p`. -/
def Store.Renames (s : Store) (form : Value) (q p : String) : Prop :=
  ∃ c target source, form.datum = .pair c ∧ (s.cell c).car.symbol? = some "define" ∧
    s.Lists ((s.cell c).cdr.getD .nil) [target, source] ∧
    target.symbol? = some q ∧ source.symbol? = some p

/-- A definition by a name binds the value to the new name, with the new name for its own. -/
theorem eval_renames {host : Host} {n : Nat} {env : FrameId} {form v : Value} {q p : String} {s : State}
    (h : s.store.Renames form q p) (hv : s.store.lookup env p = some v) :
    eval host (n + 2) env form s = .ok (v.withBound q)
      ⟨s.store.define env q (v.withBound q), s.log.push (.defined q v.typeName)⟩ := by
  obtain ⟨c, target, source, hpair, hdefine, hlists, htarget, hsource⟩ := h
  have hspecial : evalSpecial (eval host (n + 1)) env form.provenance.location .define [target, source] s =
      .ok (v.withBound q)
        ⟨s.store.define env q (v.withBound q), s.log.push (.defined q v.typeName)⟩ := by
    simp only [evalSpecial, htarget]
    rw [bind_of_ok (eval_symbol hsource hv)]
    rfl
  rw [eval_special hpair hdefine rfl hlists, locating, hspecial]

theorem frame_primitive {host : Host} {ev : Evaluator} {env : FrameId} {p : Primitive} (hp : p ≠ .load)
    (args : Value) (s : State) (f : FrameId) :
    ((p.call host ev env args).storeAfter s).frame f = s.store.frame f :=
  Store.frame_congr ((Run.SparesFrames.primitive hp args s.store.frames).storeAfter rfl) f

/-! ## The main statement -/

/-- The names that values carry are true at every moment of a session.  And what is seen through a binding
changes only when that very name is bound anew in that very frame: not by a definition of another name by it,
not by a primitive that is given its value, and not by a call. -/
theorem annotations_tell_the_truth (policy : WarnPolicy) (w : World) (reached : Session.Comes policy w) :
    Truthful (Session.new policy).env w ∧
    (∀ host n env form log, w.store.Rebinds env ((eval host n env form).storeAfter ⟨w.store, log⟩)) ∧
    (∀ host n env form p q v log, w.store.Renames form q p → w.store.Holds (.frame env) →
      w.store.lookup env p = some v →
      ∃ t, eval host (n + 2) env form ⟨w.store, log⟩ = .ok (v.withBound q) t ∧
        t.store.binding? env q = some (v.withBound q) ∧
        ∀ f name, f ≠ env ∨ name ≠ q → t.store.binding? f name = w.store.binding? f name) ∧
    (∀ host ev env p args log, p ≠ .load → ∀ f name,
      ((Primitive.call host ev env p args).storeAfter ⟨w.store, log⟩).binding? f name =
        w.store.binding? f name) ∧
    ∀ host n env id p args log f, w.store.Holds (.frame f) → ∀ name,
      ((apply host (eval host n) env ⟨.closure id, p⟩ args).storeAfter ⟨w.store, log⟩).binding? f name =
        w.store.binding? f name := by
  refine ⟨Session.truthful_of_comes reached, fun host n env form log => ?_,
    fun host n env form p q v log hrenames henv hv => ?_, fun host ev env p args log hp f name => ?_,
    fun host n env id p args log f hf name => ?_⟩
  · exact rebinds_eval host n env form ⟨w.store, log⟩
  · refine ⟨_, eval_renames hrenames hv, ?_, fun f name h => ?_⟩
    · rw [Store.binding?, Store.frame_define_self _ _ _ henv]
      exact FiniteMap.find?_insert_self _ q _
    · exact Store.binding?_define_of_ne _ _ _ _ h
  · rw [Store.binding?, frame_primitive hp]
    rfl
  · rw [Store.binding?, framesUnchanged_apply host n env id p args ⟨w.store, log⟩ f hf]
    rfl

/-- A session in which the value of a name and another value are passed to a function. -/
def passing : List Call :=
  [⟨.ofFiles fun _ => .error .notFound, 9, .source
    "(define x 1) (define f (lambda (y u) (lambda () y))) (define g (f x (+ x 2))) (define z x)" "a"⟩]

/-- What `f` is bound to. -/
def calledFunction : Value := ⟨.closure ⟨0⟩, ⟨⟨"a", 1, 24⟩, some "f"⟩⟩

/-- What `x` is bound to. -/
def passedFirst : Value := ⟨.atom (.number (.int 1)), ⟨⟨"a", 1, 11⟩, some "x"⟩⟩

/-- A sum, which stands nowhere and has no name. -/
def passedSecond : Value := .int 3

/-- The first parameter still has the value that says `x`, and the second one that says nothing. -/
theorem annotations_tell_the_truth_passing :
    let w := (History.ofCalls .abort passing).world
    Session.Comes .abort w ∧ w.store.binding? ⟨1⟩ "y" = some passedFirst ∧
      w.store.binding? ⟨1⟩ "u" = some passedSecond ∧
      ∃ k, k.params = ["y", "u"] ∧ w.MadeBy ⟨1⟩ k [passedFirst, passedSecond] ∧
        w.Received ⟨1⟩ k [passedFirst, passedSecond] "y" passedFirst ∧
        w.Received ⟨1⟩ k [passedFirst, passedSecond] "u" passedSecond := by
  have reached : Session.Comes .abort (History.ofCalls .abort passing).world := ⟨passing, Or.inl rfl⟩
  obtain ⟨htrue, -⟩ := annotations_tell_the_truth .abort _ reached
  obtain ⟨hheld, hfirst, hsecond, hcall⟩ :
      1 < (History.ofCalls .abort passing).world.store.frames.size ∧
      (History.ofCalls .abort passing).world.store.binding? ⟨1⟩ "y" = some passedFirst ∧
      (History.ofCalls .abort passing).world.store.binding? ⟨1⟩ "u" = some passedSecond ∧
      ((History.ofCalls .abort passing).world.moments.find? fun m => m.store.frames.size ≤ 1).map
        (fun m => (m.event, (m.store.closure ⟨0⟩).params)) =
          some (.called calledFunction [passedFirst, passedSecond], ["y", "u"]) := by
    decide +kernel
  obtain ⟨k, args, hmade, hreceived⟩ := htrue.inner ⟨1⟩ hheld (by decide)
  -- the record tells which call it was
  obtain ⟨m, before, hm, ⟨func, id, hevent, hid, rfl, -⟩, -, -⟩ := hmade.find?
  obtain ⟨m', hm', hpair⟩ := Option.map_eq_some_iff.1 hcall
  obtain rfl : m = m' := Option.some.inj (hm.symm.trans hm')
  obtain ⟨hevent', hparams⟩ := Prod.mk.inj hpair
  cases hevent.symm.trans hevent'
  cases hid
  refine ⟨reached, hfirst, hsecond, _, hparams, hmade, ?_, ?_⟩
  · exact (hreceived "y" _ hfirst).resolve_left fun hname => absurd hname (by decide)
  · exact (hreceived "u" _ hsecond).resolve_left fun hname => absurd hname (by decide)

end Lisplet
