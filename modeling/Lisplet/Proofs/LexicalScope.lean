/-
# Lisplet.Proofs.LexicalScope -- a function sees its arguments and what it was made in

A closure evaluates its body in a new frame below the frame it was made in.  What a name means there is
read off the chain of frames at the time of the look-up, so a definition that is made later, in the new
frame or in any frame above it, counts from then on.

Three facts carry this.  The frames above a frame come to an end, since each is under the global frame of
the session, so a look-up that follows them ends as well, and the bound on its length is never felt
(`Store.Under.upwards`).  Parameters are distinct, since a function with a repeated parameter is never
made, so each of them is bound to its own argument (`Session.wellFormed_of_reaches`).  And no frame is
ever moved, so all that was said of the new frame holds as long as nothing is bound anew in it
(`Store.lookup_child`).
-/

import Mathlib.Tactic
import Lisplet.Proofs.Evaluator.Frames
import Lisplet.Proofs.KeepGoing

namespace Lisplet

open Run

/-! ## The frames above a frame -/

namespace Store

variable {s t u : Store} {f g : FrameId} {chain : List FrameId}

/-- The frames from `f` upwards to one that has no parent. -/
inductive Upwards (s : Store) : FrameId → List FrameId → Prop
  | top {f : FrameId} (h : (s.frame f).parent = none) : Upwards s f [f]
  | child {f p : FrameId} {chain : List FrameId} (h : (s.frame f).parent = some p)
      (hp : Upwards s p chain) : Upwards s f (f :: chain)

theorem Upwards.unique (h : s.Upwards f chain) {chain' : List FrameId} (h' : s.Upwards f chain') :
    chain = chain' := by
  induction h generalizing chain' with
  | top hnone =>
    cases h' with
    | top => rfl
    | child hsome => simp [hnone] at hsome
  | child hsome _ ih =>
    cases h' with
    | top hnone => simp [hnone] at hsome
    | child hsome' hp' =>
      obtain rfl := Option.some.inj (hsome.symm.trans hsome')
      rw [ih hp']

theorem Under.upwards_chainFrom (h : s.Under g f) {n : Nat} (hn : f.index < n) :
    s.Upwards f (s.chainFrom n f) := by
  induction h generalizing n with
  | top hg h =>
    obtain ⟨n, rfl⟩ : ∃ m, n = m + 1 := ⟨n - 1, by omega⟩
    rw [chainFrom, h]
    exact .top h
  | child hf h hlt _ ih =>
    obtain ⟨n, rfl⟩ : ∃ m, n = m + 1 := ⟨n - 1, by omega⟩
    rw [chainFrom, h]
    exact .child h (ih (by omega))

/-- A look-up follows the frames to their end. -/
theorem Under.upwards (h : s.Under g f) : s.Upwards f (s.chain f) :=
  h.upwards_chainFrom (Nat.lt_succ_of_lt h.index_lt)

/-- What a name means in a frame: what the frame binds it to, or else what it means in the frame above. -/
theorem lookup_child (h : s.Under g f) {parent : FrameId} (hparent : (s.frame f).parent = some parent)
    (name : String) : s.lookup f name = ((s.frame f).bindings.find? name).or (s.lookup parent name) := by
  cases h with
  | top _ hnone => simp [hparent] at hnone
  | child hf hsome hlt hp =>
    obtain rfl := Option.some.inj (hparent.symm.trans hsome)
    have hchain : s.chain f = f :: s.chain parent :=
      (Under.child hf hsome hlt hp).upwards.unique (.child hsome hp.upwards)
    rw [lookup, hchain, List.findSome?_cons, ← lookup]
    cases (s.frame f).bindings.find? name <;> rfl

end Store

/-! ## Functions are well-formed -/

/-- All functions are well-formed, now and at all moments before. -/
structure KeptWellFormed (w : World) : Prop where
  now : ∀ k, w.store.Holds (.closure k) → (w.store.closure k).WellFormed
  past : ∀ m ∈ w.moments, ∀ k, m.store.Holds (.closure k) → (m.store.closure k).WellFormed

theorem KeptWellFormed.add {w : World} {t : Store} (h : KeptWellFormed w)
    (ht : t.closures = w.store.closures) (e : Event) : KeptWellFormed ((w.goto t).add e) := by
  have hnow : ∀ k, t.Holds (.closure k) → (t.closure k).WellFormed := by
    intro k hk
    rw [Store.closure, ht]
    exact h.now k (by simpa only [Store.Holds, ht] using hk)
  exact ⟨hnow, List.forall_mem_cons.2 ⟨hnow, h.past⟩⟩

/-- Functions are made well-formed and are never changed. -/
def wellFormedFunctions : Discipline where
  Inv := KeptWellFormed
  Le _ _ := True
  Free _ _ := True
  refl _ := trivial
  trans _ _ := trivial
  mono _ _ hc := hc
  content _ _ _ := Content.within_true _
  quoted _ _ _ _ _ _ _ := trivial
  adds {w i x t} h hadds _ hx := by
    refine ⟨⟨fun k hk => ?_, h.past⟩, trivial, fun _ _ => trivial⟩
    rcases hadds.content_cases (.closure k) with ⟨-, hself⟩ | hother
    · obtain rfl : Content.closure (t.closure k) = x := hself
      exact hx.2
    · rcases (hadds.holds (.closure k)).1 hk with hheld | rfl
      · rw [World.goto, Content.closure.inj hother]
        exact h.now k hheld
      · obtain rfl : Content.closure (t.closure k) = x := hadds.self
        exact hx.2
  sets {w i x t} h hsets _ _ hx := by
    refine ⟨⟨fun k hk => ?_, h.past⟩, trivial⟩
    rcases hsets.content_cases (.closure k) with ⟨rfl, -, -⟩ | hother
    · cases x <;> exact hx.elim
    · rw [World.goto, Content.closure.inj hother]
      exact h.now k ((hsets.holds _).1 hk)
  read {w} h file fs := ⟨h.add (Store.frames_ofForms file fs w.store).2 _, trivial⟩
  add h _ _ := ⟨h.add rfl _, trivial⟩

/-! ## Stores that a session comes to -/

/-- The store of a session that was begun with the policy, between its calls or at a moment of one: when a
form has been evaluated, a text has been read, a primitive is called or a call has ended. -/
def Session.Reaches (policy : WarnPolicy) (s : Store) : Prop :=
  ∃ calls, (Session.ofCalls policy calls).state.store = s ∨
    ∃ m ∈ (History.ofCalls policy calls).moments, m.store = s

section Sessions

variable {policy : WarnPolicy} {s : Store}

theorem Session.rooted_of_reaches (h : Session.Reaches policy s) :
    s.Rooted (Session.new policy).env policy := by
  obtain ⟨calls, rfl | ⟨m, hm, rfl⟩⟩ := h
  · rw [← History.state_ofCalls]
    exact (sessionFrames_ofCalls policy calls).now
  · exact (sessionFrames_ofCalls policy calls).past m hm

theorem Session.wellFormed_of_reaches (h : Session.Reaches policy s) {k : ClosureId}
    (hk : s.Holds (.closure k)) : (s.closure k).WellFormed := by
  have hempty : KeptWellFormed ⟨{}, []⟩ := ⟨fun k hk => absurd hk (Nat.not_lt_zero _), by simp⟩
  obtain ⟨calls, rfl | ⟨m, hm, rfl⟩⟩ := h
  · rw [← History.state_ofCalls] at hk ⊢
    exact (wellFormedFunctions.ofCalls hempty policy calls).now k hk
  · exact (wellFormedFunctions.ofCalls hempty policy calls).past m hm k hk

end Sessions

/-! ## The frame of a call -/

namespace FiniteMap

variable {κ ν : Type} [DecidableEq κ] {ps : List (κ × ν)} {key : κ}

theorem find?_foldl_insert_of_not_mem (h : key ∉ ps.map Prod.fst) (m : FiniteMap κ ν) :
    (ps.foldl (fun m p => m.insert p.1 p.2) m).find? key = m.find? key := by
  induction ps generalizing m with
  | nil => rfl
  | cons p ps ih =>
    obtain ⟨hne, hnot⟩ := List.ne_and_not_mem_of_not_mem_cons h
    rw [List.foldl_cons, ih hnot, find?_insert_of_ne _ hne]

theorem find?_ofList_of_not_mem (h : key ∉ ps.map Prod.fst) : (ofList ps).find? key = none :=
  find?_foldl_insert_of_not_mem h empty

/-- Where no key comes twice, each has its own value. -/
theorem find?_ofList_of_mem (hdistinct : (ps.map Prod.fst).Nodup) {v : ν} (h : (key, v) ∈ ps) :
    (ofList ps).find? key = some v := by
  -- what is stored behind the key does not touch it again
  obtain ⟨before, after, rfl⟩ := List.append_of_mem h
  rw [List.map_append, List.map_cons] at hdistinct
  have hafter : key ∉ after.map Prod.fst :=
    (List.nodup_cons.1 (List.nodup_append.1 hdistinct).2.1).1
  rw [ofList, List.foldl_append, List.foldl_cons, find?_foldl_insert_of_not_mem hafter,
    find?_insert_self]

end FiniteMap

namespace Store

/-- Nothing has happened to the frames that were there but that names were bound in them. -/
abbrev OnlyBinds (s t : Store) : Prop := s.FramesKept (fun _ => True) t

variable {s t u : Store} {f g : FrameId} {args : List Value} {name : String}

theorem Under.onlyBinds (h : s.Under g f) (hkept : s.OnlyBinds t) : t.Under g f :=
  h.mono hkept.size_le hkept.parent

theorem frame_extend_self (s : Store) (parent : FrameId) (params : List String) (args : List Value) :
    (s.extend parent params args).2.frame (s.extend parent params args).1 =
      { bindings := .ofList (params.zip args), parent := some parent } :=
  Content.frame.inj (adds_newFrame s _).self

theorem under_extend (h : s.Under g f) (params : List String) (args : List Value) :
    (s.extend f params args).2.Under g (s.extend f params args).1 := by
  have hadds := adds_newFrame s { bindings := .ofList (params.zip args), parent := some f }
  have hheld : (s.extend f params args).2.Holds (.frame (s.extend f params args).1) :=
    (hadds.holds _).2 (Or.inr rfl)
  refine .child hheld (by rw [frame_extend_self]) h.index_lt (h.mono ?_ fun g hg => ?_)
  · exact frames_le_of_holds fun j hj => (hadds.holds j).2 (Or.inl hj)
  · rw [extend, frame_newFrame_of_lt s _ hg]

/-- In the frame of a call, the name of a parameter means the argument in its place, and any other name
what it means, in the same store, in the frame that the function was made in. -/
structure MeansInCall (u : Store) (f : FrameId) (k : Closure) (args : List Value) (name : String) :
    Prop where
  argument : ∀ (i : Nat) (v : Value), k.params[i]? = some name → args[i]? = some v → u.lookup f name = some v
  captured : name ∉ k.params → u.lookup f name = u.lookup k.frame name

/-- So it is from the beginning of the call on, until the name is bound anew in the frame of the call. -/
theorem meansInCall {k : Closure} (hframe : s.Under g k.frame) (hdistinct : k.params.Nodup)
    (hlength : args.length = k.params.length)
    (hkept : (s.extend k.frame k.params args).2.OnlyBinds u)
    (hname : (u.frame (s.extend k.frame k.params args).1).bindings.find? name =
      ((s.extend k.frame k.params args).2.frame (s.extend k.frame k.params args).1).bindings.find?
        name) :
    u.MeansInCall (s.extend k.frame k.params args).1 k args name := by
  have hunder := under_extend hframe k.params args
  have hparent : (u.frame (s.extend k.frame k.params args).1).parent = some k.frame := by
    rw [hkept.parent _ hunder.index_lt, frame_extend_self]
  have hkeys : (k.params.zip args).map Prod.fst = k.params := List.map_fst_zip hlength.ge
  have hlookup := lookup_child (hunder.onlyBinds hkept) hparent name
  rw [hname, frame_extend_self] at hlookup
  refine ⟨fun i v hi hv => ?_, fun hnot => ?_⟩
  · have hmem : (name, v) ∈ k.params.zip args :=
      List.mem_of_getElem? (List.getElem?_zip_eq_some.2 ⟨hi, hv⟩)
    rw [hlookup, FiniteMap.find?_ofList_of_mem (by rwa [hkeys]) hmem]
    rfl
  · rw [hlookup, FiniteMap.find?_ofList_of_not_mem (by rwa [hkeys])]
    rfl

end Store

/-! ## The main statement -/

/-- Scope is lexical.  In every store that a session comes to, functions have distinct parameters and a
body; a call with as many arguments evaluates the body in a new frame below the one that the function was
made in, where every name means what it should for as long as it is not bound anew there; a call with any
other number of arguments changes nothing; and a name means what the nearest frame above binds it to. -/
theorem scope_is_lexical (policy : WarnPolicy) (s : Store) (reached : Session.Reaches policy s) :
    (∀ id, s.Holds (.closure id) → (s.closure id).params.Nodup ∧ (s.closure id).body ≠ []) ∧
    (∀ id p host n env args log, s.Holds (.closure id) →
      args.length = (s.closure id).params.length →
      ∃ f t frame, s.Adds (.frame f) (.frame frame) t ∧
        apply host (eval host n) env ⟨.closure id, p⟩ args ⟨s, log⟩ =
          evalSequence (eval host n) f (s.closure id).body ⟨t, log⟩ ∧
        ∀ u, t.OnlyBinds u →
          -- evaluation leads to such stores only, and elsewhere it leaves the new frame alone
          (∀ m env' form log', t.OnlyBinds ((eval host m env' form).storeAfter ⟨u, log'⟩) ∧
            (env' ≠ f → ((eval host m env' form).storeAfter ⟨u, log'⟩).frame f = u.frame f)) ∧
          ∀ name, (u.frame f).bindings.find? name = frame.bindings.find? name →
            u.MeansInCall f (s.closure id) args name) ∧
    (∀ id p host ev env args log, args.length ≠ (s.closure id).params.length →
      ∃ e : Error, e.kind = .arity ∧
        apply host ev env ⟨.closure id, p⟩ args ⟨s, log⟩ = .error (.raised e) ⟨s, log⟩) ∧
    ∀ f, s.Holds (.frame f) → ∃ chain, s.Upwards f chain ∧ ∀ name,
      (∀ v, s.lookup f name = some v ↔ ∃ nearer g further, chain = nearer ++ g :: further ∧
        (s.frame g).bindings.find? name = some v ∧
        ∀ h ∈ nearer, (s.frame h).bindings.find? name = none) ∧
      (s.lookup f name = none ↔ ∀ g ∈ chain, (s.frame g).bindings.find? name = none) := by
  have hrooted := Session.rooted_of_reaches reached
  refine ⟨fun id hid => ?_, fun id p host n env args log hid hlength => ?_,
    fun id p host ev env args log hlength => ?_, fun f hf => ?_⟩
  · have hwell := Session.wellFormed_of_reaches reached hid
    exact ⟨hwell.distinct, hwell.body⟩
  · have hunder := hrooted.frames _ (hrooted.closures id)
    have hdistinct := (Session.wellFormed_of_reaches reached hid).distinct
    have happly : apply host (eval host n) env ⟨.closure id, p⟩ args ⟨s, log⟩ =
        applyClosure (eval host n) (s.closure id) args ⟨s, log⟩ := rfl
    refine ⟨(s.extend (s.closure id).frame (s.closure id).params args).1,
      (s.extend (s.closure id).frame (s.closure id).params args).2, _, Store.adds_newFrame s _, ?_,
      fun u hu => ⟨fun m env' form log' => ⟨?_, fun hother => ?_⟩, fun name hname => ?_⟩⟩
    · rw [happly, applyClosure, if_pos hlength]
      rfl
    · exact ((Store.FramesKept.invariant _ _).eval host m (Or.inl trivial) form).storeAfter hu
    · have hinv := Store.FramesKept.invariant (· = env') u
      have hframes := (hinv.eval host m (Or.inl rfl) form).storeAfter (s := ⟨u, log'⟩) (.refl _ u)
      exact hframes.unchanged _ ((Store.under_extend hunder _ _).onlyBinds hu).index_lt (Ne.symm hother)
    · refine Store.meansInCall hunder hdistinct hlength hu ?_
      rw [hname, Store.frame_extend_self]
  · refine ⟨.ofCause (.argumentCount "lambda" (s.closure id).params.length args.length), rfl, ?_⟩
    show applyClosure ev (s.closure id) args ⟨s, log⟩ = _
    rw [applyClosure, if_neg hlength]
    rfl
  · refine ⟨s.chain f, (hrooted.frames f hf).upwards, fun name => ⟨fun v => ?_, ?_⟩⟩
    · exact List.findSome?_eq_some_iff
    · exact List.findSome?_eq_none_iff

/-- A session with a function that was made by a call of another and captured the frame of that call. -/
def capturing : List Call :=
  [⟨.ofFiles fun _ => .error .notFound, 9, .source
    "(define add (lambda (x) (lambda (y) (+ x y)))) (define f (add 1)) (define x 7)" "a"⟩]

theorem scope_is_lexical_capturing :
    let s := (Session.ofCalls .abort capturing).state.store
    Session.Reaches .abort s ∧ s.Holds (.closure ⟨1⟩) ∧
    ∃ f t, apply (.ofFiles fun _ => .error .notFound) (eval (.ofFiles fun _ => .error .notFound) 5) ⟨0⟩
        ⟨.closure ⟨1⟩, .unknown⟩ [.int 2] ⟨s, #[]⟩ =
          evalSequence (eval (.ofFiles fun _ => .error .notFound) 5) f (s.closure ⟨1⟩).body ⟨t, #[]⟩ ∧
      t.lookup f "y" = some (.int 2) ∧ t.lookup f "x" = t.lookup (s.closure ⟨1⟩).frame "x" := by
  have reached : Session.Reaches .abort (Session.ofCalls .abort capturing).state.store :=
    ⟨capturing, Or.inl rfl⟩
  have hheld : 1 < (Session.ofCalls .abort capturing).state.store.closures.size := by decide +kernel
  have hparams : ((Session.ofCalls .abort capturing).state.store.closure ⟨1⟩).params = ["y"] := by
    decide +kernel
  obtain ⟨-, hcall, -⟩ := scope_is_lexical .abort _ reached
  obtain ⟨f, t, frame, hadds, happly, hscope⟩ := hcall ⟨1⟩ .unknown (.ofFiles fun _ => .error .notFound) 5
    ⟨0⟩ [.int 2] #[] hheld (by rw [hparams]; rfl)
  obtain ⟨-, hnames⟩ := hscope t (.refl _ t)
  have hframe : t.frame f = frame := Content.frame.inj hadds.self
  refine ⟨reached, hheld, f, t, happly, ?_, ?_⟩
  · exact (hnames "y" (by rw [hframe])).argument 0 _ (by rw [hparams]; rfl) rfl
  · exact (hnames "x" (by rw [hframe])).captured (by rw [hparams]; decide)

end Lisplet
