/-
# Lisplet.Proofs.KeepGoing -- a session that keeps going never ends in a warning

The warn policy is held by the global frame alone; every other frame has the default, which is to stop,
and must never be asked.  So what a warning does depends on the chain of parents of the frame in which
the forms of a text are evaluated, and files are loaded from wherever a program calls for them: inside
the body of a closure, in a frame that was captured long ago, from a file that is itself being loaded.

In every store that a session comes to, all frames are under the global frame of the session, and that
keeps its policy (`sessionFrames`).  Under the policy to keep going a text or a file then never ends in
a warning, whatever the evaluation of its forms does (`runSource_fatal`).
-/

import Mathlib.Tactic
import Lisplet.Proofs.Evaluator.Discipline
import Lisplet.Proofs.Run.Keeps
import Lisplet.Proofs.Store.Rooted

namespace Lisplet

open Run

/-! ## Errors that are no warnings -/

/-- From a store with `P`, the computation does not end in a warning. -/
def Fatal {α : Type} (P : Store → Prop) (act : Run α) : Prop :=
  ∀ s : State, P s.store → ∀ e s', act s = .error (.raised e) s' → e.isFatal = true

namespace Fatal

variable {α β : Type} {P : Store → Prop}

theorem pure (a : α) : Fatal P (pure a) := fun _ _ _ _ h => by cases h

theorem bind {act : Run α} {f : α → Run β} (h : Fatal P act) (hkeeps : Keeps' P act)
    (hf : ∀ a, Fatal P (f a)) : Fatal P (act >>= f) := by
  intro s hs e s' herror
  rcases bind_eq_error herror with hact | ⟨a, t, hact, hnext⟩
  · exact h s hs e s' hact
  · have hkept := hkeeps s hs
    rw [hact] at hkept
    exact hf a t hkept.1 e s' hnext

theorem note (entry : LogEntry) : Fatal P (note entry) := fun _ _ _ _ h => by cases h

theorem raise {e : Error} (h : e.isFatal = true) : Fatal P (raise e : Run α) := by
  rintro s - _ _ ⟨⟩
  exact h

theorem check {f : Store → Except Error α} (h : ∀ s e, f s = .error e → e.isFatal = true) :
    Fatal P (check f) := by
  intro s _ e s' herror
  unfold Run.check at herror
  cases hf : f s.store with
  | ok a =>
    rw [hf] at herror
    cases herror
  | error e' =>
    rw [hf] at herror
    cases herror
    exact h s.store e hf

theorem ofExcept {x : Except Error α} (h : ∀ e, x = .error e → e.isFatal = true) :
    Fatal P (ofExcept x) := by
  cases x with
  | ok a => exact pure a
  | error e => exact raise (h e rfl)

theorem foldlM {f : α → β → Run α} (hf : ∀ a b, Fatal (fun _ => True) (f a b)) (bs : List β) (a : α) :
    Fatal (fun _ => True) (bs.foldlM f a) := by
  induction bs generalizing a with
  | nil => exact pure a
  | cons b bs ih =>
    rw [List.foldlM_cons]
    refine (hf a b).bind (fun s _ => ?_) ih
    cases f a b s <;> simp

end Fatal

theorem Store.oneArgument_fatal {s : Store} {name : String} {args : Value} {e : Error}
    (h : s.oneArgument name args = .error e) : e.isFatal = true := by
  unfold oneArgument listElements at h
  cases helements : s.elements args with
  | error fault =>
    rw [helements] at h
    cases h
    rfl
  | ok vs =>
    rw [helements] at h
    match vs with
    | [a] => cases h
    | [] | _ :: _ :: _ => cases h; rfl

theorem Value.asString_fatal {v : Value} {name : String} {e : Error}
    (h : v.asString name = .error e) : e.isFatal = true := by
  unfold asString expecting at h
  cases hs : v.string? with
  | some content =>
    rw [hs] at h
    cases h
  | none =>
    rw [hs] at h
    cases h
    rw [mismatch, Error.isFatal, Error.kind, Error.cause_locate]
    rfl

/-! ## Texts and files -/

section Sequences

variable {ev : Evaluator} {env : FrameId}

/-- Under the policy to keep going, a form of a text does not end it with a warning. -/
theorem evalTop_fatal (result form : Value) :
    Fatal (fun _ => True) (evalTop ev .keepGoing env result form) := by
  intro s _ e s' herror
  unfold evalTop at herror
  cases hform : ev env form s with
  | ok v t =>
    rw [hform] at herror
    cases herror
  | error why t =>
    rw [hform] at herror
    cases why with
    | raised e' =>
      dsimp only at herror
      cases hfatal : e'.isFatal with
      | true =>
        rw [hfatal] at herror
        cases herror
        exact hfatal
      | false =>
        rw [hfatal] at herror
        cases herror
    | exhausted | withheld => cases herror

theorem evalToplevel_fatal (forms : List Value) :
    Fatal (fun s => s.policy env = .keepGoing) (evalToplevel ev env forms) := by
  intro s hs e s' herror
  replace herror : forms.foldlM (evalTop ev (s.store.policy env) env) .nil s = .error (.raised e) s' :=
    herror
  rw [hs] at herror
  exact Fatal.foldlM (fun result form => evalTop_fatal result form) forms .nil s trivial e s' herror

theorem readSource_keeps_policy (policy : WarnPolicy) (text file : String) :
    Keeps' (fun s => s.policy env = policy) (readSource text file) := by
  refine (Keeps.forM fun _ _ => Keeps.note _).bind fun _ _ => ?_
  cases (Reading.ofText text).error with
  | some e => exact .raise _
  | none =>
    refine .make fun s hs => ⟨?_, trivial⟩
    rw [Store.policy_congr (Store.frames_ofForms file _ s).1]
    exact hs

theorem readSource_fatal {P : Store → Prop} (text file : String) : Fatal P (readSource text file) := by
  intro s _ e s' herror
  have hread := readSource_eq text file s
  rw [hread] at herror
  split at herror
  · cases herror
  · cases herror
    rfl

/-- Where the policy is to keep going, a text does not end in a warning. -/
theorem runSource_fatal (text file : String) :
    Fatal (fun s => s.policy env = .keepGoing) (runSource ev env text file) :=
  (readSource_fatal text file).bind (readSource_keeps_policy .keepGoing text file) evalToplevel_fatal

/-- Nor does a file that is loaded. -/
theorem loadFile_fatal (host : Host) (args : Value) :
    Fatal (fun s => s.policy env = .keepGoing) (loadFile host ev env args) := by
  refine (Fatal.check fun s e h => Store.oneArgument_fatal h).bind (.check _) fun a => ?_
  refine (Fatal.ofExcept fun e h => Value.asString_fatal h).bind (.ofExcept _) fun path => ?_
  refine (Fatal.note _).bind (.note _) fun _ => ?_
  cases host.files path with
  | ok text => exact runSource_fatal text path
  | error fault =>
    refine .raise ?_
    rw [Error.isFatal, Error.kind, Error.cause_locate]
    rfl

end Sequences

/-! ## The frames of a session -/

theorem Content.within_true (x : Content) : x.Within fun _ => True := by
  cases x with
  | cell x => exact ⟨fun _ _ => trivial, fun _ _ _ _ => trivial⟩
  | table m => exact fun _ _ _ _ _ => trivial
  | closure k => trivial
  | frame f => exact fun _ _ _ _ _ => trivial

/-- All frames are under the global frame `g`, now and at all moments before. -/
structure KeptRooted (g : FrameId) (policy : WarnPolicy) (w : World) : Prop where
  now : w.store.Rooted g policy
  past : ∀ m ∈ w.moments, m.store.Rooted g policy

theorem KeptRooted.add {g : FrameId} {policy : WarnPolicy} {w : World} {t : Store}
    (h : KeptRooted g policy w) (ht : t.Rooted g policy) (e : Event) :
    KeptRooted g policy ((w.goto t).add e) :=
  ⟨ht, List.forall_mem_cons.2 ⟨ht, h.past⟩⟩

/-- A program may be evaluated in the frames that exist, and all of them are under the global one. -/
def sessionFrames (g : FrameId) (policy : WarnPolicy) : Discipline where
  Inv := KeptRooted g policy
  Le w w' := w.store.frames.size ≤ w'.store.frames.size
  Free _ _ := True
  Env w f := f.index < w.store.frames.size
  refl _ := le_rfl
  trans := le_trans
  mono _ _ hc := hc
  monoEnv h _ hf := hf.trans_le h
  closure h k := h.now.closures k
  frame _ hadds _ := (hadds.holds _).2 (Or.inr rfl)
  content _ _ _ := Content.within_true _
  quoted _ _ _ _ _ _ _ := trivial
  adds {w i x t} h hadds _ hx := by
    refine ⟨⟨h.now.adds hadds ?_ ?_, h.past⟩, ?_, fun _ _ => trivial⟩
    · rintro k rfl
      exact hx.1
    · -- the first of all frames is there
      rintro frame rfl
      rcases hx with ⟨-, hempty⟩ | ⟨p, hp, hheld, hpolicy⟩
      · exact absurd h.now.global (by omega)
      · exact ⟨p, hp, hheld, hpolicy⟩
    · exact Store.frames_le_of_holds fun j hj => (hadds.holds j).2 (Or.inl hj)
  sets {w i x t} h hsets _ _ hx := by
    refine ⟨⟨h.now.sets hsets ?_ ?_, h.past⟩, ?_⟩
    · rintro k rfl
      cases x <;> exact hx
    · rintro f frame rfl rfl
      exact hx
    · exact Store.frames_le_of_holds fun j hj => (hsets.holds j).2 hj
  read {w} h file fs := by
    obtain ⟨hframes, hclosures⟩ := Store.frames_ofForms file fs w.store
    exact ⟨h.add (h.now.congr hframes hclosures) _, (congrArg Array.size hframes).ge⟩
  add h _ _ := ⟨h.add h.now _, le_rfl⟩

/-- A fresh session has its global frame and no other. -/
theorem sessionFrames_new (policy : WarnPolicy) :
    KeptRooted (Session.new policy).env policy ⟨(Session.new policy).state.store, []⟩ := by
  have hglobal : KeptRooted (Session.new policy).env policy
      ⟨{ frames := #[{ policy := policy }] }, []⟩ := by
    refine ⟨⟨Nat.zero_lt_one, fun f hf => ?_, fun k => Nat.zero_lt_one, rfl, fun f hf => ?_⟩, by simp⟩
    · obtain ⟨n⟩ := f
      obtain rfl : n = 0 := Nat.lt_one_iff.1 hf
      exact .top hf rfl
    · obtain ⟨n⟩ := f
      have hn : n ≠ 0 := fun h => hf (congrArg FrameId.mk h)
      have hout : Store.frame { frames := #[{ policy := policy }] } ⟨n⟩ = {} :=
        Store.frame_of_size_le (Nat.one_le_iff_ne_zero.2 hn)
      rw [hout]
  exact ((sessionFrames _ policy).definePrimitives hglobal (Session.new policy).env).1

/-- One more call, and all frames are still under the global one. -/
theorem Session.rooted_perform {session : Session} {policy : WarnPolicy}
    (h : session.state.store.Rooted session.env policy) (call : Call) :
    (session.perform call).state.store.Rooted session.env policy := by
  have hkept : KeptRooted session.env policy ⟨session.state.store, []⟩ := ⟨h, by simp⟩
  have hframe : (sessionFrames session.env policy).Env ⟨session.state.store, []⟩ session.env := h.global
  rw [← (History.state_perform (h := { state := session.state }) rfl call).2]
  exact ((sessionFrames _ policy).perform (h := { state := session.state }) hkept hframe call).1.now

/-- Over any calls of a fresh session, all frames stay under its global frame. -/
theorem sessionFrames_ofCalls (policy : WarnPolicy) (calls : List Call) :
    KeptRooted (Session.new policy).env policy (History.ofCalls policy calls).world := by
  have hnew := sessionFrames_new policy
  have hglobal : (sessionFrames (Session.new policy).env policy).Env
      ⟨(Session.new policy).state.store, []⟩ (Session.new policy).env := hnew.now.global
  exact ((sessionFrames _ policy).performs (h := { state := (Session.new policy).state }) hnew hglobal
    calls).1

theorem Session.env_ofCalls (policy : WarnPolicy) (calls : List Call) :
    (Session.ofCalls policy calls).env = (Session.new policy).env := by
  have hall : ∀ session : Session, (calls.foldl Session.perform session).env = session.env := by
    induction calls with
    | nil => exact fun _ => rfl
    | cons call calls ih =>
      intro session
      exact (ih _).trans (History.state_perform (h := { state := session.state }) rfl call).1
  exact hall _

/-- A session that has made any calls is rooted in its own frame. -/
theorem Session.rooted_ofCalls (policy : WarnPolicy) (calls : List Call) :
    (Session.ofCalls policy calls).state.store.Rooted (Session.ofCalls policy calls).env policy := by
  rw [Session.env_ofCalls, ← History.state_ofCalls]
  exact (sessionFrames_ofCalls policy calls).now

/-! ## Sessions -/

/-- All frames are under the global frame `g`, whose policy to keep going is the one in force in all of
them; so no file that is loaded from any of them ends in a warning. -/
structure Store.KeepsGoing (s : Store) (g : FrameId) : Prop where
  rooted : s.Rooted g .keepGoing
  policy : ∀ f, f.index < s.frames.size → s.root f = g ∧ s.policy f = .keepGoing
  load : ∀ f, f.index < s.frames.size →
    ∀ (host : Host) (ev : Evaluator) (args : Value) (log : Array LogEntry) (e : Error) (state : State),
      Primitive.load.call host ev f args ⟨s, log⟩ = .error (.raised e) state → e.kind ≠ .warn

theorem Error.kind_ne_warn {e : Error} (h : e.isFatal = true) : e.kind ≠ .warn := by
  simpa [Error.isFatal] using h

theorem Store.Rooted.keepsGoing {s : Store} {g : FrameId} (h : s.Rooted g .keepGoing) :
    s.KeepsGoing g where
  rooted := h
  policy f hf := ⟨(h.frames f hf).root, h.policy_eq hf⟩
  load _ hf host _ args log e state herror :=
    Error.kind_ne_warn (loadFile_fatal host args ⟨s, log⟩ (h.policy_eq hf) e state herror)

/-- A call of a session in whose frame the policy is to keep going does not end in a warning. -/
theorem Call.plain_fatal (call : Call) (env : FrameId) :
    Fatal (fun s => s.policy env = .keepGoing) (call.plain env) := by
  unfold Call.plain
  cases call.request with
  | source text file => exact runSource_fatal text file
  | file path =>
    dsimp only
    cases call.host.files path with
    | error fault => exact .raise rfl
    | ok text => exact (Fatal.note _).bind (.note _) fun _ => runSource_fatal text path

/-- A session that keeps going never ends in a warning.  After any calls, all frames of the store are
under the session's own global frame, whose policy is to keep going, and so they were at every moment
before; no file that is loaded from any of them ends in a warning, and neither does a text or a file
that is run next. -/
theorem keepGoing_never_warns (calls : List Call) :
    (History.ofCalls .keepGoing calls).state = (Session.ofCalls .keepGoing calls).state ∧
    (∀ m ∈ (History.ofCalls .keepGoing calls).moments,
      m.store.KeepsGoing (Session.ofCalls .keepGoing calls).env) ∧
    (Session.ofCalls .keepGoing calls).state.store.KeepsGoing (Session.ofCalls .keepGoing calls).env ∧
    ∀ (host : Host) (depth : Nat) (e : Error),
      (∀ text file, ((Session.ofCalls .keepGoing calls).runSource host depth text file).1 =
        .error (.raised e) → e.kind ≠ .warn) ∧
      ∀ path, ((Session.ofCalls .keepGoing calls).runFile host depth path).1 =
        .error (.raised e) → e.kind ≠ .warn := by
  have hrooted := Session.rooted_ofCalls .keepGoing calls
  have hcall : ∀ (call : Call) (e : Error),
      ((Session.ofCalls .keepGoing calls).run call.plain).1 = .error (.raised e) → e.kind ≠ .warn := by
    intro call e herror
    have hpolicy := hrooted.policy_eq hrooted.global
    exact Error.kind_ne_warn (call.plain_fatal _ _ hpolicy e _ (Session.run_error herror))
  refine ⟨History.state_ofCalls _ _, fun m hm => ?_, hrooted.keepsGoing, fun host depth e => ⟨?_, ?_⟩⟩
  · rw [Session.env_ofCalls]
    exact ((sessionFrames_ofCalls .keepGoing calls).past m hm).keepsGoing
  · exact fun text file => hcall ⟨host, depth, .source text file⟩ e
  · exact fun path => hcall ⟨host, depth, .file path⟩ e

end Lisplet
