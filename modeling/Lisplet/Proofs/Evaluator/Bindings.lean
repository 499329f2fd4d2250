/-
# Lisplet.Proofs.Evaluator.Bindings -- how names come to be bound

A frame changes in one way only: a definition binds a name in it, to a value that has just been given that
name.  And a frame is made in one way only: by the call of a function, which binds the parameters to the
arguments as they are.  `Binding I D` says that `I` survives both, and whatever leaves the frames alone; then
it survives every recorded run (`Binding.eval`).

What is known of a call is in the record: the function is called with its arguments, all of which were
returned before, and then the frame is made in the store as it was at that moment (`Calling`).
-/

import Mathlib.Tactic
import Lisplet.Proofs.Builtin.Effects
import Lisplet.Proofs.Evaluator.Recording
import Lisplet.Proofs.Evaluator.Upheld
import Lisplet.Proofs.Run.Keeps
import Lisplet.Proofs.Store.Policy

namespace Lisplet

variable {α β : Type}

/-! ## Frames that are left alone -/

/-- The computation leaves all frames as they are. -/
abbrev Run.SparesFrames (act : Run α) : Prop := ∀ frames, Run.Keeps' (fun s => s.frames = frames) act

namespace Run.SparesFrames

theorem of_looks {act : Run α} (h : Looks act) : SparesFrames act := by
  intro frames s hs
  rcases h s with ⟨a, ha⟩ | ⟨why, hwhy⟩
  · rw [ha]
    exact ⟨hs, trivial⟩
  · rw [hwhy]
    exact hs

theorem make {f : Store → α × Store} (hf : ∀ s, (f s).2.frames = s.frames) :
    SparesFrames (Run.make f) :=
  fun _ => .make fun s hs => ⟨(hf s).trans hs, trivial⟩

theorem note (e : LogEntry) : SparesFrames (Run.note e) := fun _ => .note e

theorem readSource (text file : String) : SparesFrames (Lisplet.readSource text file) := by
  intro frames
  refine (Keeps.forM fun _ _ => Keeps.note _).bind fun _ _ => ?_
  cases (Reading.ofText text).error with
  | none => exact make (fun s => (Store.frames_ofForms file _ s).1) frames
  | some e => exact .raise _

/-- A primitive that evaluates nothing leaves the frames alone. -/
theorem primitive {host : Host} {ev : Evaluator} {env : FrameId} {p : Primitive} (hp : p ≠ .load)
    (args : Value) : SparesFrames (p.call host ev env args) := by
  intro frames s hs
  cases hcall : p.call host ev env args s with
  | ok v t => exact ⟨(Primitive.did hp hcall).2.keptBut.frames.trans hs, trivial⟩
  | error why t =>
    rw [Primitive.atomic host ev env hp args s why t hcall]
    exact hs

theorem lambda (location : Location) (operands : List Value) (ev : Evaluator) (env : FrameId) :
    SparesFrames (Lisplet.evalSpecial ev env location .lambda operands) := by
  intro frames
  unfold Lisplet.evalSpecial
  match operands with
  | params :: body :: bodies =>
    refine (Keeps.check _).bind fun vs _ => (Keeps.ofExcept _).bind fun names _ => ?_
    exact (make (fun _ => rfl) frames).bind fun v _ => .pure trivial
  | [] | [_] => exact .fail _

end Run.SparesFrames

theorem Run.Looks.testResult (form : String) (v : Value) : Looks (Lisplet.testResult form v) := by
  unfold Lisplet.testResult
  split
  · exact .pure _
  · exact .raise _

theorem Run.Looks.operandsOf (rest : Option Value) : Looks (Lisplet.operandsOf rest) := by
  unfold Lisplet.operandsOf
  cases rest with
  | none => exact .pure _
  | some list => exact .check _

/-! ## Calls -/

/-- The value was returned at one of the moments. -/
def ReturnedIn (moments : List Moment) (v : Value) : Prop := ∃ m ∈ moments, m.event = .returned v

theorem ReturnedIn.mono {ms ms' : List Moment} {v : Value} (h : ReturnedIn ms v) (hle : ms <:+ ms') :
    ReturnedIn ms' v := by
  obtain ⟨m, hm, hevent⟩ := h
  exact ⟨m, hle.subset hm, hevent⟩

/-- At the moment `m`, the function `k` of the store is called with `args`, as many as it takes.  It and they
have been evaluated before. -/
structure Calling (m : Moment) (before : List Moment) (k : Closure) (args : List Value) : Prop where
  event : ∃ func id, m.event = .called func args ∧ func.datum = .closure id ∧ m.store.closure id = k ∧
    ReturnedIn before func
  arguments : ∀ v ∈ args, ReturnedIn before v
  count : args.length = k.params.length

/-- The value has just been returned. -/
def History.Gave (w : History) (v : Value) : Prop :=
  ∃ before, w.moments = ⟨.returned v, w.state.store⟩ :: before

theorem History.Gave.returned {w : History} {v : Value} (h : w.Gave v) : ReturnedIn w.moments v := by
  obtain ⟨before, hmoments⟩ := h
  exact ⟨_, hmoments ▸ List.mem_cons_self, rfl⟩

namespace Recorded

/-! ## Properties of runs -/

/-- From `w` on, the computation keeps `I`, however it ends; the record is only added to, and `Q` holds of the
value. -/
def Leads (I : History → Prop) (w : History) (Q : History → α → Prop) (act : Recorded α) : Prop :=
  match act w with
  | .ok a w' => I w' ∧ w.moments <:+ w'.moments ∧ Q w' a
  | .error _ w' => I w' ∧ w.moments <:+ w'.moments

/-- `I` is kept by whatever leaves the frames alone, by every event, by definitions in frames with `D` and by
calls of functions, which make such frames. -/
structure Binding (I : History → Prop) (D : FrameId → Prop) : Prop where
  still : ∀ {w : History} {s : State}, I w → s.store.frames = w.state.store.frames →
    I { w with state := s }
  event : ∀ {w : History}, I w → ∀ e, I (w.add e)
  define : ∀ {w : History} {f : FrameId}, I w → D f → ∀ name (v : Value),
    I (w.goto (w.state.store.define f name (v.withBound name)))
  call : ∀ {w : History} {m : Moment} {before : List Moment} {k : Closure} {args : List Value}, I w →
    w.moments = m :: before → m.store = w.state.store → Calling m before k args →
    I (w.goto (w.state.store.extend k.frame k.params args).2) ∧
      D (w.state.store.extend k.frame k.params args).1

variable {I : History → Prop} {D : FrameId → Prop} {w : History} {Q : History → α → Prop}
  {Q' : History → β → Prop}

namespace Leads

theorem pure (hw : I w) {a : α} (h : Q w a) : Leads I w Q (pure a) := ⟨hw, List.suffix_rfl, h⟩

theorem bind {act : Recorded α} {f : α → Recorded β} (h : Leads I w Q act)
    (hf : ∀ a w', w.moments <:+ w'.moments → I w' → Q w' a → Leads I w' Q' (f a)) :
    Leads I w Q' (act >>= f) := by
  unfold Leads at h ⊢
  show match EStateM.bind act f w with
    | .ok b w' => I w' ∧ w.moments <:+ w'.moments ∧ Q' w' b
    | .error _ w' => I w' ∧ w.moments <:+ w'.moments
  unfold EStateM.bind
  cases hact : act w with
  | error why w' =>
    rw [hact] at h
    exact h
  | ok a w' =>
    rw [hact] at h
    obtain ⟨hw', hle, hQ⟩ := h
    have hnext := hf a w' hle hw' hQ
    unfold Leads at hnext
    dsimp only
    cases hres : f a w' with
    | ok b w'' =>
      rw [hres] at hnext
      exact ⟨hnext.1, hle.trans hnext.2.1, hnext.2.2⟩
    | error why w'' =>
      rw [hres] at hnext
      exact ⟨hnext.1, hle.trans hnext.2⟩

theorem foldlM {f : β → α → Recorded β} (hf : ∀ b a w, I w → Leads I w (fun _ _ => True) (f b a))
    (as : List α) (b : β) (hw : I w) : Leads I w (fun _ _ => True) (as.foldlM f b) := by
  induction as generalizing b w with
  | nil => exact pure hw trivial
  | cons a as ih =>
    rw [List.foldlM_cons]
    exact (hf b a w hw).bind fun b' w' _ hw' _ => ih b' hw'

theorem locating (p : Provenance) {act : Recorded α} (h : Leads I w Q act) :
    Leads I w Q (Recorded.locating p act) := by
  unfold Leads at h ⊢
  unfold Recorded.locating
  cases hact : act w with
  | ok a w' =>
    rw [hact] at h
    exact h
  | error why w' =>
    rw [hact] at h
    cases why <;> exact h

/-- What only looks at the state leaves everything as it is. -/
theorem look {act : Run α} (h : act.Looks) (hw : I w) :
    Leads I w (fun w' _ => w' = w) (lift act) := by
  unfold Leads
  rcases h w.state with ⟨a, ha⟩ | ⟨why, hwhy⟩
  · rw [lift_of_ok ha]
    exact ⟨hw, List.suffix_rfl, rfl⟩
  · rw [lift_of_error hwhy]
    exact ⟨hw, List.suffix_rfl⟩

end Leads

namespace Binding

theorem lift (hI : Binding I D) {act : Run α} (h : act.SparesFrames) (hw : I w) :
    Leads I w (fun _ _ => True) (Recorded.lift act) := by
  have hact := h w.state.store.frames w.state rfl
  unfold Leads
  cases hres : act w.state with
  | ok a s =>
    rw [hres] at hact
    rw [lift_of_ok hres]
    exact ⟨hI.still hw hact.1, List.suffix_rfl, trivial⟩
  | error why s =>
    rw [hres] at hact
    rw [lift_of_error hres]
    exact ⟨hI.still hw hact, List.suffix_rfl⟩

theorem record (hI : Binding I D) (e : Event) (hw : I w) :
    Leads I w (fun w' _ => w' = w.add e) (Recorded.record e) :=
  ⟨hI.event hw e, List.suffix_cons _ _, rfl⟩

theorem returning (hI : Binding I D) {act : Recorded Value} (h : Leads I w (fun _ _ => True) act) :
    Leads I w History.Gave (Recorded.returning act) := by
  refine h.bind fun v w' _ hw' _ => (hI.record _ hw').bind ?_
  rintro _ _ - hw'' rfl
  exact .pure hw'' ⟨_, rfl⟩

/-! ### Several forms -/

/-- The evaluator keeps `I` in frames with `D`, and the value it gives is recorded. -/
def Kept (I : History → Prop) (D : FrameId → Prop) (ev : Recorder) : Prop :=
  ∀ env, D env → ∀ form w, I w → Leads I w History.Gave (ev env form)

variable {ev : Recorder} {env : FrameId} {host : Host}

theorem kept_any (hev : Kept I D ev) (henv : D env) (form : Value) (hw : I w) :
    Leads I w (fun _ _ => True) (ev env form) := by
  have h := hev env henv form w hw
  unfold Leads at h ⊢
  split at h <;> simp_all

/-- The values of several forms are in the record. -/
theorem evalAll (hev : Kept I D ev) (henv : D env) (forms : List Value) (hw : I w) :
    Leads I w (fun w' vs => ∀ v ∈ vs, ReturnedIn w'.moments v) (evalAll ev env forms) := by
  induction forms generalizing w with
  | nil => exact .pure hw (by simp)
  | cons form forms ih =>
    refine (hev env henv form w hw).bind fun v w₁ _ hw₁ hv => ?_
    refine (ih hw₁).bind fun vs w₂ hle hw₂ hvs => .pure hw₂ ?_
    exact List.forall_mem_cons.2 ⟨hv.returned.mono hle, hvs⟩

theorem evalSequence (hev : Kept I D ev) (henv : D env) (forms : List Value) (hw : I w) :
    Leads I w (fun _ _ => True) (evalSequence ev env forms) :=
  .foldlM (fun _ form _ hw' => kept_any hev henv form hw') forms .nil hw

theorem evalTop (hI : Binding I D) (hev : Kept I D ev) (henv : D env) (policy : WarnPolicy)
    (result form : Value) (hw : I w) :
    Leads I w (fun _ _ => True) (evalTop ev policy env result form) := by
  have hform := hev env henv form w hw
  unfold Leads at hform ⊢
  unfold Recorded.evalTop
  cases hres : ev env form w with
  | ok v w' =>
    rw [hres] at hform
    exact ⟨hform.1, hform.2.1, trivial⟩
  | error why w' =>
    rw [hres] at hform
    cases why with
    | raised e =>
      by_cases hskip : (!e.isFatal && policy == .keepGoing) = true
      · simp only [hskip, if_true]
        exact ⟨hI.still hform.1 rfl, hform.2, trivial⟩
      · simp only [hskip, Bool.false_eq_true, if_false]
        exact hform
    | exhausted | withheld => exact hform

theorem runSource (hI : Binding I D) (hev : Kept I D ev) (henv : D env) (text file : String) (hw : I w) :
    Leads I w (fun _ _ => True) (runSource ev env text file) := by
  have hread : Leads I w (fun _ _ => True) (readSource text file) :=
    (hI.lift (.readSource text file) hw).bind fun forms w' _ hw' _ =>
      (hI.record (.read forms) hw').bind fun _ w'' _ hw'' _ => .pure hw'' trivial
  refine hread.bind fun forms w' _ hw' _ => ?_
  refine (hI.lift (.of_looks (.read _)) hw').bind fun policy w'' _ hw'' _ => ?_
  exact .foldlM (fun result form _ => hI.evalTop hev henv policy result form) forms .nil hw''

/-! ### Applications -/

theorem loadFile (hI : Binding I D) (hev : Kept I D ev) (henv : D env) (args : Value) (hw : I w) :
    Leads I w (fun _ _ => True) (loadFile host ev env args) := by
  refine (Leads.look (.check _) hw).bind fun a w₁ _ hw₁ _ => ?_
  refine (Leads.look (.ofExcept _) hw₁).bind fun path w₂ _ hw₂ _ => ?_
  refine (hI.lift (.note _) hw₂).bind fun _ w₃ _ hw₃ _ => ?_
  cases host.files path with
  | ok text => exact hI.runSource hev henv text path hw₃
  | error fault => exact hI.lift (.of_looks (.raise _)) hw₃

theorem callAny (hI : Binding I D) (hev : Kept I D ev) (henv : D env) (p : Primitive) (args : Value)
    (hw : I w) : Leads I w (fun _ _ => True) (Recorded.call host ev env p args) := by
  refine (hI.record (.passed p args) hw).bind fun _ w' _ hw' _ => ?_
  cases p with
  | load => exact hI.loadFile hev henv args hw'
  | _ => exact hI.lift (.primitive (by decide) args) hw'

/-- A function that is called runs in the frame that its call has made. -/
theorem applyClosure (hI : Binding I D) (hev : Kept I D ev) {func : Value} {id : ClosureId}
    {args : List Value} {before : List Moment} (hw : I w)
    (hmoments : w.moments = ⟨.called func args, w.state.store⟩ :: before)
    (hid : func.datum = .closure id) (hfunc : ReturnedIn before func)
    (hargs : ∀ v ∈ args, ReturnedIn before v) :
    Leads I w (fun _ _ => True) (applyClosure ev (w.state.store.closure id) args) := by
  unfold Recorded.applyClosure
  split
  · next hcount =>
    have hcalling : Calling ⟨.called func args, w.state.store⟩ before (w.state.store.closure id) args :=
      ⟨⟨func, id, rfl, hid, rfl, hfunc⟩, hargs, hcount⟩
    obtain ⟨hcalled, hframe⟩ := hI.call hw hmoments rfl hcalling
    have hmake : Leads I w (fun _ f => D f) (Recorded.lift (Run.make
        (Store.extend (w.state.store.closure id).frame (w.state.store.closure id).params args))) :=
      ⟨hcalled, List.suffix_rfl, hframe⟩
    exact hmake.bind fun f w' _ hw' hf => evalSequence hev hf _ hw'
  · exact hI.lift (.of_looks (.raise _)) hw

theorem apply (hI : Binding I D) (hev : Kept I D ev) (henv : D env) {func : Value} {args : List Value}
    (hw : I w) (hfunc : ReturnedIn w.moments func) (hargs : ∀ v ∈ args, ReturnedIn w.moments v) :
    Leads I w (fun _ _ => True) (apply host ev env func args) := by
  unfold Recorded.apply
  split
  · split
    · exact (hI.lift (.make (Store.frames_ofList args)) hw).bind fun list w' _ hw' _ =>
        hI.callAny hev henv _ list hw'
    · exact hI.lift (fun _ => .stop _) hw
  · next id hid =>
    refine (hI.record (.called func args) hw).bind ?_
    rintro _ _ - hw' rfl
    have hread : Leads I (w.add (.called func args))
        (fun w' k => w' = w.add (.called func args) ∧ k = w.state.store.closure id)
        (Recorded.lift (Run.read (·.closure id))) := ⟨hw', List.suffix_rfl, rfl, rfl⟩
    refine hread.bind ?_
    rintro _ _ - hw'' ⟨rfl, rfl⟩
    exact hI.applyClosure hev hw'' rfl hid hfunc hargs
  · exact hI.lift (.of_looks (.check _)) hw

/-! ### Special forms -/

theorem clauseTest (hev : Kept I D ev) (henv : D env) (test : Value) (hw : I w) :
    Leads I w (fun _ _ => True) (clauseTest ev env test) := by
  unfold Recorded.clauseTest
  split
  · exact .pure hw trivial
  · exact kept_any hev henv test hw

theorem evalCond (hI : Binding I D) (hev : Kept I D ev) (henv : D env) (clauses : List Value) (hw : I w) :
    Leads I w (fun _ _ => True) (evalCond ev env clauses) := by
  induction clauses generalizing w with
  | nil => exact .pure hw trivial
  | cons clause clauses ih =>
    rw [Recorded.evalCond]
    refine (Leads.look (.check _) hw).bind fun parts w₁ _ hw₁ _ => ?_
    cases parts with
    | nil => exact hI.lift (.of_looks (.raise _)) hw₁
    | cons test body =>
      refine (clauseTest hev henv test hw₁).bind fun v w₂ _ hw₂ _ => ?_
      refine (Leads.look (.testResult "cond" v) hw₂).bind fun chosen w₃ _ hw₃ _ => ?_
      split
      · split
        · exact .pure hw₃ trivial
        · exact evalSequence hev henv body hw₃
      · exact ih hw₃

theorem conditional (hev : Kept I D ev) (henv : D env) (test consequent : Value)
    {otherwise : Recorded Value} (hw : I w)
    (hotherwise : ∀ w', I w' → Leads I w' (fun _ _ => True) otherwise) :
    Leads I w (fun _ _ => True) (do
      let v ← ev env test
      if ← Recorded.lift (testResult "if" v) then ev env consequent else otherwise) := by
  refine (kept_any hev henv test hw).bind fun v w₁ _ hw₁ _ => ?_
  refine (Leads.look (.testResult "if" v) hw₁).bind fun chosen w₂ _ hw₂ _ => ?_
  split
  · exact kept_any hev henv consequent hw₂
  · exact hotherwise w₂ hw₂

theorem evalSpecial (hI : Binding I D) (hev : Kept I D ev) (henv : D env) (location : Location)
    (form : SpecialForm) (operands : List Value) (hw : I w) :
    Leads I w (fun _ _ => True) (evalSpecial ev env location form operands) := by
  cases form with
  | quote =>
    refine hI.lift (.of_looks ?_) hw
    unfold Lisplet.evalSpecial
    match operands with
    | [_] => exact .pure _
    | [] | _ :: _ :: _ => exact .raise _
  | conditional =>
    unfold Recorded.evalSpecial
    match operands with
    | [test, consequent] => exact conditional hev henv test consequent hw fun _ hw' => .pure hw' trivial
    | [test, consequent, alternative] =>
      exact conditional hev henv test consequent hw fun _ hw' => kept_any hev henv alternative hw'
    | [] | [_] | _ :: _ :: _ :: _ :: _ => exact hI.lift (.of_looks (.raise _)) hw
  | cond => exact hI.evalCond hev henv operands hw
  | define =>
    unfold Recorded.evalSpecial
    match operands with
    | [target, expr] =>
      dsimp only
      cases target.symbol? with
      | none => exact hI.lift (.of_looks (.raise _)) hw
      | some name =>
        refine (kept_any hev henv expr hw).bind fun v w₁ _ hw₁ _ => ?_
        refine (hI.lift (.note _) hw₁).bind fun _ w₂ _ hw₂ _ => ?_
        have hdefine : Leads I w₂ (fun _ _ => True)
            (Recorded.lift (Run.change (Store.define env name (v.withBound name)))) :=
          ⟨hI.define hw₂ henv name v, List.suffix_rfl, trivial⟩
        exact hdefine.bind fun _ w₃ _ hw₃ _ => .pure hw₃ trivial
    | [] | [_] | _ :: _ :: _ :: _ => exact hI.lift (.of_looks (.raise _)) hw
  | lambda => exact hI.lift (.lambda location operands _ env) hw
  | begin => exact evalSequence hev henv operands hw

/-! ### Evaluation -/

theorem evalPair (hI : Binding I D) (hev : Kept I D ev) (henv : D env) (location : Location) (cell : Cell)
    (hw : I w) : Leads I w (fun _ _ => True) (evalPair host ev env location cell) := by
  unfold Recorded.evalPair
  split
  · refine (Leads.look (.operandsOf _) hw).bind fun operands w' _ hw' _ => ?_
    exact hI.evalSpecial hev henv location _ operands hw'
  · -- the function is in the record before the operands are looked at, which changes nothing
    refine (hev env henv cell.car w hw).bind fun func w₁ _ hw₁ hfunc => ?_
    refine (Leads.look (.operandsOf _) hw₁).bind ?_
    rintro operands _ - hw₁' rfl
    refine (evalAll hev henv operands hw₁').bind fun args w₂ hle hw₂ hargs => ?_
    exact hI.apply hev henv hw₂ (hfunc.returned.mono hle) hargs

theorem step (hI : Binding I D) (hev : Kept I D ev) : Kept I D (step host ev) := by
  intro env henv form w hw
  unfold Recorded.step
  refine .locating _ (hI.returning ?_)
  split
  · exact hI.lift (.of_looks (.check _)) hw
  · refine (Leads.look (.read _) hw).bind fun cell w' _ hw' _ => ?_
    exact hI.evalPair hev henv _ cell hw'
  · exact .pure hw trivial

/-- Whatever is evaluated, to whatever depth and however it ends, `I` is kept. -/
theorem eval (hI : Binding I D) (host : Host) (n : Nat) : Kept I D (eval host n) := by
  induction n with
  | zero => exact fun env _ form w hw => ⟨hw, List.suffix_rfl⟩
  | succ n ih => exact hI.step ih

end Binding

end Recorded

/-! ## Sessions -/

theorem Call.leads {I : History → Prop} {D : FrameId → Prop} (hI : Recorded.Binding I D) (call : Call)
    {env : FrameId} (henv : D env) {w : History} (hw : I w) :
    Recorded.Leads I w (fun _ _ => True) (call.recorded env) := by
  have hev := hI.eval call.host call.depth
  unfold Call.recorded
  cases call.request with
  | source text file => exact hI.runSource hev henv text file hw
  | file path =>
    dsimp only
    cases call.host.files path with
    | error fault => exact hI.lift (.of_looks (.raise _)) hw
    | ok text =>
      exact (hI.lift (.note _) hw).bind fun _ w' _ hw' _ => hI.runSource hev henv text path hw'

theorem Recorded.Binding.definePrimitives {I : History → Prop} {D : FrameId → Prop}
    (hI : Recorded.Binding I D) {env : FrameId} (henv : D env) {w : History} (hw : I w) :
    I (w.goto (w.state.store.definePrimitives env)) := by
  unfold Store.definePrimitives
  induction Primitive.bindings generalizing w with
  | nil => exact hw
  | cons b bindings ih => exact ih (hI.define hw henv b.1 (Value.native b.2))

/-- What holds of an empty global frame holds of a fresh session after any calls. -/
theorem History.ofCalls_of_binding {I : History → Prop} {D : FrameId → Prop} (hI : Recorded.Binding I D)
    (policy : WarnPolicy) (henv : D (Session.new policy).env)
    (hglobal : I { state := { store := { frames := #[{ policy := policy }] } } }) (calls : List Call) :
    I (History.ofCalls policy calls) := by
  induction calls using List.reverseRecOn with
  | nil =>
    have hnew := hI.definePrimitives henv hglobal
    exact hnew
  | append_singleton calls call ih =>
    have hcall := call.leads hI henv ih
    unfold Recorded.Leads at hcall
    rw [History.ofCalls_concat, History.perform]
    cases hres : call.recorded (Session.new policy).env (History.ofCalls policy calls) with
    | ok v w =>
      rw [hres] at hcall
      exact hI.event hcall.1 _
    | error why w =>
      rw [hres] at hcall
      exact hI.event hcall.1 _

end Lisplet
