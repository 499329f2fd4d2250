/-
# Lisplet.Proofs.Evaluator.Upheld -- evaluation keeps every standard

A text that may be read is read as forms that meet the standard, since each of their nodes takes the
location of a token.  Forms that meet it are evaluated to values that do, and so on through the parts of
the evaluator: what a closure or a special form evaluates was part of a form before.  An error that is
raised on the way is one that may be raised, wherever it is reported (`Standard.eval`).
-/

import Mathlib.Tactic
import Lisplet.Proofs.Evaluator.Standard

namespace Lisplet

/-- The text that a call begins with, and the name of its file. -/
def Call.Reads (call : Call) (file text : String) : Prop :=
  match call.request with
  | .source text' file' => file = file' ∧ text = text'
  | .file path => file = path ∧ call.host.files path = .ok text

namespace Standard

variable {host : Host} {S : Standard host} {w : History}

/-! ## Texts -/

theorem ofForm (hw : S.Inv w) {file text : String} (hknown : S.Known w file text) {f : Form}
    (hf : f.Within (TokenAt text)) :
    S.Inv (w.goto (w.state.store.ofForm file f).2) ∧ S.Le w (w.goto (w.state.store.ofForm file f).2) ∧
      S.Meets (w.goto (w.state.store.ofForm file f).2) (w.state.store.ofForm file f).1 := by
  induction f generalizing w with
  | atom p a => exact ⟨hw, S.refl w, S.placed (S.atom w a) hknown hf⟩
  | empty p => exact ⟨hw, S.refl w, S.placed (S.nil w) hknown hf⟩
  | single p car ih =>
    obtain ⟨hinv, hle, hcar⟩ := ih hw hknown hf.2
    obtain ⟨hinv', hle', hpair⟩ := S.cons hinv hcar (S.nil _)
    have hle'' := S.trans hle hle'
    exact ⟨hinv', hle'', S.placed hpair (S.monoKnown hle'' _ _ hknown) hf.1⟩
  | pair p car cdr ihcar ihcdr =>
    obtain ⟨hinv₁, hle₁, hcar⟩ := ihcar hw hknown hf.2.1
    obtain ⟨hinv₂, hle₂, hcdr⟩ := ihcdr hinv₁ (S.monoKnown hle₁ _ _ hknown) hf.2.2
    obtain ⟨hinv₃, hle₃, hpair⟩ := S.cons hinv₂ (S.mono hle₂ _ hcar) hcdr
    have hle := S.trans (S.trans hle₁ hle₂) hle₃
    exact ⟨hinv₃, hle, S.placed hpair (S.monoKnown hle _ _ hknown) hf.1⟩

theorem ofForms (hw : S.Inv w) {file text : String} (hknown : S.Known w file text) {fs : List Form}
    (hfs : ∀ f ∈ fs, f.Within (TokenAt text)) :
    S.Inv (w.goto (w.state.store.ofForms file fs).2) ∧
      S.Le w (w.goto (w.state.store.ofForms file fs).2) ∧
      ∀ v ∈ (w.state.store.ofForms file fs).1,
        S.Meets (w.goto (w.state.store.ofForms file fs).2) v := by
  induction fs generalizing w with
  | nil => exact ⟨hw, S.refl w, by simp [Store.ofForms]⟩
  | cons f fs ih =>
    obtain ⟨hf, hfs⟩ := List.forall_mem_cons.1 hfs
    obtain ⟨hinv, hle, hform⟩ := S.ofForm hw hknown hf
    obtain ⟨hinv', hle', hforms⟩ := ih hinv (S.monoKnown hle _ _ hknown) hfs
    exact ⟨hinv', S.trans hle hle', List.forall_mem_cons.2 ⟨S.mono hle' _ hform, hforms⟩⟩

theorem forM_note (hw : S.Inv w) (forms : List Form) (entry : Form → LogEntry) :
    S.Safe w (fun _ _ => True) (Recorded.lift (forms.forM fun form => Run.note (entry form))) := by
  induction forms generalizing w with
  | nil => exact .value hw trivial
  | cons form forms ih =>
    show S.Safe w _ (Recorded.lift (Run.note (entry form) >>= fun _ =>
      forms.forM fun form => Run.note (entry form)))
    rw [Recorded.lift_bind]
    exact (Safe.note hw _).bind fun _ w' _ hw' _ => ih hw'

theorem readSource (hw : S.Inv w) {text file : String} (hknown : S.Known w file text) :
    S.Safe w (fun w' forms => ∀ form ∈ forms, S.Meets w' form) (Recorded.readSource text file) := by
  have hforms := Reading.ofText_forms_within text
  have hread : S.Safe w (fun w' forms => ∀ form ∈ forms, S.Meets w' form)
      (Recorded.lift (Lisplet.readSource text file)) := by
    unfold Lisplet.readSource
    rw [Recorded.lift_bind]
    refine (S.forM_note hw _ _).bind fun _ w' hle hw' _ => ?_
    replace hknown := S.monoKnown hle _ _ hknown
    cases herror : (Reading.ofText text).error with
    | none => exact .make (S.ofForms hw' hknown hforms)
    | some e => exact .raise hw' (S.malformed hw' hknown herror)
  refine hread.bind fun forms w' _ hw' hforms => ?_
  refine .record hw' (by simpa [Event.shows, Event.forms, Event.values] using hforms) ?_
  exact fun hle hw'' => .pure hw'' fun form hform => S.mono hle form (hforms form hform)

/-! ## Several forms -/

/-- The evaluator keeps the standard for forms that meet it. -/
def Upholds (S : Standard host) (ev : Recorded.Recorder) : Prop :=
  ∀ w, S.Inv w → ∀ env, S.Env w env → ∀ form, S.Meets w form → S.Gives w (ev env form)

variable {ev : Recorded.Recorder} {env : FrameId}

theorem evalAll (hev : S.Upholds ev) (hw : S.Inv w) (henv : S.Env w env) {forms : List Value}
    (hforms : ∀ form ∈ forms, S.Meets w form) :
    S.Safe w (fun w vs => ∀ v ∈ vs, S.Meets w v) (Recorded.evalAll ev env forms) := by
  induction forms generalizing w with
  | nil => exact .pure hw (by simp)
  | cons form forms ih =>
    obtain ⟨hform, hforms⟩ := List.forall_mem_cons.1 hforms
    refine (hev w hw env henv form hform).bind fun v w₁ hle₁ hw₁ hv => ?_
    replace hforms := fun form hform => S.mono hle₁ form (hforms form hform)
    refine (ih hw₁ (S.monoEnv hle₁ env henv) hforms).bind fun vs w₂ hle₂ hw₂ hvs => ?_
    exact .pure hw₂ (List.forall_mem_cons.2 ⟨S.mono hle₂ v hv, hvs⟩)

theorem evalSequence (hev : S.Upholds ev) (hw : S.Inv w) (henv : S.Env w env) {forms : List Value}
    (hforms : ∀ form ∈ forms, S.Meets w form) : S.Gives w (Recorded.evalSequence ev env forms) :=
  .foldlM S.mono hw (S.nil w) hforms fun _ form w' hle hw' _ hform =>
    hev w' hw' env (S.monoEnv hle env henv) form hform

theorem evalTop (hev : S.Upholds ev) (hw : S.Inv w) (policy : WarnPolicy) (henv : S.Env w env)
    {result form : Value} (hresult : S.Meets w result) (hform : S.Meets w form) :
    S.Gives w (Recorded.evalTop ev policy env result form) := by
  have hgives := hev w hw env henv form hform
  unfold Gives Safe at hgives ⊢
  unfold Recorded.evalTop
  cases hres : ev env form w with
  | ok v w' =>
    rw [hres] at hgives
    exact hgives
  | error why w' =>
    rw [hres] at hgives
    obtain ⟨hinv, hle, hblame⟩ := hgives
    cases why with
    | raised e =>
      by_cases hskip : (!e.isFatal && policy == .keepGoing) = true
      · simp only [hskip, if_true]
        obtain ⟨hnoted, hle'⟩ := S.note hinv (.skipped e)
        exact ⟨hnoted, S.trans hle hle', S.mono (S.trans hle hle') result hresult⟩
      · simp only [hskip, Bool.false_eq_true, if_false]
        exact ⟨hinv, hle, hblame⟩
    | exhausted | withheld => exact ⟨hinv, hle, hblame⟩

/-- The forms of a text, continued from a result. -/
theorem evalForms (hev : S.Upholds ev) (hw : S.Inv w) (policy : WarnPolicy) (henv : S.Env w env)
    {result : Value} (hresult : S.Meets w result) {forms : List Value}
    (hforms : ∀ form ∈ forms, S.Meets w form) :
    S.Gives w (forms.foldlM (Recorded.evalTop ev policy env) result) :=
  .foldlM S.mono hw hresult hforms fun _ _ _ hle hw' hresult hform =>
    S.evalTop hev hw' policy (S.monoEnv hle env henv) hresult hform

theorem runSource (hev : S.Upholds ev) (hw : S.Inv w) (henv : S.Env w env) {text file : String}
    (hknown : S.Known w file text) : S.Gives w (Recorded.runSource ev env text file) := by
  refine (S.readSource hw hknown).bind fun forms w₁ hle₁ hw₁ hforms => ?_
  refine (Safe.read (Q := fun w' _ => w' = w₁) hw₁ rfl).bind ?_
  rintro policy _ - - rfl
  exact S.evalForms hev hw₁ policy (S.monoEnv hle₁ env henv) (S.nil _) hforms

/-! ## Applications -/

theorem loadFile (hev : S.Upholds ev) (hw : S.Inv w) (henv : S.Env w env) {args : Value}
    (hargs : S.Meets w args) (hcalled : w.Called .load args) :
    S.Gives w (Recorded.loadFile host ev env args) := by
  have hone : S.Safe w
      (fun w' a => w' = w ∧ w.state.store.listElements args = .ok [a] ∧ S.Meets w a)
      (Recorded.lift (Run.check (·.oneArgument "load" args) >>= Pure.pure)) :=
    .one_bind hw hargs fun a hone ha => .value hw ⟨rfl, hone, ha⟩
  rw [bind_pure] at hone
  refine hone.bind ?_
  rintro a w - - ⟨rfl, hone, ha⟩
  refine (Safe.ofExcept (Q := fun w' path => w' = w ∧ a.string? = some path) hw
    (fun path hpath => ⟨rfl, expecting_eq_ok hpath⟩) fun e he => blame_expecting hw ha he).bind ?_
  rintro path w - - ⟨rfl, hpath⟩
  refine (Safe.note hw _).bind ?_
  rintro _ _ hle hw' rfl
  cases hfile : host.files path with
  | ok text => exact S.runSource hev hw' (S.monoEnv hle env henv) (S.loading hw hfile)
  | error fault =>
    have hblame := S.unreadable hw' hcalled hone hpath hfile
    exact .raise hw' (S.locate hblame (S.mono hle a ha))

theorem call (hev : S.Upholds ev) (hw : S.Inv w) (henv : S.Env w env) (p : Primitive) {args : Value}
    (hargs : S.Meets w args) : S.Gives w (Recorded.call host ev env p args) := by
  refine .record hw (by simpa [Event.shows, Event.forms, Event.values] using hargs) fun hle hw' => ?_
  replace hargs := S.mono hle args hargs
  have hcalled : (w.add (.passed p args)).Called p args := ⟨w.moments, rfl⟩
  cases p with
  | load => exact S.loadFile hev hw' (S.monoEnv hle env henv) hargs hcalled
  | _ => exact S.primitive hw' _ env (by simp) hargs hcalled

theorem applyClosure (hev : S.Upholds ev) (hw : S.Inv w) {k : Closure} (hk : S.Env w k.frame)
    (hbody : ∀ form ∈ k.body, S.Meets w form) {args : List Value} (hargs : ∀ v ∈ args, S.Meets w v) :
    S.Gives w (Recorded.applyClosure ev k args) := by
  unfold Recorded.applyClosure
  split
  · refine (Safe.make (Q := S.Env) (S.extend hw hk k.params hargs)).bind fun frame w' hle hw' henv => ?_
    exact S.evalSequence hev hw' henv fun form hform => S.mono hle form (hbody form hform)
  · exact .fail hw nofun

theorem apply (hev : S.Upholds ev) (hw : S.Inv w) (henv : S.Env w env) {func : Value}
    (hfunc : S.Meets w func) {args : List Value} (hargs : ∀ v ∈ args, S.Meets w v) :
    S.Gives w (Recorded.apply host ev env func args) := by
  unfold Recorded.apply
  split
  · split
    · exact (Safe.make (S.ofList hw hargs)).bind fun list w' hle hw' hlist =>
        S.call hev hw' (S.monoEnv hle env henv) _ hlist
    · exact .stop hw (by simp)
  · next id _ =>
    have hvalues : ∀ v ∈ (Event.called func args).shows, S.Meets w v :=
      List.forall_mem_cons.2 ⟨hfunc, hargs⟩
    refine .record hw hvalues fun hle hw' => ?_
    generalize w.add (.called func args) = w' at *
    refine (Safe.read (Q := fun u k => u = w' ∧ k = w'.state.store.closure id) hw' ⟨rfl, rfl⟩).bind ?_
    rintro k _ - - ⟨rfl, rfl⟩
    exact S.applyClosure hev hw' (S.closure hw' id) (S.body hw' id) fun v hv => S.mono hle v (hargs v hv)
  · refine .check hw (fun v hv => by cases hv) fun e he => ?_
    cases he
    exact S.free hw nofun

/-! ## Special forms -/

theorem testResult (hw : S.Inv w) (form : String) (v : Value) :
    S.Safe w (fun w' _ => w' = w) (Recorded.lift (testResult form v)) := by
  unfold Lisplet.testResult
  split
  · exact .value hw rfl
  · exact .fail hw nofun

theorem clauseTest (hev : S.Upholds ev) (hw : S.Inv w) (henv : S.Env w env) {test : Value}
    (htest : S.Meets w test) : S.Gives w (Recorded.clauseTest ev env test) := by
  unfold Recorded.clauseTest
  split
  · exact .pure hw (S.atom w _)
  · exact hev w hw env henv test htest

theorem evalCond (hev : S.Upholds ev) (hw : S.Inv w) (henv : S.Env w env) {clauses : List Value}
    (hclauses : ∀ clause ∈ clauses, S.Meets w clause) :
    S.Gives w (Recorded.evalCond ev env clauses) := by
  induction clauses generalizing w with
  | nil => exact .pure hw (S.nil w)
  | cons clause clauses ih =>
    obtain ⟨hclause, hclauses⟩ := List.forall_mem_cons.1 hclauses
    refine (Safe.check (Q := fun w' parts => w' = w ∧ ∀ part ∈ parts, S.Meets w part) hw
      (fun parts hparts => ⟨rfl, S.listElements hw hclause hparts⟩)
      fun e he => blame_listElements hw he).bind ?_
    rintro parts _ - - ⟨rfl, hparts⟩
    cases parts with
    | nil => exact .fail hw nofun
    | cons test body =>
      obtain ⟨htest, hbody⟩ := List.forall_mem_cons.1 hparts
      refine (S.clauseTest hev hw henv htest).bind fun v w' hle hw' hv => ?_
      replace henv := S.monoEnv hle env henv
      refine (S.testResult hw' "cond" v).bind ?_
      rintro b _ - - rfl
      split
      · split
        · exact .pure hw' hv
        · exact S.evalSequence hev hw' henv fun form hform => S.mono hle form (hbody form hform)
      · exact ih hw' henv fun clause hclause => S.mono hle clause (hclauses clause hclause)

theorem conditional (hev : S.Upholds ev) (hw : S.Inv w) (henv : S.Env w env) {test consequent : Value}
    (htest : S.Meets w test) (hconsequent : S.Meets w consequent) {otherwise : Recorded Value}
    (hotherwise : ∀ w', S.Le w w' → S.Inv w' → S.Gives w' otherwise) :
    S.Gives w (do
      let v ← ev env test
      if ← Recorded.lift (Lisplet.testResult "if" v) then ev env consequent else otherwise) := by
  refine (hev w hw env henv test htest).bind fun v w' hle hw' _ => (S.testResult hw' "if" v).bind ?_
  rintro b w' - - rfl
  split
  · exact hev w' hw' env (S.monoEnv hle env henv) consequent (S.mono hle consequent hconsequent)
  · exact hotherwise w' hle hw'

theorem blame_parameterNames (hw : S.Inv w) {seen : List String} {vs : List Value}
    (hvs : ∀ v ∈ vs, S.Meets w v) {e : Error} (h : parameterNames seen vs = .error e) :
    S.Blame w e := by
  induction vs generalizing seen with
  | nil => cases h
  | cons v vs ih =>
    obtain ⟨hv, hvs⟩ := List.forall_mem_cons.1 hvs
    rw [parameterNames] at h
    split at h
    · cases h
      exact S.locate (S.free hw nofun) hv
    · split at h
      · cases h
        exact S.locate (S.free hw nofun) hv
      · exact ih hvs h

/-- A function takes the location of the form that makes it. -/
theorem lambda (hw : S.Inv w) (henv : S.Env w env) {form params : Value} {body : List Value}
    (hform : S.Meets w form) (hparams : S.Meets w params) (hbody : ∀ form ∈ body, S.Meets w form) :
    S.Gives w (Recorded.lift (do
      let vs ← Run.check (·.listElements params)
      let names ← Run.ofExcept (parameterNames [] vs)
      let v ← Run.make (Store.newClosure ⟨names, body, env⟩)
      pure (v.withLocation form.provenance.location))) := by
  refine .check_bind hw (fun e he => blame_listElements hw he) fun vs hvs => ?_
  refine .ofExcept_bind hw (fun e he => ?_) fun names _ => ?_
  · exact blame_parameterNames hw (S.listElements hw hparams hvs) he
  · rw [Recorded.lift_bind]
    refine (Safe.make (S.newClosure hw hbody henv)).bind fun v w' hle hw' hv => ?_
    exact .value hw' (S.located hv (S.mono hle form hform))

theorem evalSpecial (hev : S.Upholds ev) (hw : S.Inv w) (henv : S.Env w env) {whole : Value}
    (hwhole : S.Meets w whole) (form : SpecialForm) {operands : List Value}
    (hoperands : ∀ v ∈ operands, S.Meets w v) :
    S.Gives w (Recorded.evalSpecial ev env whole.provenance.location form operands) := by
  cases form with
  | quote =>
    unfold Recorded.evalSpecial Lisplet.evalSpecial
    match operands with
    | [datum] => exact .value hw (hoperands datum (by simp))
    | [] | _ :: _ :: _ => exact .fail hw nofun
  | conditional =>
    unfold Recorded.evalSpecial
    match operands with
    | [test, consequent] =>
      exact S.conditional hev hw henv (hoperands test (by simp)) (hoperands consequent (by simp))
        fun w' _ hw' => .pure hw' (S.nil w')
    | [test, consequent, alternative] =>
      exact S.conditional hev hw henv (hoperands test (by simp)) (hoperands consequent (by simp))
        fun w' hle hw' => hev w' hw' env (S.monoEnv hle env henv) alternative
          (S.mono hle alternative (hoperands alternative (by simp)))
    | [] | [_] | _ :: _ :: _ :: _ :: _ => exact .fail hw nofun
  | cond => exact S.evalCond hev hw henv hoperands
  | define =>
    unfold Recorded.evalSpecial
    match operands with
    | [target, expr] =>
      dsimp only
      cases target.symbol? with
      | none => exact .fail hw nofun
      | some name =>
        refine (hev w hw env henv expr (hoperands expr (by simp))).bind fun v w₁ _ hw₁ hv => ?_
        refine (Safe.note hw₁ _).bind fun _ w₂ hle₂ hw₂ _ => ?_
        have hbound := S.bound (S.mono hle₂ v hv) name
        refine (Safe.change (S.define hw₂ env name hbound)).bind fun _ w₃ hle₃ hw₃ _ => ?_
        exact .pure hw₃ (S.mono hle₃ _ hbound)
    | [] | [_] | _ :: _ :: _ :: _ => exact .fail hw nofun
  | lambda =>
    unfold Recorded.evalSpecial Lisplet.evalSpecial
    match operands with
    | params :: body :: bodies =>
      obtain ⟨hparams, hbody⟩ := List.forall_mem_cons.1 hoperands
      exact S.lambda hw henv hwhole hparams hbody
    | [] | [_] => exact .fail hw nofun
  | begin => exact S.evalSequence hev hw henv hoperands

/-! ## Evaluation -/

theorem operandsOf (hw : S.Inv w) {rest : Option Value} (hrest : ∀ list ∈ rest, S.Meets w list) :
    S.Safe w (fun w' operands => w' = w ∧ ∀ v ∈ operands, S.Meets w v)
      (Recorded.lift (operandsOf rest)) := by
  unfold Lisplet.operandsOf
  cases rest with
  | none => exact .value hw ⟨rfl, by simp⟩
  | some list =>
    exact .check hw (fun vs hvs => ⟨rfl, S.listElements hw (hrest list rfl) hvs⟩)
      fun e he => blame_listElements hw he

theorem evalPair (hev : S.Upholds ev) (hw : S.Inv w) (henv : S.Env w env) {whole : Value}
    (hwhole : S.Meets w whole) {c : CellId} (hc : whole.datum = .pair c) :
    S.Gives w (Recorded.evalPair host ev env whole.provenance.location (w.state.store.cell c)) := by
  obtain ⟨hcar, hcdr⟩ := S.cell hw hwhole hc
  unfold Recorded.evalPair
  cases (w.state.store.cell c).car.symbol?.bind SpecialForm.ofName? with
  | some form =>
    refine (S.operandsOf hw hcdr).bind ?_
    rintro operands _ - - ⟨rfl, hoperands⟩
    exact S.evalSpecial hev hw henv hwhole form hoperands
  | none =>
    refine (hev w hw env henv _ hcar).bind fun func w₁ hle₁ hw₁ hfunc => ?_
    refine (S.operandsOf hw₁ fun list hlist => S.mono hle₁ list (hcdr list hlist)).bind ?_
    rintro operands _ - - ⟨rfl, hoperands⟩
    replace henv := S.monoEnv hle₁ env henv
    refine (S.evalAll hev hw₁ henv hoperands).bind fun args w₂ hle₂ hw₂ hargs => ?_
    exact S.apply hev hw₂ (S.monoEnv hle₂ env henv) (S.mono hle₂ func hfunc) hargs

theorem step (hev : S.Upholds ev) : S.Upholds (Recorded.step host ev) := by
  intro w hw env henv form hform
  unfold Recorded.step
  refine .locating hform (.returning ?_)
  split
  · refine .check hw (fun v hv => ?_) fun e he => ?_
    · split at hv
      · next hlookup =>
        cases hv
        exact S.lookup hw hlookup
      · cases hv
    · split at he
      · cases he
      · cases he
        exact S.free hw nofun
  · next c hc =>
    refine (Safe.read (Q := fun w' cell => w' = w ∧ cell = w.state.store.cell c) hw ⟨rfl, rfl⟩).bind ?_
    rintro cell _ - - ⟨rfl, rfl⟩
    exact S.evalPair hev hw henv hform hc
  · exact .pure hw hform

/-- Whatever is evaluated, to whatever depth and however it ends, the standard is kept. -/
theorem eval (S : Standard host) (n : Nat) : S.Upholds (Recorded.eval host n) := by
  induction n with
  | zero => exact fun w hw env _ form _ => .stop hw (by simp)
  | succ n ih => exact S.step ih

/-! ## Sessions -/

/-- A call keeps the standard if the text that it begins with may be read, or may be reported as
unreadable. -/
theorem recorded {call : Call} (S : Standard call.host) (hw : S.Inv w) {env : FrameId}
    (henv : S.Env w env) (hreads : ∀ file text, call.Reads file text → S.Known w file text)
    (hfails : ∀ path fault, call.request = .file path → call.host.files path = .error fault →
      S.Blame w (.ofCause (.runFailed path fault))) :
    S.Gives w (call.recorded env) := by
  have hev := S.eval call.depth
  unfold Call.Reads at hreads
  unfold Call.recorded
  cases hrequest : call.request with
  | source text file =>
    simp only [hrequest] at hreads
    exact S.runSource hev hw henv (hreads file text ⟨rfl, rfl⟩)
  | file path =>
    simp only [hrequest] at hreads
    dsimp only
    cases hfile : call.host.files path with
    | error fault => exact .raise hw (hfails path fault hrequest hfile)
    | ok text =>
      refine (Safe.note hw _).bind fun _ w' hle hw' _ => ?_
      have hknown := S.monoKnown hle path text (hreads path text ⟨rfl, hfile⟩)
      exact S.runSource hev hw' (S.monoEnv hle env henv) hknown

theorem definePrimitives (S : Standard host) (hw : S.Inv w) (env : FrameId) :
    S.Inv (w.goto (w.state.store.definePrimitives env)) ∧
      S.Le w (w.goto (w.state.store.definePrimitives env)) := by
  unfold Store.definePrimitives
  induction Primitive.bindings generalizing w with
  | nil => exact ⟨hw, S.refl w⟩
  | cons b bindings ih =>
    have hprimitive : S.Meets w ((Value.native b.2).withBound b.1) := S.leaf rfl rfl
    obtain ⟨hinv, hle⟩ := S.define hw env b.1 hprimitive
    obtain ⟨hinv', hle'⟩ := ih hinv
    exact ⟨hinv', S.trans hle hle'⟩

/-- The standard, and what could be said of every event when it happened. -/
def recalling (S : Standard host) (P : Moment → Prop)
    (hP : ∀ {w e}, S.Inv w → (∀ v ∈ e.shows, S.Meets w v) → P ⟨e, w.state.store⟩) : Standard host :=
  { S with
    Inv := fun w => S.Inv w ∧ ∀ m ∈ w.moments, P m
    content := fun hw => S.content hw.1
    closure := fun hw => S.closure hw.1
    adds := fun hw hadds hx hbelow =>
      ⟨⟨(S.adds hw.1 hadds hx hbelow).1, hw.2⟩, (S.adds hw.1 hadds hx hbelow).2⟩
    sets := fun hw hsets hi hx hreplaces =>
      ⟨⟨(S.sets hw.1 hsets hi hx hreplaces).1, hw.2⟩, (S.sets hw.1 hsets hi hx hreplaces).2⟩
    add := fun hw he =>
      ⟨⟨(S.add hw.1 he).1, List.forall_mem_cons.2 ⟨hP hw.1 he, hw.2⟩⟩, (S.add hw.1 he).2⟩
    note := fun hw entry => ⟨⟨(S.note hw.1 entry).1, hw.2⟩, (S.note hw.1 entry).2⟩
    loading := fun hw => S.loading hw.1
    free := fun hw => S.free hw.1
    asserted := fun hw => S.asserted hw.1
    unreadable := fun hw => S.unreadable hw.1
    malformed := fun hw => S.malformed hw.1 }

end Standard

theorem History.ofCalls_concat (policy : WarnPolicy) (calls : List Call) (call : Call) :
    History.ofCalls policy (calls ++ [call]) =
      (History.ofCalls policy calls).perform (Session.new policy).env call := by
  simp [History.ofCalls]

/-- A standard that does not depend on the host, permits every text and every error and holds of an
empty global frame is kept over any calls of a fresh session. -/
theorem History.upheld_ofCalls (S : ∀ host, Standard host)
    (hinv : ∀ {host host' w}, (S host).Inv w → (S host').Inv w)
    (henv : ∀ {host host' w f}, (S host).Env w f → (S host').Env w f)
    (hknown : ∀ host w file text, (S host).Known w file text)
    (hblame : ∀ host w e, (S host).Blame w e) (policy : WarnPolicy) (host : Host)
    (hglobal : (S host).Inv { state := { store := { frames := #[{ policy := policy }] } } })
    (hglobalEnv : (S host).Env { state := { store := { frames := #[{ policy := policy }] } } }
      (Session.new policy).env) (calls : List Call) :
    (S host).Inv (History.ofCalls policy calls) ∧
      (S host).Env (History.ofCalls policy calls) (Session.new policy).env := by
  induction calls using List.reverseRecOn with
  | nil =>
    obtain ⟨hnew, hle⟩ := Standard.definePrimitives _ hglobal (Session.new policy).env
    exact ⟨hnew, (S host).monoEnv hle _ hglobalEnv⟩
  | append_singleton calls call ih =>
    have hgives := Standard.recorded (S call.host) (hinv ih.1) (henv ih.2)
      (fun file text _ => hknown _ _ file text) fun _ _ _ _ => hblame _ _ _
    unfold Standard.Gives Standard.Safe at hgives
    rw [History.ofCalls_concat, History.perform]
    cases hcall : call.recorded (Session.new policy).env (History.ofCalls policy calls) with
    | ok v w =>
      rw [hcall] at hgives
      obtain ⟨hw, hle, hv⟩ := hgives
      obtain ⟨hadd, hle'⟩ := (S call.host).add (e := .returned v) hw
        (by simpa [Event.shows, Event.forms, Event.values] using hv)
      exact ⟨hinv hadd, henv ((S call.host).monoEnv ((S call.host).trans hle hle') _ (henv ih.2))⟩
    | error why w =>
      rw [hcall] at hgives
      obtain ⟨hw, hle, -⟩ := hgives
      obtain ⟨hadd, hle'⟩ := (S call.host).add (e := .stopped why) hw
        (by simp [Event.shows, Event.forms, Event.values])
      exact ⟨hinv hadd, henv ((S call.host).monoEnv ((S call.host).trans hle hle') _ (henv ih.2))⟩

end Lisplet
