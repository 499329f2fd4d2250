/-
# Lisplet.Proofs.Evaluator.Simulates -- evaluation of alike forms

Forms that are alike, evaluated in frames that correspond, do alike things: where a form stood in its
text and what a value was last called decide nothing but the locations of errors.  A text is read the
same way whatever its layout, as long as its tokens are of the same kinds.

One primitive breaks the rule, so a host that permits `inspect` is left out.  `Blind ev` is what one
step of the evaluator hands on to the next, and the rest is induction on the depth.
-/

import Mathlib.Tactic
import Lisplet.Evaluator
import Lisplet.Proofs.Builtin.Simulates
import Lisplet.Proofs.Evaluator.Yields
import Lisplet.Proofs.Form.Reading
import Lisplet.Proofs.Store.Printing

namespace Lisplet

/-! ## Reading -/

/-- What a text consists of, but for the layout: the kinds of its tokens, or the fault of a lexeme. -/
def tokenKinds (text : String) : Except ReadFault (List TokenKind) :=
  match tokenize text with
  | .ok tokens => .ok (kindsOf tokens)
  | .error e => .error e.fault

/-- What a text reads as is decided by the kinds of its tokens, positions aside. -/
theorem Reading.unplaced_ofText {text text' : String} (h : tokenKinds text = tokenKinds text') :
    (Reading.ofText text).unplaced = (Reading.ofText text').unplaced := by
  unfold tokenKinds at h
  unfold Reading.ofText
  cases hs : tokenize text with
  | ok tokens =>
    cases ht : tokenize text' with
    | ok tokens' =>
      rw [hs, ht] at h
      have hkinds : kindsOf tokens = kindsOf tokens' := Except.ok.inj h
      show (Reading.resume {} tokens).unplaced = (Reading.resume {} tokens').unplaced
      rw [← Reading.resume_unplaced, ← Reading.resume_unplaced, hkinds]
    | error e =>
      rw [hs, ht] at h
      cases h
  | error e =>
    cases ht : tokenize text' with
    | ok tokens' =>
      rw [hs, ht] at h
      cases h
    | error e' =>
      rw [hs, ht] at h
      have hfault : e.fault = e'.fault := Except.error.inj h
      simp [Reading.unplaced, ReadError.unplaced, hfault]

/-- Positions are not written. -/
theorem Form.text_unplaced (f : Form) :
    f.unplaced.text = f.text ∧ f.unplaced.restText = f.restText := by
  induction f with
  | atom | empty => exact ⟨rfl, rfl⟩
  | single p car ih => simp [unplaced, text, restText, ih]
  | pair p car cdr ihcar ihcdr => simp [unplaced, text, restText, ihcar, ihcdr]

namespace Renaming

/-- Forms that differ in positions only make alike values, in whatever files they stand. -/
theorem made_ofForm {R : Renaming} {s t : Store} (h : R.Stores s t) (file file' : String) {f g : Form}
    (hfg : f.unplaced = g.unplaced) : R.Made Values (s.ofForm file f) (t.ofForm file' g) := by
  induction f generalizing R s t g with
  | atom p a =>
    cases g <;> simp only [Form.unplaced, reduceCtorEq, Form.atom.injEq, true_and] at hfg
    subst hfg
    exact ⟨R, le_rfl, h, .atom _⟩
  | empty p =>
    cases g <;> simp only [Form.unplaced, reduceCtorEq] at hfg
    exact ⟨R, le_rfl, h, .nil⟩
  | single p car ih =>
    cases g <;> simp only [Form.unplaced, reduceCtorEq, Form.single.injEq, true_and] at hfg
    obtain ⟨R', hR', hstores, hcar⟩ := ih h hfg
    have hnil : R'.Values .nil .nil := .nil
    obtain ⟨R'', hR'', hstores', hpair⟩ := made_cons hstores hcar hnil
    exact ⟨R'', hR'.trans hR'', hstores', hpair⟩
  | pair p car cdr ihcar ihcdr =>
    cases g <;> simp only [Form.unplaced, reduceCtorEq, Form.pair.injEq, true_and] at hfg
    obtain ⟨R₁, hR₁, hstores, hcar⟩ := ihcar h hfg.1
    obtain ⟨R₂, hR₂, hstores', hcdr⟩ := ihcdr hstores hfg.2
    obtain ⟨R₃, hR₃, hstores'', hpair⟩ := made_cons hstores' (hcar.mono hR₂) hcdr
    exact ⟨R₃, (hR₁.trans hR₂).trans hR₃, hstores'', hpair⟩

theorem made_ofForms {R : Renaming} {s t : Store} (h : R.Stores s t) (file file' : String)
    {fs gs : List Form} (hfs : fs.map Form.unplaced = gs.map Form.unplaced) :
    R.Made (fun R => List.Forall₂ R.Values) (s.ofForms file fs) (t.ofForms file' gs) := by
  induction fs generalizing R s t gs with
  | nil =>
    obtain rfl : gs = [] := by simpa using hfs.symm
    exact ⟨R, le_rfl, h, .nil⟩
  | cons f fs ih =>
    cases gs with
    | nil => simp at hfs
    | cons g gs =>
      simp only [List.map_cons, List.cons.injEq] at hfs
      obtain ⟨R', hR', hstores, hvw⟩ := made_ofForm h file file' hfs.1
      obtain ⟨R'', hR'', hstores', hrest⟩ := ih hstores hfs.2
      exact ⟨R'', hR'.trans hR'', hstores', .cons (hvw.mono hR'') hrest⟩

namespace Simulates

variable {R : Renaming} {ev : Evaluator} {f g : FrameId}

theorem readSource {text text' : String} (h : tokenKinds text = tokenKinds text')
    (file file' : String) :
    R.Simulates (fun R => List.Forall₂ R.Values) (readSource text file) (readSource text' file') := by
  have hread := Reading.unplaced_ofText h
  unfold Lisplet.readSource
  generalize Reading.ofText text = r at hread ⊢
  generalize Reading.ofText text' = r' at hread ⊢
  obtain ⟨forms, error⟩ := r
  obtain ⟨forms', error'⟩ := r'
  simp only [Reading.unplaced, Reading.mk.injEq] at hread
  obtain ⟨hforms, herror⟩ := hread
  have hlog : R.Simulates (fun _ _ _ => True)
      (forms.forM fun form => Run.note (.read form.text (form.position.inFile file)))
      (forms'.forM fun form => Run.note (.read form.text (form.position.inFile file'))) := by
    have hsame : List.Forall₂ Eq (forms.map Form.unplaced) (forms'.map Form.unplaced) := by
      rw [List.forall₂_eq_eq_eq]
      exact hforms
    rw [List.forall₂_map_left_iff, List.forall₂_map_right_iff] at hsame
    apply forM hsame
    intro R' f g hfg
    apply note
    show LogEntry.read f.text .unknown = LogEntry.read g.text .unknown
    rw [← (Form.text_unplaced f).1, ← (Form.text_unplaced g).1, hfg]
  apply bind hlog
  intro R' _ _ _ _
  cases error with
  | none =>
    obtain rfl : error' = none := by simpa using herror.symm
    exact make fun s t h => made_ofForms h file file' hforms
  | some e =>
    cases error' with
    | none => simp at herror
    | some e' =>
      have hfault : e.fault = e'.fault := by simpa [ReadError.unplaced] using herror
      exact raise (congrArg Cause.malformed hfault)

end Simulates

/-- Forms that yield alike values, or nothing, one by one. -/
def Yields (R : Renaming) : List (Option Value) → List (Option Value) → Prop :=
  List.Forall₂ (Option.Rel R.Values)

/-- What sequences come to is alike if what their forms yield is. -/
theorem Yields.lastYield? {R : Renaming} {xs ys : List (Option Value)} (h : R.Yields xs ys) {v w : Value}
    (hvw : R.Values v w) : R.Values ((lastYield? xs).getD v) ((lastYield? ys).getD w) := by
  induction h generalizing v w with
  | nil => exact hvw
  | cons hxy _ ih =>
    rw [lastYield?_cons, lastYield?_cons]
    exact ih (optionRel_getD hxy hvw)

/-- An evaluator that does alike things with alike forms in frames that correspond. -/
def Blind (ev : Evaluator) : Prop :=
  ∀ (R : Renaming) (f g : FrameId) (v w : Value), R.Frames f g → R.Values v w →
    R.Simulates Values (ev f v) (ev g w)

namespace Blind

variable {R : Renaming} {ev : Evaluator} {f g : FrameId} {vs ws : List Value} {v w : Value}

/-! ## Several forms -/

theorem evalAll (hev : Blind ev) (hfg : R.Frames f g) (hvs : List.Forall₂ R.Values vs ws) :
    R.Simulates (fun R => List.Forall₂ R.Values) (evalAll ev f vs) (evalAll ev g ws) := by
  induction vs generalizing R ws with
  | nil =>
    rw [List.forall₂_nil_left_iff.1 hvs]
    exact .pure .nil
  | cons v vs ih =>
    obtain ⟨w, ws, hvw, hrest, rfl⟩ := List.forall₂_cons_left_iff.1 hvs
    rw [Lisplet.evalAll, Lisplet.evalAll]
    apply Simulates.bind (hev R f g v w hfg hvw)
    intro R' hR' x y hxy
    apply Simulates.bind (ih (hfg.mono hR') (values_mono hR' hrest))
    intro R'' hR'' xs ys hxs
    exact .pure (.cons (hxy.mono hR'') hxs)

theorem evalSequence (hev : Blind ev) (hfg : R.Frames f g) (hvs : List.Forall₂ R.Values vs ws) :
    R.Simulates Values (evalSequence ev f vs) (evalSequence ev g ws) := by
  have hnil : R.Values .nil .nil := .nil
  apply Simulates.foldlM hvs hnil
  intro R' hR' _ _ v w _ hvw
  exact hev R' f g v w (hfg.mono hR') hvw

/-- A warning is skipped on both sides or on neither: it is one by its cause. -/
theorem yieldOf (hev : Blind ev) (policy : WarnPolicy) (hfg : R.Frames f g) (hvw : R.Values v w) :
    R.Simulates (fun R => Option.Rel R.Values) (yieldOf ev policy f v) (yieldOf ev policy g w) := by
  intro a b hab
  obtain ⟨R', hR', hresult⟩ := hev R f g v w hfg hvw a b hab
  unfold Lisplet.yieldOf
  generalize ev f v a = outcome at hresult ⊢
  generalize ev g w b = outcome' at hresult ⊢
  cases hresult with
  | ok hab' hvalue => exact ⟨R', hR', .ok hab' (.some hvalue)⟩
  | @error why why' a' b' hab' hwhy =>
    cases hwhy with
    | @raised e e' hcause =>
      -- the two errors may have different places, but only the cause says whether they are fatal
      have hfatal : e.isFatal = e'.isFatal := by
        rw [Error.isFatal, Error.isFatal, Error.kind, Error.kind, hcause]
      have hnote : R'.Simulates (fun _ _ _ => True) (Run.note (.skipped e))
          (Run.note (.skipped e')) := by
        apply Simulates.note
        rw [LogEntry.unplaced, LogEntry.unplaced, hcause]
      have hskip : R'.Simulates (fun R => Option.Rel R.Values) (do Run.note (.skipped e); pure none)
          (do Run.note (.skipped e'); pure none) := by
        apply Simulates.bind hnote
        intro R'' _ _ _ _
        exact .pure .none
      by_cases hgo : (!e'.isFatal && policy == .keepGoing) = true
      · obtain ⟨R'', hR'', hresult'⟩ := hskip a' b' hab'
        refine ⟨R'', hR'.trans hR'', ?_⟩
        simp only [hfatal, hgo, if_true]
        exact hresult'
      · refine ⟨R', hR', ?_⟩
        simp only [hfatal, hgo, Bool.false_eq_true, if_false]
        exact .error hab' (.raised hcause)
    | exhausted => exact ⟨R', hR', .error hab' .exhausted⟩
    | withheld p => exact ⟨R', hR', .error hab' (.withheld p)⟩

theorem yields (hev : Blind ev) (policy : WarnPolicy) (hfg : R.Frames f g)
    (hvs : List.Forall₂ R.Values vs ws) :
    R.Simulates Yields (yields ev policy f vs) (yields ev policy g ws) := by
  induction vs generalizing R ws with
  | nil =>
    rw [List.forall₂_nil_left_iff.1 hvs]
    exact .pure .nil
  | cons v vs ih =>
    obtain ⟨w, ws, hvw, hrest, rfl⟩ := List.forall₂_cons_left_iff.1 hvs
    rw [Lisplet.yields, Lisplet.yields]
    apply Simulates.bind (hev.yieldOf policy hfg hvw)
    intro R' hR' x y hxy
    apply Simulates.bind (ih (hfg.mono hR') (values_mono hR' hrest))
    intro R'' hR'' xs ys hxs
    exact .pure (.cons (optionRel_imp (fun _ _ => Values.mono hR'') hxy) hxs)

theorem evalToplevel (hev : Blind ev) (hfg : R.Frames f g) (hvs : List.Forall₂ R.Values vs ws) :
    R.Simulates Values (evalToplevel ev f vs) (evalToplevel ev g ws) := by
  have hpolicy : R.Simulates (fun _ => Eq) (Run.read (·.policy f)) (Run.read (·.policy g)) :=
    .read fun s t h => h.policy hfg
  apply Simulates.bind hpolicy
  rintro R' hR' policy _ rfl
  rw [foldlM_evalTop, foldlM_evalTop]
  apply Simulates.bind (hev.yields policy (hfg.mono hR') (values_mono hR' hvs))
  intro R'' _ xs ys hxs
  exact .pure (hxs.lastYield? .nil)

/-- Texts with tokens of the same kinds do alike things, whatever their layout and their files. -/
theorem runSource (hev : Blind ev) (hfg : R.Frames f g) {text text' : String}
    (htext : tokenKinds text = tokenKinds text') (file file' : String) :
    R.Simulates Values (runSource ev f text file) (runSource ev g text' file') := by
  apply Simulates.bind (Simulates.readSource htext file file')
  intro R' hR' vs ws hvs
  exact hev.evalToplevel (hfg.mono hR') hvs

/-! ## Applications -/

theorem loadFile (host : Host) (hev : Blind ev) (hfg : R.Frames f g) {args args' : Value}
    (hargs : R.Values args args') :
    R.Simulates Values (loadFile host ev f args) (loadFile host ev g args') := by
  apply Simulates.oneArgument_bind hargs
  intro R' hR' a b hab
  apply Simulates.ofExcept_bind (hab.asString _)
  rintro path _ rfl
  apply Simulates.bind (Simulates.note rfl)
  intro R'' hR'' _ _ _
  cases host.files path with
  | ok text => exact hev.runSource (hfg.mono (hR'.trans hR'')) rfl path path
  | error fault =>
    apply Simulates.raise
    rw [Error.cause_locate, Error.cause_locate]

/-- Every primitive but `inspect` does alike things with alike arguments. -/
theorem call (host : Host) (hev : Blind ev) (hfg : R.Frames f g) {p : Primitive} (hp : p ≠ .inspect)
    {args args' : Value} (hargs : R.Values args args') :
    R.Simulates Values (p.call host ev f args) (p.call host ev g args') := by
  cases p with
  | isNull => exact .test hargs _ fun R v w h => h.isNil_eq
  | isSymbol => exact .test hargs _ fun R v w h => by rw [h.symbol?_eq]
  | isAtom => exact .test hargs _ fun R v w h => by rw [h.isPair_eq]
  | isPair => exact .test hargs _ fun R v w h => h.isPair_eq
  | isList => exact .test hargs _ fun R v w h => by rw [h.isPair_eq, h.isNil_eq]
  | isEqual => exact .isEqual hargs
  | add => exact .add hargs
  | not => exact .not hargs
  | assert | warn => exact .require hargs _ _
  | car => exact .car hargs
  | cdr => exact .cdr hargs
  | cons => exact .cons hargs
  | list => exact .pure hargs
  | length => exact .length hargs
  | setCar => exact .setCar hargs
  | setCdr => exact .setCdr hargs
  | makeHash => exact .makeHash hargs
  | hashSet => exact .hashSet hargs
  | hashRef => exact .hashRef hargs
  | inspect => exact absurd rfl hp
  | load => exact hev.loadFile host hfg hargs

theorem applyClosure (hev : Blind ev) {k l : Closure} (hparams : k.params = l.params)
    (hbody : List.Forall₂ R.Values k.body l.body) (hframe : R.Frames k.frame l.frame)
    (hvs : List.Forall₂ R.Values vs ws) :
    R.Simulates Values (applyClosure ev k vs) (applyClosure ev l ws) := by
  unfold Lisplet.applyClosure
  rw [hparams, hvs.length_eq]
  split
  · apply Simulates.bind (Simulates.make fun s t h => made_extend h hframe l.params hvs)
    intro R' hR' f g hfg
    exact hev.evalSequence hfg (values_mono hR' hbody)
  · exact .fail _

theorem apply {host : Host} (hhost : host.permits .inspect = false) (hev : Blind ev)
    (hfg : R.Frames f g) (hvw : R.Values v w) (hvs : List.Forall₂ R.Values vs ws) :
    R.Simulates Values (apply host ev f v vs) (apply host ev g w ws) := by
  have htype := hvw.typeName_eq
  have hother : R.Simulates Values
      (Run.check fun s => .error (.ofCause (.notApplicable v.typeName (s.text v))))
      (Run.check fun s => .error (.ofCause (.notApplicable w.typeName (s.text w)))) := by
    apply Simulates.check
    intro s t h
    refine .error ?_
    rw [htype, h.text hvw]
  obtain ⟨x, p⟩ := v
  obtain ⟨y, q⟩ := w
  cases (hvw : R.Datums x y) with
  | native p =>
    unfold Lisplet.apply
    dsimp only
    by_cases hp : host.permits p = true
    · -- the one primitive that shows provenance is withheld by the host
      have hne : p ≠ .inspect := by
        rintro rfl
        rw [hhost] at hp
        cases hp
      rw [if_pos hp, if_pos hp]
      apply Simulates.bind (Simulates.make fun s t h => made_ofList h hvs)
      intro R' hR' args args' hargs
      exact hev.call host (hfg.mono hR') hne hargs
    · rw [if_neg hp, if_neg hp]
      exact .stop (.withheld p)
  | closure hkl =>
    have hread : R.Simulates
        (fun R k l => k.params = l.params ∧ List.Forall₂ R.Values k.body l.body ∧
          R.Frames k.frame l.frame) (Run.read (·.closure _)) (Run.read (·.closure _)) :=
      .read fun s t h => h.closure hkl
    apply Simulates.bind hread
    rintro R' hR' k l ⟨hparams, hbody, hframe⟩
    exact hev.applyClosure hparams hbody hframe (values_mono hR' hvs)
  | nil | pair | atom | hash => exact hother

/-! ## Special forms -/

theorem listElements (hvw : R.Values v w) :
    R.Simulates (fun R => List.Forall₂ R.Values) (Run.check (·.listElements v))
      (Run.check (·.listElements w)) :=
  .check fun _ _ h => h.listElements hvw

theorem testResult (form : String) (hvw : R.Values v w) :
    R.Simulates (fun _ => Eq) (testResult form v) (testResult form w) := by
  unfold Lisplet.testResult
  rw [hvw.bool?_eq, hvw.typeName_eq]
  split
  · exact .pure rfl
  · exact .fail _

theorem clauseTest (hev : Blind ev) (hfg : R.Frames f g) (hvw : R.Values v w) :
    R.Simulates Values (clauseTest ev f v) (clauseTest ev g w) := by
  unfold Lisplet.clauseTest
  have helse : v.isSymbol "else" = w.isSymbol "else" := by
    rw [Value.isSymbol, Value.isSymbol, hvw.symbol?_eq]
  rw [helse]
  split
  · exact .pure (.atom _)
  · exact hev R f g v w hfg hvw

theorem evalCond (hev : Blind ev) (hfg : R.Frames f g) (hvs : List.Forall₂ R.Values vs ws) :
    R.Simulates Values (evalCond ev f vs) (evalCond ev g ws) := by
  induction vs generalizing R ws with
  | nil =>
    rw [List.forall₂_nil_left_iff.1 hvs]
    exact .pure .nil
  | cons clause vs ih =>
    obtain ⟨clause', ws, hclause, hrest, rfl⟩ := List.forall₂_cons_left_iff.1 hvs
    rw [Lisplet.evalCond, Lisplet.evalCond]
    apply Simulates.bind (listElements hclause)
    intro R₁ hR₁ parts parts' hparts
    cases hparts with
    | nil => exact .fail _
    | @cons test test' body body' htest hbody =>
      apply Simulates.bind (hev.clauseTest (hfg.mono hR₁) htest)
      intro R₂ hR₂ x y hxy
      apply Simulates.bind (testResult "cond" hxy)
      rintro R₃ hR₃ chosen _ rfl
      have hR : R ≤ R₃ := (hR₁.trans hR₂).trans hR₃
      cases chosen with
      | true =>
        cases hbody with
        | nil => exact .pure (hxy.mono hR₃)
        | cons hform hforms =>
          exact hev.evalSequence (hfg.mono hR) (values_mono (hR₂.trans hR₃) (.cons hform hforms))
      | false => exact ih (hfg.mono hR) (values_mono hR hrest)

theorem parameterNames (hvs : List.Forall₂ R.Values vs ws) (seen : List String) :
    Attempts Eq (parameterNames seen vs) (parameterNames seen ws) := by
  induction hvs generalizing seen with
  | nil => exact .ok rfl
  | cons hvw _ ih =>
    rw [Lisplet.parameterNames, Lisplet.parameterNames, hvw.symbol?_eq]
    split
    · refine .error ?_
      rw [Error.cause_locate, Error.cause_locate, hvw.typeName_eq]
    · split
      · refine .error ?_
        rw [Error.cause_locate, Error.cause_locate]
      · exact ih _

/-- Define the value that evaluation has come to. -/
theorem define (hfg : R.Frames f g) (name : String) (hvw : R.Values v w) :
    R.Simulates Values
      (do
        Run.note (.defined name (v.withBound name).typeName)
        Run.change (Store.define f name (v.withBound name))
        pure (v.withBound name))
      (do
        Run.note (.defined name (w.withBound name).typeName)
        Run.change (Store.define g name (w.withBound name))
        pure (w.withBound name)) := by
  have hbound : R.Values (v.withBound name) (w.withBound name) := hvw
  rw [hbound.typeName_eq]
  apply Simulates.bind (Simulates.note rfl)
  intro R₁ hR₁ _ _ _
  apply Simulates.bind (Simulates.change fun s t h =>
    h.define (hfg.mono hR₁) name (hbound.mono hR₁))
  intro R₂ hR₂ _ _ _
  exact .pure (hbound.mono (hR₁.trans hR₂))

/-- A closure is made of the names and the forms, and of nothing else that was read. -/
theorem lambda (hfg : R.Frames f g) (location location' : Location) (hvw : R.Values v w)
    (hvs : List.Forall₂ R.Values vs ws) :
    R.Simulates Values
      (do
        let params ← Run.check (·.listElements v)
        let names ← Run.ofExcept (Lisplet.parameterNames [] params)
        let made ← Run.make (Store.newClosure ⟨names, vs, f⟩)
        pure (made.withLocation location))
      (do
        let params ← Run.check (·.listElements w)
        let names ← Run.ofExcept (Lisplet.parameterNames [] params)
        let made ← Run.make (Store.newClosure ⟨names, ws, g⟩)
        pure (made.withLocation location')) := by
  apply Simulates.bind (listElements hvw)
  intro R₁ hR₁ params params' hparams
  apply Simulates.ofExcept_bind (parameterNames hparams [])
  rintro names _ rfl
  have hmake : R₁.Simulates Values (Run.make (Store.newClosure ⟨names, vs, f⟩))
      (Run.make (Store.newClosure ⟨names, ws, g⟩)) :=
    .make fun _ _ h => made_newClosure h rfl (values_mono hR₁ hvs) (hfg.mono hR₁)
  apply Simulates.bind hmake
  intro R₂ hR₂ made made' hmade
  exact .pure hmade

theorem fail_operandCount {Q : Renaming → Value → Value → Prop} (form : String)
    (expected : OperandCount) (hlength : vs.length = ws.length) :
    R.Simulates Q (Run.fail (.operandCount form expected vs.length))
      (Run.fail (.operandCount form expected ws.length)) := by
  rw [hlength]
  exact .fail _

/-- A test and the two branches behind it. -/
theorem conditional (hev : Blind ev) (hfg : R.Frames f g) (hvw : R.Values v w)
    {consequent consequent' alternative alternative' : Run Value}
    (hthen : ∀ R' : Renaming, R ≤ R' → R'.Simulates Values consequent consequent')
    (helse : ∀ R' : Renaming, R ≤ R' → R'.Simulates Values alternative alternative') :
    R.Simulates Values
      (do
        let x ← ev f v
        if ← Lisplet.testResult "if" x then consequent else alternative)
      (do
        let y ← ev g w
        if ← Lisplet.testResult "if" y then consequent' else alternative') := by
  apply Simulates.bind (hev R f g v w hfg hvw)
  intro R₁ hR₁ x y hxy
  apply Simulates.bind (testResult "if" hxy)
  rintro R₂ hR₂ chosen _ rfl
  cases chosen with
  | true => exact hthen R₂ (hR₁.trans hR₂)
  | false => exact helse R₂ (hR₁.trans hR₂)

theorem evalSpecial (hev : Blind ev) (hfg : R.Frames f g) (location location' : Location)
    (form : SpecialForm) (hvs : List.Forall₂ R.Values vs ws) :
    R.Simulates Values (evalSpecial ev f location form vs) (evalSpecial ev g location' form ws) := by
  -- the number of operands is the same on both sides, so each form is split by how many there are
  have hlength := hvs.length_eq
  cases form with
  | quote =>
    rcases hvs with - | ⟨hdatum, - | ⟨-, -⟩⟩
    · exact fail_operandCount _ _ hlength
    · exact .pure hdatum
    · exact fail_operandCount _ _ hlength
  | conditional =>
    rcases hvs with - | ⟨htest, - | ⟨hthen, - | ⟨helse, - | ⟨-, -⟩⟩⟩⟩
    · exact fail_operandCount _ _ hlength
    · exact fail_operandCount _ _ hlength
    · exact hev.conditional hfg htest
        (fun R' hR' => hev R' f g _ _ (hfg.mono hR') (hthen.mono hR')) fun R' _ => .pure .nil
    · exact hev.conditional hfg htest
        (fun R' hR' => hev R' f g _ _ (hfg.mono hR') (hthen.mono hR'))
        fun R' hR' => hev R' f g _ _ (hfg.mono hR') (helse.mono hR')
    · exact fail_operandCount _ _ hlength
  | cond => exact hev.evalCond hfg hvs
  | define =>
    rcases hvs with - | ⟨htarget, - | ⟨hexpr, - | ⟨-, -⟩⟩⟩
    · exact fail_operandCount _ _ hlength
    · exact fail_operandCount _ _ hlength
    · -- the target decides before the expression is evaluated, and the message names its type
      simp only [Lisplet.evalSpecial]
      rw [htarget.symbol?_eq, htarget.typeName_eq]
      split
      · exact .fail _
      · apply Simulates.bind (hev R f g _ _ hfg hexpr)
        intro R₁ hR₁ x y hxy
        exact define (hfg.mono hR₁) _ hxy
    · exact fail_operandCount _ _ hlength
  | lambda =>
    rcases hvs with - | ⟨hparams, - | ⟨hform, hforms⟩⟩
    · exact fail_operandCount _ _ hlength
    · exact fail_operandCount _ _ hlength
    · exact lambda hfg location location' hparams (.cons hform hforms)
  | begin => exact hev.evalSequence hfg hvs

/-! ## Evaluation -/

theorem operandsOf {x y : Option Value} (hxy : Option.Rel R.Values x y) :
    R.Simulates (fun R => List.Forall₂ R.Values) (operandsOf x) (operandsOf y) := by
  cases hxy with
  | none => exact .pure .nil
  | some h => exact listElements h

variable {host : Host}

theorem evalPair (hhost : host.permits .inspect = false) (hev : Blind ev) (hfg : R.Frames f g)
    (location location' : Location) {c d : Cell} (hcar : R.Values c.car d.car)
    (hcdr : Option.Rel R.Values c.cdr d.cdr) :
    R.Simulates Values (evalPair host ev f location c) (evalPair host ev g location' d) := by
  unfold Lisplet.evalPair
  rw [hcar.symbol?_eq]
  split
  · apply Simulates.bind (operandsOf hcdr)
    intro R₁ hR₁ vs ws hvs
    exact hev.evalSpecial (hfg.mono hR₁) location location' _ hvs
  · apply Simulates.bind (hev R f g _ _ hfg hcar)
    intro R₁ hR₁ func func' hfunc
    apply Simulates.bind (operandsOf (optionRel_imp (fun _ _ => Values.mono hR₁) hcdr))
    intro R₂ hR₂ vs ws hvs
    apply Simulates.bind (hev.evalAll (hfg.mono (hR₁.trans hR₂)) hvs)
    intro R₃ hR₃ args args' hargs
    exact hev.apply hhost (hfg.mono ((hR₁.trans hR₂).trans hR₃)) (hfunc.mono (hR₂.trans hR₃)) hargs

/-- One step of the evaluator is blind to provenance, if the evaluations it rests on are. -/
theorem step (hhost : host.permits .inspect = false) (hev : Blind ev) : Blind (step host ev) := by
  intro R f g v w hfg hvw
  -- an error without a place gets that of the form, which changes nothing about its cause
  apply Simulates.locating
  obtain ⟨x, p⟩ := v
  obtain ⟨y, q⟩ := w
  cases (hvw : R.Datums x y) with
  | atom a =>
    cases a with
    | symbol name =>
      apply Simulates.check
      intro s t h
      have hlookup := h.lookup hfg name
      generalize s.lookup f name = found at hlookup ⊢
      generalize t.lookup g name = found' at hlookup ⊢
      cases hlookup with
      | none => exact .error rfl
      | some hfound => exact .ok hfound
    | number | string | bool => exact .pure (.atom _)
  | pair hcd =>
    have hread : R.Simulates
        (fun R c d => R.Values c.car d.car ∧ Option.Rel R.Values c.cdr d.cdr)
        (Run.read (·.cell _)) (Run.read (·.cell _)) := .read fun s t h => h.cell hcd
    apply Simulates.bind hread
    rintro R' hR' c d ⟨hcar, hcdr⟩
    exact hev.evalPair hhost (hfg.mono hR') p.location q.location hcar hcdr
  | nil => exact .pure .nil
  | closure h => exact .pure (.closure h)
  | native p => exact .pure (.native p)
  | hash h => exact .pure (.hash h)

/-- Evaluation is blind to provenance as long as nothing is inspected. -/
theorem eval (hhost : host.permits .inspect = false) (n : Nat) : Blind (eval host n) := by
  induction n with
  | zero =>
    intro R f g v w _ _
    exact .stop .exhausted
  | succ n ih => exact ih.step hhost

end Blind

end Renaming

end Lisplet
