/-
# Lisplet.Proofs.Pieces -- a program in pieces

A program can be given to a session as a whole or piece by piece, and comes to the same.  That is not
obvious: a text is read before any of it is evaluated, so the forms of the second piece are in the store
while the first is evaluated, or they are not.  They have different identities and stand in other rows, and
what the first piece makes gets other identities as well.

The two runs go hand in hand.  While the first piece is evaluated, the forms that wait for their turn
correspond to nothing, and nothing touches them; when they are read again, on the other side, they find
their counterparts (`Stores.adopt_confined`).  What follows is alike, down to what each form of the second
piece yields (`whole_goes_on`).  If it yields nothing at all, then the whole comes to what the first piece
came to, where the second piece alone comes to the empty list.
-/

import Mathlib.Tactic
import Lisplet.Proofs.Evaluator.Unread
import Lisplet.Proofs.KeepGoing
import Lisplet.Proofs.Lines
import Lisplet.Proofs.Provenance
import Lisplet.Proofs.Store.Adopting

namespace Lisplet

open Run Renaming

/-! ## Reading -/

/-- What is logged of forms that are read, wherever they stand. -/
def readings (forms : List Form) : Array LogEntry :=
  (forms.map fun form => LogEntry.read form.text .unknown).toArray

/-- What a session has logged, but for locations. -/
def Session.entries (session : Session) : Array LogEntry := session.state.log.map LogEntry.unplaced

theorem map_unplaced_notes (file : String) (forms : List Form) :
    (Form.notes file forms).map LogEntry.unplaced = readings forms := by
  simp [Form.notes, readings, Function.comp_def, LogEntry.unplaced]

theorem readings_append (fs gs : List Form) : readings (fs ++ gs) = readings fs ++ readings gs := by
  simp [readings]

theorem readings_congr {fs gs : List Form} (h : fs.map Form.unplaced = gs.map Form.unplaced) :
    readings fs = readings gs := by
  have hunplaced : ∀ fs : List Form,
      readings fs = ((fs.map Form.unplaced).map fun form => LogEntry.read form.text .unknown).toArray := by
    intro fs
    simp [readings, Function.comp_def, (Form.text_unplaced _).1]
  rw [hunplaced, hunplaced, h]

theorem Form.unplaced_moved (φ : Position → Position) (f : Form) : (f.moved φ).unplaced = f.unplaced := by
  induction f with
  | atom | empty => rfl
  | single p car ih => simp [moved, unplaced, ih]
  | pair p car cdr ihcar ihcdr => simp [moved, unplaced, ihcar, ihcdr]

/-- A text behind another adds its forms, in other places. -/
theorem Reading.toExcept_lines {a b : String} {F G : List Form}
    (ha : (Reading.ofText a).toExcept = .ok F) (hb : (Reading.ofText b).toExcept = .ok G) :
    ∃ G' : List Form, G'.map Form.unplaced = G.map Form.unplaced ∧
      (Reading.ofText (a ++ "\n" ++ b)).toExcept = .ok (F ++ G') := by
  refine ⟨G.map (Form.moved (Position.lower (lineFeeds a + 1))), ?_, ?_⟩
  · simp [Function.comp_def, Form.unplaced_moved]
  · rw [Reading.ofText_lines ha, hb]
    rfl

/-! ## Evaluating what was read -/

section Evaluation

variable {host : Host} {depth : Nat} {policy : WarnPolicy} {env : FrameId} {s : Store}

/-- Make the forms of a text in the store and evaluate them, with nothing in the log. -/
def evaluation (host : Host) (depth : Nat) (policy : WarnPolicy) (env : FrameId) (file : String)
    (forms : List Form) (s : Store) : EStateM.Result Stop State (List (Option Value)) :=
  yields (eval host depth) policy env (s.ofForms file forms).1 ⟨(s.ofForms file forms).2, #[]⟩

/-- A text that can be read is evaluated behind the record of its reading. -/
theorem yieldsSource_eq {text : String} {forms : List Form}
    (htext : (Reading.ofText text).toExcept = .ok forms) (file : String) {state : State}
    (hrooted : state.store.Rooted env policy) :
    yieldsSource (eval host depth) env text file state =
      resultBehind (state.log ++ Form.notes file forms)
        (evaluation host depth policy env file forms state.store) := by
  have hread := readSource_eq text file state
  rw [htext] at hread
  -- reading makes pairs only, so the policy is still that of the session
  obtain ⟨hframes, hclosures⟩ := Store.frames_ofForms file forms state.store
  have hrooted' := hrooted.congr hframes hclosures
  have hpolicy : (state.store.ofForms file forms).2.policy env = policy :=
    hrooted'.policy_eq hrooted'.global
  show EStateM.bind (readSource text file) _ state = _
  unfold EStateM.bind
  rw [hread]
  show yields (eval host depth) ((state.store.ofForms file forms).2.policy env) env _ _ = _
  rw [hpolicy]
  exact Appends.yields (Appends.eval host depth) policy _ _ _

/-- Of two rows of forms, the first is evaluated while the second is already there. -/
theorem evaluation_append (file : String) (fs gs : List Form) :
    evaluation host depth policy env file (fs ++ gs) s =
      match yields (eval host depth) policy env (s.ofForms file fs).1
        ⟨((s.ofForms file fs).2.ofForms file gs).2, #[]⟩ with
      | .error why t => .error why t
      | .ok xs t =>
        match resultBehind t.log (yields (eval host depth) policy env
          ((s.ofForms file fs).2.ofForms file gs).1 ⟨t.store, #[]⟩) with
        | .error why u => .error why u
        | .ok ys u => .ok (xs ++ ys) u := by
  unfold evaluation
  rw [Store.ofForms_append, yields_append]
  show EStateM.bind (yields _ _ _ (s.ofForms file fs).1) _ _ = _
  unfold EStateM.bind
  cases yields (eval host depth) policy env (s.ofForms file fs).1
      ⟨((s.ofForms file fs).2.ofForms file gs).2, #[]⟩ with
  | error why t => rfl
  | ok xs t =>
    show EStateM.bind (yields _ _ _ ((s.ofForms file fs).2.ofForms file gs).1) _ _ = _
    unfold EStateM.bind
    -- the log is never read, so the second row may as well begin with an empty one
    rw [Appends.yields (Appends.eval host depth) policy _ t.store t.log]
    dsimp only
    cases resultBehind t.log (yields (eval host depth) policy env
        ((s.ofForms file fs).2.ofForms file gs).1 ⟨t.store, #[]⟩) with
    | error why u => rfl
    | ok ys u => rfl

/-- What is set aside is left alone by the evaluation of other forms, and no value leads there. -/
theorem Confined.of_yields {t : Store} {state state' : State} (h : Confined s t state.store)
    (henv : state.store.Holds (.frame env)) {forms : List Value} {ys : List (Option Value)}
    (hforms : ∀ form ∈ forms, form.Beside s t state.store)
    (hyields : yields (eval host depth) policy env forms state = .ok ys state') :
    Confined s t state'.store ∧ ((lastYield? ys).getD .nil).Beside s t state'.store := by
  -- the standard is about evaluations with a record, which changes nothing about how they end
  have hgives := (confined host s t).evalForms ((confined host s t).eval depth)
    (w := { state := state }) h policy henv ((confined host s t).nil _) hforms
  have herases := Recorded.Erases.foldlM
    (fun result form => (Recorded.Records.eval host depth).evalTop policy env result form) forms .nil
    { state := state }
  have hfold : forms.foldlM (evalTop (eval host depth) policy env) .nil state =
      .ok ((lastYield? ys).getD .nil) state' := by
    rw [foldlM_evalTop]
    show EStateM.bind (yields (eval host depth) policy env forms) _ state = _
    unfold EStateM.bind
    rw [hyields]
    rfl
  unfold Standard.Gives Standard.Safe at hgives
  cases hrecorded : forms.foldlM (Recorded.evalTop (Recorded.eval host depth) policy env) .nil
      { state := state } with
  | ok v w =>
    rw [hrecorded] at hgives herases
    cases herases.symm.trans hfold
    exact ⟨hgives.1, hgives.2.2⟩
  | error why w =>
    rw [hrecorded] at herases
    cases herases.symm.trans hfold

/-- The forms of the second piece are set aside while the first is evaluated: the store is closed but for
them, and the forms of the first are beside them. -/
theorem set_aside (hclosed : s.Closed) (henv : s.Holds (.frame env)) {a : String} {F : List Form}
    (ha : (Reading.ofText a).toExcept = .ok F) (file : String) (G : List Form) :
    let t := (s.ofForms file F).2
    let u := (t.ofForms file G).2
    Confined t u u ∧ u.Holds (.frame env) ∧ ∀ form ∈ (s.ofForms file F).1, form.Beside t u u := by
  intro t u
  have hwithin : ∀ f ∈ F, f.Within (TokenAt a) := by
    have hforms := Reading.ofText_forms_within a
    rwa [Reading.toExcept_eq_ok.1 ha] at hforms
  have hinv : (confined bareHost {} {}).Inv { state := { store := s } } := hclosed
  have hknown : (confined bareHost {} {}).Known { state := { store := s } } file a := trivial
  obtain ⟨hclosed', hle, hforms⟩ := Standard.ofForms hinv hknown hwithin
  have hextends : t.Extends u := Store.extends_ofForms file G t
  refine ⟨confined_ofForms hclosed' file G, (hextends _ (hle _ henv)).1, fun form hform => ?_⟩
  exact (hforms form hform).later hextends

/-! ## Hand in hand -/

/-- The first piece goes the same way, whether the second is already in the store or not. -/
theorem first_alike (hhost : host.permits .inspect = false) (depth : Nat) (policy : WarnPolicy)
    (hclosed : s.Closed) (henv : s.Holds (.frame env)) (file file₁ : String) (F G : List Form) :
    ∃ R : Renaming, R.Frames env env ∧
      R.Results Yields
        (yields (eval host depth) policy env (s.ofForms file F).1
          ⟨((s.ofForms file F).2.ofForms file G).2, #[]⟩)
        (evaluation host depth policy env file₁ F s) := by
  -- the first piece is made on both sides, the second on one side only
  obtain ⟨R, hR, hstores, hforms⟩ := made_ofForms (stores_same hclosed) file file₁ (rfl : F.map _ = _)
  have hframes : R.Frames env env := hR _ _ ⟨henv, rfl⟩
  have hextends := Store.extends_ofForms file G (s.ofForms file F).2
  have hordered : ((s.ofForms file F).2.ofForms file G).2.Ordered := by
    intro f p hp
    rw [Store.frame, (Store.frames_ofForms file G _).1] at hp
    exact hstores.ordered.1 f p hp
  obtain ⟨R', hR', hresults⟩ := (Blind.eval hhost depth).yields policy hframes hforms
    ⟨_, #[]⟩ ⟨_, #[]⟩ ⟨hstores.extend_left hextends hordered, rfl⟩
  exact ⟨R', hframes.mono hR', hresults⟩

/-- Where the first piece stops, the whole stops for the same reason. -/
theorem whole_stops (hhost : host.permits .inspect = false) (hclosed : s.Closed)
    (henv : s.Holds (.frame env)) (file : String) {file₁ : String} {F : List Form} (G : List Form)
    {why : Stop} {t : State} (hfirst : evaluation host depth policy env file₁ F s = .error why t) :
    ∃ why' t', evaluation host depth policy env file (F ++ G) s = .error why' t' ∧ why'.Alike why := by
  obtain ⟨R, -, hresults⟩ := first_alike hhost depth policy hclosed henv file file₁ F G
  rw [hfirst] at hresults
  rw [evaluation_append]
  generalize yields (eval host depth) policy env (s.ofForms file F).1
    ⟨((s.ofForms file F).2.ofForms file G).2, #[]⟩ = outcome at hresults ⊢
  cases hresults with
  | error _ hwhy => exact ⟨_, _, rfl, hwhy⟩

/-- Where the first piece comes to its end, the rest of the whole goes the same way as the second piece:
it is evaluated in a store that is alike, and ends like that. -/
theorem whole_goes_on (hhost : host.permits .inspect = false) (hclosed : s.Closed)
    (henv : s.Holds (.frame env)) {a : String} {F G G' : List Form}
    (ha : (Reading.ofText a).toExcept = .ok F) (hG : G'.map Form.unplaced = G.map Form.unplaced)
    (file : String) {file₁ : String} (file₂ : String) {xs : List (Option Value)} {t : State}
    (hfirst : evaluation host depth policy env file₁ F s = .ok xs t) :
    ∃ (R : Renaming) (xs' : List (Option Value)) (log : Array LogEntry)
        (rest : EStateM.Result Stop State (List (Option Value))),
      log.map LogEntry.unplaced = t.log.map LogEntry.unplaced ∧ R.Frames env env ∧
      R.Values ((lastYield? xs').getD .nil) ((lastYield? xs).getD .nil) ∧
      R.Results Yields rest (evaluation host depth policy env file₂ G t.store) ∧
      evaluation host depth policy env file (F ++ G') s =
        match resultBehind log rest with
        | .error why u => .error why u
        | .ok ys u => .ok (xs' ++ ys) u := by
  obtain ⟨R, hframes, hresults⟩ := first_alike hhost depth policy hclosed henv file file₁ F G'
  rw [hfirst] at hresults
  rw [evaluation_append]
  obtain ⟨hconfined, henv', hbeside⟩ := set_aside hclosed henv ha file G'
  cases hyields : yields (eval host depth) policy env (s.ofForms file F).1
      ⟨((s.ofForms file F).2.ofForms file G').2, #[]⟩ with
  | error why u =>
    rw [hyields] at hresults
    cases hresults
  | ok xs' u =>
    rw [hyields] at hresults
    obtain ⟨hkept, hresult⟩ := hconfined.of_yields henv' hbeside hyields
    cases hresults with
    | ok hstates hxs =>
      have hnil : R.Values .nil .nil := .nil
      -- the second piece is read, and what waited for it finds its counterparts
      obtain ⟨R', hstores, hvalues, hframes', hvalues'⟩ :=
        hstates.stores.adopt_confined hkept file₂ hG
      obtain ⟨R'', hR'', hresults'⟩ := (Blind.eval hhost depth).yields policy (hframes' _ _ hframes) hvalues
        ⟨_, #[]⟩ ⟨_, #[]⟩ ⟨hstores, rfl⟩
      exact ⟨R'', xs', u.log, _, hstates.logs, (hframes' _ _ hframes).mono hR'',
        (hvalues' _ _ hresult (hxs.lastYield? hnil)).mono hR'', hresults', rfl⟩

end Evaluation

/-! ## Sessions -/

namespace Session

/-- The session behind a text whose forms were evaluated, if `t` is what that has left behind. -/
def after (session : Session) (file : String) (forms : List Form) (t : State) : Session :=
  ⟨session.env, t.store, session.state.log ++ Form.notes file forms ++ t.log⟩

theorem entries_after (session : Session) (file : String) (forms : List Form) (t : State) :
    (session.after file forms t).entries =
      session.entries ++ readings forms ++ t.log.map LogEntry.unplaced := by
  simp [entries, after, map_unplaced_notes]

/-- A run is the evaluation of the forms that were read. -/
theorem run_eq_evaluation {session : Session} {policy : WarnPolicy} {text : String} {forms : List Form}
    (hrooted : session.state.store.Rooted session.env policy)
    (htext : (Reading.ofText text).toExcept = .ok forms) (host : Host) (depth : Nat) (file : String) :
    match evaluation host depth policy session.env file forms session.state.store with
    | .ok ys t => session.yields host depth text file = .ok ys ∧
        session.runSource host depth text file =
          (.ok ((lastYield? ys).getD .nil), session.after file forms t)
    | .error why t => session.yields host depth text file = .error why ∧
        session.runSource host depth text file = (.error why, session.after file forms t) := by
  obtain ⟨env, state⟩ := session
  have hsource := @yieldsSource_eq host depth policy env text forms htext file state hrooted
  have hrun := @runSource_of_yieldsSource (eval host depth) env text file state
  rw [hsource] at hrun
  dsimp only
  cases heval : evaluation host depth policy env file forms state.store with
  | ok ys t =>
    rw [heval] at hrun hsource
    simp [Session.runSource, Session.run, Session.yields, hrun, hsource, resultBehind, after]
  | error why t =>
    rw [heval] at hrun hsource
    simp [Session.runSource, Session.run, Session.yields, hrun, hsource, resultBehind, after]

end Session

/-- A run of the whole, and of its pieces one after the other, compared.  The first piece has the forms
`F`, the second has `G`, and `yielded` is what the forms of the second yield where it is run by itself. -/
structure Renaming.Pieced (R : Renaming) (F G : List Form) (session : Session)
    (whole first second : Outcome × Session) (yielded : Except Stop (List (Option Value))) : Prop where
  /-- The global frames correspond. -/
  env : R.Frames whole.2.env second.2.env
  /-- The stores are alike. -/
  stores : R.Stores whole.2.state.store second.2.state.store
  /-- The same is logged; but the whole is read before any of it is evaluated. -/
  logs : ∃ during behind : Array LogEntry,
    whole.2.entries = session.entries ++ readings F ++ readings G ++ during ++ behind ∧
    first.2.entries = session.entries ++ readings F ++ during ∧
    second.2.entries = first.2.entries ++ readings G ++ behind
  /-- The whole ends as the second piece does: with the error that ends that, or with the last value that
  its forms yield.  If they yield none, the result of the first piece stands. -/
  outcome : match yielded with
    | .error why => second.1 = .error why ∧ R.Outcomes whole.1 (.error why)
    | .ok ys =>
      match lastYield? ys with
      | some v => second.1 = .ok v ∧ R.Outcomes whole.1 (.ok v)
      | none => second.1 = .ok .nil ∧ R.Outcomes whole.1 first.1

/-- The same is logged in both ways, only in another order. -/
theorem entries_pieced (session : Session) (file file₁ file₂ : String) (F : List Form) {G G' : List Form}
    (hG : G'.map Form.unplaced = G.map Form.unplaced) {t u u' : State} {log : Array LogEntry}
    (hlog : log.map LogEntry.unplaced = t.log.map LogEntry.unplaced)
    (hu : u'.log.map LogEntry.unplaced = u.log.map LogEntry.unplaced) :
    ∃ during behind : Array LogEntry,
      (session.after file (F ++ G') ⟨u'.store, log ++ u'.log⟩).entries =
        session.entries ++ readings F ++ readings G ++ during ++ behind ∧
      (session.after file₁ F t).entries = session.entries ++ readings F ++ during ∧
      ((session.after file₁ F t).after file₂ G u).entries =
        (session.after file₁ F t).entries ++ readings G ++ behind := by
  refine ⟨t.log.map LogEntry.unplaced, u.log.map LogEntry.unplaced, ?_, ?_, ?_⟩
  · rw [Session.entries_after, readings_append, readings_congr hG, Array.map_append, hlog, hu]
    simp only [Array.append_assoc]
  · exact Session.entries_after session file₁ F t
  · exact Session.entries_after _ file₂ G u

/-- The last value of the whole is that of its second piece, or else that of the first. -/
theorem outcome_pieced {R : Renaming} {xs xs' ys ys' : List (Option Value)}
    (hxs : R.Values ((lastYield? xs').getD .nil) ((lastYield? xs).getD .nil)) (hys : R.Yields ys' ys) :
    match lastYield? ys with
    | some v => (Except.ok ((lastYield? ys).getD .nil) : Outcome) = .ok v ∧
        R.Outcomes (.ok ((lastYield? (xs' ++ ys')).getD .nil)) (.ok v)
    | none => (Except.ok ((lastYield? ys).getD .nil) : Outcome) = .ok .nil ∧
        R.Outcomes (.ok ((lastYield? (xs' ++ ys')).getD .nil)) (.ok ((lastYield? xs).getD .nil)) := by
  have hlast := hys.lastYield? hxs
  rw [lastYield?_append]
  cases hyield : lastYield? ys with
  | some v =>
    rw [hyield] at hlast
    exact ⟨rfl, .value hlast⟩
  | none =>
    rw [hyield] at hlast
    exact ⟨rfl, .value hlast⟩

section Blind

variable {host : Host} {depth : Nat} {policy : WarnPolicy} {session : Session} {a b : String}
  {F G : List Form} {file₁ : String}

/-- Where the first piece stops, the run of the whole stops for the same reason. -/
theorem runSource_whole_stops (hhost : host.permits .inspect = false)
    (hclosed : session.state.store.Closed) (hrooted : session.state.store.Rooted session.env policy)
    (ha : (Reading.ofText a).toExcept = .ok F) (hb : (Reading.ofText b).toExcept = .ok G) (file : String)
    {why : Stop} (hfirst : (session.runSource host depth a file₁).1 = .error why) :
    ∃ why', (session.runSource host depth (a ++ "\n" ++ b) file).1 = .error why' ∧ why'.Alike why := by
  obtain ⟨G', -, hlines⟩ := Reading.toExcept_lines ha hb
  have hrun := Session.run_eq_evaluation hrooted ha host depth file₁
  have hwhole := Session.run_eq_evaluation hrooted hlines host depth file
  cases heval : evaluation host depth policy session.env file₁ F session.state.store with
  | ok xs t =>
    rw [heval] at hrun
    rw [hrun.2] at hfirst
    cases hfirst
  | error why₁ t =>
    rw [heval] at hrun
    rw [hrun.2] at hfirst
    obtain rfl := Except.error.inj hfirst
    obtain ⟨why', t', hstops, halike⟩ := whole_stops hhost hclosed hrooted.global file G' heval
    rw [hstops] at hwhole
    exact ⟨why', congrArg Prod.fst hwhole.2, halike⟩

/-- Where the first piece comes to its end and nothing can be inspected, the whole is the two pieces. -/
theorem pieced_of_blind (hhost : host.permits .inspect = false)
    (hclosed : session.state.store.Closed) (hrooted : session.state.store.Rooted session.env policy)
    (ha : (Reading.ofText a).toExcept = .ok F) (hb : (Reading.ofText b).toExcept = .ok G)
    (file file₂ : String) (hfirst : (session.runSource host depth a file₁).1.isOk = true) :
    ∃ R : Renaming, R.Pieced F G session (session.runSource host depth (a ++ "\n" ++ b) file)
      (session.runSource host depth a file₁)
      ((session.runSource host depth a file₁).2.runSource host depth b file₂)
      ((session.runSource host depth a file₁).2.yields host depth b file₂) := by
  obtain ⟨G', hG, hlines⟩ := Reading.toExcept_lines ha hb
  have hrun := Session.run_eq_evaluation hrooted ha host depth file₁
  have hwhole := Session.run_eq_evaluation hrooted hlines host depth file
  have hrooted₁ : (session.runSource host depth a file₁).2.state.store.Rooted session.env policy :=
    Session.rooted_perform hrooted ⟨host, depth, .source a file₁⟩
  cases heval : evaluation host depth policy session.env file₁ F session.state.store with
  | error why t =>
    rw [heval] at hrun
    rw [hrun.2] at hfirst
    cases hfirst
  | ok xs t =>
    rw [heval] at hrun
    rw [hrun.2] at hrooted₁ ⊢
    have hsecond := Session.run_eq_evaluation hrooted₁ hb host depth file₂
    obtain ⟨R, xs', log, rest, hlog, hframes, hresult, hrest, hjoined⟩ :=
      whole_goes_on hhost hclosed hrooted.global ha hG file file₂ heval
    rw [hjoined] at hwhole
    -- the second piece is evaluated in the store that the first has left
    change match evaluation host depth policy session.env file₂ G t.store with
      | .ok ys u => _
      | .error why u => _ at hsecond
    cases hrest' : evaluation host depth policy session.env file₂ G t.store with
    | ok ys u =>
      rw [hrest'] at hrest hsecond
      cases hrest with
      | @ok ys' _ u' _ hstates hys =>
        rw [hwhole.2, hsecond.1, hsecond.2]
        refine ⟨R, hframes, hstates.stores, entries_pieced session file file₁ file₂ F hG hlog hstates.logs, ?_⟩
        exact outcome_pieced hresult hys
    | error why u =>
      rw [hrest'] at hrest hsecond
      cases hrest with
      | @error why' _ u' _ hstates hwhy =>
        rw [hwhole.2, hsecond.1, hsecond.2]
        exact ⟨R, hframes, hstates.stores, entries_pieced session file file₁ file₂ F hG hlog hstates.logs,
          rfl, outcomes_error hwhy⟩

end Blind

/-- Feeding a program in pieces is feeding it whole.  Let `a` and `b` be texts that can be read, and let a
session run `a` to a value.  Then to run `b` next, and to run both at once on lines of their own, ends in
sessions that are alike, with the same outcome for the second text: the same error, or the last value that
its forms yield; where they yield none, the whole comes to the value of `a`, and `b` alone to the empty
list. -/
theorem pieces_make_the_whole (policy : WarnPolicy) (calls : List Call) (host : Host) (depth : Nat)
    {a b : String} (ha : (Reading.ofText a).error = none) (hb : (Reading.ofText b).error = none)
    (file file₁ file₂ : String)
    (hfirst : ((Session.ofCalls policy calls).runSource host depth a file₁).1.isOk = true)
    (hinspect : ¬ (Session.ofCalls policy calls).Applies host depth .inspect (a ++ "\n" ++ b) file) :
    let session := Session.ofCalls policy calls
    let whole := session.runSource host depth (a ++ "\n" ++ b) file
    let first := session.runSource host depth a file₁
    let second := first.2.runSource host depth b file₂
    ∃ R : Renaming, R.Pieced (Reading.ofText a).forms (Reading.ofText b).forms session whole first second
      (first.2.yields host depth b file₂) := by
  intro session whole first second
  have hforms : ∀ {text : String}, (Reading.ofText text).error = none →
      (Reading.ofText text).toExcept = .ok (Reading.ofText text).forms := by
    intro text htext
    rw [Reading.toExcept, htext]
  have hhost : (host.withhold .inspect).permits .inspect = false := by simp [Host.withhold]
  have hclosed := Session.closed_ofCalls policy calls
  have hrooted := Session.rooted_ofCalls policy calls
  -- nothing is inspected by the whole, so neither is it by the first piece
  have hinspect₁ : ¬ session.Applies host depth .inspect a file₁ := by
    intro happlies
    obtain ⟨why, hwhy, halike⟩ :=
      runSource_whole_stops hhost hclosed hrooted (hforms ha) (hforms hb) file happlies
    cases halike
    exact hinspect hwhy
  have hwhole : session.runSource (host.withhold .inspect) depth (a ++ "\n" ++ b) file = whole :=
    Session.runSource_withhold hinspect
  have hrun : session.runSource (host.withhold .inspect) depth a file₁ = first :=
    Session.runSource_withhold hinspect₁
  obtain ⟨R, hpieced⟩ := pieced_of_blind hhost hclosed hrooted (hforms ha) (hforms hb) file file₂
    ((congrArg (·.1.isOk) hrun).trans hfirst)
  rw [hwhole, hrun] at hpieced
  -- nor by the second, which ends as the whole does
  have hinspect₂ : ¬ first.2.Applies host depth .inspect b file₂ := by
    intro happlies
    have houtcome := hpieced.outcome
    unfold Session.Applies at happlies
    rw [Session.runSource_eq_yields] at happlies
    cases hyields : first.2.yields (host.withhold .inspect) depth b file₂ with
    | ok ys =>
      rw [hyields] at happlies
      cases happlies
    | error why =>
      rw [hyields] at happlies houtcome
      obtain rfl : why = .withheld .inspect := Except.error.inj happlies
      refine hinspect ?_
      unfold Session.Applies
      rw [hwhole]
      exact houtcome.2.withheld_left rfl
  rw [Session.runSource_withhold hinspect₂, Session.yields_withhold hinspect₂] at hpieced
  exact ⟨R, hpieced⟩

/-- A definition, a function that changes what was defined, and a change. -/
def firstPiece : String := "(define p (cons 1 2))\n(define f (lambda (x) (set-car! p x))) ; keeps p\n(f 3)\np"

/-- Another change by the same function, a look at it, and a warning. -/
def secondPiece : String := "(f (car p))\n(set-cdr! p f)\n(car p)\n(warn #f)"

theorem pieces_make_the_whole_shared :
    (Reading.ofText firstPiece).error = none ∧ (Reading.ofText secondPiece).error = none ∧
    ((Session.ofCalls .keepGoing []).runSource bareHost 9 firstPiece "a").1.isOk = true ∧
    ¬ (Session.ofCalls .keepGoing []).Applies bareHost 9 .inspect (firstPiece ++ "\n" ++ secondPiece) "ab" ∧
    ∃ R : Renaming, R.Pieced (Reading.ofText firstPiece).forms (Reading.ofText secondPiece).forms
      (Session.ofCalls .keepGoing [])
      ((Session.ofCalls .keepGoing []).runSource bareHost 9 (firstPiece ++ "\n" ++ secondPiece) "ab")
      ((Session.ofCalls .keepGoing []).runSource bareHost 9 firstPiece "a")
      (((Session.ofCalls .keepGoing []).runSource bareHost 9 firstPiece "a").2.runSource bareHost 9
        secondPiece "b")
      (((Session.ofCalls .keepGoing []).runSource bareHost 9 firstPiece "a").2.yields bareHost 9
        secondPiece "b") := by
  have ha : (Reading.ofText firstPiece).error = none := by decide +kernel
  have hb : (Reading.ofText secondPiece).error = none := by decide +kernel
  have hfirst : ((Session.ofCalls .keepGoing []).runSource bareHost 9 firstPiece "a").1.isOk = true := by
    decide +kernel
  have hinspect : ¬ (Session.ofCalls .keepGoing []).Applies bareHost 9 .inspect
      (firstPiece ++ "\n" ++ secondPiece) "ab" := by decide +kernel
  exact ⟨ha, hb, hfirst, hinspect,
    pieces_make_the_whole .keepGoing [] bareHost 9 ha hb "ab" "a" "b" hfirst hinspect⟩

/-- Where the second piece yields nothing, the first decides what the whole comes to. -/
example :
    let first := (Session.new .keepGoing).runSource bareHost 9 "1" "a"
    ((Session.new .keepGoing).runSource bareHost 9 "1\n(warn #f)" "a").1 = first.1 ∧
      (first.2.runSource bareHost 9 "(warn #f)" "a").1 = .ok .nil := by
  decide +kernel

end Lisplet
