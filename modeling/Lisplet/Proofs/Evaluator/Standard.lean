/-
# Lisplet.Proofs.Evaluator.Standard -- what can be said of every value

All values that a program deals with come from a few sources: texts that are read, atoms and objects
that are made, and what is looked up in pairs, tables, frames and the bodies of functions.  A `Standard`
is a property of values that none of these sources breaks.  It is a property at a moment, of values with
all that they carry, and it applies to the forms of a program as to the values that the program holds.
What goes with it are the environments in which forms are evaluated, the texts that may be read, and what
can be said of the errors that are raised.

A standard has to survive what can happen to a store: something is added, something is replaced.  Then
looking things up and making things meets it, and every primitive that evaluates nothing keeps it
(`Standard.primitive`).
-/

import Mathlib.Tactic
import Lisplet.Proofs.Evaluator.Discipline
import Lisplet.Proofs.Form.Positions

namespace Lisplet

/-! ## Values and what they hold -/

/-- The identity under which a datum holds its parts. -/
def Datum.ident? : Datum → Option Ident
  | .pair c => some (.cell c)
  | .closure k => some (.closure k)
  | .hash t => some (.table t)
  | .nil | .atom _ | .native _ => none

def Value.ident? (v : Value) : Option Ident := v.datum.ident?

/-- Every value in it has `P`, the forms in the body of a closure included. -/
def Content.Each (P : Value → Prop) : Content → Prop
  | .cell x => P x.car ∧ ∀ rest ∈ x.cdr, P rest
  | .table m => ∀ key v, m.find? key = some v → P v
  | .closure k => ∀ form ∈ k.body, P form
  | .frame f => ∀ name v, f.bindings.find? name = some v → P v

theorem Content.Each.mono {P Q : Value → Prop} {x : Content} (h : x.Each P) (hPQ : ∀ v, P v → Q v) :
    x.Each Q := by
  cases x with
  | cell x => exact ⟨hPQ _ h.1, fun rest hrest => hPQ _ (h.2 rest hrest)⟩
  | table m => exact fun key v hv => hPQ _ (h key v hv)
  | closure k => exact fun form hform => hPQ _ (h form hform)
  | frame f => exact fun name v hv => hPQ _ (h name v hv)

/-- A closure and a new frame stand below frames with `P`. -/
def Content.Below (P : FrameId → Prop) : Content → Prop
  | .cell _ | .table _ => True
  | .closure k => P k.frame
  | .frame f => ∃ parent, f.parent = some parent ∧ P parent

theorem each_restOf {P : Value → Prop} {v : Value} (h : P v) : ∀ rest ∈ Store.restOf v, P rest := by
  intro rest hrest
  unfold Store.restOf at hrest
  split at hrest
  · cases hrest
  · cases hrest
    exact h

/-! ## Moments -/

namespace History

/-- The same past with another store. -/
def goto (w : History) (s : Store) : History := { w with state := { w.state with store := s } }

/-- The same past with one more entry in the log. -/
def noted (w : History) (e : LogEntry) : History :=
  { w with state := { w.state with log := w.state.log.push e } }

/-- The last thing that has happened is a call of the primitive, in the store as it is. -/
def Called (w : History) (p : Primitive) (args : Value) : Prop :=
  ∃ before, w.moments = ⟨.passed p args, w.state.store⟩ :: before

end History

/-- The values and forms that an event shows. -/
def Event.shows (e : Event) : List Value := e.forms ++ e.values

/-! ## Standards -/

/-- A property of values that is kept by all that happens under the host. -/
structure Standard (host : Host) where
  /-- What holds at all times. -/
  Inv : History → Prop
  /-- How things may go on. -/
  Le : History → History → Prop
  /-- The values that a program may hold and the forms that may be evaluated. -/
  Meets : History → Value → Prop
  /-- The environments in which a program may be evaluated. -/
  Env : History → FrameId → Prop := fun _ _ => True
  /-- The texts that may be read, each under the name of its file. -/
  Known : History → String → String → Prop := fun _ _ _ => True
  /-- The errors that may be raised. -/
  Blame : History → Error → Prop := fun _ _ => True
  refl : ∀ w, Le w w
  trans : ∀ {w w' w''}, Le w w' → Le w' w'' → Le w w''
  mono : ∀ {w w'}, Le w w' → ∀ v, Meets w v → Meets w' v
  monoEnv : ∀ {w w'}, Le w w' → ∀ f, Env w f → Env w' f := by exact fun _ _ _ => trivial
  monoKnown : ∀ {w w'}, Le w w' → ∀ file text, Known w file text → Known w' file text := by
    exact fun _ _ _ _ => trivial
  /-- What holds no parts and stands in no text meets every standard. -/
  leaf : ∀ {w v}, v.ident? = none → v.provenance.location = .unknown → Meets w v
  /-- The name that a value was last given does not matter. -/
  bound : ∀ {w v}, Meets w v → ∀ name, Meets w (v.withBound name)
  /-- A function takes the location of the form that made it. -/
  located : ∀ {w v form}, Meets w v → Meets w form →
    Meets w (v.withLocation form.provenance.location)
  /-- What is read takes the location of a token. -/
  placed : ∀ {w v file text p}, Meets w v → Known w file text → TokenAt text p →
    Meets w (v.withLocation (p.inFile file))
  /-- What a pair that meets the standard holds meets it, and so does all that stands in tables, frames
  and functions. -/
  content : ∀ {w}, Inv w → ∀ i, (∀ c, i = .cell c → ∃ v, Meets w v ∧ v.datum = .pair c) →
    (w.state.store.content i).Each (Meets w)
  closure : ∀ {w}, Inv w → ∀ k, Env w (w.state.store.closure k).frame := by
    exact fun _ _ => trivial
  adds : ∀ {w i x t}, Inv w → w.state.store.Adds i x t → x.Each (Meets w) → x.Below (Env w) →
    Inv (w.goto t) ∧ Le w (w.goto t) ∧
      (∀ v, v.ident? = some i → v.provenance.location = .unknown → Meets (w.goto t) v) ∧
      ∀ f, i = .frame f → Env (w.goto t) f
  sets : ∀ {w i x t}, Inv w → w.state.store.Sets i x t →
    (∀ c, i = .cell c → ∃ v, Meets w v ∧ v.datum = .pair c) → x.Each (Meets w) →
    x.Replaces (w.state.store.content i) → Inv (w.goto t) ∧ Le w (w.goto t)
  add : ∀ {w e}, Inv w → (∀ v ∈ e.shows, Meets w v) → Inv (w.add e) ∧ Le w (w.add e)
  note : ∀ {w}, Inv w → ∀ entry, Inv (w.noted entry) ∧ Le w (w.noted entry)
  /-- A file that a program asks for may be read. -/
  loading : ∀ {w}, Inv w → ∀ {path text}, host.files path = .ok text →
    Known (w.noted (.loading path)) path text := by exact fun _ _ _ _ => trivial
  /-- An error may be raised without a location.  Internal ones have reasons of their own: a failed
  assertion, or a file that cannot be read. -/
  free : ∀ {w}, Inv w → ∀ {cause}, cause.kind ≠ .internal → Blame w (.ofCause cause) := by
    exact fun _ _ _ => trivial
  asserted : ∀ {w args v}, Inv w → w.Called .assert args →
    w.state.store.listElements args = .ok [v] → v.bool? = some false →
    Blame w (.ofCause .assertionFailed) := by exact fun _ _ _ _ => trivial
  unreadable : ∀ {w args v path fault}, Inv w → w.Called .load args →
    w.state.store.listElements args = .ok [v] → v.string? = some path → host.files path = .error fault →
    Blame w (.ofCause (.loadFailed path fault)) := by exact fun _ _ _ _ _ => trivial
  /-- It may take the location of a value or a form. -/
  locate : ∀ {w e v}, Blame w e → Meets w v → Blame w (e.locate v.provenance) := by
    exact fun _ _ => trivial
  malformed : ∀ {w file text e}, Inv w → Known w file text → (Reading.ofText text).error = some e →
    Blame w (.ofReadError e file) := by exact fun _ _ _ => trivial

namespace Standard

variable {host : Host} {S : Standard host} {w : History} {α β : Type} {Q : History → α → Prop}
  {Q' : History → β → Prop}

/-- From `w` on, the computation keeps the standard, `Q` holds of its value, and no error is raised that
may not be. -/
def Safe (S : Standard host) (w : History) (Q : History → α → Prop) (act : Recorded α) : Prop :=
  match act w with
  | .ok a w' => S.Inv w' ∧ S.Le w w' ∧ Q w' a
  | .error why w' => S.Inv w' ∧ S.Le w w' ∧ ∀ e, why = .raised e → S.Blame w' e

/-- From `w` on, the computation keeps the standard and gives a value that meets it. -/
abbrev Gives (S : Standard host) (w : History) (act : Recorded Value) : Prop := S.Safe w S.Meets act

namespace Safe

theorem pure (hw : S.Inv w) {a : α} (h : Q w a) : S.Safe w Q (pure a) := ⟨hw, S.refl w, h⟩

theorem bind {act : Recorded α} {f : α → Recorded β} (h : S.Safe w Q act)
    (hf : ∀ a w', S.Le w w' → S.Inv w' → Q w' a → S.Safe w' Q' (f a)) :
    S.Safe w Q' (act >>= f) := by
  unfold Safe at h ⊢
  show match EStateM.bind act f w with
    | .ok b w' => S.Inv w' ∧ S.Le w w' ∧ Q' w' b
    | .error why w' => S.Inv w' ∧ S.Le w w' ∧ ∀ e, why = .raised e → S.Blame w' e
  unfold EStateM.bind
  cases hact : act w with
  | error why w' =>
    rw [hact] at h
    exact h
  | ok a w' =>
    rw [hact] at h
    obtain ⟨hinv, hle, hQ⟩ := h
    have hnext := hf a w' hle hinv hQ
    unfold Safe at hnext
    dsimp only
    cases hres : f a w' with
    | ok b w'' =>
      rw [hres] at hnext
      exact ⟨hnext.1, S.trans hle hnext.2.1, hnext.2.2⟩
    | error why w'' =>
      rw [hres] at hnext
      exact ⟨hnext.1, S.trans hle hnext.2.1, hnext.2.2⟩

theorem foldlM {γ : Type} {f : β → γ → Recorded β} {b : β} {cs : List γ} {P : History → γ → Prop}
    (hP : ∀ {w w'}, S.Le w w' → ∀ c, P w c → P w' c) (hw : S.Inv w) (hb : Q' w b)
    (hcs : ∀ c ∈ cs, P w c)
    (hf : ∀ b c w', S.Le w w' → S.Inv w' → Q' w' b → P w' c → S.Safe w' Q' (f b c)) :
    S.Safe w Q' (cs.foldlM f b) := by
  induction cs generalizing b w with
  | nil => exact pure hw hb
  | cons c cs ih =>
    obtain ⟨hc, hcs⟩ := List.forall_mem_cons.1 hcs
    rw [List.foldlM_cons]
    refine (hf b c w (S.refl w) hw hb hc).bind fun b' w' hle hw' hb' => ?_
    exact ih hw' hb' (fun c hc => hP hle c (hcs c hc)) fun b c w'' hle' => hf b c w'' (S.trans hle hle')

theorem locating {v : Value} (hv : S.Meets w v) {act : Recorded α} (h : S.Safe w Q act) :
    S.Safe w Q (Recorded.locating v.provenance act) := by
  unfold Safe at h ⊢
  unfold Recorded.locating
  cases hact : act w with
  | ok a w' =>
    rw [hact] at h
    exact h
  | error why w' =>
    rw [hact] at h
    obtain ⟨hinv, hle, hblame⟩ := h
    cases why with
    | raised e =>
      refine ⟨hinv, hle, ?_⟩
      rintro _ ⟨⟩
      exact S.locate (hblame e rfl) (S.mono hle v hv)
    | exhausted | withheld => exact ⟨hinv, hle, hblame⟩

/-! ### Events -/

theorem record (hw : S.Inv w) {e : Event} (he : ∀ v ∈ e.shows, S.Meets w v) {act : Recorded α}
    (h : S.Le w (w.add e) → S.Inv (w.add e) → S.Safe (w.add e) Q act) :
    S.Safe w Q (do Recorded.record e; act) := by
  have hadd := S.add hw he
  have hrecord : S.Safe w (fun w' _ => w' = w.add e) (Recorded.record e) := ⟨hadd.1, hadd.2, rfl⟩
  refine hrecord.bind ?_
  rintro _ _ hle hw' rfl
  exact h hle hw'

theorem returning {act : Recorded Value} (h : S.Gives w act) : S.Gives w (Recorded.returning act) := by
  refine h.bind fun v w' _ hw' hv => ?_
  refine .record hw' (by simpa [Event.shows, Event.forms, Event.values] using hv) fun hle hw'' => ?_
  exact .pure hw'' (S.mono hle v hv)

/-! ### The store -/

/-- A computation that only looks at the store. -/
theorem look {act : Run α} (hw : S.Inv w)
    (h : match act w.state with
      | .ok a s => s = w.state ∧ Q w a
      | .error why s => s = w.state ∧ ∀ e, why = .raised e → S.Blame w e) :
    S.Safe w Q (Recorded.lift act) := by
  unfold Safe
  cases hact : act w.state with
  | ok a s =>
    rw [hact] at h
    obtain ⟨rfl, hQ⟩ := h
    rw [Recorded.lift_of_ok hact]
    exact ⟨hw, S.refl w, hQ⟩
  | error why s =>
    rw [hact] at h
    obtain ⟨rfl, hblame⟩ := h
    rw [Recorded.lift_of_error hact]
    exact ⟨hw, S.refl w, hblame⟩

theorem value (hw : S.Inv w) {a : α} (h : Q w a) :
    S.Safe w Q (Recorded.lift (Pure.pure a : Run α)) :=
  .look hw ⟨rfl, h⟩

theorem raise (hw : S.Inv w) {e : Error} (h : S.Blame w e) :
    S.Safe w Q (Recorded.lift (Run.raise e)) := by
  refine .look hw ⟨rfl, ?_⟩
  rintro _ ⟨⟩
  exact h

theorem fail (hw : S.Inv w) {cause : Cause} (h : cause.kind ≠ .internal) :
    S.Safe w Q (Recorded.lift (Run.fail cause)) :=
  raise hw (S.free hw h)

theorem stop (hw : S.Inv w) {why : Stop} (h : ∀ e, why ≠ .raised e) :
    S.Safe w Q (Recorded.lift (Run.stop why)) :=
  .look hw ⟨rfl, fun e he => absurd he (h e)⟩

theorem note (hw : S.Inv w) (e : LogEntry) :
    S.Safe w (fun w' _ => w' = w.noted e) (Recorded.lift (Run.note e)) :=
  ⟨(S.note hw e).1, (S.note hw e).2, rfl⟩

theorem read (hw : S.Inv w) {f : Store → α} (h : Q w (f w.state.store)) :
    S.Safe w Q (Recorded.lift (Run.read f)) :=
  .look hw ⟨rfl, h⟩

theorem check (hw : S.Inv w) {f : Store → Except Error α} (h : ∀ a, f w.state.store = .ok a → Q w a)
    (hblame : ∀ e, f w.state.store = .error e → S.Blame w e) :
    S.Safe w Q (Recorded.lift (Run.check f)) := by
  refine .look hw ?_
  unfold Run.check
  cases hf : f w.state.store with
  | ok a => exact ⟨rfl, h a hf⟩
  | error e =>
    refine ⟨rfl, ?_⟩
    rintro _ ⟨⟩
    exact hblame e hf

theorem ofExcept (hw : S.Inv w) {x : Except Error α} (h : ∀ a, x = .ok a → Q w a)
    (hblame : ∀ e, x = .error e → S.Blame w e) : S.Safe w Q (Recorded.lift (Run.ofExcept x)) := by
  cases x with
  | ok a => exact value hw (h a rfl)
  | error e => exact raise hw (hblame e rfl)

theorem make {f : Store → α × Store}
    (h : S.Inv (w.goto (f w.state.store).2) ∧ S.Le w (w.goto (f w.state.store).2) ∧
      Q (w.goto (f w.state.store).2) (f w.state.store).1) :
    S.Safe w Q (Recorded.lift (Run.make f)) := h

theorem change {f : Store → Store}
    (h : S.Inv (w.goto (f w.state.store)) ∧ S.Le w (w.goto (f w.state.store))) :
    S.Safe w (fun _ _ => True) (Recorded.lift (Run.change f)) :=
  ⟨h.1, h.2, trivial⟩

end Safe

/-! ## Looking things up -/

theorem nil (w : History) : S.Meets w .nil := S.leaf rfl rfl

theorem atom (w : History) (a : Atom) : S.Meets w (.ofAtom a) := S.leaf rfl rfl

/-- What a pair holds. -/
theorem cell (hw : S.Inv w) {v : Value} (hv : S.Meets w v) {c : CellId} (hc : v.datum = .pair c) :
    S.Meets w (w.state.store.cell c).car ∧ ∀ rest ∈ (w.state.store.cell c).cdr, S.Meets w rest :=
  S.content hw (.cell c) (by rintro _ ⟨⟩; exact ⟨v, hv, hc⟩)

/-- The first half of a pair, or what is no pair itself. -/
theorem car? (hw : S.Inv w) {v : Value} (hv : S.Meets w v) :
    S.Meets w ((w.state.store.car? v).getD v) := by
  unfold Store.car? Value.cell?
  cases hd : v.datum with
  | pair c => exact (S.cell hw hv hd).1
  | nil | atom | closure | native | hash => exact hv

/-- The rest of a pair, or nothing. -/
theorem cdr? (hw : S.Inv w) {v : Value} (hv : S.Meets w v) :
    S.Meets w ((w.state.store.cdr? v).getD .nil) := by
  unfold Store.cdr? Value.cell?
  cases hd : v.datum with
  | pair c =>
    show S.Meets w ((w.state.store.cell c).cdr.getD .nil)
    cases hcdr : (w.state.store.cell c).cdr with
    | none => exact S.nil w
    | some rest => exact (S.cell hw hv hd).2 rest hcdr
  | nil | atom | closure | native | hash => exact S.nil w

theorem entry (hw : S.Inv w) (t : TableId) :
    ∀ key v, (w.state.store.table t).find? key = some v → S.Meets w v :=
  S.content hw (.table t) (by rintro _ ⟨⟩)

theorem binding (hw : S.Inv w) (f : FrameId) :
    ∀ name v, (w.state.store.frame f).bindings.find? name = some v → S.Meets w v :=
  S.content hw (.frame f) (by rintro _ ⟨⟩)

theorem body (hw : S.Inv w) (k : ClosureId) :
    ∀ form ∈ (w.state.store.closure k).body, S.Meets w form :=
  S.content hw (.closure k) (by rintro _ ⟨⟩)

theorem lookup (hw : S.Inv w) {env : FrameId} {name : String} {v : Value}
    (h : w.state.store.lookup env name = some v) : S.Meets w v := by
  obtain ⟨f, -, hf⟩ := List.exists_of_findSome?_eq_some h
  exact S.binding hw f name v hf

theorem chain (hw : S.Inv w) {c : CellId} {vs : List Value} {tail : Option Value}
    (h : w.state.store.Chain c vs tail) {v : Value} (hv : S.Meets w v) (hc : v.datum = .pair c) :
    ∀ x ∈ vs, S.Meets w x := by
  induction h generalizing v with
  | last | nil | improper => simpa using (S.cell hw hv hc).1
  | next hcdr hrest _ ih =>
    have hcell := S.cell hw hv hc
    exact List.forall_mem_cons.2 ⟨hcell.1, ih (hcell.2 _ hcdr) hrest⟩

/-- The elements of a list. -/
theorem listElements (hw : S.Inv w) {v : Value} (hv : S.Meets w v) {vs : List Value}
    (h : w.state.store.listElements v = .ok vs) : ∀ x ∈ vs, S.Meets w x := by
  unfold Store.listElements at h
  cases helements : w.state.store.elements v with
  | error fault =>
    rw [helements] at h
    cases h
  | ok us =>
    rw [helements] at h
    cases h
    rcases Store.elements_eq_ok helements with ⟨-, rfl⟩ | ⟨c, hc, hchain⟩
    · simp
    · exact S.chain hw hchain hv hc

/-! ## Making and changing -/

theorem cons (hw : S.Inv w) {a b : Value} (ha : S.Meets w a) (hb : S.Meets w b) :
    S.Inv (w.goto (w.state.store.cons a b).2) ∧ S.Le w (w.goto (w.state.store.cons a b).2) ∧
      S.Meets (w.goto (w.state.store.cons a b).2) (w.state.store.cons a b).1 := by
  obtain ⟨hinv, hle, hnew, -⟩ := S.adds hw (Store.adds_cons w.state.store a b)
    ⟨ha, each_restOf hb⟩ trivial
  exact ⟨hinv, hle, hnew _ rfl rfl⟩

theorem ofList (hw : S.Inv w) {vs : List Value} (hvs : ∀ v ∈ vs, S.Meets w v) :
    S.Inv (w.goto (w.state.store.ofList vs).2) ∧ S.Le w (w.goto (w.state.store.ofList vs).2) ∧
      S.Meets (w.goto (w.state.store.ofList vs).2) (w.state.store.ofList vs).1 := by
  induction vs with
  | nil => exact ⟨hw, S.refl w, S.nil w⟩
  | cons v vs ih =>
    obtain ⟨hv, hvs⟩ := List.forall_mem_cons.1 hvs
    obtain ⟨hinv, hle, hlist⟩ := ih hvs
    obtain ⟨hinv', hle', hcons⟩ := S.cons hinv (S.mono hle v hv) hlist
    exact ⟨hinv', S.trans hle hle', hcons⟩

theorem newTable (hw : S.Inv w) :
    S.Inv (w.goto w.state.store.newTable.2) ∧ S.Le w (w.goto w.state.store.newTable.2) ∧
      S.Meets (w.goto w.state.store.newTable.2) w.state.store.newTable.1 := by
  have hempty : (Content.table {}).Each (S.Meets w) := fun _ _ h => by cases h
  obtain ⟨hinv, hle, hnew, -⟩ := S.adds hw (Store.adds_newTable w.state.store) hempty trivial
  exact ⟨hinv, hle, hnew _ rfl rfl⟩

theorem newClosure (hw : S.Inv w) {k : Closure} (hbody : ∀ form ∈ k.body, S.Meets w form)
    (hk : S.Env w k.frame) :
    S.Inv (w.goto (w.state.store.newClosure k).2) ∧ S.Le w (w.goto (w.state.store.newClosure k).2) ∧
      S.Meets (w.goto (w.state.store.newClosure k).2) (w.state.store.newClosure k).1 := by
  obtain ⟨hinv, hle, hnew, -⟩ := S.adds hw (Store.adds_newClosure w.state.store k) hbody hk
  exact ⟨hinv, hle, hnew _ rfl rfl⟩

theorem extend (hw : S.Inv w) {parent : FrameId} (hparent : S.Env w parent) (params : List String)
    {args : List Value} (hargs : ∀ v ∈ args, S.Meets w v) :
    S.Inv (w.goto (w.state.store.extend parent params args).2) ∧
      S.Le w (w.goto (w.state.store.extend parent params args).2) ∧
      S.Env (w.goto (w.state.store.extend parent params args).2)
        (w.state.store.extend parent params args).1 := by
  have hframe : Content.Each (S.Meets w)
      (.frame { bindings := .ofList (params.zip args), parent := some parent }) :=
    FiniteMap.forall_find?_ofList fun p hp => hargs p.2 (List.of_mem_zip hp).2
  obtain ⟨hinv, hle, -, henv⟩ := S.adds hw (Store.adds_newFrame w.state.store _) hframe
    ⟨parent, rfl, hparent⟩
  exact ⟨hinv, hle, henv _ rfl⟩

theorem setCar (hw : S.Inv w) {p v : Value} (hp : S.Meets w p) {c : CellId} (hc : p.datum = .pair c)
    (hv : S.Meets w v) :
    S.Inv (w.goto (w.state.store.setCar c v)) ∧ S.Le w (w.goto (w.state.store.setCar c v)) :=
  S.sets hw (Store.sets_setCar w.state.store c v) (by rintro _ ⟨⟩; exact ⟨p, hp, hc⟩)
    ⟨hv, (S.cell hw hp hc).2⟩ trivial

theorem setCdr (hw : S.Inv w) {p v : Value} (hp : S.Meets w p) {c : CellId} (hc : p.datum = .pair c)
    (hv : S.Meets w v) :
    S.Inv (w.goto (w.state.store.setCdr c v)) ∧ S.Le w (w.goto (w.state.store.setCdr c v)) :=
  S.sets hw (Store.sets_setCdr w.state.store c v) (by rintro _ ⟨⟩; exact ⟨p, hp, hc⟩)
    ⟨(S.cell hw hp hc).1, each_restOf hv⟩ trivial

theorem setEntry (hw : S.Inv w) (t : TableId) (key : HashKey) {v : Value} (hv : S.Meets w v) :
    S.Inv (w.goto (w.state.store.setEntry t key v)) ∧
      S.Le w (w.goto (w.state.store.setEntry t key v)) :=
  S.sets hw (Store.sets_setEntry w.state.store t key v) (by rintro _ ⟨⟩)
    (FiniteMap.forall_find?_insert (S.entry hw t) hv) trivial

theorem define (hw : S.Inv w) (env : FrameId) (name : String) {v : Value} (hv : S.Meets w v) :
    S.Inv (w.goto (w.state.store.define env name v)) ∧
      S.Le w (w.goto (w.state.store.define env name v)) :=
  S.sets hw (Store.sets_define w.state.store env name v) (by rintro _ ⟨⟩)
    (FiniteMap.forall_find?_insert (S.binding hw env) hv) ⟨rfl, rfl⟩

/-! ## Arguments -/

section Arguments

variable {args v : Value} {name : String} {e : Error}

theorem blame_listElements (hw : S.Inv w) (h : w.state.store.listElements v = .error e) :
    S.Blame w e := by
  unfold Store.listElements at h
  split at h
  · cases h
  · cases h
    exact S.free hw nofun

/-- A wrong number of arguments is reported without a location. -/
theorem blame_counted (name : String) (hw : S.Inv w) {f : List Value → Except Error α}
    (hf : ∀ vs e, f vs = .error e → ∃ n, e = .ofCause (.argumentCount name n vs.length))
    (h : (w.state.store.listElements args >>= f) = .error e) : S.Blame w e := by
  cases hvs : w.state.store.listElements args with
  | ok vs =>
    rw [hvs] at h
    obtain ⟨n, rfl⟩ := hf vs e h
    exact S.free hw nofun
  | error e' =>
    rw [hvs] at h
    cases h
    exact blame_listElements hw hvs

theorem blame_mismatch (hw : S.Inv w) (hv : S.Meets w v) (expected : String) :
    S.Blame w (v.mismatch name expected) :=
  S.locate (S.free hw nofun) hv

theorem blame_expecting (hw : S.Inv w) (hv : S.Meets w v) {expected : String} {x : Option α}
    (h : v.expecting name expected x = .error e) : S.Blame w e := by
  cases x with
  | some a => cases h
  | none =>
    cases h
    exact blame_mismatch hw hv expected

theorem expecting_eq_ok {expected : String} {x : Option α} {a : α}
    (h : v.expecting name expected x = .ok a) : x = some a := by
  cases x with
  | some b =>
    cases h
    rfl
  | none => cases h

namespace Safe

theorem check_bind (hw : S.Inv w) {f : Store → Except Error α} {g : α → Run β}
    (hblame : ∀ e, f w.state.store = .error e → S.Blame w e)
    (hg : ∀ a, f w.state.store = .ok a → S.Safe w Q' (Recorded.lift (g a))) :
    S.Safe w Q' (Recorded.lift (Run.check f >>= g)) := by
  rw [Recorded.lift_bind]
  refine (check (Q := fun w' a => w' = w ∧ f w.state.store = .ok a) hw (fun a ha => ⟨rfl, ha⟩)
    hblame).bind ?_
  rintro a _ - - ⟨rfl, ha⟩
  exact hg a ha

theorem ofExcept_bind (hw : S.Inv w) {x : Except Error α} {g : α → Run β}
    (hblame : ∀ e, x = .error e → S.Blame w e)
    (hg : ∀ a, x = .ok a → S.Safe w Q' (Recorded.lift (g a))) :
    S.Safe w Q' (Recorded.lift (Run.ofExcept x >>= g)) := by
  rw [Recorded.lift_bind]
  refine (ofExcept (Q := fun w' a => w' = w ∧ x = .ok a) hw (fun a ha => ⟨rfl, ha⟩) hblame).bind ?_
  rintro a _ - - ⟨rfl, ha⟩
  exact hg a ha

theorem one_bind (hw : S.Inv w) (hargs : S.Meets w args) {g : Value → Run β}
    (hg : ∀ a, w.state.store.listElements args = .ok [a] → S.Meets w a →
      S.Safe w Q' (Recorded.lift (g a))) :
    S.Safe w Q' (Recorded.lift (Run.check (·.oneArgument name args) >>= g)) := by
  refine check_bind hw (fun e he => blame_counted name hw (fun vs e hvs => ?_) he) fun a ha => ?_
  · match vs with
    | [_] => cases hvs
    | [] | _ :: _ :: _ => cases hvs; exact ⟨_, rfl⟩
  · have hone := Store.oneArgument_eq_ok ha
    exact hg a hone (S.listElements hw hargs hone a (by simp))

theorem two_bind (hw : S.Inv w) (hargs : S.Meets w args) {g : Value × Value → Run β}
    (hg : ∀ a b, S.Meets w a → S.Meets w b → S.Safe w Q' (Recorded.lift (g (a, b)))) :
    S.Safe w Q' (Recorded.lift (Run.check (·.twoArguments name args) >>= g)) := by
  refine check_bind hw (fun e he => blame_counted name hw (fun vs e hvs => ?_) he) fun ⟨a, b⟩ hab => ?_
  · match vs with
    | [_, _] => cases hvs
    | [] | [_] | _ :: _ :: _ :: _ => cases hvs; exact ⟨_, rfl⟩
  · have hall := S.listElements hw hargs (Store.twoArguments_eq_ok hab)
    exact hg a b (hall a (by simp)) (hall b (by simp))

theorem three_bind (hw : S.Inv w) (hargs : S.Meets w args) {g : Value × Value × Value → Run β}
    (hg : ∀ a b c, S.Meets w a → S.Meets w b → S.Meets w c →
      S.Safe w Q' (Recorded.lift (g (a, b, c)))) :
    S.Safe w Q' (Recorded.lift (Run.check (·.threeArguments name args) >>= g)) := by
  refine check_bind hw (fun e he => blame_counted name hw (fun vs e hvs => ?_) he) fun ⟨a, b, c⟩ habc => ?_
  · match vs with
    | [_, _, _] => cases hvs
    | [] | [_] | [_, _] | _ :: _ :: _ :: _ :: _ => cases hvs; exact ⟨_, rfl⟩
  · have hall := S.listElements hw hargs (Store.threeArguments_eq_ok habc)
    exact hg a b c (hall a (by simp)) (hall b (by simp)) (hall c (by simp))

theorem expecting_bind (hw : S.Inv w) (hv : S.Meets w v) {expected : String} {x : Option α}
    {g : α → Run β} (hg : ∀ a, x = some a → S.Safe w Q' (Recorded.lift (g a))) :
    S.Safe w Q' (Recorded.lift (Run.ofExcept (v.expecting name expected x) >>= g)) :=
  ofExcept_bind hw (fun _ he => blame_expecting hw hv he) fun a ha => hg a (expecting_eq_ok ha)

theorem asList_bind (hw : S.Inv w) (hv : S.Meets w v) {g : Unit → Run β}
    (hg : S.Safe w Q' (Recorded.lift (g ()))) :
    S.Safe w Q' (Recorded.lift (Run.ofExcept (v.asList name) >>= g)) := by
  refine ofExcept_bind hw (fun e he => ?_) fun _ _ => hg
  unfold Value.asList at he
  split at he
  · cases he
  · cases he
    exact blame_mismatch hw hv "list"

theorem keyOf_bind (hw : S.Inv w) (hv : S.Meets w v) {g : HashKey → Run β}
    (hg : ∀ k, S.Safe w Q' (Recorded.lift (g k))) :
    S.Safe w Q' (Recorded.lift (Builtin.keyOf v >>= g)) := by
  rw [Recorded.lift_bind]
  have hkey : S.Safe w (fun w' _ => w' = w) (Recorded.lift (Builtin.keyOf v)) := by
    refine .look hw ?_
    unfold Builtin.keyOf Value.asKey
    cases HashKey.ofValue? v with
    | some k => exact ⟨rfl, rfl⟩
    | none =>
      refine ⟨rfl, ?_⟩
      rintro _ ⟨⟩
      exact S.locate (S.free hw nofun) hv
  refine hkey.bind ?_
  rintro k _ - - rfl
  exact hg k

theorem change_nil {f : Store → Store}
    (h : S.Inv (w.goto (f w.state.store)) ∧ S.Le w (w.goto (f w.state.store))) :
    S.Gives w (Recorded.lift (do Run.change f; Pure.pure Value.nil)) := by
  rw [Recorded.lift_bind]
  exact (change h).bind fun _ w' _ hw' _ => value hw' (S.nil w')

end Safe

end Arguments

/-! ## Primitives -/

theorem blame_sum (hw : S.Inv w) {vs : List Value} (hvs : ∀ v ∈ vs, S.Meets w v) {total : Number}
    {e : Error} (h : Builtin.sum total vs = .error e) : S.Blame w e := by
  induction vs generalizing total with
  | nil => cases h
  | cons v vs ih =>
    obtain ⟨hv, hvs⟩ := List.forall_mem_cons.1 hvs
    rw [Builtin.sum] at h
    cases hnumber : v.asNumber "+" with
    | ok n =>
      rw [hnumber] at h
      exact ih hvs h
    | error e' =>
      rw [hnumber] at h
      cases h
      exact blame_expecting hw hv hnumber

/-- A primitive that evaluates nothing keeps the standard for arguments that meet it. -/
theorem primitive (hw : S.Inv w) (ev : Evaluator) (env : FrameId) {p : Primitive} (hp : p ≠ .load)
    {args : Value} (hargs : S.Meets w args) (hcalled : w.Called p args) :
    S.Gives w (Recorded.lift (p.call host ev env args)) := by
  cases p with
  | load => exact absurd rfl hp
  | isNull | isSymbol | isAtom | isPair | isList | inspect =>
    exact .one_bind hw hargs fun a _ _ => .value hw (S.atom w _)
  | isEqual => exact .two_bind hw hargs fun a b _ _ => .read hw (S.atom w _)
  | add =>
    refine .check_bind hw (fun e he => blame_listElements hw he) fun vs hvs => ?_
    refine .ofExcept_bind hw (fun e he => ?_) fun n _ => .value hw (S.atom w _)
    exact blame_sum hw (S.listElements hw hargs hvs) he
  | not =>
    exact .one_bind hw hargs fun a _ ha => .expecting_bind hw ha fun b _ => .value hw (S.atom w _)
  | assert =>
    refine .one_bind hw hargs fun a hone ha => .expecting_bind hw ha fun b hb => ?_
    cases b with
    | false => exact .raise hw (S.asserted hw hcalled hone hb)
    | true => exact .value hw (S.nil w)
  | warn =>
    refine .one_bind hw hargs fun a _ ha => .expecting_bind hw ha fun b _ => ?_
    cases b with
    | false => exact .fail hw nofun
    | true => exact .value hw (S.nil w)
  | car => exact .one_bind hw hargs fun a _ ha => .asList_bind hw ha (.read hw (S.car? hw ha))
  | cdr => exact .one_bind hw hargs fun a _ ha => .asList_bind hw ha (.read hw (S.cdr? hw ha))
  | cons => exact .two_bind hw hargs fun a b ha hb => .make (S.cons hw ha hb)
  | list => exact .value hw hargs
  | length =>
    refine .one_bind hw hargs fun a _ ha => .check hw (fun v hv => ?_) fun e he => ?_
    · unfold Builtin.lengthOf at hv
      split at hv
      · cases hv
        exact S.atom w _
      · cases hv
    · unfold Builtin.lengthOf at he
      split at he
      · cases he
      · cases he
        exact S.locate (S.free hw nofun) ha
  | setCar =>
    refine .two_bind hw hargs fun a b ha hb => .ofExcept_bind hw ?_ fun c hc => ?_
    · exact fun e he => blame_expecting hw ha he
    · exact .change_nil (S.setCar hw ha (Value.datum_of_asCell hc) hb)
  | setCdr =>
    refine .two_bind hw hargs fun a b ha hb => .ofExcept_bind hw ?_ fun c hc => ?_
    · exact fun e he => blame_expecting hw ha he
    · exact .change_nil (S.setCdr hw ha (Value.datum_of_asCell hc) hb)
  | makeHash =>
    refine .check_bind hw (fun e he => blame_counted "make-hash" hw (fun vs e hvs => ?_) he) fun _ _ => ?_
    · match vs with
      | [] => cases hvs
      | _ :: _ => cases hvs; exact ⟨_, rfl⟩
    · exact .make (S.newTable hw)
  | hashSet =>
    refine .three_bind hw hargs fun h k v hh hk hv => .expecting_bind hw hh fun t _ => ?_
    exact .keyOf_bind hw hk fun key => .change_nil (S.setEntry hw t key hv)
  | hashRef =>
    refine .two_bind hw hargs fun h k hh hk => .expecting_bind hw hh fun t _ => ?_
    refine .keyOf_bind hw hk fun key => .read hw ?_
    cases hv : (w.state.store.table t).find? key with
    | none => exact S.nil w
    | some v => exact S.entry hw t key v hv

end Standard

end Lisplet
