/-
# Lisplet.Proofs.Evaluator.Discipline -- which pairs a program may hold

A program gets hold of pairs in a few ways only: it makes them, it takes them out of pairs, tables and
frames that it holds, and it quotes them.  A `Discipline` says which pairs are free for it to hold at a
moment, in which environments it may be evaluated, and what holds at all times besides.  It has to
survive what can happen to a store (something is added that holds free pairs only, something free is
replaced, a text is read) and it has to permit what is looked up.  Then it is kept by every evaluation:
all that a program is given, passes on or returns is free, however the evaluation ends
(`Discipline.eval`).

Forms need no permission to be evaluated.  This is what lets a discipline keep the program itself apart
from what the program holds.
-/

import Mathlib.Tactic
import Lisplet.Proofs.Evaluator.Recording
import Lisplet.Proofs.Store.Contents
import Lisplet.Proofs.Store.Forms
import Lisplet.Proofs.Store.Walking

namespace Lisplet

/-! ## Arguments -/

theorem Value.datum_of_asCell {v : Value} {name : String} {c : CellId} (h : v.asCell name = .ok c) :
    v.datum = .pair c := by
  unfold Value.asCell Value.cell? at h
  cases hd : v.datum with
  | pair d =>
    rw [hd] at h
    cases h
    rfl
  | nil | atom | closure | native | hash =>
    rw [hd] at h
    cases h

theorem SpecialForm.isSymbol_quote {v : Value} (h : v.symbol?.bind SpecialForm.ofName? = some .quote) :
    v.isSymbol "quote" = true := by
  obtain ⟨name, hname, hform⟩ := Option.bind_eq_some_iff.1 h
  have : name = "quote" := by
    unfold SpecialForm.ofName? at hform
    split at hform <;> first | rfl | cases hform
  simp [Value.isSymbol, hname, this]

namespace Store

variable {s : Store} {name : String} {args a b c : Value}

theorem oneArgument_eq_ok (h : s.oneArgument name args = .ok a) : s.listElements args = .ok [a] := by
  unfold oneArgument at h
  match hvs : s.listElements args with
  | .ok [x] =>
    rw [hvs] at h
    cases h
    rfl
  | .error e | .ok [] | .ok (_ :: _ :: _) =>
    rw [hvs] at h
    cases h

theorem twoArguments_eq_ok (h : s.twoArguments name args = .ok (a, b)) :
    s.listElements args = .ok [a, b] := by
  unfold twoArguments at h
  match hvs : s.listElements args with
  | .ok [x, y] =>
    rw [hvs] at h
    cases h
    rfl
  | .error e | .ok [] | .ok [_] | .ok (_ :: _ :: _ :: _) =>
    rw [hvs] at h
    cases h

theorem threeArguments_eq_ok (h : s.threeArguments name args = .ok (a, b, c)) :
    s.listElements args = .ok [a, b, c] := by
  unfold threeArguments at h
  match hvs : s.listElements args with
  | .ok [x, y, z] =>
    rw [hvs] at h
    cases h
    rfl
  | .error e | .ok [] | .ok [_] | .ok [_, _] | .ok (_ :: _ :: _ :: _ :: _) =>
    rw [hvs] at h
    cases h

end Store

/-! ## Disciplines -/

/-- The store at a moment and what has happened before. -/
structure World where
  store : Store
  moments : List Moment

namespace World

/-- The same past with another store. -/
def goto (w : World) (s : Store) : World := { w with store := s }

/-- The event happens now. -/
def add (w : World) (e : Event) : World := { w with moments := ⟨e, w.store⟩ :: w.moments }

end World

def History.world (h : History) : World := ⟨h.state.store, h.moments⟩

/-- The forms that an event brings. -/
def Event.forms : Event → List Value
  | .read forms => forms
  | .passed _ _ | .called _ _ | .returned _ | .stopped _ => []

/-- The values that an event shows. -/
def Event.values : Event → List Value
  | .read _ | .stopped _ => []
  | .passed _ args => [args]
  | .called func args => func :: args
  | .returned v => [v]

/-- Is a setter of pairs called? -/
def Event.setsPair : Event → Bool
  | .passed p _ => p == .setCar || p == .setCdr
  | .read _ | .called _ _ | .returned _ | .stopped _ => false

/-- The parameters of a function have distinct names, and there is something to evaluate in it. -/
structure Closure.WellFormed (k : Closure) : Prop where
  distinct : k.params.Nodup
  body : k.body ≠ []

/-- A well-formed closure stands in a permitted frame, and a new frame below one; only the first of all
frames has none above it. -/
def Content.Grounded (w : World) (Env : FrameId → Prop) : Content → Prop
  | .cell _ | .table _ => True
  | .closure k => Env k.frame ∧ k.WellFormed
  | .frame f =>
    (f.parent = none ∧ w.store.frames.size = 0) ∨ ∃ p, f.parent = some p ∧ Env p ∧ f.policy = .abort

theorem parameterNames_nodup_of_seen {seen names : List String} {vs : List Value} (hseen : seen.Nodup)
    (h : parameterNames seen vs = .ok names) : names.Nodup := by
  induction vs generalizing seen with
  | nil =>
    obtain rfl : seen.reverse = names := Except.ok.inj h
    exact List.nodup_reverse.2 hseen
  | cons v vs ih =>
    obtain ⟨x, p⟩ := v
    cases x with
    | nil | pair | closure | native | hash => cases h
    | atom a =>
      cases a with
      | number | string | bool => cases h
      | symbol name =>
        change (if seen.contains name = true then _ else parameterNames (name :: seen) vs) = _ at h
        by_cases hold : seen.contains name = true
        · rw [if_pos hold] at h
          cases h
        · rw [if_neg hold] at h
          exact ih (List.nodup_cons.2 ⟨by simpa using hold, hseen⟩) h

/-- Names that are accepted as parameters are distinct. -/
theorem parameterNames_nodup {names : List String} {vs : List Value}
    (h : parameterNames [] vs = .ok names) : names.Nodup :=
  parameterNames_nodup_of_seen List.nodup_nil h

/-- What may stand in place of something else: closures stay, and a frame keeps its place and its
policy. -/
def Content.Replaces : Content → Content → Prop
  | .cell _, .cell _ | .table _, .table _ => True
  | .frame f, .frame g => f.parent = g.parent ∧ f.policy = g.policy
  | _, _ => False

/-- Which pairs a program may hold, and what goes with it. -/
structure Discipline where
  /-- What holds at all times. -/
  Inv : World → Prop
  /-- How things may go on. -/
  Le : World → World → Prop
  /-- The pairs that a program may hold. -/
  Free : World → CellId → Prop
  /-- The environments in which a program may be evaluated. -/
  Env : World → FrameId → Prop := fun _ _ => True
  refl : ∀ w, Le w w
  trans : ∀ {w w' w''}, Le w w' → Le w' w'' → Le w w''
  mono : ∀ {w w'}, Le w w' → ∀ c, Free w c → Free w' c
  monoEnv : ∀ {w w'}, Le w w' → ∀ f, Env w f → Env w' f := by exact fun _ _ _ => trivial
  /-- Closures stand in such environments. -/
  closure : ∀ {w}, Inv w → ∀ k, Env w (w.store.closure k).frame := by exact fun _ _ => trivial
  /-- So do the frames that are made below them. -/
  frame : ∀ {w f x t}, Inv w → w.store.Adds (.frame f) x t → x.Grounded w (Env w) →
    Env (w.goto t) f := by exact fun _ _ _ => trivial
  /-- What a free pair holds is free, and so is all that stands in tables and frames. -/
  content : ∀ {w}, Inv w → ∀ i, (∀ c, i = .cell c → Free w c) → (w.store.content i).Within (Free w)
  /-- What stands behind the symbol `quote` is free. -/
  quoted : ∀ {w}, Inv w → ∀ c, (w.store.cell c).car.isSymbol "quote" = true →
    ∀ rest ∈ (w.store.cell c).cdr, rest.Within (Free w)
  adds : ∀ {w i x t}, Inv w → w.store.Adds i x t → x.Within (Free w) → x.Grounded w (Env w) →
    Inv (w.goto t) ∧ Le w (w.goto t) ∧ ∀ c, i = .cell c → Free (w.goto t) c
  /-- A pair is set only once a setter of pairs has been called. -/
  sets : ∀ {w i x t}, Inv w → w.store.Sets i x t →
    (∀ c, i = .cell c → Free w c ∧ ∃ m ∈ w.moments, m.event.setsPair = true) →
    x.Within (Free w) → x.Replaces (w.store.content i) → Inv (w.goto t) ∧ Le w (w.goto t)
  read : ∀ {w}, Inv w → ∀ file forms,
    Inv ((w.goto (w.store.ofForms file forms).2).add (.read (w.store.ofForms file forms).1)) ∧
      Le w ((w.goto (w.store.ofForms file forms).2).add (.read (w.store.ofForms file forms).1))
  add : ∀ {w e}, Inv w → e.forms = [] → (∀ v ∈ e.values, v.Within (Free w)) →
    Inv (w.add e) ∧ Le w (w.add e)

namespace Discipline

variable {D : Discipline} {w : World} {α β : Type} {Q : World → α → Prop} {Q' : World → β → Prop}

/-- From `w` on, the computation keeps the discipline, and `Q` holds of its value. -/
def Safe (D : Discipline) (w : World) (Q : World → α → Prop) (act : Recorded α) : Prop :=
  ∀ h : History, h.world = w →
    match act h with
    | .ok a h' => D.Inv h'.world ∧ D.Le w h'.world ∧ Q h'.world a
    | .error _ h' => D.Inv h'.world ∧ D.Le w h'.world

/-- From `w` on, the computation keeps the discipline and gives a value that a program may hold. -/
abbrev Gives (D : Discipline) (w : World) (act : Recorded Value) : Prop :=
  D.Safe w (fun w v => v.Within (D.Free w)) act

namespace Safe

theorem pure (hw : D.Inv w) {a : α} (h : Q w a) : D.Safe w Q (pure a) := by
  rintro s rfl
  exact ⟨hw, D.refl _, h⟩

theorem bind {act : Recorded α} {f : α → Recorded β} (h : D.Safe w Q act)
    (hf : ∀ a w', D.Le w w' → D.Inv w' → Q w' a → D.Safe w' Q' (f a)) :
    D.Safe w Q' (act >>= f) := by
  intro s hs
  have hact := h s hs
  show match EStateM.bind act f s with
    | .ok b t => D.Inv t.world ∧ D.Le w t.world ∧ Q' t.world b
    | .error _ t => D.Inv t.world ∧ D.Le w t.world
  unfold EStateM.bind
  cases hres : act s with
  | error why t =>
    rw [hres] at hact
    exact hact
  | ok a t =>
    rw [hres] at hact
    obtain ⟨hinv, hle, hQ⟩ := hact
    have hnext := hf a t.world hle hinv hQ t rfl
    dsimp only
    cases hres' : f a t with
    | ok b u =>
      rw [hres'] at hnext
      exact ⟨hnext.1, D.trans hle hnext.2.1, hnext.2.2⟩
    | error why u =>
      rw [hres'] at hnext
      exact ⟨hnext.1, D.trans hle hnext.2⟩

theorem foldlM {γ : Type} {f : β → γ → Recorded β} {b : β} {cs : List γ} (hw : D.Inv w) (hb : Q' w b)
    (hf : ∀ b c w', D.Le w w' → D.Inv w' → Q' w' b → D.Safe w' Q' (f b c)) :
    D.Safe w Q' (cs.foldlM f b) := by
  induction cs generalizing b w with
  | nil => exact pure hw hb
  | cons c cs ih =>
    rw [List.foldlM_cons]
    exact (hf b c w (D.refl w) hw hb).bind fun b' w' hle hw' hb' =>
      ih hw' hb' fun b c w'' hle' => hf b c w'' (D.trans hle hle')

theorem locating (p : Provenance) {act : Recorded α} (h : D.Safe w Q act) :
    D.Safe w Q (Recorded.locating p act) := by
  intro s hs
  have hact := h s hs
  unfold Recorded.locating
  cases hres : act s with
  | ok a t =>
    rw [hres] at hact
    exact hact
  | error why t =>
    rw [hres] at hact
    cases why <;> exact hact

/-! ### Events -/

theorem record (hw : D.Inv w) {e : Event} (hforms : e.forms = [])
    (hvalues : ∀ v ∈ e.values, v.Within (D.Free w)) {act : Recorded α}
    (h : D.Le w (w.add e) → D.Inv (w.add e) → D.Safe (w.add e) Q act) :
    D.Safe w Q (do Recorded.record e; act) := by
  have hadd := D.add hw hforms hvalues
  have hrecord : D.Safe w (fun w' _ => w' = w.add e) (Recorded.record e) := by
    rintro s rfl
    exact ⟨hadd.1, hadd.2, rfl⟩
  refine hrecord.bind ?_
  rintro _ _ hle hw' rfl
  exact h hle hw'

theorem returning {act : Recorded Value} (h : D.Gives w act) : D.Gives w (Recorded.returning act) := by
  refine h.bind fun v w' _ hw' hv => ?_
  refine .record hw' rfl (by simpa [Event.values] using hv) fun hle hw'' => ?_
  exact .pure hw'' (hv.mono (D.mono hle))

/-! ### The store -/

theorem lift {act : Run α}
    (h : ∀ s : State, s.store = w.store →
      match act s with
      | .ok a s' => D.Inv (w.goto s'.store) ∧ D.Le w (w.goto s'.store) ∧ Q (w.goto s'.store) a
      | .error _ s' => D.Inv (w.goto s'.store) ∧ D.Le w (w.goto s'.store)) :
    D.Safe w Q (Recorded.lift act) := by
  rintro start rfl
  have hact := h start.state rfl
  cases hres : act start.state with
  | ok a s =>
    rw [hres] at hact
    rw [Recorded.lift_of_ok hres]
    exact hact
  | error why s =>
    rw [hres] at hact
    rw [Recorded.lift_of_error hres]
    exact hact

/-- A computation that only looks at the store. -/
theorem look {act : Run α} (hw : D.Inv w)
    (h : ∀ s : State, s.store = w.store →
      match act s with
      | .ok a s' => s'.store = w.store ∧ Q w a
      | .error _ s' => s'.store = w.store) : D.Safe w Q (Recorded.lift act) := by
  have hself : w.goto w.store = w := rfl
  refine .lift fun s hs => ?_
  have hact := h s hs
  cases hres : act s with
  | ok a s' =>
    rw [hres] at hact
    simp only [hact.1, hself]
    exact ⟨hw, D.refl w, hact.2⟩
  | error why s' =>
    rw [hres] at hact
    replace hact : s'.store = w.store := hact
    simp only [hact, hself]
    exact ⟨hw, D.refl w⟩

theorem raise (hw : D.Inv w) (e : Error) : D.Safe w Q (Recorded.lift (Run.raise e)) :=
  .look hw fun _ hs => hs

theorem fail (hw : D.Inv w) (cause : Cause) : D.Safe w Q (Recorded.lift (Run.fail cause)) :=
  raise hw _

theorem stop (hw : D.Inv w) (why : Stop) : D.Safe w Q (Recorded.lift (Run.stop why)) :=
  .look hw fun _ hs => hs

theorem note (hw : D.Inv w) (e : LogEntry) :
    D.Safe w (fun w' _ => w' = w) (Recorded.lift (Run.note e)) :=
  .look hw fun _ hs => ⟨hs, rfl⟩

theorem read (hw : D.Inv w) {f : Store → α} (h : Q w (f w.store)) :
    D.Safe w Q (Recorded.lift (Run.read f)) :=
  .look hw fun _ hs => ⟨hs, by rwa [hs]⟩

theorem check (hw : D.Inv w) {f : Store → Except Error α} (h : ∀ a, f w.store = .ok a → Q w a) :
    D.Safe w Q (Recorded.lift (Run.check f)) := by
  refine .look hw fun s hs => ?_
  unfold Run.check
  rw [hs]
  cases hf : f w.store with
  | ok a => exact ⟨hs, h a hf⟩
  | error e => exact hs

theorem ofExcept (hw : D.Inv w) {x : Except Error α} (h : ∀ a, x = .ok a → Q w a) :
    D.Safe w Q (Recorded.lift (Run.ofExcept x)) := by
  refine .look hw fun s hs => ?_
  cases x with
  | ok a => exact ⟨hs, h a rfl⟩
  | error e => exact hs

theorem make {f : Store → α × Store}
    (h : D.Inv (w.goto (f w.store).2) ∧ D.Le w (w.goto (f w.store).2) ∧
      Q (w.goto (f w.store).2) (f w.store).1) : D.Safe w Q (Recorded.lift (Run.make f)) := by
  refine .lift fun s hs => ?_
  rw [← hs] at h
  exact h

theorem change {f : Store → Store}
    (h : D.Inv (w.goto (f w.store)) ∧ D.Le w (w.goto (f w.store))) :
    D.Safe w (fun _ _ => True) (Recorded.lift (Run.change f)) := by
  refine .lift fun s hs => ?_
  rw [← hs] at h
  exact ⟨h.1, h.2, trivial⟩

/-! ### The store, and then more -/

theorem check_bind (hw : D.Inv w) {f : Store → Except Error α} {g : α → Run β}
    (hg : ∀ a, f w.store = .ok a → D.Safe w Q' (Recorded.lift (g a))) :
    D.Safe w Q' (Recorded.lift (Run.check f >>= g)) := by
  rw [Recorded.lift_bind]
  refine (check (Q := fun w' a => w' = w ∧ f w.store = .ok a) hw fun a ha => ⟨rfl, ha⟩).bind ?_
  rintro a _ - - ⟨rfl, ha⟩
  exact hg a ha

theorem ofExcept_bind (hw : D.Inv w) {x : Except Error α} {g : α → Run β}
    (hg : ∀ a, x = .ok a → D.Safe w Q' (Recorded.lift (g a))) :
    D.Safe w Q' (Recorded.lift (Run.ofExcept x >>= g)) := by
  rw [Recorded.lift_bind]
  refine (ofExcept (Q := fun w' a => w' = w ∧ x = .ok a) hw fun a ha => ⟨rfl, ha⟩).bind ?_
  rintro a _ - - ⟨rfl, ha⟩
  exact hg a ha

theorem keyOf_bind (hw : D.Inv w) {v : Value} {g : HashKey → Run β}
    (hg : ∀ k, D.Safe w Q' (Recorded.lift (g k))) :
    D.Safe w Q' (Recorded.lift (Builtin.keyOf v >>= g)) := by
  rw [Recorded.lift_bind]
  have hkey : D.Safe w (fun w' _ => w' = w) (Recorded.lift (Builtin.keyOf v)) := by
    refine .look hw fun s hs => ?_
    unfold Builtin.keyOf
    cases v.asKey with
    | ok k => exact ⟨hs, rfl⟩
    | error e => exact hs
  refine hkey.bind ?_
  rintro k _ - - rfl
  exact hg k

theorem change_nil {f : Store → Store}
    (h : D.Inv (w.goto (f w.store)) ∧ D.Le w (w.goto (f w.store))) :
    D.Gives w (Recorded.lift (do Run.change f; Pure.pure Value.nil)) := by
  rw [Recorded.lift_bind]
  exact (change h).bind fun _ w' _ hw' _ => .pure hw' .nil

end Safe

/-! ## Looking things up -/

theorem car (hw : D.Inv w) {c : CellId} (hc : D.Free w c) : (w.store.cell c).car.Within (D.Free w) :=
  (D.content hw (.cell c) (by rintro _ ⟨⟩; exact hc)).1

theorem cdr (hw : D.Inv w) {c : CellId} (hc : D.Free w c) :
    ∀ rest ∈ (w.store.cell c).cdr, rest.Within (D.Free w) :=
  (D.content hw (.cell c) (by rintro _ ⟨⟩; exact hc)).2

/-- The first half of a pair, or what is no pair itself. -/
theorem car? (hw : D.Inv w) {v : Value} (hv : v.Within (D.Free w)) :
    ((w.store.car? v).getD v).Within (D.Free w) := by
  unfold Store.car? Value.cell?
  cases hd : v.datum with
  | pair c => exact D.car hw (hv c hd)
  | nil | atom | closure | native | hash => exact hv

/-- The rest of a pair, or nothing. -/
theorem cdr? (hw : D.Inv w) {v : Value} (hv : v.Within (D.Free w)) :
    ((w.store.cdr? v).getD .nil).Within (D.Free w) := by
  unfold Store.cdr? Value.cell?
  cases hd : v.datum with
  | pair c =>
    show ((w.store.cell c).cdr.getD .nil).Within (D.Free w)
    cases hcdr : (w.store.cell c).cdr with
    | none => exact .nil
    | some rest => exact D.cdr hw (hv c hd) rest hcdr
  | nil | atom | closure | native | hash => exact .nil

theorem entry (hw : D.Inv w) (t : TableId) :
    ∀ key v, (w.store.table t).find? key = some v → v.Within (D.Free w) :=
  D.content hw (.table t) (by rintro _ ⟨⟩)

theorem binding (hw : D.Inv w) (f : FrameId) :
    ∀ name v, (w.store.frame f).bindings.find? name = some v → v.Within (D.Free w) :=
  D.content hw (.frame f) (by rintro _ ⟨⟩)

theorem lookup (hw : D.Inv w) {env : FrameId} {name : String} {v : Value}
    (h : w.store.lookup env name = some v) : v.Within (D.Free w) := by
  obtain ⟨f, -, hf⟩ := List.exists_of_findSome?_eq_some h
  exact D.binding hw f name v hf

theorem chain (hw : D.Inv w) {c : CellId} {vs : List Value} {tail : Option Value}
    (h : w.store.Chain c vs tail) (hc : D.Free w c) : ∀ v ∈ vs, v.Within (D.Free w) := by
  induction h with
  | last | nil | improper => simpa using D.car hw hc
  | next hcdr hrest _ ih =>
    exact List.forall_mem_cons.2 ⟨D.car hw hc, ih (D.cdr hw hc _ hcdr _ hrest)⟩

/-- The elements of a list that a program may hold. -/
theorem listElements (hw : D.Inv w) {v : Value} (hv : v.Within (D.Free w)) {vs : List Value}
    (h : w.store.listElements v = .ok vs) : ∀ x ∈ vs, x.Within (D.Free w) := by
  unfold Store.listElements at h
  cases helements : w.store.elements v with
  | error fault =>
    rw [helements] at h
    cases h
  | ok us =>
    rw [helements] at h
    cases h
    rcases Store.elements_eq_ok helements with ⟨-, rfl⟩ | ⟨c, hc, hchain⟩
    · simp
    · exact D.chain hw hchain (hv c hc)

/-! ## Making and changing -/

theorem cons (hw : D.Inv w) {a b : Value} (ha : a.Within (D.Free w)) (hb : b.Within (D.Free w)) :
    D.Inv (w.goto (w.store.cons a b).2) ∧ D.Le w (w.goto (w.store.cons a b).2) ∧
      (w.store.cons a b).1.Within (D.Free (w.goto (w.store.cons a b).2)) := by
  obtain ⟨hinv, hle, hfree⟩ := D.adds hw (Store.adds_cons w.store a b) ⟨ha, within_restOf hb⟩
    trivial
  refine ⟨hinv, hle, ?_⟩
  rintro c ⟨⟩
  exact hfree _ rfl

theorem ofList (hw : D.Inv w) {vs : List Value} (hvs : ∀ v ∈ vs, v.Within (D.Free w)) :
    D.Inv (w.goto (w.store.ofList vs).2) ∧ D.Le w (w.goto (w.store.ofList vs).2) ∧
      (w.store.ofList vs).1.Within (D.Free (w.goto (w.store.ofList vs).2)) := by
  induction vs with
  | nil => exact ⟨hw, D.refl w, .nil⟩
  | cons v vs ih =>
    obtain ⟨hv, hvs⟩ := List.forall_mem_cons.1 hvs
    obtain ⟨hinv, hle, hlist⟩ := ih hvs
    obtain ⟨hinv', hle', hcons⟩ := D.cons hinv (hv.mono (D.mono hle)) hlist
    exact ⟨hinv', D.trans hle hle', hcons⟩

theorem newTable (hw : D.Inv w) :
    D.Inv (w.goto w.store.newTable.2) ∧ D.Le w (w.goto w.store.newTable.2) ∧
      w.store.newTable.1.Within (D.Free (w.goto w.store.newTable.2)) := by
  have hempty : (Content.table {}).Within (D.Free w) := fun _ _ h => by cases h
  obtain ⟨hinv, hle, -⟩ := D.adds hw (Store.adds_newTable w.store) hempty trivial
  exact ⟨hinv, hle, .of_not_pair fun _ h => by cases h⟩

theorem newClosure (hw : D.Inv w) {k : Closure} (hk : D.Env w k.frame) (hwell : k.WellFormed) :
    D.Inv (w.goto (w.store.newClosure k).2) ∧ D.Le w (w.goto (w.store.newClosure k).2) := by
  obtain ⟨hinv, hle, -⟩ := D.adds hw (Store.adds_newClosure w.store k) trivial ⟨hk, hwell⟩
  exact ⟨hinv, hle⟩

theorem setCar (hw : D.Inv w) (hset : ∃ m ∈ w.moments, m.event.setsPair = true) {c : CellId}
    (hc : D.Free w c) {v : Value} (hv : v.Within (D.Free w)) :
    D.Inv (w.goto (w.store.setCar c v)) ∧ D.Le w (w.goto (w.store.setCar c v)) :=
  D.sets hw (Store.sets_setCar w.store c v) (by rintro _ ⟨⟩; exact ⟨hc, hset⟩) ⟨hv, D.cdr hw hc⟩
    trivial

theorem setCdr (hw : D.Inv w) (hset : ∃ m ∈ w.moments, m.event.setsPair = true) {c : CellId}
    (hc : D.Free w c) {v : Value} (hv : v.Within (D.Free w)) :
    D.Inv (w.goto (w.store.setCdr c v)) ∧ D.Le w (w.goto (w.store.setCdr c v)) :=
  D.sets hw (Store.sets_setCdr w.store c v) (by rintro _ ⟨⟩; exact ⟨hc, hset⟩)
    ⟨D.car hw hc, within_restOf hv⟩ trivial

theorem setEntry (hw : D.Inv w) (t : TableId) (key : HashKey) {v : Value} (hv : v.Within (D.Free w)) :
    D.Inv (w.goto (w.store.setEntry t key v)) ∧ D.Le w (w.goto (w.store.setEntry t key v)) :=
  D.sets hw (Store.sets_setEntry w.store t key v) (by rintro _ ⟨⟩)
    (FiniteMap.forall_find?_insert (D.entry hw t) hv) trivial

theorem define (hw : D.Inv w) (env : FrameId) (name : String) {v : Value} (hv : v.Within (D.Free w)) :
    D.Inv (w.goto (w.store.define env name v)) ∧ D.Le w (w.goto (w.store.define env name v)) :=
  D.sets hw (Store.sets_define w.store env name v) (by rintro _ ⟨⟩)
    (FiniteMap.forall_find?_insert (D.binding hw env) hv) ⟨rfl, rfl⟩

theorem extend (hw : D.Inv w) {parent : FrameId} (hparent : D.Env w parent) (params : List String)
    {args : List Value} (hargs : ∀ v ∈ args, v.Within (D.Free w)) :
    D.Inv (w.goto (w.store.extend parent params args).2) ∧
      D.Le w (w.goto (w.store.extend parent params args).2) ∧
      D.Env (w.goto (w.store.extend parent params args).2) (w.store.extend parent params args).1 := by
  have hbindings : ∀ p ∈ params.zip args, p.2.Within (D.Free w) := fun p hp =>
    hargs p.2 (List.of_mem_zip hp).2
  have hframe : Content.Within (D.Free w)
      (.frame { bindings := .ofList (params.zip args), parent := some parent }) :=
    FiniteMap.forall_find?_ofList hbindings
  have hgrounded : Content.Grounded w (D.Env w)
      (.frame { bindings := .ofList (params.zip args), parent := some parent }) :=
    Or.inr ⟨parent, rfl, hparent, rfl⟩
  have hadds := Store.adds_newFrame w.store
    { bindings := .ofList (params.zip args), parent := some parent }
  obtain ⟨hinv, hle, -⟩ := D.adds hw hadds hframe hgrounded
  exact ⟨hinv, hle, D.frame hw hadds hgrounded⟩

/-! ## Primitives -/

/-- What a primitive that evaluates nothing gives for arguments that a program may hold. -/
theorem primitive {p : Primitive} {args : Value} (hw : D.Inv (w.add (.passed p args))) (host : Host)
    (ev : Evaluator) (env : FrameId) (hp : p ≠ .load)
    (hargs : args.Within (D.Free (w.add (.passed p args)))) :
    D.Gives (w.add (.passed p args)) (Recorded.lift (p.call host ev env args)) := by
  have hcalled : (⟨.passed p args, w.store⟩ : Moment) ∈ (w.add (.passed p args)).moments :=
    List.mem_cons_self
  generalize w.add (.passed p args) = w at *
  have hone : ∀ {name a}, w.store.oneArgument name args = .ok a → a.Within (D.Free w) := fun h =>
    D.listElements hw hargs (Store.oneArgument_eq_ok h) _ (by simp)
  have htwo : ∀ {name a b}, w.store.twoArguments name args = .ok (a, b) →
      a.Within (D.Free w) ∧ b.Within (D.Free w) := fun h =>
    have hab := D.listElements hw hargs (Store.twoArguments_eq_ok h)
    ⟨hab _ (by simp), hab _ (by simp)⟩
  cases p with
  | load => exact absurd rfl hp
  | isNull | isSymbol | isAtom | isPair | isList | inspect =>
    exact .check_bind hw fun a _ => .look hw fun s hs => ⟨hs, .atom _⟩
  | isEqual => exact .check_bind hw fun a _ => .read hw (.atom _)
  | add | not =>
    exact .check_bind hw fun a _ => .ofExcept_bind hw fun b _ => .look hw fun s hs => ⟨hs, .atom _⟩
  | assert | warn =>
    refine .check_bind hw fun a _ => .ofExcept_bind hw fun b _ => ?_
    cases b
    · exact .fail hw _
    · exact .look hw fun s hs => ⟨hs, .nil⟩
  | car =>
    exact .check_bind hw fun a ha => .ofExcept_bind hw fun _ _ => .read hw (D.car? hw (hone ha))
  | cdr =>
    exact .check_bind hw fun a ha => .ofExcept_bind hw fun _ _ => .read hw (D.cdr? hw (hone ha))
  | cons =>
    refine .check_bind hw fun ⟨a, b⟩ hab => ?_
    obtain ⟨ha, hb⟩ := htwo hab
    exact .make (D.cons hw ha hb)
  | list => exact .look hw fun s hs => ⟨hs, hargs⟩
  | length =>
    refine .check_bind hw fun a _ => .check hw fun v hv => ?_
    unfold Builtin.lengthOf at hv
    split at hv
    · cases hv
      exact .atom _
    · cases hv
  | setCar =>
    refine .check_bind hw fun ⟨a, b⟩ hab => .ofExcept_bind hw fun c hc => ?_
    obtain ⟨ha, hb⟩ := htwo hab
    exact .change_nil (D.setCar hw ⟨_, hcalled, rfl⟩ (ha c (Value.datum_of_asCell hc)) hb)
  | setCdr =>
    refine .check_bind hw fun ⟨a, b⟩ hab => .ofExcept_bind hw fun c hc => ?_
    obtain ⟨ha, hb⟩ := htwo hab
    exact .change_nil (D.setCdr hw ⟨_, hcalled, rfl⟩ (ha c (Value.datum_of_asCell hc)) hb)
  | makeHash => exact .check_bind hw fun _ _ => .make (D.newTable hw)
  | hashSet =>
    refine .check_bind hw fun ⟨h, k, v⟩ hhkv => ?_
    refine .ofExcept_bind hw fun t _ => .keyOf_bind hw fun key => ?_
    have hv := D.listElements hw hargs (Store.threeArguments_eq_ok hhkv) v (by simp)
    exact .change_nil (D.setEntry hw t key hv)
  | hashRef =>
    refine .check_bind hw fun ⟨h, k⟩ _ => .ofExcept_bind hw fun t _ => .keyOf_bind hw fun key => ?_
    refine .read hw ?_
    cases hv : (w.store.table t).find? key with
    | none => exact .nil
    | some v => exact D.entry hw t key v hv

/-! ## Several forms -/

/-- The evaluator keeps the discipline. -/
def Evaluates (D : Discipline) (ev : Recorded.Recorder) : Prop :=
  ∀ w, D.Inv w → ∀ env, D.Env w env → ∀ form, D.Gives w (ev env form)

variable {ev : Recorded.Recorder} {env : FrameId}

theorem evalAll (hev : D.Evaluates ev) (hw : D.Inv w) (henv : D.Env w env) (forms : List Value) :
    D.Safe w (fun w vs => ∀ v ∈ vs, v.Within (D.Free w)) (Recorded.evalAll ev env forms) := by
  induction forms generalizing w with
  | nil => exact .pure hw (by simp)
  | cons form forms ih =>
    refine (hev w hw env henv form).bind fun v w₁ hle₁ hw₁ hv => ?_
    refine (ih hw₁ (D.monoEnv hle₁ env henv)).bind fun vs w₂ hle₂ hw₂ hvs => ?_
    exact .pure hw₂ (List.forall_mem_cons.2 ⟨hv.mono (D.mono hle₂), hvs⟩)

theorem evalSequence (hev : D.Evaluates ev) (hw : D.Inv w) (henv : D.Env w env) (forms : List Value) :
    D.Gives w (Recorded.evalSequence ev env forms) :=
  .foldlM hw .nil fun _ form w' hle hw' _ => hev w' hw' env (D.monoEnv hle env henv) form

theorem evalTop (hev : D.Evaluates ev) (hw : D.Inv w) (policy : WarnPolicy) (henv : D.Env w env)
    {result : Value} (hresult : result.Within (D.Free w)) (form : Value) :
    D.Gives w (Recorded.evalTop ev policy env result form) := by
  intro s hs
  have hform := hev w hw env henv form s hs
  unfold Recorded.evalTop
  cases hres : ev env form s with
  | ok v t =>
    rw [hres] at hform
    exact hform
  | error why t =>
    rw [hres] at hform
    obtain ⟨hinv, hle⟩ := hform
    cases why with
    | raised e =>
      by_cases hskip : (!e.isFatal && policy == .keepGoing) = true
      · simp only [hskip, if_true]
        exact ⟨hinv, hle, hresult.mono (D.mono hle)⟩
      · simp only [hskip, Bool.false_eq_true, if_false]
        exact ⟨hinv, hle⟩
    | exhausted => exact ⟨hinv, hle⟩
    | withheld p => exact ⟨hinv, hle⟩

/-- To read a text is one step: its forms are in the store when it is recorded that they were read. -/
theorem readSource (hw : D.Inv w) (text file : String) :
    D.Safe w (fun _ _ => True) (Recorded.readSource text file) := by
  rintro h rfl
  have hread := readSource_eq text file h.state
  cases hforms : (Reading.ofText text).toExcept with
  | ok forms =>
    simp only [hforms] at hread
    have hworld := D.read hw file forms
    simp only [Recorded.readSource, bind, EStateM.bind, Recorded.lift_of_ok hread]
    exact ⟨hworld.1, hworld.2, trivial⟩
  | error e =>
    simp only [hforms] at hread
    simp only [Recorded.readSource, bind, EStateM.bind, Recorded.lift_of_error hread]
    exact ⟨hw, D.refl _⟩

theorem runSource (hev : D.Evaluates ev) (hw : D.Inv w) (henv : D.Env w env) (text file : String) :
    D.Gives w (Recorded.runSource ev env text file) := by
  refine (D.readSource hw text file).bind fun forms w₁ hle₁ hw₁ _ => ?_
  refine (Safe.read hw₁ trivial).bind fun policy w₂ hle₂ hw₂ (_ : True) => ?_
  replace henv := D.monoEnv (D.trans hle₁ hle₂) env henv
  exact .foldlM hw₂ .nil fun result form w' hle hw' hresult =>
    D.evalTop hev hw' policy (D.monoEnv hle env henv) hresult form

/-! ## Applications -/

theorem loadFile (hev : D.Evaluates ev) (hw : D.Inv w) (host : Host) (henv : D.Env w env)
    (args : Value) : D.Gives w (Recorded.loadFile host ev env args) := by
  refine (Safe.check hw fun _ _ => trivial).bind fun a w₁ hle₁ hw₁ (_ : True) => ?_
  refine (Safe.ofExcept hw₁ fun _ _ => trivial).bind fun path w₂ hle₂ hw₂ (_ : True) => ?_
  refine (Safe.note hw₂ _).bind fun _ w₃ hle₃ hw₃ _ => ?_
  replace henv := D.monoEnv (D.trans (D.trans hle₁ hle₂) hle₃) env henv
  cases host.files path with
  | ok text => exact D.runSource hev hw₃ henv text path
  | error fault => exact .raise hw₃ _

theorem call (hev : D.Evaluates ev) (hw : D.Inv w) (host : Host) (henv : D.Env w env) (p : Primitive)
    {args : Value} (hargs : args.Within (D.Free w)) : D.Gives w (Recorded.call host ev env p args) := by
  refine .record hw rfl (by simpa [Event.values] using hargs) fun hle hw' => ?_
  replace hargs := hargs.mono (D.mono hle)
  cases p with
  | load => exact D.loadFile hev hw' host (D.monoEnv hle env henv) args
  | _ => exact D.primitive hw' host _ env (by simp) hargs

theorem applyClosure (hev : D.Evaluates ev) (hw : D.Inv w) {k : Closure} (hk : D.Env w k.frame)
    {args : List Value} (hargs : ∀ v ∈ args, v.Within (D.Free w)) :
    D.Gives w (Recorded.applyClosure ev k args) := by
  unfold Recorded.applyClosure
  split
  · refine (Safe.make (Q := D.Env) (D.extend hw hk k.params hargs)).bind fun frame w' _ hw' henv => ?_
    exact D.evalSequence hev hw' henv k.body
  · exact .fail hw _

theorem apply (hev : D.Evaluates ev) (hw : D.Inv w) (host : Host) (henv : D.Env w env) {func : Value}
    (hfunc : func.Within (D.Free w)) {args : List Value} (hargs : ∀ v ∈ args, v.Within (D.Free w)) :
    D.Gives w (Recorded.apply host ev env func args) := by
  unfold Recorded.apply
  split
  · split
    · exact (Safe.make (D.ofList hw hargs)).bind fun list w' hle hw' hlist =>
        D.call hev hw' host (D.monoEnv hle env henv) _ hlist
    · exact .stop hw _
  · next id _ =>
    have hvalues : ∀ v ∈ (Event.called func args).values, v.Within (D.Free w) :=
      List.forall_mem_cons.2 ⟨hfunc, hargs⟩
    refine .record hw rfl hvalues fun hle hw' => ?_
    generalize w.add (.called func args) = w' at *
    refine (Safe.read (Q := fun u k => u = w' ∧ D.Env w' k.frame) hw' ⟨rfl, D.closure hw' id⟩).bind ?_
    rintro k _ - - ⟨rfl, hk⟩
    exact D.applyClosure hev hw' hk fun v hv => (hargs v hv).mono (D.mono hle)
  · exact .check hw fun v hv => by cases hv

/-! ## Special forms -/

theorem testResult (hw : D.Inv w) (form : String) (v : Value) :
    D.Safe w (fun w' _ => w' = w) (Recorded.lift (testResult form v)) := by
  unfold Lisplet.testResult
  split
  · exact .look hw fun _ hs => ⟨hs, rfl⟩
  · exact .fail hw _

theorem clauseTest (hev : D.Evaluates ev) (hw : D.Inv w) (henv : D.Env w env) (test : Value) :
    D.Gives w (Recorded.clauseTest ev env test) := by
  unfold Recorded.clauseTest
  split
  · exact .pure hw (.atom _)
  · exact hev w hw env henv test

theorem evalCond (hev : D.Evaluates ev) (hw : D.Inv w) (henv : D.Env w env) (clauses : List Value) :
    D.Gives w (Recorded.evalCond ev env clauses) := by
  induction clauses generalizing w with
  | nil => exact .pure hw .nil
  | cons clause clauses ih =>
    refine (Safe.check hw fun _ _ => trivial).bind fun parts w₁ hle₁ hw₁ (_ : True) => ?_
    replace henv := D.monoEnv hle₁ env henv
    cases parts with
    | nil => exact .fail hw₁ _
    | cons test body =>
      refine (D.clauseTest hev hw₁ henv test).bind fun v w₂ hle₂ hw₂ hv => ?_
      replace henv := D.monoEnv hle₂ env henv
      refine (D.testResult hw₂ "cond" v).bind ?_
      rintro b _ - - rfl
      split
      · split
        · exact .pure hw₂ hv
        · exact D.evalSequence hev hw₂ henv body
      · exact ih hw₂ henv

/-- A special form gives what a program may hold; for a quotation, what is quoted has to be that. -/
theorem evalSpecial (hev : D.Evaluates ev) (hw : D.Inv w) (henv : D.Env w env) (location : Location)
    (form : SpecialForm) {operands : List Value}
    (hoperands : form = .quote → ∀ v ∈ operands, v.Within (D.Free w)) :
    D.Gives w (Recorded.evalSpecial ev env location form operands) := by
  cases form with
  | quote =>
    unfold Recorded.evalSpecial Lisplet.evalSpecial
    match operands with
    | [datum] => exact .look hw fun _ hs => ⟨hs, hoperands rfl datum (by simp)⟩
    | [] | _ :: _ :: _ => exact .fail hw _
  | conditional =>
    unfold Recorded.evalSpecial
    match operands with
    | [test, consequent] =>
      refine (hev w hw env henv test).bind fun v w₁ hle₁ hw₁ _ => (D.testResult hw₁ "if" v).bind ?_
      rintro b w₁ - - rfl
      split
      · exact hev w₁ hw₁ env (D.monoEnv hle₁ env henv) consequent
      · exact .pure hw₁ .nil
    | [test, consequent, alternative] =>
      refine (hev w hw env henv test).bind fun v w₁ hle₁ hw₁ _ => (D.testResult hw₁ "if" v).bind ?_
      rintro b w₁ - - rfl
      replace henv := D.monoEnv hle₁ env henv
      split
      · exact hev w₁ hw₁ env henv consequent
      · exact hev w₁ hw₁ env henv alternative
    | [] | [_] | _ :: _ :: _ :: _ :: _ => exact .fail hw _
  | cond => exact D.evalCond hev hw henv operands
  | define =>
    unfold Recorded.evalSpecial
    match operands with
    | [target, expr] =>
      dsimp only
      cases target.symbol? with
      | none => exact .fail hw _
      | some name =>
        refine (hev w hw env henv expr).bind fun v w₁ _ hw₁ hv => ?_
        refine (Safe.note hw₁ _).bind ?_
        rintro _ w₁ - - rfl
        have hbound : (v.withBound name).Within (D.Free w₁) := hv.congr rfl
        refine (Safe.change (D.define hw₁ env name hbound)).bind fun _ w₂ hle₂ hw₂ _ => ?_
        exact .pure hw₂ (hbound.mono (D.mono hle₂))
    | [] | [_] | _ :: _ :: _ :: _ => exact .fail hw _
  | lambda =>
    unfold Recorded.evalSpecial Lisplet.evalSpecial
    match operands with
    | params :: body :: bodies =>
      refine .check_bind hw fun vs _ => .ofExcept_bind hw fun names hnames => ?_
      rw [Recorded.lift_bind]
      have hwell : Closure.WellFormed ⟨names, body :: bodies, env⟩ :=
        ⟨parameterNames_nodup hnames, List.cons_ne_nil _ _⟩
      obtain ⟨hinv, hle⟩ := D.newClosure hw henv hwell
      have hmake : D.Safe w (fun _ v => ∀ c, v.datum ≠ .pair c)
          (Recorded.lift (Run.make (Store.newClosure ⟨names, body :: bodies, env⟩))) :=
        .make ⟨hinv, hle, fun _ h => by cases h⟩
      exact hmake.bind fun v w' _ hw' hv => .look hw' fun _ hs => ⟨hs, .of_not_pair hv⟩
    | [] | [_] => exact .fail hw _
  | begin => exact D.evalSequence hev hw henv operands

/-! ## Evaluation -/

/-- Operands leave everything as it is; those behind a rest that a program may hold are that too. -/
theorem operandsOf (hw : D.Inv w) (rest : Option Value) :
    D.Safe w (fun w' operands => w' = w ∧ ((∀ list ∈ rest, list.Within (D.Free w)) →
      ∀ v ∈ operands, v.Within (D.Free w))) (Recorded.lift (operandsOf rest)) := by
  unfold Lisplet.operandsOf
  cases rest with
  | none => exact .look hw fun _ hs => ⟨hs, rfl, fun _ v hv => by cases hv⟩
  | some list =>
    exact .check hw fun vs hvs => ⟨rfl, fun hlist => D.listElements hw (hlist list rfl) hvs⟩

theorem evalPair (hev : D.Evaluates ev) (hw : D.Inv w) (host : Host) (henv : D.Env w env)
    (location : Location) (c : CellId) :
    D.Gives w (Recorded.evalPair host ev env location (w.store.cell c)) := by
  unfold Recorded.evalPair
  cases hform : (w.store.cell c).car.symbol?.bind SpecialForm.ofName? with
  | some form =>
    refine (D.operandsOf hw (w.store.cell c).cdr).bind ?_
    rintro operands w - - ⟨rfl, hoperands⟩
    refine D.evalSpecial hev hw henv location form ?_
    rintro rfl
    exact hoperands (D.quoted hw c (SpecialForm.isSymbol_quote hform))
  | none =>
    refine (hev w hw env henv _).bind fun func w₁ hle₁ hw₁ hfunc => ?_
    refine (D.operandsOf hw₁ _).bind fun operands w₂ hle₂ hw₂ _ => ?_
    replace henv := D.monoEnv (D.trans hle₁ hle₂) env henv
    refine (D.evalAll hev hw₂ henv operands).bind fun args w₃ hle₃ hw₃ hargs => ?_
    exact D.apply hev hw₃ host (D.monoEnv hle₃ env henv) (hfunc.mono (D.mono (D.trans hle₂ hle₃))) hargs

theorem step (hev : D.Evaluates ev) (host : Host) : D.Evaluates (Recorded.step host ev) := by
  intro w hw env henv form
  unfold Recorded.step
  refine .locating _ (.returning ?_)
  split
  · refine .check hw fun v hv => ?_
    split at hv
    · rename_i hlookup
      cases hv
      exact D.lookup hw hlookup
    · cases hv
  · refine (Safe.read (Q := fun w' cell => w' = w ∧ cell = w.store.cell _) hw ⟨rfl, rfl⟩).bind ?_
    rintro cell _ - - ⟨rfl, rfl⟩
    exact D.evalPair hev hw host henv _ _
  · rename_i hpair
    exact .pure hw (.of_not_pair hpair)

/-- Whatever is evaluated, to whatever depth and however it ends, the discipline is kept. -/
theorem eval (D : Discipline) (host : Host) (n : Nat) : D.Evaluates (Recorded.eval host n) := by
  induction n with
  | zero => exact fun w hw env _ form => .stop hw _
  | succ n ih => exact D.step ih host

/-! ## Sessions -/

theorem recorded (D : Discipline) (hw : D.Inv w) (call : Call) {env : FrameId} (henv : D.Env w env) :
    D.Gives w (call.recorded env) := by
  have hev := D.eval call.host call.depth
  unfold Call.recorded
  cases call.request with
  | source text file => exact D.runSource hev hw henv text file
  | file path =>
    dsimp only
    cases call.host.files path with
    | error fault => exact .fail hw _
    | ok text =>
      exact (Safe.note hw _).bind fun _ w' hle hw' _ =>
        D.runSource hev hw' (D.monoEnv hle env henv) text path

theorem perform (D : Discipline) {h : History} (hinv : D.Inv h.world) {env : FrameId}
    (henv : D.Env h.world env) (call : Call) :
    D.Inv (h.perform env call).world ∧ D.Le h.world (h.perform env call).world := by
  have hcall := D.recorded hinv call henv h rfl
  unfold History.perform
  cases hres : call.recorded env h with
  | ok v h' =>
    rw [hres] at hcall
    obtain ⟨hinv', hle, hv⟩ := hcall
    have hadd := D.add hinv' (e := .returned v) rfl (by simpa [Event.values] using hv)
    exact ⟨hadd.1, D.trans hle hadd.2⟩
  | error why h' =>
    rw [hres] at hcall
    obtain ⟨hinv', hle⟩ := hcall
    have hadd := D.add hinv' (e := .stopped why) rfl (by simp [Event.values])
    exact ⟨hadd.1, D.trans hle hadd.2⟩

/-- Call after call, the discipline is kept. -/
theorem performs (D : Discipline) {h : History} (hinv : D.Inv h.world) {env : FrameId}
    (henv : D.Env h.world env) (calls : List Call) :
    D.Inv (calls.foldl (History.perform env) h).world ∧
      D.Le h.world (calls.foldl (History.perform env) h).world := by
  induction calls generalizing h with
  | nil => exact ⟨hinv, D.refl _⟩
  | cons call calls ih =>
    obtain ⟨hinv', hle⟩ := D.perform hinv henv call
    obtain ⟨hinv'', hle'⟩ := ih hinv' (D.monoEnv hle env henv)
    exact ⟨hinv'', D.trans hle hle'⟩

theorem definePrimitives (D : Discipline) (hw : D.Inv w) (env : FrameId) :
    D.Inv (w.goto (w.store.definePrimitives env)) ∧
      D.Le w (w.goto (w.store.definePrimitives env)) := by
  unfold Store.definePrimitives
  induction Primitive.bindings generalizing w with
  | nil => exact ⟨hw, D.refl w⟩
  | cons b bindings ih =>
    have hprimitive : ((Value.native b.2).withBound b.1).Within (D.Free w) :=
      .of_not_pair fun _ h => by cases h
    obtain ⟨hinv, hle⟩ := D.define hw env b.1 hprimitive
    obtain ⟨hinv', hle'⟩ := ih hinv
    exact ⟨hinv', D.trans hle hle'⟩

/-- A fresh session. -/
theorem new (D : Discipline) (hempty : D.Inv ⟨{}, []⟩) (policy : WarnPolicy) :
    D.Inv ⟨(Session.new policy).state.store, []⟩ ∧
      D.Env ⟨(Session.new policy).state.store, []⟩ (Session.new policy).env := by
  -- the global frame has its policy as soon as it is there
  have hadds := Store.adds_newFrame {} { policy := policy }
  have hframe : (Content.frame { policy := policy }).Within (D.Free ⟨{}, []⟩) := fun _ _ h => by
    cases h
  have hgrounded : Content.Grounded ⟨{}, []⟩ (D.Env ⟨{}, []⟩) (.frame { policy := policy }) :=
    Or.inl ⟨rfl, rfl⟩
  obtain ⟨hglobal, -, -⟩ := D.adds hempty hadds hframe hgrounded
  have henv := D.frame hempty hadds hgrounded
  obtain ⟨hinv, hle⟩ := D.definePrimitives hglobal (Store.newGlobal {}).1
  exact ⟨hinv, D.monoEnv hle _ henv⟩

/-- Over any calls of a fresh session, the discipline is kept. -/
theorem ofCalls (D : Discipline) (hempty : D.Inv ⟨{}, []⟩) (policy : WarnPolicy) (calls : List Call) :
    D.Inv (History.ofCalls policy calls).world := by
  obtain ⟨hinv, henv⟩ := D.new hempty policy
  exact (D.performs (h := { state := (Session.new policy).state }) hinv henv calls).1

end Discipline

end Lisplet
