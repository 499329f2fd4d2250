/-
# Lisplet.Proofs.Builtin.Effects -- what a primitive does to the store

A primitive that evaluates nothing looks at its arguments and then takes at most one step.  `Did` says
which step that was: nothing, a new pair or table, or the change of the one pair or table that stands in
front of the arguments.  All that can be said about what such a call touches follows from it
(`Primitive.did`).

The arguments come as one value, which may be anything: no list, a list with a dot, a list that runs in
a circle or one that shares its pairs with the very pair that is to be set.  A primitive that takes a
fixed number of arguments decides on the whole list first, and looks at an argument only if there are as
many as it takes (`Primitive.call_of_faulty`, `Primitive.call_of_miscounted`).
-/

import Mathlib.Tactic
import Lisplet.Proofs.Builtin.Atomic
import Lisplet.Proofs.Evaluator.Discipline
import Lisplet.Proofs.Store.Walking

namespace Lisplet

open Run

/-! ## Arguments that were looked at -/

theorem Run.Looks.bind_eq_ok {α β : Type} {act : Run α} {f : α → Run β} (h : Looks act) {s s' : State}
    {b : β} (hok : (act >>= f) s = .ok b s') : ∃ a, act s = .ok a s ∧ f a s = .ok b s' := by
  rcases h s with ⟨a, ha⟩ | ⟨why, hwhy⟩
  · rw [bind_of_ok ha] at hok
    exact ⟨a, ha, hok⟩
  · rw [bind_of_error hwhy] at hok
    cases hok

theorem Run.check_eq_ok {α : Type} {f : Store → Except Error α} {s s' : State} {a : α}
    (h : check f s = .ok a s') : f s.store = .ok a := by
  unfold check at h
  cases hf : f s.store with
  | ok b =>
    rw [hf] at h
    cases h
    rfl
  | error e =>
    rw [hf] at h
    cases h

theorem Run.ofExcept_eq_ok {α : Type} {x : Except Error α} {s s' : State} {a : α}
    (h : ofExcept x s = .ok a s') : x = .ok a := by
  cases x with
  | ok b =>
    cases h
    rfl
  | error e => cases h

theorem Value.datum_of_asTable {v : Value} {name : String} {t : TableId} (h : v.asTable name = .ok t) :
    v.datum = .hash t := by
  unfold Value.asTable Value.table? at h
  cases hd : v.datum with
  | hash u =>
    rw [hd] at h
    cases h
    rfl
  | nil | pair | atom | closure | native =>
    rw [hd] at h
    cases h

theorem Builtin.keyOf_eq_ok {k : Value} {s s' : State} {key : HashKey}
    (h : Builtin.keyOf k s = .ok key s') : HashKey.ofValue? k = some key := by
  unfold Builtin.keyOf Value.asKey at h
  cases hkey : HashKey.ofValue? k with
  | some key' =>
    rw [hkey] at h
    cases h
    rfl
  | none =>
    rw [hkey] at h
    cases h

namespace Store

variable {s : Store} {v : Value} {vs : List Value}

theorem lists_of_listElements (h : s.listElements v = .ok vs) : s.Lists v vs := by
  unfold listElements at h
  cases helements : s.elements v with
  | ok us =>
    rw [helements] at h
    cases h
    exact elements_eq_ok_iff.1 helements
  | error fault =>
    rw [helements] at h
    cases h

theorem listElements_of_lists (h : s.Lists v vs) : s.listElements v = .ok vs := by
  unfold listElements
  rw [elements_eq_ok_iff.2 h]

theorem listElements_of_faulty {fault : ListFault} (h : s.Faulty v fault) :
    s.listElements v = .error (.ofCause (.list fault)) := by
  unfold listElements
  rw [elements_of_faulty h]

end Store

/-! ## The step that is taken -/

/-- What a primitive can have done to the store `s` when it was called with `args` and gave a value. -/
inductive Primitive.Did (s : Store) (args : Value) : Primitive → Store → Prop
  | nothing {p : Primitive} (h : p ∉ [.cons, .makeHash, .setCar, .setCdr, .hashSet]) : Did s args p s
  | cons (a b : Value) : Did s args .cons (s.cons a b).2
  | makeHash : Did s args .makeHash s.newTable.2
  | setCar {p v : Value} {c : CellId} (two : s.Lists args [p, v]) (cell : p.datum = .pair c) :
      Did s args .setCar (s.setCar c v)
  | setCdr {p v : Value} {c : CellId} (two : s.Lists args [p, v]) (cell : p.datum = .pair c) :
      Did s args .setCdr (s.setCdr c v)
  | hashSet {h k v : Value} {t : TableId} {key : HashKey} (three : s.Lists args [h, k, v])
      (table : h.datum = .hash t) (made : HashKey.ofValue? k = some key) :
      Did s args .hashSet (s.setEntry t key v)

/-- A primitive that evaluates nothing and gives a value has taken its step, and written no log. -/
theorem Primitive.did {host : Host} {ev : Evaluator} {env : FrameId} {p : Primitive} (hp : p ≠ .load)
    {args v : Value} {s s' : State} (h : p.call host ev env args s = .ok v s') :
    s'.log = s.log ∧ p.Did s.store args s'.store := by
  have hsame : ∀ {act : Run Value}, Looks act → act s = .ok v s' →
      p ∉ [.cons, .makeHash, .setCar, .setCdr, .hashSet] →
      s'.log = s.log ∧ p.Did s.store args s'.store := by
    intro act hlooks hact hnot
    rw [hlooks.of_ok hact]
    exact ⟨rfl, .nothing hnot⟩
  cases p with
  | load => exact absurd rfl hp
  | isNull | isSymbol | isAtom | isPair | isList | inspect =>
    obtain ⟨a, -, h⟩ := (Looks.check _).bind_eq_ok h
    exact hsame (Looks.pure _) h (by decide)
  | isEqual =>
    obtain ⟨a, -, h⟩ := (Looks.check _).bind_eq_ok h
    exact hsame (Looks.read _) h (by decide)
  | add | not =>
    obtain ⟨a, -, h⟩ := (Looks.check _).bind_eq_ok h
    obtain ⟨b, -, h⟩ := (Looks.ofExcept _).bind_eq_ok h
    exact hsame (Looks.pure _) h (by decide)
  | assert | warn =>
    obtain ⟨a, -, h⟩ := (Looks.check _).bind_eq_ok h
    obtain ⟨b, -, h⟩ := (Looks.ofExcept _).bind_eq_ok h
    cases b with
    | false => exact hsame (Looks.raise _) h (by decide)
    | true => exact hsame (Looks.pure _) h (by decide)
  | car | cdr =>
    obtain ⟨a, -, h⟩ := (Looks.check _).bind_eq_ok h
    obtain ⟨b, -, h⟩ := (Looks.ofExcept _).bind_eq_ok h
    exact hsame (Looks.read _) h (by decide)
  | list => exact hsame (Looks.pure _) h (by decide)
  | length =>
    obtain ⟨a, -, h⟩ := (Looks.check _).bind_eq_ok h
    exact hsame (Looks.check _) h (by decide)
  | cons =>
    obtain ⟨⟨a, b⟩, -, h⟩ := (Looks.check _).bind_eq_ok h
    cases h
    exact ⟨rfl, .cons a b⟩
  | makeHash =>
    obtain ⟨_, -, h⟩ := (Looks.check _).bind_eq_ok h
    cases h
    exact ⟨rfl, .makeHash⟩
  | setCar =>
    obtain ⟨⟨x, w⟩, htwo, h⟩ := (Looks.check _).bind_eq_ok h
    obtain ⟨c, hc, h⟩ := (Looks.ofExcept _).bind_eq_ok h
    cases h
    have hlists := Store.lists_of_listElements (Store.twoArguments_eq_ok (check_eq_ok htwo))
    exact ⟨rfl, .setCar hlists (Value.datum_of_asCell (ofExcept_eq_ok hc))⟩
  | setCdr =>
    obtain ⟨⟨x, w⟩, htwo, h⟩ := (Looks.check _).bind_eq_ok h
    obtain ⟨c, hc, h⟩ := (Looks.ofExcept _).bind_eq_ok h
    cases h
    have hlists := Store.lists_of_listElements (Store.twoArguments_eq_ok (check_eq_ok htwo))
    exact ⟨rfl, .setCdr hlists (Value.datum_of_asCell (ofExcept_eq_ok hc))⟩
  | hashSet =>
    obtain ⟨⟨x, k, w⟩, hthree, h⟩ := (Looks.check _).bind_eq_ok h
    obtain ⟨t, ht, h⟩ := (Looks.ofExcept _).bind_eq_ok h
    obtain ⟨key, hkey, h⟩ := (Looks.locating _ (Looks.ofExcept _)).bind_eq_ok h
    cases h
    have hlists := Store.lists_of_listElements (Store.threeArguments_eq_ok (check_eq_ok hthree))
    exact ⟨rfl, .hashSet hlists (Value.datum_of_asTable (ofExcept_eq_ok ht))
      (Builtin.keyOf_eq_ok hkey)⟩
  | hashRef =>
    obtain ⟨a, -, h⟩ := (Looks.check _).bind_eq_ok h
    obtain ⟨t, -, h⟩ := (Looks.ofExcept _).bind_eq_ok h
    obtain ⟨key, -, h⟩ := (Looks.locating _ (Looks.ofExcept _)).bind_eq_ok h
    exact hsame (Looks.read _) h (by decide)

/-! ## What is touched -/

/-- What the table that a value names holds under a key. -/
def Store.held? (s : Store) (v : Value) (key : HashKey) : Option Value :=
  v.table?.bind fun t => (s.table t).find? key

/-- The pair or the table that a primitive is given to change. -/
inductive Primitive.Target (s : Store) (args : Value) : Primitive → Ident → Prop
  | setCar {p v : Value} {c : CellId} (two : s.Lists args [p, v]) (cell : p.datum = .pair c) :
      Target s args .setCar (.cell c)
  | setCdr {p v : Value} {c : CellId} (two : s.Lists args [p, v]) (cell : p.datum = .pair c) :
      Target s args .setCdr (.cell c)
  | hashSet {h k v : Value} {t : TableId} (three : s.Lists args [h, k, v]) (table : h.datum = .hash t) :
      Target s args .hashSet (.table t)

/-- All that `s` holds is still there in `t`, as it was unless it is a target.  Frames and functions are
never targets, and none has been made. -/
structure Store.KeptBut (Target : Ident → Prop) (s t : Store) : Prop where
  holds : ∀ i, s.Holds i → t.Holds i
  content : ∀ i, s.Holds i → ¬ Target i → t.content i = s.content i
  frames : t.frames = s.frames
  closures : t.closures = s.closures

/-- What is seen of the target afterwards, through any value that names it: `s` is the store before the
call and `t` the store behind it. -/
def Primitive.Shows (s t : Store) (args : Value) : Primitive → Prop
  | .setCar => ∃ p v c, s.Lists args [p, v] ∧ p.datum = .pair c ∧
      (s.Holds (.cell c) → ∀ view : Value, view.datum = .pair c →
        t.car? view = some v ∧ t.cdr? view = s.cdr? view)
  | .setCdr => ∃ p v c, s.Lists args [p, v] ∧ p.datum = .pair c ∧
      (s.Holds (.cell c) → ∀ view : Value, view.datum = .pair c →
        t.car? view = s.car? view ∧ t.cdr? view = if v.isNil then none else some v)
  | .hashSet => ∃ h k v i key, s.Lists args [h, k, v] ∧ h.datum = .hash i ∧
      HashKey.ofValue? k = some key ∧
      (s.Holds (.table i) → ∀ view : Value, view.datum = .hash i →
        t.held? view key = some v ∧ ∀ other, other ≠ key → t.held? view other = s.held? view other)
  | _ => True

namespace Store

variable {s t : Store} {i : Ident} {x : Content} {Target : Ident → Prop}

theorem KeptBut.refl (Target : Ident → Prop) (s : Store) : KeptBut Target s s :=
  ⟨fun _ hi => hi, fun _ _ _ => rfl, rfl, rfl⟩

theorem Adds.keptBut (h : s.Adds i x t) (hframes : t.frames = s.frames)
    (hclosures : t.closures = s.closures) : KeptBut Target s t :=
  ⟨fun j hj => (h.extends j hj).1, fun j hj _ => (h.extends j hj).2, hframes, hclosures⟩

theorem Sets.keptBut (h : s.Sets i x t) (hi : Target i) (hframes : t.frames = s.frames)
    (hclosures : t.closures = s.closures) : KeptBut Target s t := by
  refine ⟨fun j hj => (h.holds j).2 hj, fun j _ hj => h.other j ?_, hframes, hclosures⟩
  rintro rfl
  exact hj hi

end Store

namespace Primitive.Did

variable {s t : Store} {p : Primitive} {args : Value}

theorem keptBut (h : p.Did s args t) : s.KeptBut (p.Target s args) t := by
  cases h with
  | nothing => exact .refl _ s
  | cons a b => exact (Store.adds_cons s a b).keptBut rfl rfl
  | makeHash => exact (Store.adds_newTable s).keptBut rfl rfl
  | setCar two cell => exact (Store.sets_setCar s _ _).keptBut (.setCar two cell) rfl rfl
  | setCdr two cell => exact (Store.sets_setCdr s _ _).keptBut (.setCdr two cell) rfl rfl
  | hashSet three table _ => exact (Store.sets_setEntry s _ _ _).keptBut (.hashSet three table) rfl rfl

theorem shows (h : p.Did s args t) : p.Shows s t args := by
  cases h with
  | nothing hp =>
    cases p with
    | setCar | setCdr | hashSet => exact absurd (by decide) hp
    | _ => trivial
  | cons | makeHash => trivial
  | @setCar x v c two cell =>
    refine ⟨x, v, c, two, cell, fun hc view hview => ?_⟩
    have hcell := Store.cell_setCar_self s v hc
    simp [Store.car?, Store.cdr?, Value.cell?, hview, hcell]
  | @setCdr x v c two cell =>
    refine ⟨x, v, c, two, cell, fun hc view hview => ?_⟩
    have hcell := Store.cell_setCdr_self s v hc
    simp [Store.car?, Store.cdr?, Value.cell?, hview, hcell, Store.restOf]
  | @hashSet x k v i key three table made =>
    refine ⟨x, k, v, i, key, three, table, made, fun hi view hview => ?_⟩
    have htable := Store.table_setEntry_self s key v hi
    refine ⟨?_, fun other hother => ?_⟩
    · simp [Store.held?, Value.table?, hview, htable]
    · simp [Store.held?, Value.table?, hview, htable, FiniteMap.find?_insert_of_ne _ hother]

end Primitive.Did

/-! ## Counting first -/

/-- How many arguments a primitive takes, unless it takes any number. -/
def Primitive.arity? : Primitive → Option Nat
  | .add | .list => none
  | .makeHash => some 0
  | .isNull | .isSymbol | .isAtom | .isPair | .isList | .not | .assert | .warn | .car | .cdr | .length
  | .inspect | .load => some 1
  | .isEqual | .cons | .setCar | .setCdr | .hashRef => some 2
  | .hashSet => some 3

/-- Taking the arguments begins with the elements of the list, and ends there if they are not `n`. -/
def Counts {α : Type} (name : String) (n : Nat) (args : Value) (take : Store → Except Error α) : Prop :=
  ∃ f : List Value → Except Error α, (∀ s, take s = (s.listElements args >>= f)) ∧
    ∀ vs, vs.length ≠ n → f vs = .error (.ofCause (.argumentCount name n vs.length))

namespace Counts

theorem none (name : String) (args : Value) : Counts name 0 args (·.noArguments name args) := by
  refine ⟨_, fun _ => rfl, fun vs hvs => ?_⟩
  match vs with
  | [] => exact absurd rfl hvs
  | _ :: _ => rfl

theorem one (name : String) (args : Value) : Counts name 1 args (·.oneArgument name args) := by
  refine ⟨_, fun _ => rfl, fun vs hvs => ?_⟩
  match vs with
  | [_] => exact absurd rfl hvs
  | [] | _ :: _ :: _ => rfl

theorem two (name : String) (args : Value) : Counts name 2 args (·.twoArguments name args) := by
  refine ⟨_, fun _ => rfl, fun vs hvs => ?_⟩
  match vs with
  | [_, _] => exact absurd rfl hvs
  | [] | [_] | _ :: _ :: _ :: _ => rfl

theorem three (name : String) (args : Value) : Counts name 3 args (·.threeArguments name args) := by
  refine ⟨_, fun _ => rfl, fun vs hvs => ?_⟩
  match vs with
  | [_, _, _] => exact absurd rfl hvs
  | [] | [_] | [_, _] | _ :: _ :: _ :: _ :: _ => rfl

end Counts

/-- A primitive that takes a fixed number of arguments counts them first. -/
theorem Primitive.counts (host : Host) (ev : Evaluator) (env : FrameId) {p : Primitive} {n : Nat}
    (hn : p.arity? = some n) (args : Value) :
    ∃ (α : Type) (take : Store → Except Error α) (go : α → Run Value),
      p.call host ev env args = (check take >>= go) ∧ Counts p.name n args take := by
  cases p with
  | add | list => cases hn
  | makeHash =>
    cases hn
    exact ⟨_, _, _, rfl, .none _ args⟩
  | isNull | isSymbol | isAtom | isPair | isList | not | assert | warn | car | cdr | length | inspect
  | load =>
    cases hn
    exact ⟨_, _, _, rfl, .one _ args⟩
  | isEqual | cons | setCar | setCdr | hashRef =>
    cases hn
    exact ⟨_, _, _, rfl, .two _ args⟩
  | hashSet =>
    cases hn
    exact ⟨_, _, _, rfl, .three _ args⟩

section Counting

variable {host : Host} {ev : Evaluator} {env : FrameId} {p : Primitive} {n : Nat} {args : Value}
  {s : State}

/-- What is no proper list is refused as such. -/
theorem Primitive.call_of_faulty (hn : p.arity? = some n) {fault : ListFault}
    (h : s.store.Faulty args fault) :
    p.call host ev env args s = .error (.raised (.ofCause (.list fault))) s := by
  obtain ⟨α, take, go, hcall, f, htake, -⟩ := p.counts host ev env hn args
  rw [hcall]
  apply bind_of_error
  have hlist := htake s.store
  rw [Store.listElements_of_faulty h] at hlist
  unfold check
  rw [hlist]
  rfl

/-- A wrong number of arguments is refused as such. -/
theorem Primitive.call_of_miscounted (hn : p.arity? = some n) {vs : List Value}
    (h : s.store.Lists args vs) (hvs : vs.length ≠ n) :
    p.call host ev env args s =
      .error (.raised (.ofCause (.argumentCount p.name n vs.length))) s := by
  obtain ⟨α, take, go, hcall, f, htake, hf⟩ := p.counts host ev env hn args
  rw [hcall]
  apply bind_of_error
  have hlist := htake s.store
  rw [Store.listElements_of_lists h] at hlist
  replace hlist : take s.store = f vs := hlist
  unfold check
  rw [hlist, hf vs hvs]

end Counting

/-! ## The main statement -/

/-- Primitives are atomic and touch only their target.  Called with any value as its arguments, a
primitive other than `load` leaves the state as it was if it fails.  If it succeeds, all that was there
is as it was but for the pair or the table that it was given to change, and there it has changed the one
half or the one entry, for every alias.  One that takes a fixed number of arguments refuses what is no
proper list with a type error and a list of another length with an arity error, whatever the arguments
are; there is no third case. -/
theorem primitives_touch_only_their_target (host : Host) (ev : Evaluator) (env : FrameId)
    (p : Primitive) (args : Value) (s : State) :
    (p ≠ .load →
      (∀ why s', p.call host ev env args s = .error why s' → s' = s) ∧
      ∀ v s', p.call host ev env args s = .ok v s' →
        s.store.KeptBut (p.Target s.store args) s'.store ∧ p.Shows s.store s'.store args) ∧
    (∀ n, p.arity? = some n →
      (∀ fault, s.store.Faulty args fault → ∃ e, e.kind = .type ∧ e.cause = .list fault ∧
        p.call host ev env args s = .error (.raised e) s) ∧
      ∀ vs, s.store.Lists args vs → vs.length ≠ n →
        ∃ e, e.kind = .arity ∧ e.cause = .argumentCount p.name n vs.length ∧
          p.call host ev env args s = .error (.raised e) s) ∧
    ((∃ vs, s.store.Lists args vs) ∨ ∃ fault, s.store.Faulty args fault) := by
  refine ⟨fun hp => ⟨Primitive.atomic host ev env hp args s, fun v s' hok => ?_⟩,
    fun n hn => ⟨fun fault hfault => ?_, fun vs hlists hvs => ?_⟩, s.store.lists_or_faulty args⟩
  · obtain ⟨-, hdid⟩ := Primitive.did hp hok
    exact ⟨hdid.keptBut, hdid.shows⟩
  · exact ⟨.ofCause (.list fault), rfl, rfl, Primitive.call_of_faulty hn hfault⟩
  · exact ⟨.ofCause (.argumentCount p.name n vs.length), rfl, rfl,
      Primitive.call_of_miscounted hn hlists hvs⟩

/-- A pair that is the list of arguments and their first element as well: `(#0 5)`, where `#0` is the
list itself. -/
def ownArguments : State where
  store := { cells := #[⟨⟨.pair ⟨0⟩, .unknown⟩, some ⟨.pair ⟨1⟩, .unknown⟩⟩, ⟨.int 5, none⟩] }

/-- Setting the pair that the arguments stand in: its first half is the second argument afterwards, and
nothing else has changed.  Three arguments are not asked what they are. -/
theorem primitives_touch_only_their_target_self :
    let host : Host := .ofFiles fun _ => .error .notFound
    let args : Value := ⟨.pair ⟨0⟩, .unknown⟩
    (∃ v s', Primitive.setCar.call host (eval host 0) ⟨0⟩ args ownArguments = .ok v s' ∧
      s'.store.cells = #[⟨.int 5, some ⟨.pair ⟨1⟩, .unknown⟩⟩, ⟨.int 5, none⟩] ∧
      ownArguments.store.KeptBut (Primitive.setCar.Target ownArguments.store args) s'.store ∧
      Primitive.setCar.Shows ownArguments.store s'.store args) ∧
    ∃ e, e.kind = .arity ∧ Primitive.hashSet.call host (eval host 0) ⟨0⟩ args ownArguments =
      .error (.raised e) ownArguments := by
  intro host args
  have hlists : ownArguments.store.Lists args [args, .int 5] :=
    Or.inr ⟨⟨0⟩, rfl, .next rfl rfl (.last rfl)⟩
  constructor
  · obtain ⟨hcall, -, -⟩ :=
      primitives_touch_only_their_target host (eval host 0) ⟨0⟩ .setCar args ownArguments
    obtain ⟨hkept, hshows⟩ := (hcall (by decide)).2 _ _ rfl
    exact ⟨_, _, rfl, rfl, hkept, hshows⟩
  · obtain ⟨-, hcounts, -⟩ :=
      primitives_touch_only_their_target host (eval host 0) ⟨0⟩ .hashSet args ownArguments
    obtain ⟨e, hkind, -, hcall⟩ := (hcounts 3 rfl).2 _ hlists (by decide)
    exact ⟨e, hkind, hcall⟩

end Lisplet
