/-
# Lisplet.Proofs.HashTables -- hash tables hold what was last stored

Two questions are asked of a key: which entry of a table it names, which is a matter of the atom it is
made of, and which other values it is equal to, which `equal?` decides.  For the values that make a key
at all the answers are the same (`HashKey.eq_iff_equal`).

A record of a run tells which calls of `hash-set!` have succeeded, and on which table.  `lastStored` is
what the latest of them has stored in a table under an equal key.  The store agrees with the record at
every moment: each call of a primitive changes both in the same way, and nothing else changes either
(`Remembers.steady`).  That a table which is set is there at all is not for the record to say.  It
follows from the store being closed, so this much is assumed of the moments first (`Moment.Sound`) and
found to hold in every session.
-/

import Mathlib.Tactic
import Lisplet.Proofs.Bisimulation
import Lisplet.Proofs.Builtin.Effects
import Lisplet.Proofs.Evaluator.Confined
import Lisplet.Proofs.Evaluator.Steady

namespace Lisplet

/-! ## Keys -/

/-- The atom that makes a key. -/
def HashKey.atom : HashKey → Atom
  | .int n => .number (.int n)
  | .bool b => .bool b
  | .symbol name => .symbol name
  | .string content => .string content

theorem HashKey.datum_of_ofValue? {v : Value} {key : HashKey} (h : HashKey.ofValue? v = some key) :
    v.datum = .atom key.atom := by
  unfold HashKey.ofValue? at h
  split at h <;> cases h <;> assumption

theorem HashKey.same_atom_iff (x y : HashKey) : x.atom.Same y.atom ↔ x = y := by
  constructor
  · intro h
    cases x <;> cases y <;> cases h <;> rfl
  · rintro rfl
    cases x with
    | int n => exact .int n
    | bool b => exact .bool b
    | symbol name => exact .symbol name
    | string content => exact .string content

theorem Store.equal_atoms (s : Store) {a b : Value} {x y : Atom} (ha : a.datum = .atom x)
    (hb : b.datum = .atom y) : s.equal a b = true ↔ x.Same y := by
  rw [equal_iff_bisimilar]
  constructor
  · rintro ⟨R, hR, hab⟩
    have hagree := hR a b hab
    rw [ha, hb] at hagree
    cases hagree with
    | atom h => exact h
  · intro h
    refine ⟨fun v w => v = a ∧ w = b, ?_, rfl, rfl⟩
    rintro _ _ ⟨rfl, rfl⟩
    rw [ha, hb]
    exact .atom h

/-- Values make the same key exactly if they are equal. -/
theorem HashKey.eq_iff_equal (s : Store) {a b : Value} {x y : HashKey}
    (ha : HashKey.ofValue? a = some x) (hb : HashKey.ofValue? b = some y) :
    x = y ↔ s.equal a b = true := by
  rw [s.equal_atoms (datum_of_ofValue? ha) (datum_of_ofValue? hb), same_atom_iff]

/-! ## What was stored -/

/-- What a call of `hash-set!` stores: the table, the key and the value.  Nothing, if it fails. -/
def Moment.write? (m : Moment) : Option (TableId × Value × Value) :=
  match m.event with
  | .passed .hashSet args =>
    match m.store.elements args with
    | .ok [h, k, v] =>
      match h.table?, HashKey.ofValue? k with
      | some t, some _ => some (t, k, v)
      | _, _ => none
    | _ => none
  | _ => none

/-- What the moment stores in the table under a key equal to `k`. -/
def Moment.stored? (t : TableId) (k : Value) (m : Moment) : Option Value :=
  m.write?.bind fun (t', k', v) => if t' = t ∧ m.store.equal k' k = true then some v else none

/-- What was stored last in the table under a key equal to `k`.  The moments are given newest first. -/
def lastStored (moments : List Moment) (t : TableId) (k : Value) : Option Value :=
  moments.findSome? (Moment.stored? t k)

namespace Moment

variable {m : Moment} {t : TableId} {k v : Value}

theorem write?_eq_some (h : m.write? = some (t, k, v)) :
    ∃ args table key, m.event = .passed .hashSet args ∧ m.store.Lists args [table, k, v] ∧
      table.datum = .hash t ∧ HashKey.ofValue? k = some key := by
  unfold write? at h
  split at h
  · next args hevent =>
    split at h
    · next table k' v' helements =>
      split at h
      · next t' key htable hkey =>
        cases h
        refine ⟨args, table, key, hevent, Store.elements_eq_ok_iff.1 helements, ?_, hkey⟩
        unfold Value.table? at htable
        split at htable <;> cases htable
        assumption
      · cases h
    · cases h
  · cases h

theorem write?_of_lists {s : Store} {args table : Value} {key : HashKey}
    (three : s.Lists args [table, k, v]) (htable : table.datum = .hash t)
    (made : HashKey.ofValue? k = some key) :
    (⟨.passed .hashSet args, s⟩ : Moment).write? = some (t, k, v) := by
  simp [write?, Store.elements_eq_ok_iff.2 three, Value.table?, htable, made]

theorem write?_eq_none {p : Primitive} (hp : p ≠ .hashSet) (args : Value) (s : Store) :
    (⟨.passed p args, s⟩ : Moment).write? = none := by
  cases p with
  | hashSet => exact absurd rfl hp
  | _ => rfl

theorem write?_of_isCall {e : Event} (he : e.isCall = false) (s : Store) :
    (⟨e, s⟩ : Moment).write? = none := by
  cases e with
  | passed p args =>
    refine write?_eq_none ?_ args s
    rintro rfl
    cases he
  | read | called | returned | stopped => rfl

/-- The table that is set is there. -/
def Sound (m : Moment) : Prop := ∀ t k v, m.write? = some (t, k, v) → m.store.Holds (.table t)

end Moment

/-! ## Calls -/

section Calls

variable {host : Host} {ev : Evaluator} {env : FrameId} {s : State} {args h k v : Value} {t : TableId}
  {key : HashKey}

theorem Run.check_of_ok {α : Type} {f : Store → Except Error α} {a : α} (h : f s.store = .ok a) :
    Run.check f s = .ok a s := by
  unfold Run.check
  rw [h]

theorem Value.asTable_of_datum (table : h.datum = .hash t) (name : String) :
    h.asTable name = .ok t := by
  simp [Value.asTable, Value.table?, table, Value.expecting]

theorem Builtin.keyOf_of_some (made : HashKey.ofValue? k = some key) :
    Builtin.keyOf k s = .ok key s := by
  unfold Builtin.keyOf Value.asKey
  rw [made]
  rfl

theorem Primitive.hashSet_of_lists (three : s.store.Lists args [h, k, v]) (table : h.datum = .hash t)
    (made : HashKey.ofValue? k = some key) :
    Primitive.hashSet.call host ev env args s = .ok .nil ⟨s.store.setEntry t key v, s.log⟩ := by
  have hthree : s.store.threeArguments "hash-set!" args = .ok (h, k, v) := by
    unfold Store.threeArguments
    rw [Store.listElements_of_lists three]
    rfl
  show Builtin.hashSet args s = _
  unfold Builtin.hashSet
  rw [Run.bind_of_ok (Run.check_of_ok hthree)]
  dsimp only
  rw [Value.asTable_of_datum table]
  show (Builtin.keyOf k >>= _) s = _
  rw [Run.bind_of_ok (Builtin.keyOf_of_some made)]
  rfl

/-- Looking up gives what the table holds. -/
theorem Primitive.hashRef_of_lists (two : s.store.Lists args [h, k]) (table : h.datum = .hash t)
    (made : HashKey.ofValue? k = some key) :
    Primitive.hashRef.call host ev env args s = .ok (((s.store.table t).find? key).getD .nil) s := by
  have htwo : s.store.twoArguments "hash-ref" args = .ok (h, k) := by
    unfold Store.twoArguments
    rw [Store.listElements_of_lists two]
    rfl
  show Builtin.hashRef args s = _
  unfold Builtin.hashRef
  rw [Run.bind_of_ok (Run.check_of_ok htwo)]
  dsimp only
  rw [Value.asTable_of_datum table]
  show (Builtin.keyOf k >>= _) s = _
  rw [Run.bind_of_ok (Builtin.keyOf_of_some made)]
  rfl

/-- A call of `hash-set!` succeeds exactly if it stores something. -/
theorem Primitive.hashSet_succeeds_iff :
    (∃ r s', Primitive.hashSet.call host ev env args s = .ok r s') ↔
      (⟨.passed .hashSet args, s.store⟩ : Moment).write?.isSome = true := by
  constructor
  · rintro ⟨r, s', hcall⟩
    obtain ⟨-, hdid⟩ := Primitive.did (by decide) hcall
    generalize s'.store = after at hdid
    cases hdid with
    | nothing hnot => exact absurd (by decide) hnot
    | hashSet three table made =>
      rw [Moment.write?_of_lists three table made]
      rfl
  · intro hsome
    obtain ⟨⟨t, k, v⟩, hwrite⟩ := Option.isSome_iff_exists.1 hsome
    obtain ⟨args', table, key, hevent, three, htable, made⟩ := Moment.write?_eq_some hwrite
    cases hevent
    exact ⟨_, _, Primitive.hashSet_of_lists three htable made⟩

theorem Primitive.write?_of_error {p : Primitive} {why : Stop} {s' : State}
    (hcall : p.call host ev env args s = .error why s') :
    (⟨.passed p args, s.store⟩ : Moment).write? = none := by
  by_cases hp : p = .hashSet
  · subst hp
    by_contra hsome
    have hsucceeds : ∃ r s'', Primitive.hashSet.call host ev env args s = .ok r s'' :=
      Primitive.hashSet_succeeds_iff.2 (Option.isSome_iff_ne_none.2 hsome)
    obtain ⟨r, s'', hok⟩ := hsucceeds
    rw [hcall] at hok
    cases hok
  · exact Moment.write?_eq_none hp args s.store

end Calls

/-! ## The store and the record -/

/-- The tables of the store hold what was stored last. -/
def Store.Recalls (s : Store) (moments : List Moment) : Prop :=
  ∀ t k key, HashKey.ofValue? k = some key → (s.table t).find? key = lastStored moments t k

namespace Store.Recalls

variable {s s' : Store} {m : Moment} {moments : List Moment}

theorem of_table (h : s.Recalls moments) (htable : ∀ t, s'.table t = s.table t) :
    s'.Recalls moments := by
  intro t k key hkey
  rw [htable t]
  exact h t k key hkey

/-- A moment that stores nothing makes no difference. -/
theorem cons_none (h : s.Recalls moments) (hm : m.write? = none) : s.Recalls (m :: moments) := by
  intro t k key hkey
  have hstored : m.stored? t k = none := by simp [Moment.stored?, hm]
  rw [lastStored, List.findSome?_cons, hstored]
  exact h t k key hkey

/-- What is stored is found under the equal keys of its table, and all else as before. -/
theorem setEntry (h : s.Recalls moments) {t : TableId} {k v : Value} {key : HashKey}
    (hwrite : m.write? = some (t, k, v)) (made : HashKey.ofValue? k = some key)
    (hheld : s.Holds (.table t)) : (s.setEntry t key v).Recalls (m :: moments) := by
  intro t' k' key' hkey'
  have hequal := HashKey.eq_iff_equal m.store made hkey'
  rw [lastStored, List.findSome?_cons]
  by_cases ht : t' = t
  · subst ht
    rw [Store.table_setEntry_self s key v hheld]
    by_cases hkey : key = key'
    · subst hkey
      simp [Moment.stored?, hwrite, hequal.1 rfl]
    · have hstored : m.stored? t' k' = none := by
        simp [Moment.stored?, hwrite, hequal.not.1 hkey]
      rw [FiniteMap.find?_insert_of_ne _ (Ne.symm hkey), hstored]
      exact h t' k' key' hkey'
  · have hstored : m.stored? t' k' = none := by simp [Moment.stored?, hwrite, Ne.symm ht]
    rw [Store.table_setEntry_of_ne s key v ht, hstored]
    exact h t' k' key' hkey'

end Store.Recalls

/-- A new table is as empty as one that is not there. -/
theorem Store.table_newTable (s : Store) (t : TableId) : s.newTable.2.table t = s.table t := by
  have hadds := Store.adds_newTable s
  rcases hadds.content_cases (.table t) with ⟨hnew, hself⟩ | hother
  · have hout : s.tables.size ≤ t.index := by
      cases hnew
      exact le_rfl
    rw [Content.table.inj hself, Store.table, Array.getD_eq_getD_getElem?,
      Array.getElem?_eq_none hout]
    rfl
  · exact Content.table.inj hother

/-- A primitive that has succeeded has stored what the record says it stores. -/
theorem Primitive.Did.recalls {p : Primitive} {s s' : Store} {args : Value} {moments : List Moment}
    (h : p.Did s args s') (hsound : (⟨.passed p args, s⟩ : Moment).Sound) (hs : s.Recalls moments) :
    s'.Recalls (⟨.passed p args, s⟩ :: moments) := by
  have hother : p ≠ .hashSet → (∀ t, s'.table t = s.table t) →
      s'.Recalls (⟨.passed p args, s⟩ :: moments) :=
    fun hp htable => (hs.of_table htable).cons_none (Moment.write?_eq_none hp args s)
  cases h with
  | nothing hp =>
    refine hother ?_ fun _ => rfl
    rintro rfl
    exact hp (by decide)
  | cons | setCar | setCdr => exact hother (by decide) fun _ => rfl
  | makeHash => exact hother (by decide) s.table_newTable
  | hashSet three table made =>
    have hwrite := Moment.write?_of_lists three table made
    exact hs.setEntry hwrite made (hsound _ _ _ hwrite)

/-- The store holds what was stored last, and did so at every moment of the past; provided that the
tables that were set were there. -/
def History.Remembers (w : History) : Prop :=
  (∀ m ∈ w.moments, m.Sound) → w.state.store.Recalls w.moments ∧
    ∀ m older, m :: older <:+ w.moments → m.store.Recalls older

namespace History.Remembers

variable {w : History}

/-- After an event, whatever comes of it. -/
theorem add (h : w.Remembers) (e : Event) {s : State}
    (hs : (⟨e, w.state.store⟩ : Moment).Sound → w.state.store.Recalls w.moments →
      s.store.Recalls (⟨e, w.state.store⟩ :: w.moments)) :
    History.Remembers ⟨s, ⟨e, w.state.store⟩ :: w.moments⟩ := by
  intro hsound
  obtain ⟨hnew, hold⟩ := List.forall_mem_cons.1 hsound
  obtain ⟨hnow, hpast⟩ := h hold
  refine ⟨hs hnew hnow, fun m older hsuffix => ?_⟩
  rcases List.suffix_cons_iff.1 hsuffix with heq | hsuffix
  · cases heq
    exact hnow
  · exact hpast m older hsuffix

/-- Every evaluation keeps the store and the record in agreement. -/
theorem steady (host : Host) : Recorded.Steady host History.Remembers where
  still h htables hsound :=
    ⟨(h hsound).1.of_table fun t => by simp [Store.table, htables], (h hsound).2⟩
  event {w e} h he := h.add e fun _ hnow => hnow.cons_none (Moment.write?_of_isCall he w.state.store)
  call ev env p args hp w h := by
    have hrun : (do Recorded.record (.passed p args); Recorded.lift (p.call host ev env args) :
        Recorded Value) w = Recorded.lift (p.call host ev env args) (w.add (.passed p args)) := rfl
    rw [hrun]
    cases hcall : p.call host ev env args w.state with
    | ok r s =>
      rw [Recorded.lift_of_ok (h := w.add (.passed p args)) hcall]
      exact h.add _ fun hsound hnow => (Primitive.did hp hcall).2.recalls hsound hnow
    | error why s =>
      rw [Recorded.lift_of_error (h := w.add (.passed p args)) hcall]
      rw [Primitive.atomic host ev env hp args w.state why s hcall]
      exact h.add _ fun _ hnow => hnow.cons_none (Primitive.write?_of_error hcall)

end History.Remembers

/-! ## Sessions -/

/-- A value that stands in a list of a closed store refers to what is there. -/
theorem Store.Closed.beside_of_lists {s : Store} (hs : s.Closed) {v : Value} (hv : v.Beside {} {} s)
    {vs : List Value} (h : s.Lists v vs) : ∀ x ∈ vs, x.Beside {} {} s :=
  (confined (.ofFiles fun _ => .error .notFound) {} {}).listElements
    (w := { state := { store := s } }) hs hv (Store.listElements_of_lists h)

theorem History.sound_ofCalls (policy : WarnPolicy) (calls : List Call) :
    ∀ m ∈ (History.ofCalls policy calls).moments, m.Sound := by
  intro m hm t k v hwrite
  obtain ⟨args, table, key, hevent, three, htable, -⟩ := Moment.write?_eq_some hwrite
  obtain ⟨hclosed, hargs⟩ := History.shown_ofCalls policy calls m hm args
    (by simp [hevent, Event.shows, Event.forms, Event.values])
  have hbeside := hclosed.beside_of_lists hargs three table (by simp)
  exact (hbeside (.table t) (by simp [Value.ident?, htable, Datum.ident?])).1

theorem History.remembers_ofCalls (policy : WarnPolicy) (calls : List Call) :
    (History.ofCalls policy calls).Remembers := by
  refine History.ofCalls_of_steady History.Remembers.steady policy (fun _ => ⟨?_, ?_⟩) calls
  · intro t k key _
    have hnone : (Session.new policy).state.store.tables = #[] := rfl
    show ((Session.new policy).state.store.table t).find? key = none
    rw [Store.table, hnone]
    rfl
  · intro m older hsuffix
    exact absurd (List.suffix_nil.1 hsuffix) (List.cons_ne_nil _ _)

/-- Looking something up in the store gives what the record says was stored last, and nothing where it
says that nothing was. -/
def Store.Answers (s : Store) (moments : List Moment) : Prop :=
  ∀ (host : Host) (ev : Evaluator) (env : FrameId) (log : Array LogEntry) (args h k : Value)
    (t : TableId) (key : HashKey), s.Lists args [h, k] → h.datum = .hash t →
    HashKey.ofValue? k = some key →
    Primitive.hashRef.call host ev env args ⟨s, log⟩ =
      .ok ((lastStored moments t k).getD .nil) ⟨s, log⟩

theorem Store.Recalls.answers {s : Store} {moments : List Moment} (h : s.Recalls moments) :
    s.Answers moments := by
  intro host ev env log args table k t key two htable made
  rw [Primitive.hashRef_of_lists two htable made, h t k key made]

/-- Hash tables are finite maps whose keys are compared by `equal?`.  Two values that make a key make the
same one exactly if they are equal.  Over any calls of a fresh session, whatever they evaluate and
however they end, a lookup gives the very value that the latest successful `hash-set!` on the same table
has stored under an equal key, and the empty list if there was none; at the end and at every moment of
the run, each with the moments before it.  A call of `hash-set!` counts as one that stores exactly if it
succeeds. -/
theorem hash_tables_hold_what_was_last_stored (policy : WarnPolicy) (calls : List Call) :
    (∀ (s : Store) (a b : Value) (x y : HashKey), HashKey.ofValue? a = some x →
      HashKey.ofValue? b = some y → (x = y ↔ s.equal a b = true)) ∧
    (History.ofCalls policy calls).state = (Session.ofCalls policy calls).state ∧
    (Session.ofCalls policy calls).state.store.Answers (History.ofCalls policy calls).moments ∧
    (∀ m older, m :: older <:+ (History.ofCalls policy calls).moments → m.store.Answers older) ∧
    ∀ (host : Host) (ev : Evaluator) (env : FrameId) (args : Value) (s : State),
      (∃ r s', Primitive.hashSet.call host ev env args s = .ok r s') ↔
        (⟨.passed .hashSet args, s.store⟩ : Moment).write?.isSome = true := by
  have hstate := History.state_ofCalls policy calls
  obtain ⟨hnow, hpast⟩ :=
    History.remembers_ofCalls policy calls (History.sound_ofCalls policy calls)
  rw [hstate] at hnow
  refine ⟨fun s a b x y ha hb => HashKey.eq_iff_equal s ha hb, hstate, hnow.answers,
    fun m older hsuffix => (hpast m older hsuffix).answers, ?_⟩
  intro host ev env args s
  exact Primitive.hashSet_succeeds_iff

/-- A session that stores in a table under two names, in another table, and last in vain. -/
def storingTwice : List Call :=
  ["(define h (make-hash)) (define g h)", "(define o (make-hash)) (hash-set! h 'a 1)",
    "(hash-set! g 'a 2) (hash-set! o 'a 3)", "(hash-set! h '(a) 4)"].map fun text =>
      ⟨.ofFiles fun _ => .error .notFound, 9, .source text "a"⟩

theorem hash_tables_hold_what_was_last_stored_alias :
    let moments := (History.ofCalls .abort storingTwice).moments
    (Session.ofCalls .abort storingTwice).state.store.Answers moments ∧
      (lastStored moments ⟨0⟩ (.symbol "a")).map Value.datum = some (.atom (.number (.int 2))) ∧
      (lastStored moments ⟨1⟩ (.symbol "a")).map Value.datum = some (.atom (.number (.int 3))) ∧
      lastStored moments ⟨0⟩ (.symbol "b") = none := by
  intro moments
  obtain ⟨-, -, hanswers, -, -⟩ := hash_tables_hold_what_was_last_stored .abort storingTwice
  exact ⟨hanswers, by decide +kernel⟩

end Lisplet
