/-
# Lisplet.Proofs.NoCycles -- without setters of pairs there are no cycles

A pair is made of values that exist already, and only the two setters of pairs change it afterwards.
So in a session in which no setter of pairs is called, each pair points to older ones only, wherever
its halves came from: a text that was read, a quotation, the arguments of a call, a table, the frame of
a closure.  Hence no list is circular, and the printer never marks a reference back.

The discipline behind it: a program may hold the pairs that exist, and until a setter of pairs is
called, each pair points to older ones.
-/

import Mathlib.Tactic
import Lisplet.Proofs.Builtin.Atomic
import Lisplet.Proofs.Evaluator.Causes
import Lisplet.Proofs.Evaluator.Discipline
import Lisplet.Proofs.Store.Acyclic

namespace Lisplet

/-! ## Stores of older pairs -/

namespace Store

variable {U U' : Prop} {s t : Store} {i : Ident} {x : Content}

/-- Whatever pair a store holds exists, and if `U`, each pair points only to older ones. -/
structure Older (U : Prop) (s : Store) : Prop where
  within : ∀ i, (s.content i).Within fun c => c.index < s.cells.size
  descends : U → s.Descends

theorem Points.of_within {c d : CellId} (h : s.Points c d) {P : CellId → Prop}
    (hc : (s.content (.cell c)).Within P) : P d := by
  rcases h with hcar | ⟨rest, hrest, hcdr⟩
  · exact hc.1 d hcar
  · exact hc.2 rest hrest d hcdr

namespace Older

theorem mono (h : Older U s) (hU : U' → U) : Older U' s := ⟨h.within, fun hu => h.descends (hU hu)⟩

/-- A new pair holds pairs that exist already. -/
theorem adds (h : Older U s) (hadds : s.Adds i x t) (hx : x.Within fun c => c.index < s.cells.size) :
    Older U t := by
  have hsize : s.cells.size ≤ t.cells.size := size_le_of_holds fun j hj => (hadds.holds j).2 (Or.inl hj)
  refine ⟨fun j => ?_, fun hU c d hcd => ?_⟩
  · rcases hadds.content_cases j with ⟨-, hself⟩ | hother
    · exact hself ▸ hx.mono fun c hc => hc.trans_le hsize
    · exact hother ▸ (h.within j).mono fun c hc => hc.trans_le hsize
  · rcases hadds.content_cases (.cell c) with ⟨hnew, hself⟩ | hother
    · have hd : d.index < s.cells.size := hcd.of_within (hself ▸ hx)
      have hc : ¬ s.Holds (.cell c) := hnew ▸ hadds.new
      exact hd.trans_le (not_lt.1 hc)
    · have hcell : t.cell c = s.cell c := Content.cell.inj hother
      refine h.descends hU c d ?_
      unfold Points at hcd ⊢
      rwa [hcell] at hcd

/-- Whatever is set is no pair, unless `U` fails. -/
theorem sets (h : Older U s) (hsets : s.Sets i x t) (hi : ∀ c, i = .cell c → ¬ U)
    (hx : x.Within fun c => c.index < s.cells.size) : Older U t := by
  have hsize : s.cells.size ≤ t.cells.size := size_le_of_holds fun j hj => (hsets.holds j).2 hj
  refine ⟨fun j => ?_, fun hU c d hcd => ?_⟩
  · rcases hsets.content_cases j with ⟨-, -, hself⟩ | hother
    · exact hself ▸ hx.mono fun c hc => hc.trans_le hsize
    · exact hother ▸ (h.within j).mono fun c hc => hc.trans_le hsize
  · have hcell : t.cell c = s.cell c :=
      Content.cell.inj (hsets.other (.cell c) fun hci => hi c hci.symm hU)
    refine h.descends hU c d ?_
    unfold Points at hcd ⊢
    rwa [hcell] at hcd

theorem cons (h : Older U s) {a b : Value} (ha : a.Within fun c => c.index < s.cells.size)
    (hb : b.Within fun c => c.index < s.cells.size) (p : Provenance) :
    Older U (s.cons a b).2 ∧
      Value.Within (fun c => c.index < (s.cons a b).2.cells.size) ⟨(s.cons a b).1.datum, p⟩ := by
  refine ⟨h.adds (adds_cons s a b) ⟨ha, within_restOf hb⟩, ?_⟩
  rintro c ⟨⟩
  simp [Store.cons]

/-- A form is made into a value over new pairs, each of which holds pairs made before it. -/
theorem ofForm (h : Older U s) (file : String) (f : Form) :
    Older U (s.ofForm file f).2 ∧
      (s.ofForm file f).1.Within fun c => c.index < (s.ofForm file f).2.cells.size := by
  induction f generalizing s with
  | atom | empty => exact ⟨h, .of_not_pair fun _ heq => by cases heq⟩
  | single p car ih =>
    obtain ⟨hs, hcar⟩ := ih h
    exact hs.cons hcar .nil _
  | pair p car cdr ihcar ihcdr =>
    obtain ⟨hs, hcar⟩ := ihcar h
    obtain ⟨hs', hcdr⟩ := ihcdr hs
    have hextends := extends_ofForm file cdr (s.ofForm file car).2
    exact hs'.cons (hcar.mono fun c hc => (hextends.cell_eq hc).1) hcdr _

theorem ofForms (h : Older U s) (file : String) (fs : List Form) : Older U (s.ofForms file fs).2 := by
  induction fs generalizing s with
  | nil => exact h
  | cons f fs ih => exact ih (h.ofForm file f).1

end Older

end Store

/-! ## The discipline -/

/-- No setter of pairs has been called. -/
def World.Unset (w : World) : Prop := ∀ m ∈ w.moments, m.event.setsPair = false

/-- Pairs exist before they are held, and until a setter of pairs is called, each pair points to older
ones only, now and at all moments before. -/
structure OlderOnly (w : World) : Prop where
  now : w.store.Older w.Unset
  past : w.Unset → ∀ m ∈ w.moments, m.store.Descends

namespace OlderOnly

variable {w : World} {t : Store}

theorem empty : OlderOnly ⟨{}, []⟩ where
  now := by
    refine ⟨fun i => ?_, fun _ c d hcd => ?_⟩
    · cases i with
      | cell c => exact ⟨.nil, fun _ hrest => by cases hrest⟩
      | table t => exact fun _ _ hv => by cases hv
      | closure k => trivial
      | frame f => exact fun _ _ hv => by cases hv
    · rcases hcd with hcar | ⟨rest, hrest, -⟩
      · cases hcar
      · cases hrest
  past _ _ hm := by cases hm

/-- One more moment. -/
theorem add (h : OlderOnly w) (ht : t.Older w.Unset) (e : Event) : OlderOnly ((w.goto t).add e) := by
  have hunset : ((w.goto t).add e).Unset → w.Unset := fun hu m hm => hu m (List.mem_cons_of_mem _ hm)
  refine ⟨ht.mono hunset, fun hu => List.forall_mem_cons.2 ⟨ht.descends (hunset hu), ?_⟩⟩
  exact h.past (hunset hu)

end OlderOnly

/-- A program may hold the pairs that exist. -/
def olderPairs : Discipline where
  Inv := OlderOnly
  Le w w' := w.store.cells.size ≤ w'.store.cells.size ∧ w.moments <:+ w'.moments
  Free w c := c.index < w.store.cells.size
  refl w := ⟨le_rfl, List.suffix_rfl⟩
  trans h h' := ⟨h.1.trans h'.1, h.2.trans h'.2⟩
  mono h _ hc := hc.trans_le h.1
  content h i _ := h.now.within i
  quoted h c _ := (h.now.within (.cell c)).2
  adds h hadds hx _ := by
    have hsize := Store.size_le_of_holds fun j hj => (hadds.holds j).2 (Or.inl hj)
    refine ⟨⟨h.now.adds hadds hx, h.past⟩, ⟨hsize, List.suffix_rfl⟩, ?_⟩
    rintro c rfl
    exact (hadds.holds _).2 (Or.inr rfl)
  sets {w i x t} h hsets hi hx _ := by
    have hsize := Store.size_le_of_holds fun j hj => (hsets.holds j).2 hj
    refine ⟨⟨h.now.sets hsets (fun c hc hunset => ?_) hx, h.past⟩, hsize, List.suffix_rfl⟩
    obtain ⟨m, hm, hset⟩ := (hi c hc).2
    rw [hunset m hm] at hset
    cases hset
  read {w} h file fs := by
    have hextends := Store.extends_ofForms file fs w.store
    have hsize := Store.size_le_of_holds fun j hj => (hextends j hj).1
    exact ⟨h.add (h.now.ofForms file fs) _, hsize, List.suffix_cons _ _⟩
  add h _ _ := ⟨h.add h.now _, le_rfl, List.suffix_cons _ _⟩

/-! ## Sessions -/

/-- Is a circular list the reason? -/
def Cause.isCircular : Cause → Bool
  | .list fault | .listArgument _ fault => fault == .circular
  | _ => false

/-- Where no list is circular, none is the reason for an error. -/
theorem Cause.Arises.isCircular_eq {host : Host} {s : Store} {cause : Cause}
    (h : cause.Arises host s) (hs : s.Descends) : cause.isCircular = false := by
  cases h with
  | @list v fault h | @listArgument name v fault h =>
    have hne := hs.elements_ne v
    rw [h] at hne
    simpa [isCircular] using hne
  | _ => rfl

/-- Pairs form no cycle, and whoever looks at the store finds none: no list is circular, no primitive
fails because of one, and no reference back is marked where a value is written. -/
structure Store.CycleFree (s : Store) : Prop where
  acyclic : s.Acyclic
  elements : ∀ v, s.elements v ≠ .error .circular
  primitives : ∀ (host : Host) (ev : Evaluator) (env : FrameId) (p : Primitive), p ≠ .load →
    ∀ (args : Value) (log : Array LogEntry) (e : Error) (state : State),
      p.call host ev env args ⟨s, log⟩ = .error (.raised e) state → e.cause.isCircular = false
  printer : ∀ v, s.traced v = (s.text v, false)

theorem Store.Descends.cycleFree {s : Store} (h : s.Descends) : s.CycleFree where
  acyclic := h.acyclic
  elements := h.elements_ne
  primitives host ev env p hp args log e state herror := by
    have harises := Raises.primitive ev env hp args _ state e herror
    rw [Primitive.atomic host ev env hp args _ _ state herror] at harises
    exact harises.isCircular_eq h
  printer := h.acyclic.traced_eq

/-- A call leaves a store of older pairs behind, if no setter of pairs was called until then. -/
theorem descends_ofCalls {policy : WarnPolicy} {calls : List Call}
    (h : ∀ m ∈ (History.ofCalls policy calls).moments, m.event.setsPair = false) :
    (Session.ofCalls policy calls).state.store.Descends ∧
      ∀ m ∈ (History.ofCalls policy calls).moments, m.store.Descends := by
  have hinv : OlderOnly (History.ofCalls policy calls).world :=
    olderPairs.ofCalls OlderOnly.empty policy calls
  rw [← History.state_ofCalls]
  exact ⟨hinv.now.descends h, hinv.past h⟩

/-- Later calls add to the record and take nothing from it. -/
theorem moments_suffix (policy : WarnPolicy) (earlier later : List Call) :
    (History.ofCalls policy earlier).moments <:+
      (History.ofCalls policy (earlier ++ later)).moments := by
  have hinv : olderPairs.Inv (History.ofCalls policy earlier).world :=
    olderPairs.ofCalls OlderOnly.empty policy earlier
  have henv : olderPairs.Env (History.ofCalls policy earlier).world (Session.new policy).env := trivial
  have hsuffix := (olderPairs.performs hinv henv later).2.2
  have happend : History.ofCalls policy (earlier ++ later) =
      later.foldl (History.perform (Session.new policy).env) (History.ofCalls policy earlier) :=
    List.foldl_append
  rw [happend]
  exact hsuffix

/-- Without setters of pairs there are no cycles.  Over any calls of a fresh session in which no setter
of pairs is called, the store is free of cycles at every moment and in the end, and no call fails
because of a circular list. -/
theorem no_cycles_without_setters (policy : WarnPolicy) (calls : List Call)
    (h : ∀ m ∈ (History.ofCalls policy calls).moments, m.event.setsPair = false) :
    (History.ofCalls policy calls).state = (Session.ofCalls policy calls).state ∧
    (∀ m ∈ (History.ofCalls policy calls).moments, m.store.CycleFree) ∧
    (Session.ofCalls policy calls).state.store.CycleFree ∧
    ∀ (earlier later : List Call) (call : Call), calls = earlier ++ call :: later →
      ∀ e, ((Session.ofCalls policy earlier).run call.plain).1 = .error (.raised e) →
        e.cause.isCircular = false := by
  obtain ⟨hfinal, hmoments⟩ := descends_ofCalls h
  refine ⟨History.state_ofCalls policy calls, fun m hm => (hmoments m hm).cycleFree,
    hfinal.cycleFree, ?_⟩
  rintro earlier later call rfl e herror
  have harises := Raises.plain call _ _ _ e (Session.run_error herror)
  refine harises.isCircular_eq ?_
  -- the call ends in the last state of the session up to it
  have hsuffix := moments_suffix policy (earlier ++ [call]) later
  rw [List.append_assoc, List.singleton_append] at hsuffix
  have hcall := (descends_ofCalls fun m hm => h m (hsuffix.subset hm)).1
  rwa [Session.ofCalls, List.foldl_append, List.foldl_cons, List.foldl_nil, Session.perform_eq] at hcall

/-- A program that stores a table in itself, behind pairs, and takes it out again. -/
def nestingTables : Call :=
  ⟨.ofFiles fun _ => .error .notFound, 9,
    .source "(define h (make-hash)) (hash-set! h 1 (list h '(a . b))) (length (hash-ref h 1))" "a"⟩

theorem no_cycles_without_setters_tables :
    (∀ m ∈ (History.ofCalls .abort [nestingTables]).moments, m.event.setsPair = false) ∧
      (∀ m ∈ (History.ofCalls .abort [nestingTables]).moments, m.store.CycleFree) ∧
      (Session.ofCalls .abort [nestingTables]).state.store.CycleFree := by
  have hevents : ((History.ofCalls .abort [nestingTables]).moments.all
      fun m => !m.event.setsPair) = true := by decide +kernel
  have h : ∀ m ∈ (History.ofCalls .abort [nestingTables]).moments, m.event.setsPair = false := by
    simpa using hevents
  obtain ⟨-, hmoments, hfinal, -⟩ := no_cycles_without_setters .abort [nestingTables] h
  exact ⟨h, hmoments, hfinal⟩

end Lisplet
