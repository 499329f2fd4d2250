/-
# Lisplet.Proofs.Store.Relocation -- the same store with its pairs elsewhere

Two stores may hold the same things but for the places of their pairs.  `Relocated m s t` says that each
pair of `s` is in `t` at the place that `m` gives it, that hash tables, functions and frames have kept
theirs, and that all of it is the same down to the provenance of every value.  The store `t` may hold
more pairs, which nothing refers to.

As `m` also says where the pairs that are still to be made will be, one map does for a whole run: whatever
is made or changed on both sides, the stores stay relocated (`Relocated.contents_adds`, `Relocated.sets`).
And no look at a store tells where its pairs are: the elements of a list, written forms, equality and what
names mean come out the same.
-/

import Mathlib.Tactic
import Lisplet.Proofs.Bisimulation
import Lisplet.Proofs.Builtin.Effects
import Lisplet.Proofs.Store.Printing
import Lisplet.Proofs.Store.Rooted

namespace Lisplet

variable {m : CellId → CellId}

/-- A walk needs no more steps than the store has pairs, and one. -/
theorem Store.walk_of_le {s : Store} {n : Nat} (hn : s.cells.size + 1 ≤ n) (c : CellId) :
    s.walk n c [] = s.walk (s.cells.size + 1) c [] := by
  by_cases hends : ∃ vs tail, s.Chain c vs tail
  · obtain ⟨vs, tail, hchain⟩ := hends
    have hwalk : ∀ k, vs.length ≤ k → s.walk k c [] = chainElements vs tail := by
      intro k hk
      obtain ⟨j, rfl⟩ := Nat.exists_eq_add_of_le hk
      exact walk_of_chain hchain j []
    rw [hwalk n (hchain.length_le.trans hn), hwalk _ hchain.length_le]
  · have hcircular : ∀ k, s.walk k c [] = .error .circular := by
      intro k
      by_contra hwalk
      exact hends (chain_of_walk hwalk)
    rw [hcircular, hcircular]

/-! ## Values -/

def Datum.relocated (m : CellId → CellId) : Datum → Datum
  | .pair c => .pair (m c)
  | d => d

/-- The same value, with its pair elsewhere. -/
def Value.relocated (m : CellId → CellId) (v : Value) : Value := ⟨v.datum.relocated m, v.provenance⟩

namespace Value

variable (m : CellId → CellId) (v : Value)

@[simp] theorem provenance_relocated : (v.relocated m).provenance = v.provenance := rfl

@[simp] theorem typeName_relocated : (v.relocated m).typeName = v.typeName := by
  rcases v with ⟨- | c | a | k | p | t, q⟩ <;> rfl

@[simp] theorem isNil_relocated : (v.relocated m).isNil = v.isNil := by
  rcases v with ⟨- | c | a | k | p | t, q⟩ <;> rfl

@[simp] theorem cell?_relocated : (v.relocated m).cell? = v.cell?.map m := by
  rcases v with ⟨- | c | a | k | p | t, q⟩ <;> rfl

@[simp] theorem isPair_relocated : (v.relocated m).isPair = v.isPair := by
  simp [isPair]

@[simp] theorem symbol?_relocated : (v.relocated m).symbol? = v.symbol? := by
  rcases v with ⟨- | c | a | k | p | t, q⟩ <;> rfl

@[simp] theorem bool?_relocated : (v.relocated m).bool? = v.bool? := by
  rcases v with ⟨- | c | a | k | p | t, q⟩ <;> rfl

@[simp] theorem number?_relocated : (v.relocated m).number? = v.number? := by
  rcases v with ⟨- | c | a | k | p | t, q⟩ <;> rfl

@[simp] theorem string?_relocated : (v.relocated m).string? = v.string? := by
  rcases v with ⟨- | c | a | k | p | t, q⟩ <;> rfl

@[simp] theorem table?_relocated : (v.relocated m).table? = v.table? := by
  rcases v with ⟨- | c | a | k | p | t, q⟩ <;> rfl

@[simp] theorem isSymbol_relocated (name : String) : (v.relocated m).isSymbol name = v.isSymbol name := by
  simp [isSymbol]

@[simp] theorem describe_relocated : (v.relocated m).describe = v.describe := by
  rcases v with ⟨- | c | a | k | p | t, q⟩ <;> rfl

@[simp] theorem ofValue?_relocated : HashKey.ofValue? (v.relocated m) = HashKey.ofValue? v := by
  rcases v with ⟨- | c | a | k | p | t, q⟩ <;> rfl

@[simp] theorem mismatch_relocated (name expected : String) :
    (v.relocated m).mismatch name expected = v.mismatch name expected := by
  simp [mismatch]

theorem expecting_relocated {α : Type} (name expected : String) (x : Option α) :
    (v.relocated m).expecting name expected x = v.expecting name expected x := by
  cases x <;> simp [expecting]

@[simp] theorem asBool_relocated (name : String) : (v.relocated m).asBool name = v.asBool name := by
  simp [asBool, expecting_relocated]

@[simp] theorem asNumber_relocated (name : String) : (v.relocated m).asNumber name = v.asNumber name := by
  simp [asNumber, expecting_relocated]

@[simp] theorem asString_relocated (name : String) : (v.relocated m).asString name = v.asString name := by
  simp [asString, expecting_relocated]

@[simp] theorem asTable_relocated (name : String) : (v.relocated m).asTable name = v.asTable name := by
  simp [asTable, expecting_relocated]

@[simp] theorem asList_relocated (name : String) : (v.relocated m).asList name = v.asList name := by
  simp [asList]

@[simp] theorem asKey_relocated : (v.relocated m).asKey = v.asKey := by
  simp [asKey]

theorem asCell_relocated (name : String) : (v.relocated m).asCell name = (v.asCell name).map m := by
  rw [asCell, asCell, expecting_relocated, cell?_relocated]
  cases v.cell? <;> rfl

@[simp] theorem bool_relocated (b : Bool) : (Value.bool b).relocated m = .bool b := rfl

end Value

@[simp] theorem restOf_relocated (v : Value) :
    Store.restOf (v.relocated m) = (Store.restOf v).map (Value.relocated m) := by
  unfold Store.restOf
  rw [Value.isNil_relocated]
  split <;> rfl

/-! ## What stands in a store -/

/-- The same keys, with the same values elsewhere. -/
def MapsTo {κ : Type} [DecidableEq κ] (m : CellId → CellId) (x y : FiniteMap κ Value) : Prop :=
  ∀ key, y.find? key = (x.find? key).map (Value.relocated m)

section Maps

variable {κ : Type} [DecidableEq κ] {x y : FiniteMap κ Value}

theorem MapsTo.empty : MapsTo m (FiniteMap.empty : FiniteMap κ Value) FiniteMap.empty := fun _ => rfl

theorem MapsTo.insert (h : MapsTo m x y) (key : κ) (v : Value) :
    MapsTo m (x.insert key v) (y.insert key (v.relocated m)) := by
  intro other
  by_cases hother : other = key
  · rw [hother, FiniteMap.find?_insert_self, FiniteMap.find?_insert_self]
    rfl
  · rw [FiniteMap.find?_insert_of_ne _ hother, FiniteMap.find?_insert_of_ne _ hother, h other]

theorem MapsTo.ofList_zip (keys : List κ) (vs : List Value) :
    MapsTo m (.ofList (keys.zip vs)) (.ofList (keys.zip (vs.map (Value.relocated m)))) := by
  have hfold : ∀ x y : FiniteMap κ Value, MapsTo m x y →
      MapsTo m ((keys.zip vs).foldl (fun m p => m.insert p.1 p.2) x)
        ((keys.zip (vs.map (Value.relocated m))).foldl (fun m p => m.insert p.1 p.2) y) := by
    induction keys generalizing vs with
    | nil => exact fun x y h => h
    | cons key keys ih =>
      cases vs with
      | nil => exact fun x y h => h
      | cons v vs => exact fun x y h => ih vs _ _ (h.insert key v)
  exact hfold _ _ .empty

end Maps

def Cell.relocated (m : CellId → CellId) (x : Cell) : Cell :=
  ⟨x.car.relocated m, x.cdr.map (Value.relocated m)⟩

def Closure.relocated (m : CellId → CellId) (k : Closure) : Closure :=
  { k with body := k.body.map (Value.relocated m) }

def Ident.relocated (m : CellId → CellId) : Ident → Ident
  | .cell c => .cell (m c)
  | i => i

theorem Ident.relocated_injective (h : m.Injective) : (Ident.relocated m).Injective := by
  rintro (c | t | k | f) (c' | t' | k' | f') heq
  case cell.cell => exact congrArg Ident.cell (h (Ident.cell.inj heq))
  all_goals first | exact heq | cases heq

/-- The same thing, with all its pairs elsewhere. -/
def Content.MovesTo (m : CellId → CellId) : Content → Content → Prop
  | .cell x, .cell y => y = x.relocated m
  | .table x, .table y => MapsTo m x y
  | .closure k, .closure l => l = k.relocated m
  | .frame f, .frame g => g.parent = f.parent ∧ g.policy = f.policy ∧ MapsTo m f.bindings g.bindings
  | _, _ => False

section Again

variable {m' : CellId → CellId}

theorem Value.relocated_relocated (v : Value) : (v.relocated m).relocated m' = v.relocated (m' ∘ m) := by
  rcases v with ⟨- | c | a | k | p | t, q⟩ <;> rfl

theorem MapsTo.trans {κ : Type} [DecidableEq κ] {x y z : FiniteMap κ Value} (h : MapsTo m x y)
    (h' : MapsTo m' y z) : MapsTo (m' ∘ m) x z := by
  intro key
  rw [h' key, h key, Option.map_map]
  exact Option.map_congr fun v _ => v.relocated_relocated

theorem Content.MovesTo.trans {x y z : Content} (h : x.MovesTo m y) (h' : y.MovesTo m' z) :
    x.MovesTo (m' ∘ m) z := by
  have hcomp : Value.relocated m' ∘ Value.relocated m = Value.relocated (m' ∘ m) :=
    funext Value.relocated_relocated
  -- things of two kinds do not move to each other
  cases x <;> cases y <;> (try exact h.elim) <;> cases z <;> (try exact h'.elim)
  case cell.cell.cell =>
    obtain rfl : _ = Cell.relocated m _ := h
    obtain rfl : _ = Cell.relocated m' _ := h'
    simp [MovesTo, Cell.relocated, Value.relocated_relocated, Option.map_map, hcomp]
  case table.table.table => exact MapsTo.trans h h'
  case closure.closure.closure =>
    obtain rfl : _ = Closure.relocated m _ := h
    obtain rfl : _ = Closure.relocated m' _ := h'
    simp [MovesTo, Closure.relocated, List.map_map, hcomp]
  case frame.frame.frame =>
    obtain ⟨hparent, hpolicy, hbindings⟩ := h
    obtain ⟨hparent', hpolicy', hbindings'⟩ := h'
    exact ⟨hparent'.trans hparent, hpolicy'.trans hpolicy, hbindings.trans hbindings'⟩

end Again

/-! ## Stores -/

/-- The store `t` holds what `s` does, each pair at the place that `m` gives it. -/
structure Relocated (m : CellId → CellId) (s t : Store) : Prop where
  injective : m.Injective
  contents : ∀ i : Ident, (s.content i).MovesTo m (t.content (i.relocated m))
  /-- Where the pairs will be that are made from now on. -/
  next : ∀ n, m ⟨s.cells.size + n⟩ = ⟨t.cells.size + n⟩
  tables : t.tables.size = s.tables.size
  closures : t.closures.size = s.closures.size
  frames : t.frames.size = s.frames.size

namespace Relocated

variable {s t s' t' : Store} {i : Ident} {x y : Content} {v w : Value}

theorem cell (h : Relocated m s t) (c : CellId) : t.cell (m c) = (s.cell c).relocated m :=
  h.contents (.cell c)

theorem table (h : Relocated m s t) (u : TableId) : MapsTo m (s.table u) (t.table u) :=
  h.contents (.table u)

theorem closure (h : Relocated m s t) (k : ClosureId) : t.closure k = (s.closure k).relocated m :=
  h.contents (.closure k)

theorem frame (h : Relocated m s t) (f : FrameId) :
    (t.frame f).parent = (s.frame f).parent ∧ (t.frame f).policy = (s.frame f).policy ∧
      MapsTo m (s.frame f).bindings (t.frame f).bindings :=
  h.contents (.frame f)

/-- What is there has its place, and what is not has none. -/
theorem holds (h : Relocated m s t) (i : Ident) : t.Holds (i.relocated m) ↔ s.Holds i := by
  cases i with
  | cell c =>
    show (m c).index < t.cells.size ↔ c.index < s.cells.size
    constructor
    · intro hlt
      by_contra hle
      have hnext := h.next (c.index - s.cells.size)
      rw [Nat.add_sub_cancel' (not_lt.1 hle)] at hnext
      have hindex : (m c).index = t.cells.size + (c.index - s.cells.size) := congrArg CellId.index hnext
      omega
    · intro hlt
      by_contra hle
      -- a place that is not taken is one of those to come, and they are given out in order
      have hnext := h.next ((m c).index - t.cells.size)
      rw [Nat.add_sub_cancel' (not_lt.1 hle)] at hnext
      have hsame : s.cells.size + ((m c).index - t.cells.size) = c.index :=
        congrArg CellId.index (h.injective hnext)
      omega
  | table u => exact iff_of_eq (congrArg (u.index < ·) h.tables)
  | closure k => exact iff_of_eq (congrArg (k.index < ·) h.closures)
  | frame f => exact iff_of_eq (congrArg (f.index < ·) h.frames)

/-- A pair without a counterpart is one that is there. -/
theorem holds_of_unreached (h : Relocated m s t) {c : CellId} (hc : ∀ d, m d ≠ c) : t.Holds (.cell c) := by
  by_contra hout
  have hnext := h.next (c.index - t.cells.size)
  rw [Nat.add_sub_cancel' (not_lt.1 hout)] at hnext
  exact hc _ hnext

/-- Something new on both sides. -/
theorem contents_adds (h : Relocated m s t) (hs : s.Adds i x s') (ht : t.Adds (i.relocated m) y t')
    (hxy : x.MovesTo m y) (j : Ident) : (s'.content j).MovesTo m (t'.content (j.relocated m)) := by
  by_cases hj : j = i
  · rw [hj, ht.self, hs.self]
    exact hxy
  · rw [hs.other j hj, ht.other _ fun heq => hj (Ident.relocated_injective h.injective heq)]
    exact h.contents j

/-- Something is replaced on both sides. -/
theorem sets (h : Relocated m s t) (hs : s.Sets i x s') (ht : t.Sets (i.relocated m) y t')
    (hxy : x.MovesTo m y)
    (hsizes : s'.cells.size = s.cells.size ∧ t'.cells.size = t.cells.size ∧
      t'.tables.size = s'.tables.size ∧ t'.closures.size = s'.closures.size ∧
      t'.frames.size = s'.frames.size) : Relocated m s' t' := by
  obtain ⟨hcells, hcells', htables, hclosures, hframes⟩ := hsizes
  refine ⟨h.injective, fun j => ?_, fun n => by rw [hcells, hcells']; exact h.next n, htables, hclosures,
    hframes⟩
  by_cases hj : j = i
  · subst hj
    by_cases hheld : s.Holds j
    · rw [hs.self hheld, ht.self ((h.holds j).2 hheld)]
      exact hxy
    · -- what is not there cannot be replaced
      have hheld' : ¬ t.Holds (j.relocated m) := fun hj => hheld ((h.holds j).1 hj)
      rw [Store.content_eq_of_not_holds hheld fun hj => hheld ((hs.holds j).1 hj),
        Store.content_eq_of_not_holds hheld' fun hj => hheld' ((ht.holds _).1 hj)]
      exact h.contents j
  · rw [hs.other j hj, ht.other _ fun heq => hj (Ident.relocated_injective h.injective heq)]
    exact h.contents j

/-- What is relocated can be relocated again. -/
theorem trans {m' : CellId → CellId} {u : Store} (h : Relocated m s t) (h' : Relocated m' t u) :
    Relocated (m' ∘ m) s u := by
  refine ⟨h'.injective.comp h.injective, fun i => ?_, fun n => ?_, h'.tables.trans h.tables,
    h'.closures.trans h.closures, h'.frames.trans h.frames⟩
  · have hmoves := (h.contents i).trans (h'.contents (i.relocated m))
    cases i <;> exact hmoves
  · rw [Function.comp_apply, h.next, h'.next]

/-! ### Making -/

theorem cons (h : Relocated m s t) (a d : Value) :
    (t.cons (a.relocated m) (d.relocated m)).1 = (s.cons a d).1.relocated m ∧
      Relocated m (s.cons a d).2 (t.cons (a.relocated m) (d.relocated m)).2 := by
  have hnew : m ⟨s.cells.size⟩ = ⟨t.cells.size⟩ := h.next 0
  refine ⟨?_, h.injective, ?_, fun n => ?_, h.tables, h.closures, h.frames⟩
  · show Value.mk (.pair ⟨t.cells.size⟩) .unknown = ⟨.pair (m ⟨s.cells.size⟩), .unknown⟩
    rw [hnew]
  · have ht := Store.adds_cons t (a.relocated m) (d.relocated m)
    rw [← hnew, restOf_relocated] at ht
    exact h.contents_adds (Store.adds_cons s a d) ht rfl
  · have hnext := h.next (n + 1)
    simp only [Store.cons, Array.size_push]
    rwa [Nat.add_right_comm, Nat.add_right_comm t.cells.size]

theorem ofList (h : Relocated m s t) (vs : List Value) :
    (t.ofList (vs.map (Value.relocated m))).1 = (s.ofList vs).1.relocated m ∧
      Relocated m (s.ofList vs).2 (t.ofList (vs.map (Value.relocated m))).2 := by
  induction vs with
  | nil => exact ⟨rfl, h⟩
  | cons v vs ih =>
    obtain ⟨hlist, hstores⟩ := ih
    have hcons := hstores.cons v (s.ofList vs).1
    rw [← hlist] at hcons
    exact hcons

theorem ofForm (h : Relocated m s t) (file : String) (f : Form) :
    (t.ofForm file f).1 = (s.ofForm file f).1.relocated m ∧
      Relocated m (s.ofForm file f).2 (t.ofForm file f).2 := by
  induction f generalizing s t with
  | atom | empty => exact ⟨rfl, h⟩
  | single p car ih =>
    obtain ⟨hcar, hstores⟩ := ih h
    obtain ⟨hpair, hstores'⟩ := hstores.cons (s.ofForm file car).1 .nil
    rw [← hcar] at hpair hstores'
    exact ⟨congrArg (Value.withLocation · (p.inFile file)) hpair, hstores'⟩
  | pair p car cdr ihcar ihcdr =>
    obtain ⟨hcar, hstores⟩ := ihcar h
    obtain ⟨hcdr, hstores'⟩ := ihcdr hstores
    obtain ⟨hpair, hstores''⟩ := hstores'.cons (s.ofForm file car).1
      ((s.ofForm file car).2.ofForm file cdr).1
    rw [← hcar, ← hcdr] at hpair hstores''
    exact ⟨congrArg (Value.withLocation · (p.inFile file)) hpair, hstores''⟩

theorem ofForms (h : Relocated m s t) (file : String) (fs : List Form) :
    (t.ofForms file fs).1 = (s.ofForms file fs).1.map (Value.relocated m) ∧
      Relocated m (s.ofForms file fs).2 (t.ofForms file fs).2 := by
  induction fs generalizing s t with
  | nil => exact ⟨rfl, h⟩
  | cons f fs ih =>
    obtain ⟨hform, hstores⟩ := h.ofForm file f
    obtain ⟨hforms, hstores'⟩ := ih hstores
    exact ⟨congrArg₂ List.cons hform hforms, hstores'⟩

theorem newTable (h : Relocated m s t) :
    t.newTable.1 = s.newTable.1.relocated m ∧ Relocated m s.newTable.2 t.newTable.2 := by
  have ht := Store.adds_newTable t
  rw [h.tables] at ht
  refine ⟨?_, h.injective, h.contents_adds (Store.adds_newTable s) ht .empty, h.next, ?_, h.closures,
    h.frames⟩
  · simp [Store.newTable, h.tables, Value.relocated, Datum.relocated]
  · simp [Store.newTable, h.tables]

theorem newClosure (h : Relocated m s t) (k : Closure) :
    (t.newClosure (k.relocated m)).1 = (s.newClosure k).1.relocated m ∧
      Relocated m (s.newClosure k).2 (t.newClosure (k.relocated m)).2 := by
  have ht := Store.adds_newClosure t (k.relocated m)
  rw [h.closures] at ht
  refine ⟨?_, h.injective, h.contents_adds (Store.adds_newClosure s k) ht rfl, h.next, h.tables, ?_,
    h.frames⟩
  · simp [Store.newClosure, h.closures, Value.relocated, Datum.relocated]
  · simp [Store.newClosure, h.closures]

theorem extend (h : Relocated m s t) (parent : FrameId) (params : List String) (args : List Value) :
    (t.extend parent params (args.map (Value.relocated m))).1 = (s.extend parent params args).1 ∧
      Relocated m (s.extend parent params args).2
        (t.extend parent params (args.map (Value.relocated m))).2 := by
  have hs := Store.adds_newFrame s { bindings := .ofList (params.zip args), parent := some parent }
  have ht := Store.adds_newFrame t
    { bindings := .ofList (params.zip (args.map (Value.relocated m))), parent := some parent }
  rw [h.frames] at ht
  refine ⟨?_, h.injective, h.contents_adds hs ht ⟨rfl, rfl, .ofList_zip params args⟩, h.next, h.tables,
    h.closures, ?_⟩
  · simp [Store.extend, Store.newFrame, h.frames]
  · simp [Store.extend, Store.newFrame, h.frames]

/-! ### Changing -/

theorem setCar (h : Relocated m s t) (c : CellId) (v : Value) :
    Relocated m (s.setCar c v) (t.setCar (m c) (v.relocated m)) := by
  refine h.sets (Store.sets_setCar s c v) (Store.sets_setCar t (m c) (v.relocated m)) ?_
    (by simp [Store.setCar, h.tables, h.closures, h.frames])
  rw [h.cell]
  exact rfl

theorem setCdr (h : Relocated m s t) (c : CellId) (v : Value) :
    Relocated m (s.setCdr c v) (t.setCdr (m c) (v.relocated m)) := by
  refine h.sets (Store.sets_setCdr s c v) (Store.sets_setCdr t (m c) (v.relocated m)) ?_
    (by simp [Store.setCdr, h.tables, h.closures, h.frames])
  rw [h.cell, restOf_relocated]
  exact rfl

theorem setEntry (h : Relocated m s t) (u : TableId) (key : HashKey) (v : Value) :
    Relocated m (s.setEntry u key v) (t.setEntry u key (v.relocated m)) :=
  h.sets (Store.sets_setEntry s u key v) (Store.sets_setEntry t u key (v.relocated m))
    ((h.table u).insert key v) (by simp [Store.setEntry, h.tables, h.closures, h.frames])

theorem define (h : Relocated m s t) (f : FrameId) (name : String) (v : Value) :
    Relocated m (s.define f name v) (t.define f name (v.relocated m)) := by
  obtain ⟨hparent, hpolicy, hbindings⟩ := h.frame f
  exact h.sets (Store.sets_define s f name v) (Store.sets_define t f name (v.relocated m))
    ⟨hparent, hpolicy, hbindings.insert name v⟩
    (by simp [Store.define, h.tables, h.closures, h.frames])

/-! ### Looking -/

theorem chain (h : Relocated m s t) (f : FrameId) : t.chain f = s.chain f := by
  rw [Store.chain, Store.chain, h.frames, Store.chainFrom_congr fun f => (h.frame f).1]

theorem lookup (h : Relocated m s t) (f : FrameId) (name : String) :
    t.lookup f name = (s.lookup f name).map (Value.relocated m) := by
  rw [Store.lookup, Store.lookup, h.chain]
  induction s.chain f with
  | nil => rfl
  | cons g chain ih =>
    have hbindings := (h.frame g).2.2 name
    rw [List.findSome?_cons, List.findSome?_cons, hbindings]
    cases (s.frame g).bindings.find? name with
    | none => exact ih
    | some v => rfl

theorem policy (h : Relocated m s t) (f : FrameId) : t.policy f = s.policy f := by
  rw [Store.policy, Store.policy, Store.root, Store.root, h.chain]
  exact (h.frame _).2.1

/-- Step by step, a walk comes to the same elements. -/
theorem walk (h : Relocated m s t) (n : Nat) (c : CellId) (seen : List Value) :
    t.walk n (m c) (seen.map (Value.relocated m)) =
      (s.walk n c seen).map (List.map (Value.relocated m)) := by
  induction n generalizing c seen with
  | zero => rfl
  | succ n ih =>
    rw [Store.walk, Store.walk, h.cell]
    cases hcdr : (s.cell c).cdr with
    | none => simp [Cell.relocated, hcdr, Except.map]
    | some rest =>
      obtain ⟨x, p⟩ := rest
      have hstep := fun d => ih d ((s.cell c).car :: seen)
      cases x with
      | pair d => simpa [Cell.relocated, hcdr, Value.relocated, Datum.relocated] using hstep d
      | nil | atom | closure | native | hash =>
        simp [Cell.relocated, hcdr, Value.relocated, Datum.relocated, Except.map]

/-- A list has the same elements, or none for the same reason. -/
theorem elements (h : Relocated m s t) (v : Value) :
    t.elements (v.relocated m) = (s.elements v).map (List.map (Value.relocated m)) := by
  obtain ⟨x, p⟩ := v
  cases x with
  | nil | atom | closure | native | hash => rfl
  | pair c =>
    -- the stores may differ in size, so both are walked under a bound that does for either
    have hs : s.cells.size + 1 ≤ max s.cells.size t.cells.size + 1 := by omega
    have ht : t.cells.size + 1 ≤ max s.cells.size t.cells.size + 1 := by omega
    show t.walk (t.cells.size + 1) (m c) [] = (s.walk (s.cells.size + 1) c []).map _
    rw [← Store.walk_of_le hs, ← Store.walk_of_le ht]
    exact h.walk _ c []

theorem listElements (h : Relocated m s t) (v : Value) :
    t.listElements (v.relocated m) = (s.listElements v).map (List.map (Value.relocated m)) := by
  rw [Store.listElements, Store.listElements, h.elements]
  cases s.elements v <;> rfl

theorem innerText (h : Relocated m s t) (n : Nat) (path : List CellId) (c : CellId) :
    t.innerText n (path.map m) (m c) = s.innerText n path c := by
  induction n generalizing path c with
  | zero => rfl
  | succ n ih =>
    have hcontains : ∀ d, ((c :: path).map m).contains (m d) = (c :: path).contains d := by
      intro d
      rw [Bool.eq_iff_iff, List.contains_iff_mem, List.contains_iff_mem]
      exact List.mem_map_of_injective h.injective
    have hinner := ih (c :: path)
    rw [Store.innerText_succ, Store.innerText_succ, h.cell, ← List.map_cons]
    refine congrArg₂ (· ++ ·) ?_ ?_
    · rcases hcar : (s.cell c).car with ⟨- | d | a | k | p | t, q⟩
      case pair =>
        simp only [Cell.relocated, hcar, Value.relocated, Datum.relocated, Store.carText, hcontains, hinner]
      all_goals simp only [Cell.relocated, hcar, Value.relocated, Datum.relocated, Store.carText]
    · rcases hcdr : (s.cell c).cdr with - | ⟨- | d | a | k | p | t, q⟩
      case some.pair =>
        simp only [Cell.relocated, hcdr, Option.map_some, Value.relocated, Datum.relocated, Store.cdrText,
          hcontains, hinner]
      all_goals
        simp only [Cell.relocated, hcdr, Option.map_none, Option.map_some, Value.relocated,
          Datum.relocated, Store.cdrText]

/-- Values are written the same. -/
theorem text (h : Relocated m s t) (v : Value) : t.text (v.relocated m) = s.text v := by
  obtain ⟨x, p⟩ := v
  cases x with
  | nil | atom | closure | native | hash => rfl
  | pair c =>
    have hs : s.cells.size + 1 ≤ max s.cells.size t.cells.size + 1 := by omega
    have ht : t.cells.size + 1 ≤ max s.cells.size t.cells.size + 1 := by omega
    rw [Store.text_of_pair (v := ⟨.pair c, p⟩) rfl hs,
      Store.text_of_pair (v := Value.relocated m ⟨.pair c, p⟩) (c := m c) rfl ht]
    exact congrArg (fun inner => "(" ++ inner ++ ")") (h.innerText _ [] c)

theorem bisimilar (h : Relocated m s t) (hbis : s.Bisimilar v w) :
    t.Bisimilar (v.relocated m) (w.relocated m) := by
  obtain ⟨R, hR, hvw⟩ := hbis
  refine ⟨fun v' w' => ∃ v w, v.relocated m = v' ∧ w.relocated m = w' ∧ R v w, ?_, v, w, rfl, rfl, hvw⟩
  rintro _ _ ⟨⟨x, p⟩, ⟨y, q⟩, rfl, rfl, hxy⟩
  have hagree : s.Agree R x y := hR _ _ hxy
  show t.Agree _ (x.relocated m) (y.relocated m)
  cases hagree with
  | nil => exact .nil
  | atom hsame => exact .atom hsame
  | native p => exact .native p
  | closure k => exact .closure k
  | hash u => exact .hash u
  | cell c => exact .cell (m c)
  | @pair c d car cdr =>
    refine .pair ?_ ?_
    · rw [h.cell, h.cell]
      exact ⟨_, _, rfl, rfl, car⟩
    · rw [h.cell, h.cell]
      show Option.Rel _ ((s.cell c).cdr.map _) ((s.cell d).cdr.map _)
      generalize (s.cell c).cdr = a at cdr
      generalize (s.cell d).cdr = b at cdr
      cases cdr with
      | none => exact .none
      | some hrest => exact .some ⟨_, _, rfl, rfl, hrest⟩

theorem bisimilar_of_relocated (h : Relocated m s t)
    (hbis : t.Bisimilar (v.relocated m) (w.relocated m)) : s.Bisimilar v w := by
  obtain ⟨R, hR, hvw⟩ := hbis
  refine ⟨fun v w => R (v.relocated m) (w.relocated m), ?_, hvw⟩
  rintro ⟨x, p⟩ ⟨y, q⟩ hxy
  have hagree : t.Agree R (x.relocated m) (y.relocated m) := hR _ _ hxy
  show s.Agree _ x y
  -- what agrees at the top is of one kind on both sides
  cases x <;> cases y <;> simp only [Datum.relocated] at hagree
  case pair.pair c d =>
    generalize hc : m c = c' at hagree
    generalize hd : m d = d' at hagree
    cases hagree with
    | cell =>
      rw [h.injective (hc.trans hd.symm)]
      exact .cell d
    | pair car cdr =>
      subst hc hd
      rw [h.cell, h.cell] at car cdr
      refine .pair car ?_
      simp only [Cell.relocated] at cdr
      cases ha : (s.cell c).cdr <;> cases hb : (s.cell d).cdr <;> rw [ha, hb] at cdr
      case none.none => exact .none
      case some.some =>
        cases cdr with
        | some hrest => exact .some hrest
      all_goals cases cdr
  case nil.nil => exact .nil
  case atom.atom =>
    cases hagree with
    | atom hsame => exact .atom hsame
  case native.native =>
    cases hagree
    exact .native _
  case closure.closure =>
    cases hagree
    exact .closure _
  case hash.hash =>
    cases hagree
    exact .hash _
  all_goals cases hagree

theorem equal (h : Relocated m s t) (v w : Value) :
    t.equal (v.relocated m) (w.relocated m) = s.equal v w := by
  rw [Bool.eq_iff_iff, Store.equal_iff_bisimilar, Store.equal_iff_bisimilar]
  exact ⟨h.bisimilar_of_relocated, h.bisimilar⟩

end Relocated

end Lisplet
