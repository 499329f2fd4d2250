/-
# Lisplet.Store -- shared, mutable data

The store holds all pairs, hash tables, closures and frames that a session has made, each under the
identity it was given when it was made.  Nothing is ever removed.  Reading is total: an identity that
was never given out names an empty pair, table, closure or frame.

A pair whose rest would be the empty list holds no rest at all: `cons` and `setCdr` see to it.
-/

import Lisplet.FiniteMap
import Lisplet.Form
import Lisplet.Value

namespace Lisplet

/-- A pair.  Without a rest it is the last of its list. -/
structure Cell where
  car : Value := .nil
  cdr : Option Value := none
deriving DecidableEq, Inhabited

/-- A function with the frame it was made in. -/
structure Closure where
  params : List String := []
  body : List Value := []
  frame : FrameId := ⟨0⟩
deriving DecidableEq, Inhabited

/-- The atoms that a hash table takes as keys. -/
inductive HashKey where
  | int (n : Int64)
  | bool (b : Bool)
  | symbol (name : String)
  | string (content : String)
deriving DecidableEq, Inhabited

/-- The key that a value makes.  Floating point numbers and compound values make none. -/
def HashKey.ofValue? (v : Value) : Option HashKey :=
  match v.datum with
  | .atom (.number (.int n)) => some (.int n)
  | .atom (.bool b) => some (.bool b)
  | .atom (.symbol name) => some (.symbol name)
  | .atom (.string content) => some (.string content)
  | _ => none

/-- A hash table. -/
abbrev Table := FiniteMap HashKey Value

/-- One frame of an environment.  The warn policy counts only on a frame without a parent. -/
structure Frame where
  bindings : FiniteMap String Value := {}
  parent : Option FrameId := none
  policy : WarnPolicy := .abort
deriving Inhabited

/-- All shared data of a session. -/
structure Store where
  cells : Array Cell := #[]
  tables : Array Table := #[]
  closures : Array Closure := #[]
  frames : Array Frame := #[]
deriving Inhabited

namespace Store

/-! ## Reading -/

def cell (s : Store) (c : CellId) : Cell := s.cells.getD c.index {}

def table (s : Store) (t : TableId) : Table := s.tables.getD t.index {}

def closure (s : Store) (k : ClosureId) : Closure := s.closures.getD k.index {}

def frame (s : Store) (f : FrameId) : Frame := s.frames.getD f.index {}

/-- The first half of a pair. -/
def car? (s : Store) (v : Value) : Option Value := v.cell?.map fun c => (s.cell c).car

/-- The rest of a pair that has one. -/
def cdr? (s : Store) (v : Value) : Option Value := v.cell?.bind fun c => (s.cell c).cdr

/-! ## Making -/

/-- The rest that a pair holds for `v`: none for the empty list. -/
def restOf (v : Value) : Option Value := if v.isNil then none else some v

/-- A new pair. -/
def cons (car cdr : Value) (s : Store) : Value × Store :=
  (⟨.pair ⟨s.cells.size⟩, .unknown⟩, { s with cells := s.cells.push ⟨car, restOf cdr⟩ })

/-- A new list. -/
def ofList : List Value → Store → Value × Store
  | [], s => (.nil, s)
  | v :: rest, s =>
    let (tail, s) := ofList rest s
    cons v tail s

/-- A new, empty hash table. -/
def newTable (s : Store) : Value × Store :=
  (⟨.hash ⟨s.tables.size⟩, .unknown⟩, { s with tables := s.tables.push {} })

/-- A new closure. -/
def newClosure (k : Closure) (s : Store) : Value × Store :=
  (⟨.closure ⟨s.closures.size⟩, .unknown⟩, { s with closures := s.closures.push k })

/-- A new frame. -/
def newFrame (f : Frame) (s : Store) : FrameId × Store :=
  (⟨s.frames.size⟩, { s with frames := s.frames.push f })

/-- A form as a value read from `file`, with new pairs. -/
def ofForm (file : String) : Form → Store → Value × Store
  | .atom p a, s => (⟨.atom a, .ofLocation (p.inFile file)⟩, s)
  | .empty p, s => (⟨.nil, .ofLocation (p.inFile file)⟩, s)
  | .single p car, s =>
    let (a, s) := ofForm file car s
    let (v, s) := cons a .nil s
    (v.withLocation (p.inFile file), s)
  | .pair p car cdr, s =>
    let (a, s) := ofForm file car s
    let (d, s) := ofForm file cdr s
    let (v, s) := cons a d s
    (v.withLocation (p.inFile file), s)

/-- Forms as values read from `file`, in order. -/
def ofForms (file : String) : List Form → Store → List Value × Store
  | [], s => ([], s)
  | f :: rest, s =>
    let (v, s) := ofForm file f s
    let (vs, s) := ofForms file rest s
    (v :: vs, s)

/-! ## Changing -/

/-- Replace the first half of a pair. -/
def setCar (c : CellId) (v : Value) (s : Store) : Store :=
  { s with cells := s.cells.modify c.index fun cell => { cell with car := v } }

/-- Replace the rest of a pair.  The empty list takes the rest away. -/
def setCdr (c : CellId) (v : Value) (s : Store) : Store :=
  { s with cells := s.cells.modify c.index fun cell => { cell with cdr := restOf v } }

/-- Store a value in a hash table. -/
def setEntry (t : TableId) (k : HashKey) (v : Value) (s : Store) : Store :=
  { s with tables := s.tables.modify t.index fun table => table.insert k v }

/-! ## What a reader sees -/

@[simp] theorem restOf_nil (p : Provenance) : restOf ⟨.nil, p⟩ = none := rfl

/-- A rest is never the empty list. -/
theorem isNil_of_mem_restOf {v w : Value} (h : w ∈ restOf v) : w.isNil = false := by
  unfold restOf at h
  split at h
  · simp at h
  · simp_all

/-- A new pair reads back. -/
theorem cell_cons_self (s : Store) (car cdr : Value) :
    (s.cons car cdr).2.cell ⟨s.cells.size⟩ = ⟨car, restOf cdr⟩ := by
  simp [cons, cell]

/-- A new pair leaves the others alone. -/
theorem cell_cons_of_lt (s : Store) (car cdr : Value) {c : CellId} (h : c.index < s.cells.size) :
    (s.cons car cdr).2.cell c = s.cell c := by
  have hne : c.index ≠ s.cells.size := Nat.ne_of_lt h
  simp [cons, cell, Array.getElem?_push, hne]

theorem cell_setCar_self (s : Store) (v : Value) {c : CellId} (h : c.index < s.cells.size) :
    (s.setCar c v).cell c = { s.cell c with car := v } := by
  simp [setCar, cell, Array.getElem_modify, h]

/-- Setting the first half of one pair leaves the others alone. -/
theorem cell_setCar_of_ne (s : Store) (v : Value) {c d : CellId} (h : d ≠ c) :
    (s.setCar c v).cell d = s.cell d := by
  have hne : c.index ≠ d.index := fun e => h (by cases c; cases d; simp_all)
  simp [setCar, cell, Array.getElem?_modify, hne]

theorem cell_setCdr_self (s : Store) (v : Value) {c : CellId} (h : c.index < s.cells.size) :
    (s.setCdr c v).cell c = { s.cell c with cdr := restOf v } := by
  simp [setCdr, cell, Array.getElem_modify, h]

/-- Setting the rest of one pair leaves the others alone. -/
theorem cell_setCdr_of_ne (s : Store) (v : Value) {c d : CellId} (h : d ≠ c) :
    (s.setCdr c v).cell d = s.cell d := by
  have hne : c.index ≠ d.index := fun e => h (by cases c; cases d; simp_all)
  simp [setCdr, cell, Array.getElem?_modify, hne]

theorem table_setEntry_self (s : Store) (k : HashKey) (v : Value) {t : TableId}
    (h : t.index < s.tables.size) : (s.setEntry t k v).table t = (s.table t).insert k v := by
  simp [setEntry, table, Array.getElem_modify, h]

/-- Setting an entry of one table leaves the others alone. -/
theorem table_setEntry_of_ne (s : Store) (k : HashKey) (v : Value) {t u : TableId} (h : u ≠ t) :
    (s.setEntry t k v).table u = s.table u := by
  have hne : t.index ≠ u.index := fun e => h (by cases t; cases u; simp_all)
  simp [setEntry, table, Array.getElem?_modify, hne]

end Store

end Lisplet
