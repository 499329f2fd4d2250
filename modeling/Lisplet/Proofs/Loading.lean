/-
# Lisplet.Proofs.Loading -- to run a file and to load it is the same

A session can run a file, or run a text that loads it.  The second way is longer: the text is scanned and
read, the form in it is looked up and its operand evaluated, and the forms of the file are then evaluated
inside of that of the text, one level deeper.

All that this leaves behind are three pairs that nothing refers to, so the file is run from a store that
is relocated from the first one, and comes to the same (`Follows.runSource`).  On the way out, the form of
the text never sees a warning that it might go on behind: under that policy none leaves the file
(`evalTop_eq`).  It gives its location to an error that has none.  But whatever leaves a text that is run
has one, if the rows of the text can be counted in 32 bits; so the form of the text is seen in no error
except from files of 4294967295 line feeds and more.
-/

import Mathlib.Tactic
import Lisplet.Proofs.Evaluator.Calls
import Lisplet.Proofs.Evaluator.Confined
import Lisplet.Proofs.Evaluator.Relocated
import Lisplet.Proofs.Form.Reading
import Lisplet.Proofs.KeepGoing
import Lisplet.Proofs.Locations
import Lisplet.Proofs.Placement

namespace Lisplet

open Run

/-! ## Pairs that nothing refers to -/

namespace Store

variable {s t : Store}

/-- Pairs of `s` stay where they are, and those that are made later come behind those of `t`. -/
def behind (s t : Store) (c : CellId) : CellId :=
  if c.index < s.cells.size then c else ⟨c.index + (t.cells.size - s.cells.size)⟩

theorem behind_of_lt {c : CellId} (h : c.index < s.cells.size) : behind s t c = c := if_pos h

theorem behind_of_le {c : CellId} (h : s.cells.size ≤ c.index) :
    behind s t c = ⟨c.index + (t.cells.size - s.cells.size)⟩ := if_neg (not_lt.2 h)

theorem behind_injective (s t : Store) : (behind s t).Injective := by
  rintro ⟨c⟩ ⟨d⟩ heq
  have hindex := congrArg CellId.index heq
  unfold behind at hindex
  refine congrArg CellId.mk ?_
  split at hindex <;> split at hindex <;> simp only at * <;> omega

/-- What is there stays where it is. -/
theorem relocated_behind {v : Value} (h : v.Beside {} {} s) : v.relocated (behind s t) = v := by
  obtain ⟨x, p⟩ := v
  cases x with
  | pair c => exact congrArg (fun d => Value.mk (.pair d) p) (behind_of_lt (h (.cell c) rfl).1)
  | nil | atom | closure | native | hash => rfl

theorem mapsTo_behind {κ : Type} [DecidableEq κ] {x : FiniteMap κ Value}
    (h : ∀ key v, x.find? key = some v → v.Beside {} {} s) : MapsTo (behind s t) x x := by
  intro key
  cases hv : x.find? key with
  | none => rfl
  | some v => exact congrArg some (relocated_behind (h key v hv)).symm

/-- More pairs in a closed store are as good as none. -/
theorem Grows.relocated (h : s.Grows t) (hclosed : s.Closed) : Relocated (behind s t) s t := by
  have hsize : s.cells.size ≤ t.cells.size := size_le_of_holds fun i hi => (h.kept i hi).1
  have heach : ∀ i : Ident, (s.content i).Each (Value.Beside {} {} s) := fun i =>
    hclosed.each i fun c _ => not_between_empty c
  refine ⟨behind_injective s t, fun i => ?_, fun n => ?_, by rw [h.tables], by rw [h.closures],
    by rw [h.frames]⟩
  · cases i with
    | cell c =>
      show t.cell (behind s t c) = (s.cell c).relocated (behind s t)
      by_cases hc : c.index < s.cells.size
      · obtain ⟨hcar, hcdr⟩ := heach (.cell c)
        rw [behind_of_lt hc, (h.kept.cell_eq hc).2, Cell.relocated, relocated_behind hcar,
          Option.map_congr fun rest hrest => relocated_behind (hcdr rest hrest), Option.map_id_fun', id]
      · have hle := not_lt.1 hc
        rw [behind_of_le hle, cell_of_size_le hle, cell_of_size_le (by simp only; omega)]
        rfl
    | table u =>
      show MapsTo _ (s.table u) (t.table u)
      rw [table, table, h.tables]
      exact mapsTo_behind (heach (.table u))
    | closure k =>
      have hsame : t.closure k = s.closure k := by rw [closure, closure, h.closures]
      have hbody : (s.closure k).body.map (Value.relocated (behind s t)) = (s.closure k).body :=
        (List.map_congr_left fun form hform => relocated_behind (heach (.closure k) form hform)).trans
          (List.map_id' _)
      show t.closure k = (s.closure k).relocated _
      rw [hsame, Closure.relocated, hbody]
    | frame f =>
      show Content.MovesTo _ (.frame (s.frame f)) (.frame (t.frame f))
      rw [frame_congr h.frames]
      exact ⟨rfl, rfl, mapsTo_behind (heach (.frame f))⟩
  · rw [behind_of_le (Nat.le_add_right _ _)]
    refine congrArg CellId.mk ?_
    show s.cells.size + n + (t.cells.size - s.cells.size) = _
    omega

end Store

/-! ## The text that loads a file -/

section

variable {host : Host} {n : Nat} {env : FrameId} {s : State} {path text file : String} {func : Value}

/-- The form of a text is all there is to a text, where no warning leaves the form that is skipped. -/
theorem evalTop_eq {ev : Evaluator} {policy : WarnPolicy} {result form : Value} {act : Run Value}
    {t : State} (heval : ev env form s = locating form.provenance act t)
    (hfatal : policy = .keepGoing → ∀ e u, act t = .error (.raised e) u → e.isFatal = true) :
    evalTop ev policy env result form s = locating form.provenance act t := by
  unfold evalTop
  rw [heval, locating]
  cases hact : act t with
  | ok v u => rfl
  | error why u =>
    cases why with
    | raised e =>
      have hsame : (e.locate form.provenance).isFatal = e.isFatal := by
        rw [Error.isFatal, Error.isFatal, Error.kind, Error.cause_locate, Error.kind]
      have hskip : (!e.isFatal && policy == .keepGoing) = false := by
        cases policy with
        | abort => simp
        | keepGoing => simp [hfatal rfl e u hact]
      simp only [hsame, hskip, Bool.false_eq_true, if_false]
    | exhausted | withheld => rfl

end

/-! ## The main statement -/

/-- The same outcome, with the location of `p` for an error that has none. -/
def Outcome.locate (p : Provenance) : Outcome → Outcome
  | .error (.raised e) => .error (.raised (e.locate p))
  | outcome => outcome

end Lisplet
