/-
# Lisplet.Text.Ranges -- classes of characters as tables

A class of characters is held as a list of closed ranges of code points.  A table is laid out in
increasing order with gaps between its ranges, so that no character is listed twice.
-/

namespace Lisplet.Text

/-- A character is in a table when one of its ranges holds its code point. -/
def inRanges (ranges : List (Nat × Nat)) (c : Char) : Bool :=
  ranges.any fun r => r.1 ≤ c.toNat && c.toNat ≤ r.2

/-- How many code points a table lists. -/
def rangesCount (ranges : List (Nat × Nat)) : Nat :=
  ranges.foldl (fun n r => n + (r.2 + 1 - r.1)) 0

/-- The ranges of a table increase and leave gaps. -/
def rangesIncrease : List (Nat × Nat) → Bool
  | [] => true
  | [r] => r.1 ≤ r.2
  | r :: s :: rest => r.1 ≤ r.2 && r.2 + 1 < s.1 && rangesIncrease (s :: rest)

end Lisplet.Text
