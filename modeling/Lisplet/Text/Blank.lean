/-
# Lisplet.Text.Blank -- blanks and delimiters

The characters that separate words.  Blanks are the characters with the Unicode property
`White_Space`, held as a table of closed ranges of code points; a delimiter is a blank or one of the
five characters that begin or end something other than a word.
-/

import Lisplet.Text.Ranges

namespace Lisplet.Text

/-- The closed ranges of code points with the property `White_Space`, in increasing order. -/
def blankRanges : List (Nat × Nat) :=
  [(0x0009, 0x000d), (0x0020, 0x0020), (0x0085, 0x0085), (0x00a0, 0x00a0), (0x1680, 0x1680),
   (0x2000, 0x200a), (0x2028, 0x2029), (0x202f, 0x202f), (0x205f, 0x205f), (0x3000, 0x3000)]

/-- A blank is a character with the property `White_Space`. -/
def isBlank (c : Char) : Bool := inRanges blankRanges c

/-- The characters that no word contains. -/
def isDelimiter (c : Char) : Bool :=
  isBlank c || c == '(' || c == ')' || c == '\'' || c == '"' || c == ';'

/-- The table lists twenty-five characters. -/
theorem blankRanges_count : rangesCount blankRanges = 25 := by decide

/-- Drops the blanks at both ends. -/
def trim (text : String) : String :=
  String.ofList (((text.toList.dropWhile isBlank).reverse.dropWhile isBlank).reverse)

end Lisplet.Text
