/-
# Lisplet.Location -- where a value comes from

A position is a row and a column of a text, both counted from one.  A location adds the name of the
file; row zero is reserved for values that stand in no text.  A provenance is what every value carries
for diagnostics: a location and the name under which it was last defined.

Rows and columns are counted in 32 bits, and the counters wrap around.  The limit shows in texts of
4294967295 line feeds and more: what stands behind so many of them is in row zero, and counts as
standing in no text.
-/

namespace Lisplet

/-- A number as a counter holds it. -/
instance counterOfNat : Coe Nat UInt32 := ⟨UInt32.ofNat⟩

/-- A place in a text, as it is counted.  Rows and columns count from one. -/
structure Position where
  row32 : UInt32
  col32 : UInt32
deriving DecidableEq, Inhabited, Repr

namespace Position

/-- The row as a number. -/
def row (p : Position) : Nat := p.row32.toNat

/-- The column as a number. -/
def col (p : Position) : Nat := p.col32.toNat

/-- The place of the first character of a text. -/
def start : Position := ⟨1, 1⟩

/-- The place of the character that follows `c`: a line feed opens the next row. -/
def next (p : Position) (c : Char) : Position :=
  if c = '\n' then ⟨p.row32 + 1, 1⟩ else ⟨p.row32, p.col32 + 1⟩

end Position

/-- A place in a named file.  Row zero marks a value that stands in no text. -/
structure Location where
  file : String
  row32 : UInt32
  col32 : UInt32
deriving DecidableEq, Inhabited, Repr

namespace Location

/-- The row as a number. -/
def row (l : Location) : Nat := l.row32.toNat

/-- The column as a number. -/
def col (l : Location) : Nat := l.col32.toNat

/-- The location of what was made by a running program. -/
def unknown : Location := ⟨"unknown", 0, 0⟩

/-- A location is known when it has a row. -/
def isKnown (l : Location) : Bool := l.row32 != 0

theorem isKnown_iff (l : Location) : l.isKnown = true ↔ 1 ≤ l.row := by
  rw [isKnown, row, bne_iff_ne, ne_eq, ← UInt32.toNat_inj, ← ne_eq, Nat.one_le_iff_ne_zero]
  rfl

/-- File, row and column, parted by colons. -/
def text (l : Location) : String := l.file ++ ":" ++ toString l.row ++ ":" ++ toString l.col

/-- Where in its file the place is. -/
def position (l : Location) : Position := ⟨l.row32, l.col32⟩

end Location

/-- A position as a location in `file`. -/
def Position.inFile (p : Position) (file : String) : Location := ⟨file, p.row32, p.col32⟩

/-- What a value carries for diagnostics: where it stood and the name it was last defined as. -/
structure Provenance where
  location : Location
  bound : Option String := none
deriving DecidableEq, Inhabited, Repr

namespace Provenance

/-- The provenance of what was made by a running program. -/
def unknown : Provenance := ⟨.unknown, none⟩

/-- The provenance of what was read at `l`. -/
def ofLocation (l : Location) : Provenance := ⟨l, none⟩

end Provenance

end Lisplet
