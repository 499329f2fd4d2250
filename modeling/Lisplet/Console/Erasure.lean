/-
# Lisplet.Console.Erasure -- lines with erasures

A backspace takes back the cluster typed before it, and does nothing where none is left.  What is taken
back is counted in bytes: the width of every cluster is noted in one byte as it is typed, and an
erasure cuts that many bytes off the end of the line.  For a cluster of at least 256 bytes the noted
width is too small by a multiple of 256, so a part of it stays, and the cut may even fall inside a
character; then the line has no meaning.
-/

import Lisplet.Console.Cluster

namespace Lisplet.Text

/-- The character that erases. -/
def backspace : Char := '\x08'

/-- The width of a cluster in bytes, as far as one byte holds it. -/
def notedWidth (cluster : List Char) : Nat :=
  cluster.foldl (fun n c => n + c.utf8Size) 0 % 256

/-- Take `n` bytes off a line held last character first, if that cuts no character. -/
def cut : Nat → List Char → Option (List Char)
  | 0, line => some line
  | _, [] => none
  | n, c :: rest => if c.utf8Size ≤ n then cut (n - c.utf8Size) rest else none

/-- A line being typed: its characters and the widths noted, last first. -/
structure Draft where
  line : List Char := []
  widths : List Nat := []
deriving DecidableEq, Inhabited, Repr

namespace Draft

/-- Take back the last cluster. -/
def erase (d : Draft) : Option Draft :=
  match d.widths with
  | [] => some d
  | width :: widths => (cut width d.line).map (⟨·, widths⟩)

/-- Type a cluster. -/
def type (d : Draft) (cluster : List Char) : Option Draft :=
  if cluster = [backspace] then d.erase
  else some ⟨cluster.reverse ++ d.line, notedWidth cluster :: d.widths⟩

end Draft

/-- The line that is left when its erasures are carried out; none if one of them cuts a character. -/
def typed (line : String) : Option String :=
  ((clusters line.toList).foldlM Draft.type {}).map fun d => String.ofList d.line.reverse

end Lisplet.Text
