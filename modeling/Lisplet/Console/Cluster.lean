/-
# Lisplet.Console.Cluster -- the clusters of a text

A text falls into extended grapheme clusters: what a reader takes for single characters.  A character
either joins the cluster before it or begins one, and what decides is its break class and the classes
at the end of that cluster.  Nothing is lost: the clusters of a text, put together, are the text.
-/

import Lisplet.Console.BreakClass

namespace Lisplet.Text

namespace BreakClass

/-- The characters that stand alone: controls and the ends of lines. -/
def isSeparator : BreakClass → Bool
  | .carriageReturn | .lineFeed | .control => true
  | _ => false

/-- The characters that join whatever is before them. -/
def isExtending : BreakClass → Bool
  | .extend | .linker | .nonJoiner | .joiner | .spacing => true
  | _ => false

/-- The marks that may stand between a pictograph and the joiner behind it. -/
def isMark : BreakClass → Bool
  | .extend | .linker | .nonJoiner => true
  | _ => false

/-- The signs that may stand between the consonants of a conjunct. -/
def isLigature : BreakClass → Bool
  | .extend | .linker | .joiner => true
  | _ => false

/-- A part of a Hangul syllable and the part that may follow it. -/
def formsSyllable : BreakClass → BreakClass → Bool
  | .leading, next =>
    next == .leading || next == .vowel || next == .openSyllable || next == .closedSyllable
  | .vowel, next | .openSyllable, next => next == .vowel || next == .trailing
  | .trailing, next | .closedSyllable, next => next == .trailing
  | _, _ => false

end BreakClass

/-! ## Ends of clusters, which are held last character first -/

/-- The cluster ends in a consonant and ligatures, one of them a linker. -/
def endsLinked (cluster : List Char) : Bool :=
  (cluster.takeWhile fun c => (breakClass c).isLigature).any (breakClass · == .linker) &&
    (cluster.dropWhile fun c => (breakClass c).isLigature).head?.any (breakClass · == .consonant)

/-- The cluster ends in a pictograph and marks. -/
def endsPictured (cluster : List Char) : Bool :=
  (cluster.dropWhile fun c => (breakClass c).isMark).head?.any (breakClass · == .pictograph)

/-- The cluster ends in an odd number of regional indicators. -/
def endsHalved (cluster : List Char) : Bool :=
  (cluster.takeWhile (breakClass · == .regional)).length % 2 == 1

/-- Whether a character joins the cluster before it. -/
def joins (cluster : List Char) (c : Char) : Bool :=
  match cluster with
  | [] => false
  | last :: earlier =>
    let before := breakClass last
    let after := breakClass c
    if before == .carriageReturn && after == .lineFeed then true
    else if before.isSeparator || after.isSeparator then false
    else
      before.formsSyllable after || after.isExtending || before == .prepend ||
        (after == .consonant && endsLinked cluster) ||
        (before == .joiner && after == .pictograph && endsPictured earlier) ||
        (before == .regional && after == .regional && endsHalved cluster)

/-! ## Division -/

/-- A text being divided: the clusters that are complete and the one that is not.  Clusters and
their characters are held last first. -/
structure Division where
  complete : List (List Char) := []
  current : List Char := []
deriving DecidableEq, Inhabited, Repr

namespace Division

/-- Read one character. -/
def step (d : Division) (c : Char) : Division :=
  if joins d.current c then { d with current := c :: d.current }
  else ⟨d.current :: d.complete, [c]⟩

/-- The clusters, once the text has ended. -/
def finish (d : Division) : List (List Char) :=
  ((d.current :: d.complete).map List.reverse).reverse

/-- Reading a character adds it to the last cluster or begins one with it. -/
theorem flatten_finish_step (d : Division) (c : Char) :
    (d.step c).finish.flatten = d.finish.flatten ++ [c] := by
  unfold step
  split <;> simp [finish]

/-- Reading characters adds them to those read before. -/
theorem flatten_finish_foldl (text : List Char) (d : Division) :
    (text.foldl step d).finish.flatten = d.finish.flatten ++ text := by
  induction text generalizing d with
  | nil => simp
  | cons c rest ih =>
    rw [List.foldl_cons, ih, flatten_finish_step, List.append_assoc, List.singleton_append]

end Division

/-- The clusters of a text, in order. -/
def clusters : List Char → List (List Char)
  | [] => []
  | c :: rest => (rest.foldl Division.step ⟨[], [c]⟩).finish

/-- The clusters of a text, put together, are the text. -/
theorem flatten_clusters (text : List Char) : (clusters text).flatten = text := by
  cases text with
  | nil => rfl
  | cons c rest =>
    rw [clusters, Division.flatten_finish_foldl]
    simp [Division.finish]

end Lisplet.Text
