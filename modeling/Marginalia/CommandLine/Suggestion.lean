import Marginalia.Text.Basic
import Marginalia.Text.Units

/-!
# Suggestions for misspelt words

Words are compared by the number of insertions, deletions, replacements and
swaps of neighbours that turn one into the other. A word is suggested for
another if it is among the nearest ones, at most three edits away, and shares
more than two fifths of the longer one.
-/

namespace Marginalia
namespace CommandLine

/-- The greatest distance that is told apart. -/
def maxDistance : Nat := 3

/-- The rows of distances so far; row `i` has the distances of the first `i` units of a word. -/
abbrev Distances := Array (Array Nat)

def Distances.at (d : Distances) (i j : Nat) : Nat := (d.getD i #[]).getD j 0

/-- The distance of the first `i + 1` units of `a` and the first `j + 1` units of `b`, given the
rows above and the cells to the left. -/
def distanceCell (a b : Array Nat) (d : Distances) (row : Array Nat) (i j : Nat) : Nat :=
  let same := a[i]? == b[j]?
  let plain := min (min (d.at i (j + 1) + 1) (row.getD j 0 + 1))
    (d.at i j + if same then 0 else 1)
  if 0 < i && 0 < j && a[i]? == b[j - 1]? && a[i - 1]? == b[j]? then
    min plain (d.at (i - 1) (j - 1) + 1)
  else plain

/-- The row of distances after one more unit of `a`. -/
def distanceRow (a b : Array Nat) (d : Distances) (i : Nat) : Array Nat :=
  (List.range b.size).foldl (fun row j => row.push (distanceCell a b d row i j)) #[i + 1]

def editDistance (a b : Array Nat) : Nat :=
  let rows : Distances :=
    (List.range a.size).foldl (fun d i => d.push (distanceRow a b d i)) #[Array.range (b.size + 1)]
  rows.at a.size b.size

def unitArray (s : String) : Array Nat := (s.toList.flatMap Text.unitsOf).toArray

/-- The distance of a word from a candidate, if they are similar. Words whose lengths are too
different are not. -/
def similarDistance? (word candidate : String) : Option Nat :=
  let a := unitArray word
  let b := unitArray candidate
  let longer := max a.size b.size
  if maxDistance < longer - min a.size b.size then none
  else
    let distance := editDistance a b
    if 1 < b.size && 2 * longer < 5 * (longer - distance) && distance ≤ maxDistance then
      some distance
    else none

/-- The nearest of the candidates that are similar to a word, in the order of names. -/
def nearest (word : String) (candidates : List String) : List String :=
  let scored := candidates.eraseDups.filterMap fun c =>
    (similarDistance? word c).map fun n => (n, c)
  match (scored.map Prod.fst).min? with
  | none => []
  | some best => ((scored.filter fun x => x.1 == best).map Prod.snd).mergeSort Text.nameLE

/-- The words to suggest for a word. For a word with two dashes in front, the dashes of the word
and the first two characters of the candidates are left out of account. -/
def suggestions (word : String) (candidates : List String) : List String :=
  if Text.startsWith "--" word then
    (nearest (Text.dropFirst 2 word) (candidates.map (Text.dropFirst 2))).map ("--" ++ ·)
  else nearest word candidates

/-- The line that suggests words, with the line break before it; empty if there are none. -/
def didYouMean : List String → String
  | [] => ""
  | [s] => "\n(Did you mean " ++ s ++ "?)"
  | ss => "\n(Did you mean one of " ++ Text.join ", " ss ++ "?)"

end CommandLine
end Marginalia
