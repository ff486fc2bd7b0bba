import Marginalia.Comment.Basic
import Marginalia.Comment.Quote
import Marginalia.Text.Blank

/-!
# Comments of one line

A block comment opens outside quotes and closes at the first closing delimiter
after it, on the same line; an opening that is not closed ends the search. The
line comment starts at the first pair of slashes that no block comment covers,
and there is none if that pair is quoted. Blocks that open after the start of
the line comment are part of it.
-/

namespace Marginalia
namespace Comment

/-- A comment found on a line, by its columns. -/
structure Match where
  kind : Kind
  text : String
  startColumn : Nat
  endColumn : Nat
deriving DecidableEq, Repr

namespace Match

/-- Whether a column lies in a match, its end excluded. -/
def covers (m : Match) (column : Nat) : Bool :=
  decide (m.startColumn ≤ column) && decide (column < m.endColumn)

def ofInner (kind : Kind) (inner : List Char) (startColumn endColumn : Nat) : Match :=
  { kind, text := String.ofList (Text.trim inner), startColumn, endColumn }

end Match

/-- Cuts a text at its first closing delimiter: what stands before and after it. -/
def cutAtClose : List Char → Option (List Char × List Char)
  | [] => none
  | '*' :: '/' :: rest => some ([], rest)
  | c :: rest => (cutAtClose rest).map fun r => (c :: r.1, r.2)

theorem cutAtClose_eq {cs inner rest : List Char} (h : cutAtClose cs = some (inner, rest)) :
    cs = inner ++ '*' :: '/' :: rest := by
  fun_induction cutAtClose cs generalizing inner with
  | case1 => simp at h
  | case2 => simp_all
  | case3 c r _ ih =>
    obtain ⟨p, hp, he⟩ := Option.map_eq_some_iff.1 h
    simp only [Prod.mk.injEq] at he
    rw [← he.1, ih (show _ = some (p.1, rest) by rw [hp, ← he.2])]
    rfl

/-- The block comments in the rest of a line that begins at a column, given
the quotes that are open there. -/
def blocksFrom (column : Nat) (q : Quote) (cs : List Char) : List Match :=
  match cs with
  | [] => []
  | '/' :: '*' :: rest =>
    if q.isInside then blocksFrom (column + 1) (q.step '/') ('*' :: rest)
    else
      match h : cutAtClose rest with
      | none => []
      | some (inner, after) =>
        have : after.length < rest.length + 2 := by
          rw [cutAtClose_eq h]
          simp
          omega
        let stop := column + 2 + Text.width inner + 2
        .ofInner .block inner column stop ::
          blocksFrom stop (q.after ('/' :: '*' :: (inner ++ ['*', '/']))) after
  | c :: rest => blocksFrom (column + Text.units c) (q.step c) rest
termination_by cs.length

def blocks (line : List Char) : List Match := blocksFrom 0 Quote.outside line

def lineCommentFrom (found : List Match) (column : Nat) (q : Quote) : List Char → Option Match
  | [] => none
  | '/' :: '/' :: rest =>
    if found.any (·.covers column) then
      lineCommentFrom found (column + 1) (q.step '/') ('/' :: rest)
    else if q.isInside then none
    else some (.ofInner .line rest column (column + 2 + Text.width rest))
  | c :: rest => lineCommentFrom found (column + Text.units c) (q.step c) rest

def lineComment (found : List Match) (line : List Char) : Option Match :=
  lineCommentFrom found 0 Quote.outside line

/-- Which kinds of comments are wanted. -/
structure Wanted where
  line : Bool
  block : Bool
deriving DecidableEq, Repr

def Wanted.both : Wanted := { line := true, block := true }

/-- The comments of a line, in the order of their columns. -/
def scanLine (wanted : Wanted) (line : List Char) : List Match :=
  let found := blocks line
  let tail := lineComment found line
  let kept := found.filter fun b => tail.all fun t => decide (b.startColumn < t.startColumn)
  (if wanted.block then kept else []) ++ (if wanted.line then tail.toList else [])

end Comment
end Marginalia
