import Marginalia.Text.Basic

/-!
# Paths

A path is a text whose segments stand between slashes; it is absolute if it
begins with one. Walking along a path skips empty segments and single dots, and
a double dot goes up one segment, or nowhere at the root. Paths are taken as
they are written: no link is followed.
-/

namespace Marginalia
namespace Path

/-- What stands between two slashes of a path. -/
abbrev Segment := List Char

/-- The segment that leads one level up. -/
def up : Segment := ['.', '.']

def isIdle (s : Segment) : Bool := s == [] || s == ['.']

/-- The pieces of a path between its slashes. -/
def pieces (p : List Char) : List Segment := p.splitOn '/'

def isAbsolute (p : List Char) : Bool := p.head? == some '/'

/-- One step from a place below the root. The segments of a place are stacked, the last one
on top. -/
def step (stack : List Segment) (s : Segment) : List Segment :=
  if isIdle s then stack else if s = up then stack.tail else s :: stack

/-- The segments of the place that a path leads to from a place below the root. -/
def walk (origin : List Segment) (p : List Char) : List Segment :=
  ((pieces p).foldl step origin.reverse).reverse

/-- The segments of a path, taken from a working directory unless it is absolute. -/
def segments (workingDir p : List Char) : List Segment :=
  walk (if isAbsolute p then [] else walk [] workingDir) p

def ofSegments (ss : List Segment) : List Char := '/' :: ['/'].intercalate ss

/-- The absolute path that a path stands for in a working directory. -/
def resolve (workingDir p : String) : String :=
  String.ofList (ofSegments (segments workingDir.toList p.toList))

/-- One step along a relative path, which may lead above its origin. -/
def stepAbove (stack : List Segment) (s : Segment) : List Segment :=
  if isIdle s then stack
  else if s = up then
    match stack with
    | [] => [up]
    | top :: rest => if top = up then up :: stack else rest
  else s :: stack

/-- A path without idle segments and detours. A slash at its end stays. -/
def tidy (p : List Char) : List Char :=
  let ending := if p.getLast? = some '/' then ['/'] else []
  if isAbsolute p then
    match walk [] p with
    | [] => ['/']
    | ss => ofSegments ss ++ ending
  else
    match ((pieces p).foldl stepAbove []).reverse with
    | [] => '.' :: ending
    | ss => ['/'].intercalate ss ++ ending

def join (a b : String) : String :=
  String.ofList <| tidy <|
    if a.isEmpty then b.toList
    else if b.isEmpty then a.toList
    else a.toList ++ '/' :: b.toList

/-- Goes up as many levels as the first list has segments, then down the second one. -/
def detour (upwards downwards : List Segment) : List Segment :=
  upwards.map (fun _ => up) ++ downwards

/-- The segments that lead from one place to another. -/
def difference : List Segment → List Segment → List Segment
  | a :: as, b :: bs => if a = b then difference as bs else detour (a :: as) (b :: bs)
  | as, bs => detour as bs

def relative (workingDir source target : String) : String :=
  String.ofList <| ['/'].intercalate <|
    difference (segments workingDir.toList source.toList) (segments workingDir.toList target.toList)

def dropSlashes (p : List Char) : List Char := (p.reverse.dropWhile (· = '/')).reverse

/-- The path of the directory that holds the place of a path. -/
def directory (p : String) : String :=
  let front := ((dropSlashes p.toList).reverse.dropWhile (· ≠ '/')).reverse
  if isAbsolute p.toList then
    match front.dropLast with
    | [] => "/"
    | ['/'] => "//"
    | cs => String.ofList cs
  else if front.isEmpty then "." else String.ofList front.dropLast

def lastSegment (p : List Char) : Segment :=
  ((dropSlashes p).reverse.takeWhile (· ≠ '/')).reverse

/-- What follows the last segment of a path: the slashes at its end. -/
def lastSlashes (p : List Char) : List Char := (p.reverse.takeWhile (· = '/')).reverse

/-- The last segment of a path without an ending. A segment that is nothing but the ending
stays, unless it is the whole path. A segment that ends before the ending does stays together
with the slashes after it, if the path is as long as the ending. -/
def stem (ending p : String) : String :=
  let base := lastSegment p.toList
  if p = ending then ""
  else if base = ending.toList then String.ofList base
  else if base.isSuffixOf ending.toList && ending.length ≤ p.length then
    String.ofList (base ++ lastSlashes p.toList)
  else if ending.toList.isSuffixOf base then
    String.ofList (base.take (base.length - ending.length))
  else String.ofList base

/-- The extension of a path: what follows the last dot of its last segment, with that dot.
A dot at the beginning of the segment starts no extension. -/
def extension (p : String) : String :=
  let base := lastSegment p.toList
  let front := (base.reverse.dropWhile (· ≠ '.')).reverse
  if front.length ≤ 1 || base == up then ""
  else String.ofList (base.drop (front.length - 1))

end Path
end Marginalia
