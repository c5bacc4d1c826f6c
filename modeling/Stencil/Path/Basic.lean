import Stencil.Text.Blank
import Stencil.Text.Pattern

/-!
# Paths

A path is a text whose segments stand between slashes.  It starts at the root, at the current
directory, written as a point, or at a name.  Empty segments and points count for nothing, except a
point at the start; double points are kept, because only a file tree can tell where they lead.

## Main definitions

* `Path` — the text of a path.
* `Path.join` — a path taken from another one.
* `Path.parent?`, `Path.fileName?` — the directory and the last name of a path.
* `Path.relativeTo?` — the rest of a path that lies under another one.
-/

namespace Stencil

open Text

/-- The text of a path. -/
abbrev Path := List Char

/-- A piece of a path between slashes. -/
abbrev Segment := List Char

namespace Path

/-- Where a path starts. -/
inductive Start where
  /-- At the root, with a slash. -/
  | root : Start
  /-- At the current directory, with a point. -/
  | here : Start
  /-- At its first name. -/
  | name : Start
  deriving DecidableEq

/-- The start of a path and its segments, those that count for nothing included. -/
def split : Path → Start × List Segment
  | '/' :: cs => (.root, splitText ['/'] cs)
  | ['.'] => (.here, [])
  | '.' :: '/' :: cs => (.here, splitText ['/'] cs)
  | cs => (.name, splitText ['/'] cs)

/-- Segments with slashes between them. -/
def joinSegments : List Segment → List Char
  | [] => []
  | [s] => s
  | s :: rest => s ++ '/' :: joinSegments rest

/-- The path with a start and segments. -/
def assemble : Start → List Segment → Path
  | .root, segs => '/' :: joinSegments segs
  | .here, [] => ['.']
  | .here, segs => '.' :: '/' :: joinSegments segs
  | .name, segs => joinSegments segs

/-- Whether a segment counts for nothing. -/
def isIdle (s : Segment) : Bool := s.isEmpty || s == ['.']

/-- The segments without those at the end that count for nothing. -/
def dropIdleEnd (segs : List Segment) : List Segment := (segs.reverse.dropWhile isIdle).reverse

/-- Whether the path starts at the root. -/
def isAbsolute (p : Path) : Bool :=
  match p with
  | '/' :: _ => true
  | _ => false

/-- The path `q` taken from `p`: an absolute one stands alone, any other comes after a slash. -/
def join (p q : Path) : Path :=
  if isAbsolute q then q
  else if p.isEmpty || p.getLast? == some '/' then p ++ q
  else p ++ '/' :: q

/-- The directory of a path; the root and the empty path have none. -/
def parent? (p : Path) : Option Path :=
  let (start, segs) := split p
  match (segs.reverse.dropWhile isIdle), start with
  | _ :: before, _ => some (assemble start (dropIdleEnd before.reverse))
  -- a lone point lies in the empty path
  | [], .here => some []
  | [], _ => none

/-- The last segment of a path, unless it is a double point. -/
def fileName? (p : Path) : Option Segment :=
  match (split p).2.reverse.dropWhile isIdle with
  | [] => none
  | s :: _ => if s = ['.', '.'] then none else some s

/-- The segments after those of a base, the idle ones of both aside. -/
def dropBase : List Segment → List Segment → Option (List Segment)
  | [], segs => some segs
  | b :: base, segs =>
    match segs.dropWhile isIdle with
    | s :: rest => if s = b then dropBase base rest else none
    | [] => none

/-- The rest of the path `p` under the directory `base`, if it lies there.  Segments are compared,
so that `/ab` does not lie under `/a`. -/
def relativeTo? (base p : Path) : Option Path :=
  let (baseStart, baseSegs) := split base
  let (start, segs) := split p
  match baseStart, baseSegs.filter (! isIdle ·) with
  | .name, [] => some (assemble start (dropIdleEnd segs))
  | baseStart, names =>
    if baseStart = start then
      (dropBase names segs).map fun rest => joinSegments (dropIdleEnd (rest.dropWhile isIdle))
    else none

/-- The path with backslashes as slashes. -/
def withSlashes (p : Path) : Path := p.map fun c => if c = '\\' then '/' else c

end Path

end Stencil
