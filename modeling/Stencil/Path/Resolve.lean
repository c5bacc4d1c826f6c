import Stencil.FileTree

/-!
# Directories that templates name

A template names directories relative to its own directory or to the root of the application.
Compiled code names them relative to the root.

## Main definitions

* `relativeToRoot` — a path as compiled code names it.
* `webPath` — a directory as browsers see it.
* `afterOverlap` — what a declared path adds to a directory that holds its beginning.
* `FileTree.resolveDir?` — the directory that a template names.
-/

namespace Stencil

open Text

/-- The path under the root of the application, without points and outer slashes, `.` for the root
itself.  A path outside it stays. -/
def relativeToRoot (root p : Path) : Path :=
  match Path.relativeTo? root p with
  | some rest =>
    let rest := stripBoth (· == '/') (replaceText ['.', '/'] [] (Path.withSlashes rest))
    if rest.isEmpty then ['.'] else rest
  | none => Path.withSlashes p

/-- The directory as browsers see it: the address of the application, the directory under its root,
and a slash. -/
def webPath (root : Path) (webRoot : List Char) (dir : Path) : List Char :=
  let base := dropRightWhile (· == '/') webRoot
  let rest := relativeToRoot root dir
  if rest = ['.'] then base ++ ['/'] else base ++ '/' :: rest ++ ['/']

/-- The first list without the longest beginning that the second one shares. -/
def dropCommon : List Segment → List Segment → List Segment
  | a :: as, b :: bs => if a = b then dropCommon as bs else a :: as
  | as, _ => as

/-- What a declared path adds to a directory, when its first name is among those of the directory:
the names that the two share from there on are left out. -/
def afterOverlap (declared dir : Path) : Option Path :=
  match (splitText ['/'] declared).filter (! Path.isIdle ·) with
  | [] => none
  | first :: rest =>
    match (splitText ['/'] dir).dropWhile (· ≠ first) with
    | [] => none
    | shared => some (Path.joinSegments (dropCommon (first :: rest) shared))

namespace FileTree

/-- The directory of a template that a declared path stands for: an absolute path is looked up under
the root and then in the file system, any other one under the directory of the template, and
last by what it adds to that directory. -/
def lookupDir? (t : FileTree) (root dir declared : Path) : Option Path :=
  match declared with
  -- the root of the application comes before the root of the file system
  | '/' :: rooted => (t.canonical? (root.join rooted)).or (t.canonical? declared)
  | _ =>
    (t.canonical? (dir.join declared)).or
      ((afterOverlap declared dir).bind fun rest => t.canonical? (dir.join rest))

/-- The directory that a template names, relative to the root of the application. -/
def resolveDir? (t : FileTree) (root template declared : Path) : Option Path :=
  let declared := trim declared
  (Path.parent? template).bind fun dir =>
    if declared.isEmpty || declared == ['.'] then some (relativeToRoot root dir)
    else (t.lookupDir? root dir declared).map (relativeToRoot root)

end FileTree

end Stencil
