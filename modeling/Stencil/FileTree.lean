import Stencil.Assoc
import Stencil.Path.Basic

/-!
# File trees

A file tree holds directories and files by the names that lead to them from the root.  There are no
links.  A path is followed name by name: every directory on the way has to exist, also before a
double point, and nothing may follow a file.

## Main definitions

* `Content`, `Node`, `FileTree` — files with their contents and times, directories, and the tree.
* `FileTree.canonical?` — the names that a path leads to.
* `FileTree.read?`, `FileTree.time?`, `FileTree.isFile` — what stands at a path.
* `FileTree.write?`, `FileTree.makeDirs`, `FileTree.remove` — the changes.
-/

namespace Stencil

/-- The content of a file. -/
inductive Content where
  /-- A text. -/
  | text (cs : List Char) : Content
  /-- Bytes that are no text. -/
  | binary : Content
  deriving DecidableEq

/-- Whether there is nothing in a file. -/
def Content.isEmpty : Content → Bool
  | text cs => cs.isEmpty
  | binary => false

/-- What stands in a directory under a name. -/
inductive Node where
  /-- A directory. -/
  | dir : Node
  /-- A file with its content and the time of its last change, in seconds. -/
  | file (content : Content) (time : Nat) : Node
  deriving DecidableEq

/-- A file tree. -/
structure FileTree where
  /-- The directories and files, by the names from the root. -/
  nodes : Assoc (List Segment) Node := []
  /-- The directory from which relative paths are followed. -/
  here : List Segment := []

namespace FileTree

/-- The node under names; the root is a directory. -/
def node? (t : FileTree) (names : List Segment) : Option Node :=
  if names = [] then some .dir else Assoc.get? t.nodes names

/-- Whether names lead to a directory. -/
def isDirAt (t : FileTree) (names : List Segment) : Bool := t.node? names = some .dir

/-- Where segments lead from the names already reached. -/
def follow (t : FileTree) (names : List Segment) : List Segment → Option (List Segment)
  | [] => some names
  | s :: rest =>
    if t.isDirAt names then
      if Path.isIdle s then follow t names rest
      else if s = ['.', '.'] then follow t names.dropLast rest
      else if (t.node? (names ++ [s])).isSome then follow t (names ++ [s]) rest
      else none
    else none

/-- The names from which a path is followed, and its segments. -/
def startOf (t : FileTree) (p : Path) : List Segment × List Segment :=
  match Path.split p with
  | (.root, segs) => ([], segs)
  | (_, segs) => (t.here, segs)

/-- The names that a path leads to; the empty path leads nowhere. -/
def names? (t : FileTree) (p : Path) : Option (List Segment) :=
  if p.isEmpty then none
  else
    let (names, segs) := t.startOf p
    t.follow names segs

/-- The absolute path of names. -/
def pathOf (names : List Segment) : Path := '/' :: Path.joinSegments names

/-- The paths of all files. -/
def files (t : FileTree) : List Path :=
  t.nodes.filterMap fun (names, node) =>
    match node with
    | .file .. => some (pathOf names)
    | .dir => none

/-- The absolute path without idle segments and double points that a path leads to. -/
def canonical? (t : FileTree) (p : Path) : Option Path := (t.names? p).map pathOf

/-- The node that a path leads to. -/
def find? (t : FileTree) (p : Path) : Option Node := (t.names? p).bind t.node?

/-- Whether a path leads to a file. -/
def isFile (t : FileTree) (p : Path) : Bool :=
  match t.find? p with
  | some (.file _ _) => true
  | _ => false

/-- The text of the file that a path leads to, if it is one. -/
def read? (t : FileTree) (p : Path) : Option (List Char) :=
  match t.find? p with
  | some (.file (.text cs) _) => some cs
  | _ => none

/-- The time of the file that a path leads to. -/
def time? (t : FileTree) (p : Path) : Option Nat :=
  match t.find? p with
  | some (.file _ time) => some time
  | _ => none

/-- The tree with a node set. -/
def setNode (t : FileTree) (names : List Segment) (n : Node) : FileTree :=
  { t with nodes := Assoc.insert t.nodes names n }

/-- Follows segments and makes every directory that is missing.  The directories made before a
file stands in the way remain. -/
def makeAlong (t : FileTree) (names : List Segment) : List Segment → FileTree × Bool
  | [] => (t, t.isDirAt names)
  | s :: rest =>
    if t.isDirAt names then
      if Path.isIdle s then makeAlong t names rest
      else if s = ['.', '.'] then makeAlong t names.dropLast rest
      else if (t.node? (names ++ [s])).isSome then makeAlong t (names ++ [s]) rest
      else makeAlong (t.setNode (names ++ [s]) .dir) (names ++ [s]) rest
    else (t, false)

/-- The tree with the directories of a path made, and whether the path now leads to one. -/
def makeDirs (t : FileTree) (p : Path) : FileTree × Bool :=
  let (names, segs) := t.startOf p
  t.makeAlong names segs

/-- The tree with a file written; its directory has to exist, and no directory may have its
name. -/
def write? (t : FileTree) (dir : Path) (name : Segment) (content : Content) (time : Nat) :
    Option FileTree :=
  match t.names? dir with
  | some names =>
    if t.isDirAt names && t.node? (names ++ [name]) ≠ some .dir then
      some (t.setNode (names ++ [name]) (.file content time))
    else none
  | none => none

/-- The tree without the file that a path leads to. -/
def remove (t : FileTree) (p : Path) : FileTree :=
  match t.names? p with
  | some names =>
    if t.isDirAt names then t else { t with nodes := Assoc.erase t.nodes names }
  | none => t

@[simp] theorem node?_nil (t : FileTree) : t.node? [] = some .dir := rfl

theorem node?_setNode_self (t : FileTree) {names : List Segment} (h : names ≠ []) (n : Node) :
    (t.setNode names n).node? names = some n := by simp [node?, setNode, h]

theorem node?_setNode_of_ne (t : FileTree) {names other : List Segment} (h : names ≠ other)
    (n : Node) : (t.setNode names n).node? other = t.node? other := by
  simp [node?, setNode, Assoc.get?_insert_of_ne _ h]

end FileTree

end Stencil
