import Stencil.Command.Run

/-!
# The program

Reads the files under the current directory and those that the command line names,
runs the command line on them, prints what it gives and writes the files that are new.
-/

namespace Stencil.Program

open Command

/-- The content of a file on disk. -/
def contentOf (bytes : ByteArray) : Content :=
  match String.fromUTF8? bytes with
  | some s => .text s.toList
  | none => .binary

/-- The names from the root to an absolute path on disk. -/
def namesOf (path : String) : List Segment :=
  (Text.splitText ['/'] path.toList).filter (! Path.isIdle ·)

/-- The tree with the directories that lead to names, and then with a node. -/
def place (t : FileTree) (names : List Segment) (n : Node) : FileTree :=
  ((t.makeAlong [] names.dropLast).1).setNode names n

/-- The tree with everything at a path on disk. -/
partial def gather (t : FileTree) (path : String) : IO FileTree := do
  let names := namesOf path
  let dir := (← IO.FS.realPath path)
  if ← dir.isDir then
    let mut tree := if names = [] then t else place t names .dir
    for entry in ← dir.readDir do
      tree ← gather tree entry.path.toString
    pure tree
  else
    let bytes ← IO.FS.readBinFile path
    let changed := (← dir.metadata).modified.sec.toNat
    pure (place t names (.file (contentOf bytes) changed))

/-- The tree with everything at a path on disk, as far as it can be read; directories are left out
unless `dirs` is set. -/
def gatherIfThere (dirs : Bool) (t : FileTree) (path : String) : IO FileTree := do
  try
    let found ← IO.FS.realPath path
    if dirs || ! (← found.isDir) then gather t found.toString else pure t
  catch _ => pure t

/-- The latest time at which a file was changed. -/
def latest (t : FileTree) : Nat :=
  t.nodes.foldl (fun n (_, node) =>
    match node with
    | .file _ time => max n time
    | .dir => n) 0

/-- Writes the files of a tree that another one does not have. -/
def writeNew (before after : FileTree) : IO Unit := do
  for (names, node) in after.nodes do
    match node with
    | .file (.text code) _ =>
      if before.node? names ≠ some node then
        IO.FS.createDirAll (String.ofList (FileTree.pathOf names.dropLast))
        IO.FS.writeFile (String.ofList (FileTree.pathOf names)) (String.ofList code)
    | _ => pure ()

/-- The tree of the files that settings name. -/
def treeFor (words : List (List Char)) : IO FileTree := do
  let here := (← IO.currentDir).toString
  let tree ← gatherIfThere true { here := namesOf here } here
  match readCommandLine words with
  | some (.run _ s) =>
    let named := [s.config, s.vars, s.template].filterMap id
    let tree ← named.foldlM (fun t path => gatherIfThere false t (String.ofList path)) tree
    match configOf tree s with
    | .ok config => gatherIfThere true tree (String.ofList config.appRoot)
    | .error _ => pure tree
  | _ => pure tree

end Stencil.Program

open Stencil Stencil.Program in
/-- Runs the command line. -/
def main (args : List String) : IO UInt32 := do
  let words := args.map String.toList
  let tree ← treeFor words
  let compilerTime ← try pure (← (← IO.appPath).metadata).modified.sec.toNat catch _ => pure 0
  let outcome := Command.run words tree (max (latest tree) compilerTime + 1) compilerTime
  (← IO.getStdout).putStr outcome.out
  if outcome.err ≠ "" then (← IO.getStderr).putStr (outcome.err ++ "\n")
  writeNew tree outcome.tree
  pure outcome.exit.toUInt32
