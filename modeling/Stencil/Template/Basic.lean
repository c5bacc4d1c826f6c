import Stencil.Config
import Stencil.Path.Resolve
import Stencil.Template.Identity

/-!
# Templates

A template is a file that was found.  Everything that is kept for it is kept under its identity.

## Main definitions

* `Template` — a template that was found.
* `Template.find` — the template with a directory and a file name.
* `Template.cacheKey`, `Template.compiledFile` — where its compiled code is kept.

## Main statements

* `Template.cacheKey_inj` — templates with different identities have different keys.
-/

namespace Stencil

/-- A template that was found. -/
structure Template where
  /-- Its path, from the root of the file system. -/
  path : Path
  /-- Its directory, from the root of the file system. -/
  dir : Path
  /-- Its directory, from the root of the application. -/
  relDir : Path
  /-- Its directory as browsers see it. -/
  webPath : List Char
  /-- Its identity. -/
  identity : Nat
  deriving DecidableEq

namespace Template

/-- The template at a path without idle segments. -/
def ofPath (numbering : Numbering) (config : Config) (root path : Path) : Template :=
  let dir := (Path.parent? path).getD root
  { path
    dir
    relDir := relativeToRoot root dir
    webPath := Stencil.webPath root config.webRoot.toList dir
    identity := numbering path config.version }

/-- The path that a file name stands for: the one with the extension added, when only that one is a
file. -/
def candidate (t : FileTree) (extension : String) (dir : Path) (file : List Char) : Path :=
  let bare := dir.join file
  let extended := dir.join (file ++ '.' :: extension.toList)
  if ! t.isFile bare && t.isFile extended then extended else bare

/-- The template with a directory and a file name. -/
def find (numbering : Numbering) (config : Config) (root : Path) (t : FileTree) (dir : Path)
    (file : List Char) : Except TemplateError Template :=
  let path := candidate t config.extension dir file
  match t.canonical? path with
  | some found => if t.isFile found then .ok (ofPath numbering config root found)
    else .error (.sourceNotFound path)
  | none => .error (.sourceNotFound path)

/-- The key of its compiled code in a cache. -/
def cacheKey (u : Template) : List Char := "template:".toList ++ hexText u.identity

/-- Templates with different identities have different keys. -/
theorem cacheKey_inj {u v : Template} (h : u.cacheKey = v.cacheKey) : u.identity = v.identity :=
  hexText_inj (List.append_cancel_left h)

/-- The name of its program. -/
def programName (u : Template) : List Char := "tpl_".toList ++ hexText u.identity

/-- The name of the file with its compiled code. -/
def compiledName (u : Template) : List Char := hexText u.identity ++ ".compiled.tpl".toList

/-- The file with its compiled code. -/
def compiledFile (u : Template) (cacheDir : Path) : Path := cacheDir.join u.compiledName

/-- Its directory as programs see it. -/
def tplPath (u : Template) : Path :=
  if u.relDir = ['.'] then ['.', '/']
  else if Path.isAbsolute u.relDir then u.relDir ++ ['/']
  else '.' :: '/' :: u.relDir ++ ['/']

end Template

end Stencil
