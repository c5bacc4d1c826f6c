import Stencil.Markup.Control
import Stencil.Markup.Directive.Basic
import Stencil.Path.Basic
import Stencil.Resource

/-!
# Code of resource directives

The directory of a target is looked up when the template is compiled, and the compiled code names
it relative to the root of the application.  Addresses of other hosts stay as they are.

## Main definitions

* `splitTarget` — the directory and the name of a target.
* `isRemote` — the addresses of other hosts.
* `resourceCode` — the code of a resource directive.
-/

namespace Stencil

open Text

/-- The directory and the file name of a target. -/
def splitTarget (target : List Char) : Path × List Char :=
  match breakLast '/' target with
  | some ([], name) => (['/'], name)
  | some (dir, name) => (dir, name)
  | none => (['.'], target)

/-- Whether a target is an address of another host. -/
def isRemote (target : List Char) : Bool :=
  match dropStartFold? "http".toList target with
  | some rest =>
    startsWith "://".toList rest || (dropStartFold? "s://".toList rest).isSome
  | none => false

/-- The fields of a resource map: the target, and every attribute of the given names that has a
value. -/
def resourceFields (target : List Char) (attributes : Assoc (List Char) (List Char))
    (names : List String) : List Char :=
  "'target' => ".toList ++ quoteLiteral target ++
    names.flatMap fun name =>
      match Assoc.get? attributes name.toList with
      | some (c :: cs) =>
        ", ".toList ++ quoteLiteral name.toList ++ " => ".toList ++ quoteLiteral (c :: cs)
      | _ => []

/-- An island with a call that takes a map of fields. -/
def callWithFields (function fields : List Char) : List Char :=
  island (function ++ "([".toList ++ fields ++ "]);".toList)

/-- A file under a directory that was looked up. -/
def targetIn (declared dir : Path) (name : List Char) : List Char :=
  if dir = ['.'] then if startsWith ['/'] declared then '/' :: name else name
  else dir ++ '/' :: name

/-- The code that asks for a script or style sheet, or that it is not loaded. -/
def assetCode (unload : Bool) (kind : ResourceKind) (target : List Char)
    (attributes : Assoc (List Char) (List Char)) : List Char :=
  if unload then
    callWithFields "unload_file".toList (resourceFields target attributes ["targetie", "media"])
  else
    let placement := if kind = .script then "type" else "media"
    "<!--#Meta:".toList ++ target ++ "-->".toList ++
      callWithFields "load_file".toList
        (resourceFields target attributes
          [placement, "targetie", "index", "usecdn", "cdnprefix", "cdnversion"])

/-- The code of a language file or form filter in a directory. -/
def markupFileCode (declared dir : Path) (name : List Char) : List Char :=
  if name = "lang.xml".toList ∧ Path.fileName? declared = some "lang".toList then
    island ("load_lang(".toList ++ quoteLiteral dir ++ ");".toList)
  else
    island
      ("compile_xml_filter(".toList ++ quoteLiteral dir ++ ", ".toList ++ quoteLiteral name ++
        ");".toList)

/-- The directory of a target, or the fault that there is none. -/
def lookedUp (resolve : Path → Option Path) (dir : Path) : Except Fault Path :=
  match resolve dir with
  | some found => .ok found
  | none =>
    .error
      ⟨.unresolvedPath,
        "the directory does not exist relative to the template or the application root"⟩

/-- The code of a file after its extension; `dir` is its directory, when it has one here. -/
def fileCode (unload : Bool) (declared : Path) (name : List Char) (dir : Option Path)
    (target : List Char) (attributes : Assoc (List Char) (List Char)) : Except Fault (List Char) :=
  let extension := extensionOf name
  if extension = "xml".toList then
    match dir, unload with
    | some dir, false => .ok (markupFileCode declared dir name)
    | _, _ => .ok []
  else if extension = "js".toList then .ok (assetCode unload .script target attributes)
  else if extension = "css".toList then .ok (assetCode unload .stylesheet target attributes)
  else .error ⟨.malformedDirective, "only .js, .css and .xml targets can be loaded"⟩

/-- The code of a directive about a file. -/
def targetCode (resolve : Path → Option Path) (unload : Bool) (target : List Char)
    (attributes : Assoc (List Char) (List Char)) : Except Fault (List Char) :=
  let (declared, name) := splitTarget target
  if isRemote target then fileCode unload declared name none target attributes
  else
    match lookedUp resolve declared with
    | .ok dir => fileCode unload declared name (some dir) (targetIn declared dir name) attributes
    | .error fault => .error fault

/-- The code that includes a template. -/
def includeCode (resolve : Path → Option Path) (target : List Char) : Except Fault (List Char) :=
  let (declared, name) := splitTarget target
  match lookedUp resolve declared with
  | .ok dir =>
    .ok
      (island
        ("echo include(".toList ++ quoteLiteral dir ++ ", ".toList ++ quoteLiteral name ++ [')']))
  | .error fault => .error fault

/-- The code that asks for a plugin, whose name may be an expression with variables. -/
def pluginCode (target : List Char) : List Char :=
  let bound := bindVars target
  let argument := if contains ('$' :: contextPath) bound then bound else quoteLiteral bound
  island ("load_js_plugin(".toList ++ argument ++ ");".toList)

/-- The code of a resource directive; its argument counts as the attribute `target`. -/
def resourceCode (resolve : Path → Option Path) (verb : ResourceVerb)
    (argument : Option (List Char)) (attributes : Assoc (List Char) (List Char)) :
    Except Fault (List Char) :=
  match argument.or (Assoc.get? attributes "target".toList) with
  | some (c :: cs) =>
    match verb with
    | .includeTemplate => includeCode resolve (c :: cs)
    | .loadPlugin => .ok (pluginCode (c :: cs))
    | .unloadFile => targetCode resolve true (c :: cs) attributes
    | .importFile | .loadFile => targetCode resolve false (c :: cs) attributes
  | _ => .error ⟨.malformedDirective, "add a `target` attribute"⟩

end Stencil
