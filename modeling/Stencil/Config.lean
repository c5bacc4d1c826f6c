import Stencil.Error
import Stencil.FileTree
import Stencil.Json.Read

/-!
# Configuration

A configuration is read from a JSON document, an object with some of the fields or an array with the
first ones in order.  What is missing has its default.  Unknown and repeated fields are refused.

## Main definitions

* `Policy`, `Config` — the settings of an application.
* `Config.ofJson?` — the configuration of a document.
* `Config.check` — the conditions that a configuration has to meet.
* `Config.read` — the configuration of a file.
-/

namespace Stencil

/-- What happens to a template with diagnostics. -/
inductive Policy where
  /-- It is refused. -/
  | strict : Policy
  /-- It is used without the constructs that have diagnostics. -/
  | lenient : Policy
  deriving DecidableEq

/-- The name of a policy. -/
def Policy.name : Policy → String
  | strict => "strict"
  | lenient => "lenient"

/-- The settings of an application. -/
structure Config where
  /-- The root of the application. -/
  appRoot : Path := ['.']
  /-- The address under which browsers see the application. -/
  webRoot : String := ""
  /-- The directory of compiled templates. -/
  cacheDir : Path := "files/cache/template_compiled".toList
  /-- The directory of shared rulesets. -/
  rulesetDir : String := "files/ruleset"
  /-- The extension of templates that are named without one. -/
  extension : String := "html"
  /-- The version of the compiler, a part of every identity. -/
  version : String := "0.1.0"
  /-- How deeply templates may include each other. -/
  maxDepth : Nat := 16
  /-- How many rounds a loop may run. -/
  maxRounds : Nat := 1000000
  /-- What happens to a template with diagnostics. -/
  policy : Policy := .strict
  /-- The constant without which compiled code does nothing. -/
  entryConstant : String := "__XTPL__"
  deriving DecidableEq

namespace Config

/-! ### Reading -/

/-- A text. -/
def readText? : Json → Option String
  | .string s => some s
  | _ => none

/-- A number of things. -/
def readCount? : Json → Option Nat
  | .integer n => if 0 ≤ n then some n.toNat else none
  | _ => none

/-- A policy by name. -/
def policyOf? (name : String) : Option Policy :=
  if name = "strict" then some .strict else if name = "lenient" then some .lenient else none

/-- A policy: its name, or an object with its name and null. -/
def readPolicy? : Json → Option Policy
  | .string name => policyOf? name
  | .object [(name, .null)] => policyOf? name
  | _ => none

/-- The names of the fields, in order. -/
def fieldNames : List String :=
  ["app_root", "web_root", "cache_dir", "ruleset_dir", "default_extension", "version",
    "max_include_depth", "max_loop_iterations", "policy", "entry_constant"]

/-- The configuration with a field set. -/
def setField? (c : Config) (name : String) (v : Json) : Option Config :=
  match name with
  | "app_root" => (readText? v).map fun s => { c with appRoot := s.toList }
  | "web_root" => (readText? v).map fun s => { c with webRoot := s }
  | "cache_dir" => (readText? v).map fun s => { c with cacheDir := s.toList }
  | "ruleset_dir" => (readText? v).map fun s => { c with rulesetDir := s }
  | "default_extension" => (readText? v).map fun s => { c with extension := s }
  | "version" => (readText? v).map fun s => { c with version := s }
  | "max_include_depth" => (readCount? v).map fun n => { c with maxDepth := n }
  | "max_loop_iterations" => (readCount? v).map fun n => { c with maxRounds := n }
  | "policy" => (readPolicy? v).map fun p => { c with policy := p }
  | "entry_constant" => (readText? v).map fun s => { c with entryConstant := s }
  | _ => none

/-- The configuration with fields set, none of which may be set twice. -/
def setFields? (c : Config) (done : List String) : List (String × Json) → Option Config
  | [] => some c
  | (name, v) :: rest =>
    if done.contains name then none
    else (c.setField? name v).bind fun c => setFields? c (name :: done) rest

/-- The configuration of a document. -/
def ofJson? : Json → Option Config
  | .object members => setFields? {} [] members
  | .array items =>
    if fieldNames.length < items.length then none else setFields? {} [] (fieldNames.zip items)
  | _ => none

/-! ### Checking -/

/-- Refuses a configuration that cannot work. -/
def check (c : Config) : Except ConfigError Unit :=
  if c.maxDepth = 0 then .error .zeroDepth
  else if c.extension = "" ∨ '.' ∈ c.extension.toList then .error (.badExtension c.extension)
  else if c.entryConstant = "" then .error .emptyConstant
  else .ok ()

/-- The configuration, unless it cannot work. -/
def checked (c : Config) : Except TemplateError Config :=
  match c.check with
  | .ok () => .ok c
  | .error e => .error (.config e)

/-- The configuration of a file. -/
def read (t : FileTree) (path : Path) : Except TemplateError Config :=
  match t.read? path with
  | none => .error (.io path)
  | some text =>
    match (Json.read? text).bind ofJson? with
    | none => .error (.config .malformed)
    | some c => c.checked

/-- The directory of compiled templates, under the root of the application unless it is absolute. -/
def cachePath (c : Config) (root : Path) : Path := root.join c.cacheDir

end Config

end Stencil
