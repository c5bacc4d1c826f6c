import Stencil.Command.Help
import Stencil.Template.Render

/-!
# Running command lines

## Main definitions

* `Outcome` — what a command line leaves: an exit code, what it prints, and the files.
* `Complaint` — why a command fails.
* `run` — a command line run on a file tree.
-/

namespace Stencil.Command

/-- What a command line leaves. -/
structure Outcome where
  /-- The exit code. -/
  exit : Nat
  /-- What is printed. -/
  out : String
  /-- What is printed about a failure. -/
  err : String
  /-- The files. -/
  tree : FileTree

/-- Why a command fails. -/
inductive Complaint where
  /-- A template cannot be used. -/
  | failed (e : TemplateError) : Complaint
  /-- The template argument names no file. -/
  | noFileName (template : List Char) : Complaint
  /-- The file with variables is not there. -/
  | unreadable (path : Path) : Complaint
  /-- The file with variables holds no JSON document. -/
  | noDocument (path : Path) : Complaint
  /-- The file with variables holds no object. -/
  | noObject (path : Path) : Complaint
  /-- A single variable without an equals sign. -/
  | noPair (pair : List Char) : Complaint

/-- The wording of a complaint. -/
def Complaint.message : Complaint → String
  | failed e => e.message
  | noFileName template => "`" ++ String.ofList template ++ "` does not name a template file"
  | unreadable path => "reading `" ++ String.ofList path ++ "`"
  | noDocument path => "parsing `" ++ String.ofList path ++ "`"
  | noObject path => "`" ++ String.ofList path ++ "` must hold a JSON object"
  | noPair pair => "`--var " ++ String.ofList pair ++ "` is not NAME=VALUE"

/-- A result of the library, with its error as a complaint. -/
def ofTemplate {α : Type} : Except TemplateError α → Except Complaint α
  | .ok a => .ok a
  | .error e => .error (.failed e)

/-- The configuration that settings ask for. -/
def configOf (t : FileTree) (s : Settings) : Except Complaint Config := do
  let config ←
    match s.config with
    | some path => ofTemplate (Config.read t path)
    | none => .ok {}
  let config := { config with appRoot := s.root.getD config.appRoot }
  .ok (if s.lenient then { config with policy := .lenient } else config)

/-- The directory and the file name of a template argument. -/
def splitTemplate (template : Path) : Except Complaint (Path × List Char) :=
  match Path.fileName? template with
  | none => .error (.noFileName template)
  | some file =>
    match Path.parent? template with
    | some (c :: dir) => .ok (c :: dir, file)
    | _ => .ok (['.'], file)

/-- The context with the variables of a file. -/
def fileContext (t : FileTree) : Option Path → Except Complaint Context
  | none => .ok {}
  | some path =>
    match t.read? path with
    | none => .error (.unreadable path)
    | some text =>
      match Json.read? text with
      | none => .error (.noDocument path)
      | some (.object members) => .ok (Context.ofJson (.object members))
      | some _ => .error (.noObject path)

/-- The context with a single variable, whose value is JSON when it can be read as such. -/
def setPair (ctx : Context) (pair : List Char) : Except Complaint Context :=
  match Text.breakOn ['='] pair with
  | none => .error (.noPair pair)
  | some (name, text) =>
    let value := match Json.read? text with
      | some document => Value.ofJson document
      | none => .string (String.ofList text)
    .ok (ctx.set (String.ofList name) value)

/-- The context that settings ask for. -/
def contextOf (t : FileTree) (s : Settings) : Except Complaint Context := do
  let ctx ← fileContext t s.vars
  s.pairs.foldlM setPair ctx

/-- A label in grey. -/
def label (s : String) : String := "\x1b[90m" ++ s ++ "\x1b[39m "

/-- Text in green. -/
def green (s : String) : String := "\x1b[92m" ++ s ++ "\x1b[39m"

/-- What is printed about where a template is kept. -/
def keyText (h : Handler) (u : Template) : String :=
  lines
    [label "source:" ++ String.ofList u.path,
      label "identity:" ++ String.ofList (hexText u.identity),
      label "cache key:" ++ green (String.ofList u.cacheKey),
      label "compiled file:" ++ String.ofList (u.compiledFile h.cacheDir),
      label "tpl_path:" ++ String.ofList u.tplPath]

/-- The output of a template, rendered a second time when asked for. -/
def renderText (h : Handler) (s : Settings) (dir : Path) (file : List Char) (ctx : Context)
    (w : World) : Except Complaint String × World :=
  match h.renderOrTell dir file ctx w with
  | (.error e, _, w) => (.error (.failed e), w)
  | (.ok out, ctx, w) =>
    if s.twice then
      match h.renderOrTell dir file ctx w with
      | (.error e, _, w) => (.error (.failed e), w)
      | (.ok _, _, w) => (.ok (out ++ "\n"), w)
    else (.ok (out ++ "\n"), w)

/-- What a command prints, and the files afterwards. -/
def perform (h : Handler) (verb : Verb) (s : Settings) (w : World) :
    Except Complaint String × World :=
  match splitTemplate (s.template.getD []) with
  | .error e => (.error e, w)
  | .ok (dir, file) =>
    match verb with
    | .compile =>
      match h.compileAlone dir file w with
      | (.ok code, w) => (.ok (String.ofList code ++ "\n"), w)
      | (.error e, w) => (.error (.failed e), w)
    | .render =>
      match contextOf w.tree s with
      | .ok ctx => renderText h s dir file ctx w
      | .error e => (.error e, w)
    | .key =>
      match h.find w.tree dir file with
      | .ok u => (.ok (keyText h u), w)
      | .error e => (.error (.failed e), w)

/-- The handler that settings ask for.  Identities are short, since they are printed and name files
on disk. -/
def handlerOf (t : FileTree) (compilerTime : Nat) (s : Settings) : Except Complaint Handler := do
  let h ← ofTemplate (Handler.ofConfig (← configOf t s) t)
  .ok { h with
    compilerTime
    numbering := .short t.files
    backend := if s.twice then .memory else .files }

/-- A command line run on a file tree at a time, with a compiler of another time. -/
def run (words : List (List Char)) (t : FileTree) (now compilerTime : Nat) : Outcome :=
  match readCommandLine words with
  | none => { exit := 2, out := "", err := "misused; try --help", tree := t }
  | some .version => { exit := 0, out := versionText, err := "", tree := t }
  | some (.help topic) => { exit := 0, out := helpText topic, err := "", tree := t }
  | some (.run verb s) =>
    match handlerOf t compilerTime s with
    | .error e => { exit := 1, out := "", err := e.message, tree := t }
    | .ok h =>
      match perform h verb s { tree := t, now } with
      | (.ok out, w) => { exit := 0, out, err := "", tree := w.tree }
      | (.error e, w) => { exit := 1, out := "", err := e.message, tree := w.tree }

end Stencil.Command
