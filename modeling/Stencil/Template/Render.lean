import Stencil.Markup.Compile
import Stencil.Script.Eval
import Stencil.Template.Basic
import Stencil.Template.Cache

/-!
# Rendering templates

A template is found, its program loaded or compiled, and the program run.  Included templates go
the same way, one level deeper.  Programs are kept by the identity of their template together with
the code they were parsed from.

## Main definitions

* `World` — everything that renders read and change besides the context.
* `Handler` — the settings of an application, with its functions.
* `Handler.load` — the program of a template, from the cache when it is fresh.
* `Handler.host` — the surroundings of a program, included templates among them.
* `Handler.render`, `Handler.renderOrTell`, `Handler.compileAlone` — the operations.
-/

namespace Stencil

/-- Everything that renders read and change besides the context. -/
structure World where
  /-- The files. -/
  tree : FileTree
  /-- The time, in seconds. -/
  now : Nat
  /-- The compiled code in memory. -/
  memory : Cache := []
  /-- The programs by identity, each with its code. -/
  programs : Assoc Nat (List Char × Program) := []
  /-- How many templates were compiled. -/
  compiled : Nat := 0
  /-- How many templates were found compiled. -/
  reused : Nat := 0
  /-- The resources asked for. -/
  events : List ResourceEvent := []

/-- A step of a render before its program runs. -/
abbrev Action := EStateM TemplateError World

/-- The settings of an application, with its functions. -/
structure Handler where
  /-- The configuration. -/
  config : Config
  /-- The root of the application, without idle segments. -/
  root : Path
  /-- The registered functions. -/
  functions : String → Option (List Value → Except RuntimeError Value) := fun _ => none
  /-- Where compiled code is kept. -/
  backend : Backend := .files
  /-- When the compiler was last changed, in seconds. -/
  compilerTime : Nat := 0
  /-- The identities of templates. -/
  numbering : Numbering := .exact

namespace Handler

/-- The handler of a configuration, whose root has to exist. -/
def ofConfig (config : Config) (t : FileTree) : Except TemplateError Handler :=
  match config.checked with
  | .error e => .error e
  | .ok config =>
    match t.canonical? config.appRoot with
    | some root => .ok { config, root }
    | none => .error (.config (.missingRoot config.appRoot))

/-- The directory of compiled templates. -/
def cacheDir (h : Handler) : Path := h.config.cachePath h.root

/-- The settings of compilations. -/
def compiler (h : Handler) : Compiler :=
  { root := h.root, rulesetDir := h.config.rulesetDir.toList,
    entryConstant := h.config.entryConstant.toList }

/-- The template with a directory, taken from the root of the application, and a file name. -/
def find (h : Handler) (t : FileTree) (dir : Path) (file : List Char) :
    Except TemplateError Template :=
  Template.find h.numbering h.config h.root t (h.root.join dir) file

/-! ### Programs -/

/-- The code of a template, compiled; whether diagnostics matter is up to the policy. -/
def compile (h : Handler) (u : Template) : Action (List Char) := do
  let w ← get
  match w.tree.read? u.path with
  | none => throw (.io u.path)
  | some source =>
    let result := h.compiler.compile w.tree u.path u.webPath source
    set { w with compiled := w.compiled + 1 }
    if result.diagnostics ≠ [] ∧ h.config.policy = .strict then
      throw (.compile u.path result.diagnostics)
    else pure result.code

/-- The program of compiled code: the one that is kept, when it was parsed from the same code. -/
def program (u : Template) (code : List Char) : Action Program := do
  let w ← get
  match (Assoc.get? w.programs u.identity).filter fun kept => kept.1 == code with
  | some (_, program) => pure program
  | none =>
    match parseProgram (String.ofList u.programName) code with
    | .error e => throw (.parse e)
    | .ok program =>
      set { w with programs := Assoc.insert w.programs u.identity (code, program) }
      pure program

/-- The text of the file with compiled code, when it is no older than a change and not empty. -/
def freshFile (t : FileTree) (path : Path) (changed : Nat) : Option (List Char) :=
  match t.find? path with
  | some (.file (.text code) time) =>
    if changed ≤ time ∧ code ≠ [] then some code else none
  | _ => none

/-- The compiled code that is kept for a template, when it is no older than a change. -/
def kept (h : Handler) (u : Template) (changed : Nat) (w : World) : Option (List Char) :=
  match h.backend with
  | .memory =>
    match w.memory.get? u.cacheKey changed with
    | some (.code text) => some text
    | some (.file path) => w.tree.read? path
    | none => none
  | .files => freshFile w.tree (u.compiledFile h.cacheDir) changed

/-- The tree with compiled code in its file; when that cannot be written, directories may have been
made all the same. -/
def writeCompiled (t : FileTree) (path : Path) (name code : List Char) (now : Nat) : FileTree :=
  match Path.parent? path with
  | none => t
  | some dir =>
    match t.makeDirs dir with
    | (t, true) => (t.write? dir name (.text code) now).getD t
    | (t, false) => t

/-- Keeps the compiled code of a template. -/
def keep (h : Handler) (u : Template) (code : List Char) (w : World) : World :=
  match h.backend with
  | .memory => { w with memory := w.memory.put u.cacheKey (.code code) w.now }
  | .files =>
    { w with
      tree := writeCompiled w.tree (u.compiledFile h.cacheDir) u.compiledName code w.now }

/-- The program of a template: from the code that is kept, when it is no older than the template and
the compiler, and compiled anew otherwise.  Code is kept only when it parses. -/
def load (h : Handler) (u : Template) : Action Program := do
  let w ← get
  match w.tree.time? u.path with
  | none => throw (.io u.path)
  | some time =>
    match h.kept u (max time h.compilerTime) w with
    | some code =>
      set { w with reused := w.reused + 1 }
      program u code
    | none =>
      let code ← h.compile u
      let program ← program u code
      modify (h.keep u code)
      pure program

/-! ### Renders -/

/-- The variable with the directory of the running template. -/
def tplPathName : String := "tpl_path"

/-- The context in which the program of a template starts. -/
def enter (h : Handler) (u : Template) (ctx : Context) : Context :=
  let ctx := ctx.set tplPathName (.string (String.ofList u.tplPath))
  let ctx := match ctx.session with
    | some s => if s.isLogged then ctx.set "logged_info" s.loggedInfo else ctx
    | none => ctx
  if ctx.isDefined h.config.entryConstant then ctx
  else ctx.define h.config.entryConstant (.bool true)

/-- The context after an included template, given the one before it. -/
def leave (before after : Context) : Context :=
  match before.get? tplPathName with
  | some v => after.set tplPathName v
  | none => after.remove tplPathName

/-- A template rendered: its program loaded, and run with the given surroundings. -/
def renderUnit (h : Handler) (host : Host World) (isRoot : Bool) (u : Template) (ctx : Context)
    (w : World) : Except TemplateError String × Context × World :=
  match h.load u w with
  | .error e w => (.error e, ctx, w)
  | .ok program w =>
    match program.run host (h.enter u ctx) w with
    | (result, after, w) => (result, if isRoot then after else leave ctx after, w)

/-- The surroundings of a program at a depth, when `left` deeper levels are allowed.  A template
that does not exist is included as nothing. -/
def host (h : Handler) : Nat → Nat → Host World
  | 0, depth =>
    { functions := h.functions
      limit := h.config.maxRounds
      record := fun event w => { w with events := w.events ++ [event] }
      render := fun dir file ctx w =>
        (.error (.includeDepthExceeded (depth + 1) (Path.join dir.toList file.toList)), ctx, w) }
  | left + 1, depth =>
    { functions := h.functions
      limit := h.config.maxRounds
      record := fun event w => { w with events := w.events ++ [event] }
      render := fun dir file ctx w =>
        match h.find w.tree dir.toList file.toList with
        | .ok u => h.renderUnit (host h left (depth + 1)) false u ctx w
        | .error (.sourceNotFound _) => (.ok "", ctx, w)
        | .error e => (.error e, ctx, w) }

/-- A template rendered at a depth of includes; the outermost one has depth zero. -/
def renderAt (h : Handler) (depth : Nat) (u : Template) (ctx : Context) (w : World) :
    Except TemplateError String × Context × World :=
  h.renderUnit (h.host (h.config.maxDepth - depth) depth) (depth == 0) u ctx w

/-- The template with a directory and a file name, rendered. -/
def render (h : Handler) (dir : Path) (file : List Char) (ctx : Context) (w : World) :
    Except TemplateError String × Context × World :=
  match h.find w.tree dir file with
  | .ok u => h.renderAt 0 u ctx w
  | .error e => (.error e, ctx, w)

/-- The message in place of a template that does not exist. -/
def missingText (path : Path) : String :=
  "Err : '" ++ String.ofList path ++ "' template file does not exist."

/-- The template with a directory and a file name, rendered; for a template that does not exist, a
message. -/
def renderOrTell (h : Handler) (dir : Path) (file : List Char) (ctx : Context) (w : World) :
    Except TemplateError String × Context × World :=
  match h.render dir file ctx w with
  -- an included template that does not exist never comes here: it is rendered as nothing
  | (.error (.sourceNotFound path), ctx, w) => (.ok (missingText path), ctx, w)
  | other => other

/-- The template with a directory and a file name, compiled and not kept. -/
def compileAlone (h : Handler) (dir : Path) (file : List Char) (w : World) :
    Except TemplateError (List Char) × World :=
  match h.find w.tree dir file with
  | .ok u =>
    match h.compile u w with
    | .ok code w => (.ok code, w)
    | .error e w => (.error e, w)
  | .error e => (.error e, w)

end Handler

end Stencil
