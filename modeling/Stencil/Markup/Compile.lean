import Stencil.Markup.Asset
import Stencil.Markup.Comment
import Stencil.Markup.Directive.Expand
import Stencil.Markup.Form
import Stencil.Markup.Scope
import Stencil.Path.Resolve

/-!
# Compiling templates

A template is compiled in stages, each of which reads what the one before has written: comments for
authors are dropped, sources of assets resolved, controlled elements wrapped, directives replaced,
blocks dropped and forms augmented.  In front comes the code that refuses to run without the
constant of the application.

## Main definitions

* `Compiler` — the settings of a compilation.
* `Compilation` — the code and the diagnostics.
* `Compiler.compile` — all stages on one template.
-/

namespace Stencil

open Text

/-- The settings of a compilation. -/
structure Compiler where
  /-- The root of the application. -/
  root : Path
  /-- The directory of shared rulesets. -/
  rulesetDir : Path
  /-- The constant without which compiled code does nothing. -/
  entryConstant : List Char

/-- A compiled template. -/
structure Compilation where
  /-- The code. -/
  code : List Char
  /-- The diagnostics, none for a clean template. -/
  diagnostics : List Diagnostic

namespace Compiler

/-- The code in front of a compiled template. -/
def prologue (c : Compiler) : List Char :=
  island ("if (!defined('".toList ++ c.entryConstant ++ "')) exit;".toList)

/-- The template as the first stage that reports anything reads it. -/
def prepared (webPath source : List Char) : List Char :=
  resolveAssets webPath (dropAuthorComments source)

/-- The code and the diagnostics of the template at a path, shown to browsers under `webPath`. -/
def compile (c : Compiler) (t : FileTree) (path : Path) (webPath source : List Char) :
    Compilation :=
  let start := prepared webPath source
  let (wrapped, scopeFindings) := compileScopes start
  let report := ((Report.new path).enter .tagScope).pushAll scopeFindings |>.relocate start source
  let (expanded, directiveFindings) := compileDirectives (t.resolveDir? c.root path) wrapped
  let report := (report.enter .directives).pushAll directiveFindings |>.relocate wrapped source
  let plain := dropBlocks expanded
  let (formed, formFindings) := augmentForms (relativeToRoot c.root path) c.rulesetDir plain
  let report := (report.enter .forms).pushAll formFindings |>.relocate plain source
  { code := c.prologue ++ formed, diagnostics := report.items }

end Compiler

end Stencil
