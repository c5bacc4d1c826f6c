import Stencil.Text.Pattern

/-!
# Compile diagnostics

A diagnostic names a construct of a template that could not be compiled: what is wrong with it, the
stage that found it, its text and its offset in bytes.  A stage reads what earlier stages wrote, so
its offsets are moved back to the template source afterwards: the n-th occurrence of a
diagnostic's text in the input of the stage is the n-th occurrence in the source.

## Main definitions

* `Defect`, `Stage` — what is wrong, and the stages that look for it.
* `Finding` — what a stage reports: a diagnostic without its stage and file.
* `Diagnostic`, `Diagnostic.message` — the diagnostic and its wording.
* `Report` — the diagnostics of one template; `Report.relocate` moves those of the current stage.
-/

namespace Stencil

/-- What is wrong with a construct. -/
inductive Defect where
  /-- A known directive without a part it needs. -/
  | malformedDirective : Defect
  /-- A control comment with a keyword that is none. -/
  | unknownDirective : Defect
  /-- A `loop` attribute of none of the loop shapes. -/
  | malformedLoop : Defect
  /-- An element or block that never closes, or a closer or branch without one. -/
  | unbalancedTag : Defect
  /-- A path that names nothing. -/
  | unresolvedPath : Defect
  deriving DecidableEq

/-- The wording of a defect. -/
def Defect.label : Defect → String
  | malformedDirective => "malformed directive"
  | unknownDirective => "unknown directive"
  | malformedLoop => "malformed loop expression"
  | unbalancedTag => "unbalanced tag"
  | unresolvedPath => "unresolved path"

/-- The stages of compilation that raise diagnostics. -/
inductive Stage where
  /-- Loop and condition attributes. -/
  | tagScope : Stage
  /-- Brace expressions, resource directives and control comments. -/
  | directives : Stage
  /-- Hidden form fields. -/
  | forms : Stage
  deriving DecidableEq

/-- The name of a stage. -/
def Stage.label : Stage → String
  | tagScope => "tag-scope"
  | directives => "directives"
  | forms => "forms"

/-- What a stage reports about a construct of its input. -/
structure Finding where
  /-- What is wrong. -/
  defect : Defect
  /-- The offset in bytes in the input of the stage. -/
  offset : Nat
  /-- The text of the construct. -/
  text : List Char
  /-- How to mend it. -/
  help : Option String
  deriving DecidableEq

/-- A finding with the file and the stage it belongs to. -/
structure Diagnostic extends Finding where
  /-- The stage that raised it. -/
  stage : Stage
  /-- The path of the template. -/
  file : List Char
  deriving DecidableEq

/-- The wording of a diagnostic. -/
def Diagnostic.message (d : Diagnostic) : String :=
  d.defect.label ++ " in `" ++ String.ofList d.file ++ "` at byte " ++ toString d.offset ++ " (" ++
    d.stage.label ++ " stage): `" ++ String.ofList d.text ++ "`"

/-- The place in `source` of the construct that stands at an offset of `input`: the occurrence of
its text with the same number.  A text that the source does not have often enough has none. -/
def relocated? (input source : List Char) (offset : Nat) (text : List Char) : Option Nat :=
  (Text.occurrences text source)[((Text.occurrences text input).takeWhile (· < offset)).length]?

/-- The diagnostics of one template. -/
structure Report where
  /-- The path of the template. -/
  file : List Char
  /-- The stage that is running. -/
  stage : Stage
  /-- The diagnostics so far, in order. -/
  items : List Diagnostic

namespace Report

/-- The empty report of a template, before its first stage. -/
def new (file : List Char) : Report := { file, stage := .tagScope, items := [] }

/-- The report with another stage running. -/
def enter (r : Report) (stage : Stage) : Report := { r with stage }

/-- The report with a finding of the running stage. -/
def push (r : Report) (f : Finding) : Report :=
  { r with items := r.items ++ [{ f with stage := r.stage, file := r.file }] }

/-- The report with the findings of the running stage. -/
def pushAll (r : Report) (fs : List Finding) : Report := fs.foldl push r

theorem items_pushAll (r : Report) (fs : List Finding) :
    (r.pushAll fs).items =
      r.items ++ fs.map fun f => { f with stage := r.stage, file := r.file } := by
  induction fs generalizing r with
  | nil => simp [pushAll]
  | cons f fs ih =>
    have := ih (r.push f)
    simp only [pushAll, push, List.foldl_cons, List.map_cons] at this ⊢
    rw [this, List.append_assoc, List.singleton_append]

/-- The diagnostic with its offset moved from the stage input to the source, if it belongs to the
stage and has a text that the source has. -/
def moveItem (stage : Stage) (input source : List Char) (d : Diagnostic) : Diagnostic :=
  if d.stage = stage ∧ d.text ≠ [] then
    match relocated? input source d.offset d.text with
    | some offset => { d with offset }
    | none => d
  else d

/-- The report with the offsets of the running stage moved from its input to the source. -/
def relocate (r : Report) (input source : List Char) : Report :=
  { r with items := r.items.map (moveItem r.stage input source) }

end Report

end Stencil
