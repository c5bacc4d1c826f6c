import Stencil.Markup.Directive.Resource

/-!
# Compiling directives

Every directive is replaced by its code.  A directive without code, and one that breaks the nesting
of control comments, is left out and reported.

## Main definitions

* `Directive.code` — the code of a directive.
* `compileDirectives` — a text with its directives replaced, and what is reported.
-/

namespace Stencil

open Text

/-- The code of a directive; `resolve` finds the directories that it names. -/
def Directive.code (resolve : Path → Option Path) : Directive → Except Fault (List Char)
  | echo code => .ok (island ("echo ".toList ++ bindVars code))
  | raw code => .ok (island (bindVars code))
  | resource verb argument attributes => resourceCode resolve verb argument attributes
  | control keyword args => controlCode keyword args

/-- What a directive does to the blocks of control comments. -/
def Directive.nesting? : Directive → Option Nesting
  | control keyword args => controlNesting? keyword args
  | _ => none

/-- The code of a directive under the verdict on its nesting. -/
def Directive.codeUnder (resolve : Path → Option Path) (d : Directive) :
    Option Imbalance → Except Fault (List Char)
  | some imbalance => .error ⟨.unbalancedTag, imbalance.help⟩
  | none => d.code resolve

/-- The pieces of a text with the directives replaced, given the verdicts on the directives; the
first piece starts at `offset`. -/
def expandPieces (resolve : Path → Option Path) :
    Nat → List (Piece Construct) → List (Option Imbalance) → List Char × List Finding
  | _, [], _ => ([], [])
  | offset, .plain c :: rest, verdicts =>
    let (out, findings) := expandPieces resolve (offset + c.utf8Size) rest verdicts
    (c :: out, findings)
  | offset, .found .island source :: rest, verdicts =>
    let (out, findings) := expandPieces resolve (offset + byteSize source) rest verdicts
    (source ++ out, findings)
  | offset, .found (.directive d) source :: rest, verdicts =>
    let (out, findings) := expandPieces resolve (offset + byteSize source) rest verdicts.tail
    match d.codeUnder resolve (verdicts.head?.getD none) with
    | .ok code => (code ++ out, findings)
    | .error fault => (out, ⟨fault.defect, offset, source, some fault.help⟩ :: findings)

/-- The text with its directives replaced by code, and the directives that have none. -/
def compileDirectives (resolve : Path → Option Path) (cs : List Char) :
    List Char × List Finding :=
  let pieces := cut constructAt cs
  let directives := (pieces.filterMap Piece.value?).filterMap Construct.directive?
  expandPieces resolve 0 pieces (imbalances (directives.map Directive.nesting?))

end Stencil
