import Stencil.Text.Blank
import Stencil.Text.Pattern

/-!
# Loop attributes

The value of a loop attribute has one of three shapes: a collection and the variables for its
entries, `LIST=>VALUE` or `LIST=>KEY,VALUE`; three parts of a counting loop, `INIT;COND;STEP`; or
an assignment that is repeated while its value holds, `VAR=EXPR`.

## Main definitions

* `loopHead?` — the head of the loop statement for an attribute value.
-/

namespace Stencil

open Text

/-- The variables of a loop over entries. -/
def entryVars (bindings : List Char) : Option (List Char) :=
  match breakOn [','] bindings with
  | some (key, value) =>
    if (trim key).isEmpty || (trim value).isEmpty then none
    else some (trim key ++ " => ".toList ++ trim value)
  | none => if (trim bindings).isEmpty then none else some (trim bindings)

/-- The head of a loop over the entries of a collection, behind the guard that it has entries. -/
def entryLoop (collection vars : List Char) : List Char :=
  "if (".toList ++ collection ++ " && count(".toList ++ collection ++ ")) foreach (".toList ++
    collection ++ " as ".toList ++ vars ++ [')']

/-- The texts around the first equals sign that assigns, given the character before the text. -/
def breakAssignment (before : Char) : List Char → Option (List Char × List Char)
  | [] => none
  | c :: cs =>
    -- comparisons and arrows have an equals sign that does not assign
    if c = '=' ∧ before ∉ ['=', '!', '<', '>'] ∧ cs.head? ≠ some '=' ∧ cs.head? ≠ some '>' then
      some ([], cs)
    else (breakAssignment c cs).map fun (target, value) => (c :: target, value)

/-- The head of a loop that repeats an assignment. -/
def assignmentLoop (target value : List Char) : Option (List Char) :=
  if target.isEmpty || value.isEmpty then none
  else some ("while ((".toList ++ target ++ " = ".toList ++ value ++ "))".toList)

/-- The head of the loop for an attribute value, if it has one of the three shapes. -/
def loopHead? (value : List Char) : Option (List Char) :=
  match breakOn "=>".toList value with
  | some (collection, bindings) =>
    match entryVars bindings with
    | some vars =>
      if (trim collection).isEmpty then none else some (entryLoop (trim collection) vars)
    | none => none
  | none =>
    if 2 ≤ value.count ';' then some ("for (".toList ++ value ++ [')'])
    else
      match breakAssignment ' ' value with
      | some (target, value) => assignmentLoop (trim target) (trim value)
      | none => none

end Stencil
