import Stencil.Assoc
import Stencil.Text.Letter
import Stencil.Text.Blank
import Stencil.Text.Pattern

/-!
# Attributes of directives

A directive written as a tag has attributes after blanks, one written as a comment has them after
commas.  The value of an attribute stands in double quotes and is not empty; of a repeated name
the last value counts.

## Main definitions

* `AttributeStyle` — the two ways of separating attributes.
* `attributesOf` — the attributes in a text.
-/

namespace Stencil

open Text

/-- What separates attributes. -/
inductive AttributeStyle where
  /-- A blank before each. -/
  | tag : AttributeStyle
  /-- A comma before each, and blanks after it. -/
  | comment : AttributeStyle
  deriving DecidableEq

/-- A name, an equals sign and a nonempty value in double quotes. -/
def namedValue : Matcher (List Char × List Char) := fun cs =>
  let name := cs.takeWhile isWord
  match cs.dropWhile isWord with
  | '=' :: '\x22' :: rest =>
    let value := rest.takeWhile (· ≠ '\x22')
    if name.isEmpty || value.isEmpty || (rest.dropWhile (· ≠ '\x22')).isEmpty then none
    else some ((name, value), name.length + value.length + 3)
  | _ => none

/-- An attribute with its separator. -/
def attributeAt (style : AttributeStyle) : Matcher (List Char × List Char)
  | [] => none
  | c :: cs =>
    match style with
    | .tag => if isBlank c then (namedValue cs).map fun (a, n) => (a, n + 1) else none
    | .comment =>
      if c = ',' then
        (namedValue (cs.dropWhile isBlank)).map fun (a, n) =>
          (a, n + (cs.takeWhile isBlank).length + 1)
      else none

/-- The attributes in a text, each in the place of its first occurrence. -/
def attributesOf (style : AttributeStyle) (cs : List Char) : Assoc (List Char) (List Char) :=
  Assoc.ofList (findAll (attributeAt style) cs)

end Stencil
