import Stencil.Text.Blank
import Stencil.Text.Letter
import Stencil.Text.Pattern
import Stencil.Text.Case

/-!
# Tags of elements

A tag is read from its angle bracket to the first `>` that does not stand in a quoted value, in
braces or in a comment.  The text of a script that looks like a tag counts as one.

## Main definitions

* `Tag` — the name of a tag, and which of the two tags of an element it is.
* `tagEnd?` — the length of the rest of a tag.
* `tagAt` — the pattern of tags.
* `isVoid` — the elements without a closing tag.
-/

namespace Stencil

open Text

/-- A tag. -/
structure Tag where
  /-- The name of the element, in small letters. -/
  name : List Char
  /-- Whether the tag closes its element. -/
  isClosing : Bool
  deriving DecidableEq

/-- The elements that have no closing tag. -/
def voidElements : List (List Char) :=
  ["area".toList, "base".toList, "basefont".toList, "br".toList, "hr".toList, "input".toList,
    "img".toList, "link".toList, "meta".toList, "param".toList, "frame".toList, "col".toList]

/-- Whether an element has no closing tag. -/
def isVoid (name : List Char) : Bool := voidElements.contains name

/-- How far a reader of a tag goes from the character `c` before `cs`: over quoted values, braces
and comments at once.  A quoted value or comment that stays open has no end. -/
def tagStep (c : Char) (cs : List Char) : Option Nat :=
  if c = '\x27' ∨ c = '\x22' then (breakOn [c] cs).map fun (value, _) => value.length + 2
  else if c = '\x7b' then
    match breakOn ['\x7d'] cs with
    | some (code, _) => some (code.length + 2)
    | none => some 1
  else if c = '<' then
    match dropStart? "!--".toList cs with
    | some rest => (breakOn "-->".toList rest).map fun (comment, _) => comment.length + 7
    | none => some 1
  else some 1

/-- The number of characters up to and with the end of a tag, of which the next `n` are read
already. -/
def tagEndFrom : Nat → List Char → Option Nat
  | _, [] => none
  | n + 1, _ :: cs => (tagEndFrom n cs).map (· + 1)
  | 0, c :: cs =>
    if c = '>' then some 1
    else
      match tagStep c cs with
      | some k => (tagEndFrom (k - 1) cs).map (· + 1)
      | none => none

/-- The number of characters up to and with the end of a tag. -/
def tagEnd? (cs : List Char) : Option Nat := tagEndFrom 0 cs

/-- The name of an element: letters, and one digit after them. -/
def elementName (cs : List Char) : List Char :=
  match cs.takeWhile isAsciiLetter, cs.dropWhile isAsciiLetter with
  | [], _ => []
  | letters, d :: _ => if isAsciiDigit d then letters ++ [d] else letters
  | letters, [] => letters

/-- Whether a text may follow the name of an element. -/
def endsName : List Char → Bool
  | [] => false
  | c :: _ => isMarkupBlank c || c = '>' || c = '/'

/-- The rest of a tag from its name on. -/
def namedTagAt (isClosing : Bool) : Matcher Tag := fun cs =>
  let name := elementName cs
  let rest := cs.drop name.length
  if name.isEmpty || ! endsName rest then none
  else
    (tagEnd? rest).map fun n => ({ name := name.map asciiLower, isClosing }, name.length + n)

/-- A tag. -/
def tagAt : Matcher Tag
  | '<' :: '/' :: cs => (namedTagAt true cs).map fun (tag, n) => (tag, n + 2)
  | '<' :: cs => (namedTagAt false cs).map fun (tag, n) => (tag, n + 1)
  | _ => none

end Stencil
