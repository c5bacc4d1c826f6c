import Stencil.Text.Blank
import Stencil.Text.Pattern

/-!
# Comments and blocks of authors

A comment whose text starts with two slashes is for authors only.  A `block` element carries
control attributes and nothing else; its tags are left out when the attributes are compiled.

## Main definitions

* `authorCommentAt`, `dropAuthorComments` — comments for authors.
* `dropBlocks` — the tags of blocks, and comments that remain, left out.
-/

namespace Stencil

open Text

/-- A comment for authors. -/
def authorCommentAt : Matcher Unit := fun cs =>
  (dropStart? "<!--//".toList cs).bind fun rest =>
    (breakOn "-->".toList rest).map fun (comment, _) => ((), comment.length + 9)

/-- The text without the comments for authors. -/
def dropAuthorComments (cs : List Char) : List Char := removeMatches authorCommentAt cs

/-- The rest of a tag of a block, from its name on. -/
def blockNameAt : Matcher Unit := fun cs =>
  (dropStartFold? "block".toList cs).bind fun rest =>
    if startsWith ['>'] (rest.dropWhile isBlank) then some ((), (rest.takeWhile isBlank).length + 6)
    else none

/-- A tag of a block, without attributes. -/
def blockTagAt : Matcher Unit
  | '<' :: '/' :: cs => (blockNameAt cs).map fun (_, n) => ((), n + 2)
  | '<' :: cs => (blockNameAt cs).map fun (_, n) => ((), n + 1)
  | _ => none

/-- A comment for authors with one blank before it, if there is one. -/
def spacedCommentAt : Matcher Unit
  | [] => none
  | c :: cs =>
    if isBlank c then (authorCommentAt cs).map fun (_, n) => ((), n + 1)
    else authorCommentAt (c :: cs)

/-- The text without the tags of blocks and the comments for authors. -/
def dropBlocks (cs : List Char) : List Char :=
  removeMatches (fun cs => (blockTagAt cs).or (spacedCommentAt cs)) cs

end Stencil
