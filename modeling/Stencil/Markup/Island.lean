import Stencil.Script.Token
import Stencil.Text.Pattern

/-!
# Islands of code

## Main definitions

* `island` — code between the tags that open and close it.
* `islandAt` — the pattern of islands that stand in a text already.
-/

namespace Stencil

open Text

/-- An island with the code. -/
def island (code : List Char) : List Char := openTag ++ ' ' :: code ++ ' ' :: closeTag

/-- An island, up to its first closing tag or to the end of the text. -/
def islandAt : Matcher Unit := fun cs =>
  (dropStart? openTag cs).map fun rest =>
    match breakOn closeTag rest with
    | some (code, _) => ((), openTag.length + code.length + closeTag.length)
    | none => ((), cs.length)

end Stencil
