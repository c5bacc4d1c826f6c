/-!
# Blanks

Blanks are the twenty-five characters of Unicode with the property `White_Space`.  The blanks of
markup are a smaller set.

## Main definitions

* `isBlank` — the blanks that trimming removes.
* `isMarkupBlank` — the blanks that may follow an element name.
* `trimLeft`, `trimRight`, `trim` — a text without its outer blanks.
-/

namespace Stencil.Text

/-- A character with the property `White_Space`. -/
def isBlank (c : Char) : Bool :=
  let n := c.toNat
  (9 ≤ n && n ≤ 13) || n == 32 || n == 0x85 || n == 0xA0 || n == 0x1680 ||
    (0x2000 ≤ n && n ≤ 0x200A) || n == 0x2028 || n == 0x2029 || n == 0x202F || n == 0x205F ||
    n == 0x3000

/-- Space, tab, line feed, form feed and carriage return. -/
def isMarkupBlank (c : Char) : Bool :=
  let n := c.toNat
  n == 32 || n == 9 || n == 10 || n == 12 || n == 13

/-- The text without the longest run at its end that satisfies `p`. -/
def dropRightWhile (p : Char → Bool) (cs : List Char) : List Char :=
  (cs.reverse.dropWhile p).reverse

/-- The text without its leading blanks. -/
def trimLeft (cs : List Char) : List Char := cs.dropWhile isBlank

/-- The text without its trailing blanks. -/
def trimRight (cs : List Char) : List Char := dropRightWhile isBlank cs

/-- The text without its outer blanks. -/
def trim (cs : List Char) : List Char := trimRight (trimLeft cs)

end Stencil.Text
