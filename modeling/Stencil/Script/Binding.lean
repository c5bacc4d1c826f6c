import Stencil.Script.Token
import Stencil.Text.Letter

/-!
# Variables of the context in code

Authors write `$title` for a variable of the context; programs reach it as a member of the
variable `$__ctx`.  Binding puts the way to the context in front of every such name.  Names inside
string literals stay, and so does a name after `::` or a backslash.

## Main definitions

* `contextName` — the variable by which programs reach the context.
* `Quoting` — where a reader of code stands with respect to string literals.
* `bindVars` — code with its variables bound.
* `quoteLiteral` — a text as a string literal.
-/

namespace Stencil

open Text

/-- The variable by which programs reach the variables of the context. -/
def contextName : String := "__ctx"

/-- The way from a dollar sign to the members of the context. -/
def contextPath : List Char := ['_', '_', 'c', 't', 'x', '-', '>']

/-- Where a reader of code stands. -/
inductive Quoting where
  /-- Outside of string literals. -/
  | code : Quoting
  /-- In a literal with this quote. -/
  | quoted (quote : Char) : Quoting
  /-- After a backslash in a literal with this quote. -/
  | escaped (quote : Char) : Quoting
  deriving DecidableEq

/-- Where the reader stands after one more character. -/
def Quoting.next : Quoting → Char → Quoting
  | code, c => if c = '\x27' ∨ c = '\x22' then quoted c else code
  | quoted q, c => if c = '\\' then escaped q else if c = q then code else quoted q
  | escaped q, _ => quoted q

/-- Whether the text after a dollar sign starts a name that is bound: a letter, or an underscore and
a letter or digit. -/
def startsBound : List Char → Bool
  | c :: d :: _ => isAsciiLetter c || (c = '_' && isAsciiAlnum d)
  | [c] => isAsciiLetter c
  | [] => false

/-- Whether a text, given backwards, ends in a qualification or a backslash. -/
def endsQualified : List Char → Bool
  | '\\' :: _ => true
  | ':' :: ':' :: _ => true
  | _ => false

/-- Code with its variables bound, read after the text `before`, which is given backwards. -/
def bindFrom (mode : Quoting) (before : List Char) : List Char → List Char
  | [] => []
  | c :: cs =>
    let rest := bindFrom (mode.next c) (c :: before) cs
    if mode = .code ∧ c = '$' ∧ startsBound cs ∧ ¬ endsQualified before then
      c :: contextPath ++ rest
    else c :: rest

/-- Code with its variables bound to the context. -/
def bindVars (code : List Char) : List Char := bindFrom .code [] code

/-- A character of a literal. -/
def quoteChar (c : Char) : List Char := if c = '\\' ∨ c = '\x27' then ['\\', c] else [c]

/-- The text as a string literal. -/
def quoteLiteral (s : List Char) : List Char := '\x27' :: s.flatMap quoteChar ++ ['\x27']

end Stencil
