import Stencil.Value.Basic

/-!
# Tokens of the script

A compiled template is literal text with islands of code.  An island opens with `openTag` and
closes with `closeTag`; the closing tag counts as the end of a statement.

## Main definitions

* `openTag`, `closeTag` — the ends of an island.
* `Sign`, `Token` — the tokens, and `Token.describe`, their wording in errors.
* `Lexeme` — a token with its place.
-/

namespace Stencil

/-- The text that opens an island of code. -/
def openTag : List Char := ['<', '?', 't', 'p', 'l']

/-- The text that closes an island of code. -/
def closeTag : List Char := ['?', '>']

/-- The operators and brackets of the script. -/
inductive Sign where
  | parenOpen | parenClose | braceOpen | braceClose | bracketOpen | bracketClose
  | comma | colon | question | arrow | fatArrow
  | assign | plusAssign | minusAssign | timesAssign | divideAssign | dotAssign
  | equal | notEqual | identical | notIdentical | less | lessEqual | greater | greaterEqual
  | plus | minus | times | divide | percent | dot | increment | decrement | not | and | or
  deriving DecidableEq

/-- The spelling of a sign. -/
def Sign.text : Sign → String
  | parenOpen => "("
  | parenClose => ")"
  | braceOpen => "\x7b"
  | braceClose => "\x7d"
  | bracketOpen => "["
  | bracketClose => "]"
  | comma => ","
  | colon => ":"
  | question => "?"
  | arrow => "->"
  | fatArrow => "=>"
  | assign => "="
  | plusAssign => "+="
  | minusAssign => "-="
  | timesAssign => "*="
  | divideAssign => "/="
  | dotAssign => ".="
  | equal => "=="
  | notEqual => "!="
  | identical => "==="
  | notIdentical => "!=="
  | less => "<"
  | lessEqual => "<="
  | greater => ">"
  | greaterEqual => ">="
  | plus => "+"
  | minus => "-"
  | times => "*"
  | divide => "/"
  | percent => "%"
  | dot => "."
  | increment => "++"
  | decrement => "--"
  | not => "!"
  | and => "&&"
  | or => "||"

/-- A token of a compiled template. -/
inductive Token where
  /-- Text between islands. -/
  | text (s : String) : Token
  /-- A variable, without its dollar sign. -/
  | var (name : String) : Token
  /-- A keyword, constant or function name, possibly qualified. -/
  | word (name : String) : Token
  /-- An integer numeral. -/
  | int (i : Int64) : Token
  /-- A numeral with a fraction. -/
  | float (x : Float) : Token
  /-- A string literal, unescaped. -/
  | string (s : String) : Token
  /-- The end of a statement: a semicolon or the end of an island. -/
  | terminator : Token
  /-- An operator or bracket. -/
  | sign (s : Sign) : Token
  deriving DecidableEq

/-- The wording of a token in errors. -/
def Token.describe : Token → String
  | text _ => "template text"
  | var name => "variable `$" ++ name ++ "`"
  | word name => "`" ++ name ++ "`"
  | int i => "number `" ++ wordText i ++ "`"
  | float x => "number `" ++ String.ofList (Number.floatText x) ++ "`"
  | string _ => "string"
  | terminator => "`;` or `?>`"
  | sign s => "`" ++ s.text ++ "`"

/-- A token with the offsets in bytes at which it starts and stops. -/
structure Lexeme where
  /-- The token. -/
  token : Token
  /-- The offset of its first byte. -/
  start : Nat
  /-- The offset after its last byte. -/
  stop : Nat
  deriving DecidableEq

end Stencil
