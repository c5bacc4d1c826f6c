import Stencil.Error
import Stencil.Script.Token

/-!
# Lexing compiled templates

The lexer reads a template from left to right and is either in text or in code.  At each place it
takes one step, which covers some characters, may give a token and may change the mode.

In code, blanks and comments give no token.  A line comment, opened by `//` or `#`, ends before a
line feed or before the end of the island; a block comment ends with its closing mark or with the
template.

## Main definitions

* `Lexer.step` — the step at a place: the token, the number of characters and the next mode.
* `Lexer.lexFrom`, `lex` — the tokens of a template.
* `readQuoted` — the content of a string literal.
-/

namespace Stencil

open Text

/-- A character of a name after its first one. -/
def isNamePart (c : Char) : Bool := isAsciiAlnum c || c = '_'

/-- The first character of a name. -/
def isNameStart (c : Char) : Bool := isAsciiLetter c || c = '_'

/-- The name at the start of a text, empty when there is none. -/
def nameAt : List Char → List Char
  | [] => []
  | c :: cs => if isNameStart c then c :: cs.takeWhile isNamePart else []

/-- What an escape in a string literal stands for, given the quote and the character after the
backslash. -/
def unescape (quote c : Char) : List Char :=
  if c = '\\' then ['\\']
  else if c = quote then [c]
  else if quote = '\x22' then
    match c with
    | 'n' => ['\n']
    | 't' => ['\t']
    | 'r' => ['\r']
    | '$' => ['$']
    | _ => ['\\', c]
  else ['\\', c]

/-- The content of a string literal after its opening quote, and the number of characters up to and
with the closing one. -/
def readQuoted (quote : Char) : List Char → Option (List Char × Nat)
  | [] => none
  | [c] => if c = quote then some ([], 1) else none
  | c :: d :: cs =>
    if c = quote then some ([], 1)
    else if c = '\\' then
      (readQuoted quote cs).map fun (content, n) => (unescape quote d ++ content, n + 2)
    else (readQuoted quote (d :: cs)).map fun (content, n) => (c :: content, n + 1)

namespace Lexer

/-- Whether the lexer is between islands or in one. -/
inductive Mode where
  /-- Between islands. -/
  | text : Mode
  /-- In an island. -/
  | code : Mode
  deriving DecidableEq

/-- What a step gives: a token or none, the number of characters it covers, and the next mode. -/
structure Step where
  /-- The token. -/
  token : Option Token
  /-- The number of characters, at least one. -/
  width : Nat
  /-- The mode afterwards. -/
  mode : Mode
  deriving DecidableEq

/-- Why there is no step: what stands there, and what could. -/
structure Refusal where
  /-- What stands there. -/
  found : String
  /-- What could have stood there. -/
  expected : String

/-- The text up to the next island. -/
def textRun : List Char → List Char
  | [] => []
  | c :: cs => if startsWith openTag (c :: cs) then [] else c :: textRun cs

/-- The step at a place between islands. -/
def textStep (cs : List Char) : Step :=
  if startsWith openTag cs then { token := none, width := openTag.length, mode := .code }
  else
    { token := some (.text (String.ofList (textRun cs)))
      width := (textRun cs).length
      mode := .text }

/-- The text of a line comment. -/
def lineComment : List Char → List Char
  | [] => []
  | c :: cs => if c = '\n' || startsWith closeTag (c :: cs) then [] else c :: lineComment cs

/-- The number of characters of blanks or of a comment at the start of a text. -/
def triviaWidth (cs : List Char) : Nat :=
  match cs with
  | [] => 0
  | c :: rest =>
    if isBlank c then 1
    else if c = '#' || startsWith ['/', '/'] cs then (lineComment cs).length
    else if startsWith ['/', '*'] cs then
      match breakOn ['*', '/'] (rest.drop 1) with
      | some (body, _) => body.length + 4
      | none => cs.length
    else 0

/-- The number of characters of `::`, an optional `$` and a name; zero when that is not there. -/
def qualifierWidth (cs : List Char) : Nat :=
  match cs with
  | ':' :: ':' :: '$' :: rest => if nameAt rest = [] then 0 else 3 + (nameAt rest).length
  | ':' :: ':' :: rest => if nameAt rest = [] then 0 else 2 + (nameAt rest).length
  | _ => 0

/-- The number of characters of a possibly qualified word, the next `skip` of which are known to
belong to it. -/
def wordWidth : Nat → List Char → Nat
  | _, [] => 0
  | skip + 1, _ :: cs => 1 + wordWidth skip cs
  | 0, c :: cs =>
    if isNamePart c || c = '\\' then 1 + wordWidth 0 cs
    else match qualifierWidth (c :: cs) with
      | 0 => 0
      | k + 1 => 1 + wordWidth k cs

/-- The characters of a numeral: digits, and a fraction if a digit follows the point. -/
def numeral (cs : List Char) : List Char :=
  let whole := cs.takeWhile isAsciiDigit
  match cs.dropWhile isAsciiDigit with
  | '.' :: rest =>
    let fraction := rest.takeWhile isAsciiDigit
    if fraction = [] then whole else whole ++ '.' :: fraction
  | _ => whole

/-- The signs by their spelling, longer spellings first. -/
def signs : List (List Char × Sign) :=
  [(['=', '=', '='], .identical), (['!', '=', '='], .notIdentical), (['=', '='], .equal),
    (['!', '='], .notEqual), (['<', '>'], .notEqual), (['<', '='], .lessEqual),
    (['>', '='], .greaterEqual), (['=', '>'], .fatArrow), (['-', '>'], .arrow),
    (['+', '+'], .increment), (['-', '-'], .decrement), (['+', '='], .plusAssign),
    (['-', '='], .minusAssign), (['*', '='], .timesAssign), (['/', '='], .divideAssign),
    (['.', '='], .dotAssign), (['&', '&'], .and), (['|', '|'], .or), (['('], .parenOpen),
    ([')'], .parenClose), (['\x7b'], .braceOpen), (['\x7d'], .braceClose), (['['], .bracketOpen),
    ([']'], .bracketClose), ([','], .comma), ([':'], .colon), (['?'], .question),
    (['='], .assign), (['<'], .less), (['>'], .greater), (['+'], .plus), (['-'], .minus),
    (['*'], .times), (['/'], .divide), (['%'], .percent), (['.'], .dot), (['!'], .not)]

/-- A step in code that gives a token and stays in code. -/
def emit (token : Token) (width : Nat) : Except Refusal Step :=
  .ok { token := some token, width, mode := .code }

/-- The step over a numeral. -/
def numeralStep (cs : List Char) : Except Refusal Step :=
  let digits := numeral cs
  let token? :=
    if digits.contains '.' then (Number.readFloat? digits).map Token.float
    else (Number.readInteger? digits).map Token.int
  match token? with
  | some token => emit token digits.length
  | none =>
    .error { found := "number `" ++ String.ofList digits ++ "`", expected := "a valid number" }

/-- The step over an operator or bracket. -/
def signStep (c : Char) (cs : List Char) : Except Refusal Step :=
  if c = ';' then emit .terminator 1
  else match signs.find? fun (spelling, _) => startsWith spelling (c :: cs) with
    | some (spelling, sign) => emit (.sign sign) spelling.length
    | none =>
      .error { found := "character `" ++ String.ofList [c] ++ "`", expected := "an expression" }

/-- The step at a place in an island. -/
def codeStep (c : Char) (cs : List Char) : Except Refusal Step :=
  match triviaWidth (c :: cs) with
  | width + 1 => .ok { token := none, width := width + 1, mode := .code }
  | 0 =>
    if startsWith closeTag (c :: cs) then
      .ok { token := some .terminator, width := closeTag.length, mode := .text }
    else if c = '$' then
      match nameAt cs with
      | [] => .error { found := "`$`", expected := "a variable name" }
      | name => emit (.var (String.ofList name)) (1 + name.length)
    else if isAsciiDigit c then numeralStep (c :: cs)
    else if c = '\x27' || c = '\x22' then
      match readQuoted c cs with
      | some (content, n) => emit (.string (String.ofList content)) (1 + n)
      | none => .error { found := "unterminated string", expected := "a closing quote" }
    else if isNameStart c || c = '\\' then
      let width := wordWidth 0 (c :: cs)
      emit (.word (String.ofList ((c :: cs).take width))) width
    else signStep c cs

/-- The step at a place. -/
def step (mode : Mode) (c : Char) (cs : List Char) : Except Refusal Step :=
  match mode with
  | .text => .ok (textStep (c :: cs))
  | .code => codeStep c cs

/-- The tokens of the rest of a template, which starts at the offset `pos`; its next `skip`
characters belong to the last step. -/
def lexFrom (mode : Mode) (skip pos : Nat) : List Char → Except SyntaxError (List Lexeme)
  | [] =>
    match mode with
    | .text => .ok []
    | .code =>
      .error { found := "end of template", expected := "`?>`", offset := pos, length := 0 }
  | c :: cs =>
    match skip with
    | skip + 1 => lexFrom mode skip (pos + c.utf8Size) cs
    | 0 =>
      match step mode c cs with
      | .error e => .error { found := e.found, expected := e.expected, offset := pos, length := 1 }
      | .ok s =>
        match lexFrom s.mode (s.width - 1) (pos + c.utf8Size) cs with
        | .error e => .error e
        | .ok rest =>
          match s.token with
          | none => .ok rest
          | some token =>
            .ok ({ token, start := pos, stop := pos + byteSize ((c :: cs).take s.width) } :: rest)

end Lexer

/-- The tokens of a template. -/
def lex (source : List Char) : Except SyntaxError (List Lexeme) := Lexer.lexFrom .text 0 0 source

end Stencil
