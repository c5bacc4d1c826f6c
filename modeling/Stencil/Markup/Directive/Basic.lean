import Stencil.Markup.Attribute
import Stencil.Markup.Island

/-!
# Directives

Braces hold expressions and code, tags and comments ask for resources, and comments hold control
flow.  Braces that do not look like an expression are text, so that scripts and style sheets may
stand in a template.

## Main definitions

* `ResourceVerb`, `Directive` — the directives.
* `looksLikeExpression` — the test that tells expressions from other text in braces.
* `constructAt` — the pattern of directives and islands.
* `scanDirectives` — the directives of a text, islands left out.
-/

namespace Stencil

open Text

/-- What a resource directive asks for. -/
inductive ResourceVerb where
  /-- The output of another template. -/
  | includeTemplate : ResourceVerb
  /-- A file, in the older wording. -/
  | importFile : ResourceVerb
  /-- A file. -/
  | loadFile : ResourceVerb
  /-- That a file is not loaded. -/
  | unloadFile : ResourceVerb
  /-- A plugin. -/
  | loadPlugin : ResourceVerb
  deriving DecidableEq

/-- The keywords of resource directives. -/
def resourceVerbs : List (List Char × ResourceVerb) :=
  [("load_js_plugin".toList, .loadPlugin), ("include".toList, .includeTemplate),
    ("import".toList, .importFile), ("unload".toList, .unloadFile), ("load".toList, .loadFile)]

/-- A directive. -/
inductive Directive where
  /-- Writes the value of an expression. -/
  | echo (code : List Char) : Directive
  /-- Runs code. -/
  | raw (code : List Char) : Directive
  /-- Asks for a resource, named by an argument or by attributes. -/
  | resource (verb : ResourceVerb) (argument : Option (List Char))
      (attributes : Assoc (List Char) (List Char)) : Directive
  /-- Control flow, with a keyword and the text after it. -/
  | control (keyword args : List Char) : Directive
  deriving DecidableEq

/-- What directives are looked for in: a directive, or an island that hides its code. -/
inductive Construct where
  /-- A directive. -/
  | directive (d : Directive) : Construct
  /-- An island of code. -/
  | island : Construct

/-! ### Braces -/

/-- Whether a character may stand in a keyword or a function name. -/
def isPlainWord (c : Char) : Bool := isAsciiAlnum c || c = '_'

/-- Whether a text starts with a call or with a qualified name. -/
def startsCall (cs : List Char) : Bool :=
  ! (cs.takeWhile isPlainWord).isEmpty &&
    (startsWith ['('] (cs.dropWhile isPlainWord) ||
      startsWith [':', ':'] (cs.dropWhile isPlainWord))

/-- Whether a text starts with a name of two underscores and a capital letter. -/
def startsConstant : List Char → Bool
  | '_' :: '_' :: c :: _ => 'A' ≤ c && c ≤ 'Z'
  | _ => false

/-- Whether the text after an opening brace looks like an expression: a variable, a constant, a
number, a string, a call or a qualified name. -/
def looksLikeExpression : List Char → Bool
  | [] => false
  | '$' :: cs => (cs.head?.map isPlainWord).getD false
  | c :: cs =>
    if c = '\x27' ∨ c = '\x22' then cs.contains c
    else startsConstant (c :: cs) || isAsciiDigit c || startsCall (c :: cs)

/-- The text up to the end of its first line. -/
def firstLine (cs : List Char) : List Char := cs.takeWhile (· ≠ '\n')

/-- The text after an opening brace, when it is code after an at sign, which may span lines, or an
expression on one line. -/
def bracedAt : Matcher Directive := fun cs =>
  match cs with
  | '@' :: code =>
    let body := code.takeWhile (· ≠ '\x7d')
    if body.isEmpty || body.length = code.length then none else some (.raw body, body.length + 2)
  | _ =>
    let line := firstLine cs
    let body := line.takeWhile (· ≠ '\x7d')
    if body.isEmpty || body.length = line.length || ! looksLikeExpression line then none
    else some (.echo body, body.length + 1)

/-! ### Tags and comments -/

/-- The keyword of a resource directive, as a whole word, and the text after it. -/
def verbAt (cs : List Char) : Option (ResourceVerb × Nat × List Char) :=
  resourceVerbs.findSome? fun (word, verb) =>
    match dropStart? word cs with
    | some rest =>
      if (rest.head?.map isPlainWord).getD false then none else some (verb, word.length, rest)
    | none => none

/-- The text after an opening angle bracket, when it is a resource directive as a tag: the keyword
and at least one attribute, up to the end of the tag on the same line. -/
def resourceTagAt : Matcher Directive := fun cs =>
  match verbAt cs with
  | some (verb, width, rest) =>
    match breakOn ['/', '>'] (firstLine rest) with
    | some (text, _) =>
      let attributes := attributesOf .tag text
      if attributes.isEmpty then none
      else some (.resource verb none attributes, width + text.length + 2)
    | none => none
  | none => none

/-- The text after the opening of a resource comment: the keyword, a quoted argument and attributes
up to the end of the comment on the same line. -/
def resourceCommentAt : Matcher Directive := fun cs =>
  match verbAt cs with
  | some (verb, width, '(' :: '\x22' :: rest) =>
    match breakOn ['\x22'] rest with
    | some (argument, tail) =>
      match breakOn ")-->".toList (firstLine tail) with
      | some (text, _) =>
        if argument.isEmpty then none
        else
          some (.resource verb (some argument) (attributesOf .comment text),
            width + argument.length + text.length + 7)
      | none => none
    | none => none
  | _ => none

/-- A character of the keyword of a control comment. -/
def isKeywordChar (c : Char) : Bool := ('a' ≤ c && c ≤ 'z') || c = '@'

/-- The text after the opening of a control comment: a keyword and the text up to the end of the
comment on the same line. -/
def controlAt : Matcher Directive := fun cs =>
  let keyword := cs.takeWhile isKeywordChar
  match breakOn "-->".toList (firstLine (cs.dropWhile isKeywordChar)) with
  | some (args, _) =>
    if keyword.isEmpty then none
    else some (.control keyword args, keyword.length + args.length + 3)
  | none => none

/-- A pattern after a phrase. -/
def afterPhrase {α : Type} (p : List Char) (m : Matcher α) : Matcher α := fun cs =>
  (dropStart? p cs).bind fun rest => (m rest).map fun (a, n) => (a, p.length + n)

/-- A directive. -/
def directiveAt : Matcher Directive := fun cs =>
  (afterPhrase ['\x7b'] bracedAt cs).or <|
    (afterPhrase ['<'] resourceTagAt cs).or <|
      (afterPhrase "<!--#".toList resourceCommentAt cs).or <|
        (afterPhrase "<!--%".toList resourceCommentAt cs).or <|
          afterPhrase "<!--@".toList controlAt cs

/-- An island or a directive. -/
def constructAt : Matcher Construct := fun cs =>
  match islandAt cs with
  | some (_, n) => some (.island, n)
  | none => (directiveAt cs).map fun (d, n) => (.directive d, n)

/-- The directive of a construct, if it is one. -/
def Construct.directive? : Construct → Option Directive
  | directive d => some d
  | island => none

/-- The directives of a text with their places. -/
def scanDirectives (cs : List Char) : List (Found Directive) :=
  (findPlaces constructAt cs).filterMap fun found =>
    found.value.directive?.map fun d =>
      { offset := found.offset, value := d, source := found.source }

end Stencil
