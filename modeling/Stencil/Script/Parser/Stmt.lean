import Stencil.Script.Parser.Expr
import Stencil.Text.Blank

/-!
# Parsing statements

A statement ends with a semicolon, with the end of its island or with the template.  A bare block
is not a statement of its own: its statements take its place.

## Main definitions

* `Program` — a parsed template.
* `parseStatements` — statements up to the end of a template.
* `parseProgram` — the program of a compiled template.
-/

namespace Stencil

/-- A parsed template. -/
structure Program where
  /-- The name of the compiled unit. -/
  name : String
  /-- The statements. -/
  body : List Stmt

namespace Parser

/-- The tokens before which a list of statements stops. -/
inductive Stop where
  /-- The end of the template. -/
  | atEnd : Stop
  /-- A closing brace. -/
  | atBrace : Stop
  /-- A closing brace or the next arm of a switch. -/
  | atArm : Stop

/-- Whether a list of statements stops before the token. -/
def Stop.holds : Stop → Option Token → Bool
  | atEnd, t => t.isNone
  | atBrace, t => t == some (.sign .braceClose)
  | atArm, t =>
    t == some (.sign .braceClose) || t == some (.word "case") || t == some (.word "default")

/-- The tokens after the end of a statement. -/
def terminated : List Lexeme → Parse (List Lexeme)
  | [] => .ok []
  | ⟨.terminator, _, _⟩ :: ts => .ok ts
  | ts => refuse ts "`;` or `?>`"

/-- An expression in parentheses. -/
def condition (ts : List Lexeme) : Parse (Expr × List Lexeme) := do
  let ts ← expect (.sign .parenOpen) "`(`" ts
  let (cond, ts) ← parseExpr ts
  let ts ← expect (.sign .parenClose) "`)`" ts
  .ok (cond, ts)

/-- A place that a loop binds. -/
def binding (ts : List Lexeme) : Parse (Expr × List Lexeme) := do
  let (target, ts) ← parsePostfix ts
  if target.isPlace then .ok (target, ts) else refuse ts "a variable"

/-- Expressions separated by commas, none when the given token comes first. -/
def exprsBefore (close : Token) (ts : List Lexeme) : Parse (List Expr × List Lexeme) :=
  if peek ts = some close then .ok ([], ts) else parseExprs ts

/-- A statement that starts with `echo` or `print`, after that word. -/
def echoStmt (ts : List Lexeme) : Parse (List Stmt × List Lexeme) := do
  let (exprs, ts) ← parseExprs ts
  let ts ← terminated ts
  .ok ([.echo exprs], ts)

/-- A statement that is an expression. -/
def exprStmt (ts : List Lexeme) : Parse (List Stmt × List Lexeme) := do
  let (e, ts) ← parseExpr ts
  let ts ← terminated ts
  .ok ([.expr e], ts)

/-- The rest of a `break` or `continue`: an optional integer. -/
def jumpStmt (stmt : Stmt) (ts : List Lexeme) : Parse (List Stmt × List Lexeme) := do
  let ts := match ts with
    | ⟨.int _, _, _⟩ :: rest => rest
    | _ => ts
  let ts ← terminated ts
  .ok ([stmt], ts)

/-- The rest of an `exit`: an optional pair of parentheses. -/
def exitStmt (ts : List Lexeme) : Parse (List Stmt × List Lexeme) := do
  let ts ← match ts with
    | ⟨.sign .parenOpen, _, _⟩ :: ts => expect (.sign .parenClose) "`)`" ts
    | _ => .ok ts
  let ts ← terminated ts
  .ok ([.exit], ts)

/-- The head of a `foreach`: the subject, the key if there is one, and the value. -/
def foreachHead (ts : List Lexeme) : Parse ((Expr × Option Expr × Expr) × List Lexeme) := do
  let ts ← expect (.sign .parenOpen) "`(`" ts
  let (subject, ts) ← parseExpr ts
  let ts ← expect (.word "as") "`as`" ts
  let (first, ts) ← binding ts
  let ((key, value), ts) ← match ts with
    | ⟨.sign .fatArrow, _, _⟩ :: ts => do
      let (value, ts) ← binding ts
      .ok ((some first, value), ts)
    | _ => .ok ((none, first), ts)
  let ts ← expect (.sign .parenClose) "`)`" ts
  .ok ((subject, key, value), ts)

/-- The head of a `for`: of several conditions the last one decides. -/
def forHead (ts : List Lexeme) : Parse ((List Expr × Option Expr × List Expr) × List Lexeme) := do
  let ts ← expect (.sign .parenOpen) "`(`" ts
  let (init, ts) ← exprsBefore .terminator ts
  let ts ← expect .terminator "`;`" ts
  let (conds, ts) ← exprsBefore .terminator ts
  let ts ← expect .terminator "`;`" ts
  let (step, ts) ← exprsBefore (.sign .parenClose) ts
  let ts ← expect (.sign .parenClose) "`)`" ts
  .ok ((init, conds.getLast?, step), ts)

/-- The label of an arm after its word, and the sign after the label. -/
def armLabel (word : String) (ts : List Lexeme) : Parse (Option Expr × List Lexeme) := do
  let (label, ts) ← if word = "default" then .ok (none, ts) else do
    let (label, ts) ← parseExpr ts
    .ok (some label, ts)
  match ts with
  | ⟨.sign .colon, _, _⟩ :: ts => .ok (label, ts)
  | ⟨.terminator, _, _⟩ :: ts => .ok (label, ts)
  | _ => refuse ts "`:`"

mutual

/-- Statements up to the token at which the list stops. -/
def statements : Nat → Stop → List Lexeme → Parse (List Stmt × List Lexeme)
  | 0, _, ts => refuse ts "a statement"
  | n + 1, stop, ts =>
    if stop.holds (peek ts) then .ok ([], ts)
    else match ts with
      | [] => refuse ts "`\x7d`"
      | _ :: _ => do
        let (first, ts) ← statement n ts
        let (rest, ts) ← statements n stop ts
        .ok (first ++ rest, ts)

/-- A block in braces. -/
def block : Nat → List Lexeme → Parse (List Stmt × List Lexeme)
  | 0, ts => refuse ts "a statement"
  | n + 1, ts => do
    let ts ← expect (.sign .braceOpen) "`\x7b`" ts
    let (body, ts) ← statements n .atBrace ts
    let ts ← expect (.sign .braceClose) "`\x7d`" ts
    .ok (body, ts)

/-- A statement: none for a lone terminator, several for a block. -/
def statement : Nat → List Lexeme → Parse (List Stmt × List Lexeme)
  | 0, ts => refuse ts "a statement"
  | n + 1, ts =>
    match ts with
    | ⟨.text s, _, _⟩ :: ts => .ok ([.text s], ts)
    | ⟨.terminator, _, _⟩ :: ts => .ok ([], ts)
    | ⟨.sign .braceOpen, _, _⟩ :: _ => block n ts
    | ⟨.word word, _, _⟩ :: rest =>
      if word = "echo" ∨ word = "print" then echoStmt rest
      else if word = "if" then do
        let (cond, ts) ← condition rest
        let (body, ts) ← statement n ts
        let ((branches, otherwise), ts) ← branches n ts
        .ok ([.cond (.mk cond body :: branches) otherwise], ts)
      else if word = "foreach" then do
        let ((subject, key, value), ts) ← foreachHead rest
        let (body, ts) ← statement n ts
        .ok ([.foreach subject key value body], ts)
      else if word = "for" then do
        let ((init, cond, step), ts) ← forHead rest
        let (body, ts) ← statement n ts
        .ok ([.forLoop init cond step body], ts)
      else if word = "while" then do
        let (cond, ts) ← condition rest
        let (body, ts) ← statement n ts
        .ok ([.whileLoop cond body], ts)
      else if word = "switch" then do
        let (subject, ts) ← condition rest
        let ts ← expect (.sign .braceOpen) "`\x7b`" ts
        let (arms, ts) ← arms n ts
        .ok ([.switch subject arms], ts)
      else if word = "break" then jumpStmt .breakOut rest
      else if word = "continue" then jumpStmt .continueOn rest
      else if word = "exit" ∨ word = "die" then exitStmt rest
      else if word = "else" ∨ word = "elseif" ∨ word = "case" ∨ word = "default" then
        refuse ts "a statement"
      else exprStmt ts
    | _ => exprStmt ts

/-- The branches of an `if` after its first one, and the last body. -/
def branches : Nat → List Lexeme → Parse ((List Branch × Option (List Stmt)) × List Lexeme)
  | 0, ts => refuse ts "a statement"
  | n + 1, ts =>
    match ts with
    | ⟨.word word, _, _⟩ :: rest =>
      if word = "elseif" then do
        let (cond, ts) ← condition rest
        let (body, ts) ← statement n ts
        let ((more, otherwise), ts) ← branches n ts
        .ok ((.mk cond body :: more, otherwise), ts)
      else if word = "else" then
        if peek rest = some (.word "if") then do
          let (cond, ts) ← condition rest.tail
          let (body, ts) ← statement n ts
          let ((more, otherwise), ts) ← branches n ts
          .ok ((.mk cond body :: more, otherwise), ts)
        else do
          let (body, ts) ← statement n rest
          .ok (([], some body), ts)
      else .ok (([], none), ts)
    | _ => .ok (([], none), ts)

/-- The arms of a switch up to and with its closing brace. -/
def arms : Nat → List Lexeme → Parse (List Arm × List Lexeme)
  | 0, ts => refuse ts "a statement"
  | n + 1, ts =>
    match ts with
    | ⟨.terminator, _, _⟩ :: rest => arms n rest
    | ⟨.text s, _, _⟩ :: rest =>
      if s.toList.all Text.isBlank then arms n rest else refuse ts "`case` or `default`"
    | ⟨.sign .braceClose, _, _⟩ :: rest => .ok ([], rest)
    | ⟨.word word, _, _⟩ :: rest =>
      if word = "case" ∨ word = "default" then do
        let (label, ts) ← armLabel word rest
        let (body, ts) ← statements n .atArm ts
        let (more, ts) ← arms n ts
        .ok (.mk label body :: more, ts)
      else refuse ts "`case` or `default`"
    | _ => refuse ts "`case` or `default`"

end

end Parser

/-- The statements of a template. -/
def parseStatements (ts : List Lexeme) : Except Unexpected (List Stmt) :=
  match Parser.statements (Parser.depthBound ts) .atEnd ts with
  | .ok (body, _) => .ok body
  | .error e => .error e

/-- The place and wording of a token that does not fit, in a template of `size` bytes. -/
def Unexpected.toSyntaxError (size : Nat) (e : Unexpected) : SyntaxError :=
  match e.token with
  | some lexeme =>
    { found := lexeme.token.describe
      expected := e.expected
      offset := lexeme.start
      length := max (lexeme.stop - lexeme.start) 1 }
  | none => { found := "end of template", expected := e.expected, offset := size, length := 1 }

/-- The program of a compiled template. -/
def parseProgram (name : String) (source : List Char) : Except SyntaxError Program :=
  match lex source with
  | .error e => .error e
  | .ok ts =>
    match parseStatements ts with
    | .error e => .error (e.toSyntaxError (Text.byteSize source))
    | .ok body => .ok { name, body }

end Stencil
