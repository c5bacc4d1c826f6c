import Stencil.Script.Lexer
import Stencil.Script.Tree

/-!
# Parsing expressions

Expressions are parsed by precedence climbing, from loosest to tightest: assignment, choice, `||`,
`&&`, equality, comparison, `.`, `+ -`, `* / %`, unary operators, postfix forms, primaries.

Every function takes the tokens that are left and gives a tree with the tokens after it.  The first
argument bounds the depth of the calls; `parseExpr` starts with more than the tokens can use.

## Main definitions

* `Unexpected` — a token that does not fit.
* `binaryOp?` — the binary operators with their precedence.
* `castFunction?` — the conversions written as casts.
* `parseExpr`, `parsePostfix`, `parseExprs` — the parsers.
-/

namespace Stencil

/-- A token that does not fit, or the end of the template, and what was expected instead. -/
structure Unexpected where
  /-- The token, none at the end. -/
  token : Option Lexeme
  /-- What was expected. -/
  expected : String

/-- The outcome of a parsing step. -/
abbrev Parse := Except Unexpected

namespace Parser

/-- Refuses the first of the tokens. -/
def refuse {α : Type} (ts : List Lexeme) (expected : String) : Parse α :=
  .error { token := ts.head?, expected }

/-- The first token. -/
def peek (ts : List Lexeme) : Option Token := ts.head?.map Lexeme.token

/-- The tokens after a given one. -/
def expect (token : Token) (expected : String) (ts : List Lexeme) :
    Parse (List Lexeme) :=
  if peek ts = some token then .ok ts.tail else refuse ts expected

/-- The text in small ASCII letters. -/
def small (name : String) : String := String.ofList (name.toList.map Text.asciiLower)

/-- A binary operator and its precedence. -/
def binaryOp? : Token → Option (BinaryOp × Nat)
  | .sign .or => some (.or, 1)
  | .sign .and => some (.and, 2)
  | .sign .equal => some (.equal, 3)
  | .sign .notEqual => some (.notEqual, 3)
  | .sign .identical => some (.identical, 3)
  | .sign .notIdentical => some (.notIdentical, 3)
  | .sign .less => some (.less, 4)
  | .sign .lessEqual => some (.lessEqual, 4)
  | .sign .greater => some (.greater, 4)
  | .sign .greaterEqual => some (.greaterEqual, 4)
  | .sign .dot => some (.concat, 5)
  | .sign .plus => some (.add, 6)
  | .sign .minus => some (.subtract, 6)
  | .sign .times => some (.multiply, 7)
  | .sign .divide => some (.divide, 7)
  | .sign .percent => some (.modulo, 7)
  | .word name =>
    if small name = "or" then some (.or, 1)
    else if small name = "and" then some (.and, 2)
    else none
  | _ => none

/-- The assignment operator of a token. -/
def assignOp? : Token → Option AssignOp
  | .sign .assign => some .set
  | .sign .plusAssign => some .add
  | .sign .minusAssign => some .subtract
  | .sign .timesAssign => some .multiply
  | .sign .divideAssign => some .divide
  | .sign .dotAssign => some .concat
  | _ => none

/-- The function that a cast to the named type calls. -/
def castFunction? (name : String) : Option String :=
  if name = "int" ∨ name = "integer" then some "intval"
  else if name = "float" ∨ name = "double" then some "floatval"
  else if name = "string" then some "strval"
  else if name = "bool" ∨ name = "boolean" then some "boolval"
  else none

/-- The function of a cast at the start of the tokens, and the tokens after the cast. -/
def cast? : List Lexeme → Option (String × List Lexeme)
  | ⟨.sign .parenOpen, _, _⟩ :: ⟨.word name, _, _⟩ :: ⟨.sign .parenClose, _, _⟩ :: rest =>
    (castFunction? name).map fun function => (function, rest)
  | _ => none

/-- The literal that a word stands for. -/
def wordLiteral? (name : String) : Option Value :=
  if small name = "true" then some (.bool true)
  else if small name = "false" then some (.bool false)
  else if small name = "null" then some .null
  else none

mutual

/-- An assignment, or a choice. -/
def assignment : Nat → List Lexeme → Parse (Expr × List Lexeme)
  | 0, ts => refuse ts "an expression"
  | n + 1, ts => do
    let (target, ts) ← choice n ts
    match (peek ts).bind assignOp? with
    | none => .ok (target, ts)
    | some op =>
      if target.isPlace then do
        let (value, ts) ← assignment n ts.tail
        .ok (.assign op target value, ts)
      else refuse ts "an operator (left side is not assignable)"

/-- A choice, or a binary operation. -/
def choice : Nat → List Lexeme → Parse (Expr × List Lexeme)
  | 0, ts => refuse ts "an expression"
  | n + 1, ts => do
    let (cond, ts) ← binary n 0 ts
    match ts with
    | ⟨.sign .question, _, _⟩ :: ⟨.sign .colon, _, _⟩ :: ts =>
      let (no, ts) ← assignment n ts
      .ok (.fallback cond no, ts)
    | ⟨.sign .question, _, _⟩ :: ts =>
      let (yes, ts) ← assignment n ts
      let ts ← expect (.sign .colon) "`:`" ts
      let (no, ts) ← assignment n ts
      .ok (.choice cond yes no, ts)
    | _ => .ok (cond, ts)

/-- Operands joined by operators of at least the given precedence. -/
def binary : Nat → Nat → List Lexeme → Parse (Expr × List Lexeme)
  | 0, _, ts => refuse ts "an expression"
  | n + 1, least, ts => do
    let (left, ts) ← unary n ts
    operators n least left ts

/-- The operators of at least the given precedence after a left operand. -/
def operators : Nat → Nat → Expr → List Lexeme → Parse (Expr × List Lexeme)
  | 0, _, _, ts => refuse ts "an expression"
  | n + 1, least, left, ts =>
    match (peek ts).bind binaryOp? with
    | none => .ok (left, ts)
    | some (op, level) =>
      if level < least then .ok (left, ts)
      else do
        let (right, ts) ← binary n (level + 1) ts.tail
        operators n least (.binary op left right) ts

/-- An operand with the operators before it. -/
def unary : Nat → List Lexeme → Parse (Expr × List Lexeme)
  | 0, ts => refuse ts "an expression"
  | n + 1, ts =>
    match ts with
    | ⟨.sign .not, _, _⟩ :: ts => do
      let (operand, ts) ← unary n ts
      .ok (.unary .not operand, ts)
    | ⟨.sign .minus, _, _⟩ :: ts => do
      let (operand, ts) ← unary n ts
      .ok (.unary .negate operand, ts)
    | ⟨.sign .plus, _, _⟩ :: ts => do
      let (operand, ts) ← unary n ts
      .ok (.unary .plus operand, ts)
    | ⟨.sign .increment, _, _⟩ :: ts => do
      let (target, ts) ← unary n ts
      if target.isPlace then .ok (.step target true true, ts)
      else refuse ts "a variable after `++`/`--`"
    | ⟨.sign .decrement, _, _⟩ :: ts => do
      let (target, ts) ← unary n ts
      if target.isPlace then .ok (.step target false true, ts)
      else refuse ts "a variable after `++`/`--`"
    | _ =>
      match cast? ts with
      | some (function, ts) => do
        let (operand, ts) ← unary n ts
        .ok (.call function [operand], ts)
      | none => postfixed n ts

/-- A primary with the postfix forms after it. -/
def postfixed : Nat → List Lexeme → Parse (Expr × List Lexeme)
  | 0, ts => refuse ts "an expression"
  | n + 1, ts => do
    let (base, ts) ← primary n ts
    postfixes n base ts

/-- The postfix forms after an expression. -/
def postfixes : Nat → Expr → List Lexeme → Parse (Expr × List Lexeme)
  | 0, _, ts => refuse ts "an expression"
  | n + 1, base, ts =>
    match ts with
    | ⟨.sign .arrow, _, _⟩ :: ⟨.word name, _, _⟩ :: ⟨.sign .parenOpen, _, _⟩ :: ts => do
      let (args, ts) ← arguments n .parenClose ts
      let ts ← expect (.sign .parenClose) "`)`" ts
      postfixes n (.method base name args) ts
    | ⟨.sign .arrow, _, _⟩ :: ⟨.word name, _, _⟩ :: ts => postfixes n (.member base name) ts
    | ⟨.sign .arrow, _, _⟩ :: ts => refuse ts "a member name"
    | ⟨.sign .bracketOpen, _, _⟩ :: ⟨.sign .bracketClose, _, _⟩ :: ts =>
      postfixes n (.append base) ts
    | ⟨.sign .bracketOpen, _, _⟩ :: ts => do
      let (key, ts) ← assignment n ts
      let ts ← expect (.sign .bracketClose) "`]`" ts
      postfixes n (.index base key) ts
    | ⟨.sign .increment, _, _⟩ :: rest =>
      if base.isPlace then .ok (.step base true false, rest) else .ok (base, ts)
    | ⟨.sign .decrement, _, _⟩ :: rest =>
      if base.isPlace then .ok (.step base false false, rest) else .ok (base, ts)
    | _ => .ok (base, ts)

/-- A literal, variable, constant, call, array or expression in parentheses. -/
def primary : Nat → List Lexeme → Parse (Expr × List Lexeme)
  | 0, ts => refuse ts "an expression"
  | n + 1, ts =>
    match ts with
    | ⟨.int i, _, _⟩ :: ts => .ok (.literal (.int i), ts)
    | ⟨.float x, _, _⟩ :: ts => .ok (.literal (.float x), ts)
    | ⟨.string s, _, _⟩ :: ts => .ok (.literal (.string s), ts)
    | ⟨.var name, _, _⟩ :: ts => .ok (.var name, ts)
    | ⟨.sign .bracketOpen, _, _⟩ :: ts => do
      let (items, ts) ← arrayItems n .bracketClose ts
      let ts ← expect (.sign .bracketClose) "end of array" ts
      .ok (.array items, ts)
    | ⟨.sign .parenOpen, _, _⟩ :: ts => do
      let (inner, ts) ← assignment n ts
      let ts ← expect (.sign .parenClose) "`)`" ts
      .ok (inner, ts)
    | ⟨.word name, _, _⟩ :: ts =>
      match wordLiteral? name with
      | some value => .ok (.literal value, ts)
      | none =>
        match ts with
        | ⟨.sign .parenOpen, _, _⟩ :: ts =>
          if small name = "array" then do
            let (items, ts) ← arrayItems n .parenClose ts
            let ts ← expect (.sign .parenClose) "end of array" ts
            .ok (.array items, ts)
          else do
            let (args, ts) ← arguments n .parenClose ts
            let ts ← expect (.sign .parenClose) "`)`" ts
            .ok (.call name args, ts)
        | _ => .ok (.const name, ts)
    | _ => refuse ts "an expression"

/-- Expressions separated by commas, none when the closing sign comes first. -/
def arguments : Nat → Sign → List Lexeme → Parse (List Expr × List Lexeme)
  | 0, _, ts => refuse ts "an expression"
  | n + 1, close, ts => if peek ts = some (.sign close) then .ok ([], ts) else commas n ts

/-- One or more expressions separated by commas. -/
def commas : Nat → List Lexeme → Parse (List Expr × List Lexeme)
  | 0, ts => refuse ts "an expression"
  | n + 1, ts => do
    let (first, ts) ← assignment n ts
    match ts with
    | ⟨.sign .comma, _, _⟩ :: ts =>
      let (rest, ts) ← commas n ts
      .ok (first :: rest, ts)
    | _ => .ok ([first], ts)

/-- The items of an array literal up to its closing sign. -/
def arrayItems : Nat → Sign → List Lexeme → Parse (List Item × List Lexeme)
  | 0, _, ts => refuse ts "an expression"
  | n + 1, close, ts =>
    if peek ts = some (.sign close) then .ok ([], ts)
    else do
      let (first, ts) ← assignment n ts
      let (item, ts) ← match ts with
        | ⟨.sign .fatArrow, _, _⟩ :: ts => do
          let (value, ts) ← assignment n ts
          .ok (Item.keyed first value, ts)
        | _ => .ok (Item.plain first, ts)
      match ts with
      | ⟨.sign .comma, _, _⟩ :: ts =>
        let (rest, ts) ← arrayItems n close ts
        .ok (item :: rest, ts)
      | _ => .ok ([item], ts)

end

/-- A bound on the depth of the calls that the tokens can cause. -/
def depthBound (ts : List Lexeme) : Nat :=
  -- from one token to the next there are fewer calls than this
  12 * ts.length + 12

end Parser

/-- An expression, and the tokens after it. -/
def parseExpr (ts : List Lexeme) : Parse (Expr × List Lexeme) :=
  Parser.assignment (Parser.depthBound ts) ts

/-- A primary with its postfix forms, and the tokens after it. -/
def parsePostfix (ts : List Lexeme) : Parse (Expr × List Lexeme) :=
  Parser.postfixed (Parser.depthBound ts) ts

/-- One or more expressions separated by commas, and the tokens after them. -/
def parseExprs (ts : List Lexeme) : Parse (List Expr × List Lexeme) :=
  Parser.commas (Parser.depthBound ts) ts

end Stencil
