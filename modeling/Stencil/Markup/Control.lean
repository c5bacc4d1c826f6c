import Stencil.Diagnostic
import Stencil.Markup.Island
import Stencil.Markup.Nesting
import Stencil.Script.Binding
import Stencil.Text.Blank

/-!
# Control comments

A control comment becomes a piece of a control statement: its head with an opening brace, its
closing brace, or a branch between two braces.

## Main definitions

* `Block`, `Keyword` — the keywords, and `keywords`, their spelling.
* `Fault` — why a construct has no code.
* `Keyword.nesting?` — what a comment does to the blocks around it.
* `controlCode` — the code of a comment.
-/

namespace Stencil

open Text

/-- The blocks that a comment can open. -/
inductive Block where
  | ifBlock | switchBlock | forBlock | foreachBlock | whileBlock
  deriving DecidableEq

/-- The word that opens a block. -/
def Block.word : Block → List Char
  | ifBlock => "if".toList
  | switchBlock => "switch".toList
  | forBlock => "for".toList
  | foreachBlock => "foreach".toList
  | whileBlock => "while".toList

/-- The keyword of a control comment. -/
inductive Keyword where
  /-- Opens a block. -/
  | opener (block : Block) : Keyword
  /-- Closes a block. -/
  | closer : Keyword
  /-- Goes on with the other branch. -/
  | otherwise : Keyword
  /-- Goes on with a branch under another condition. -/
  | otherwiseIf : Keyword
  /-- Labels an arm, after leaving the arm before when `breaks` is set. -/
  | label (breaks isDefault : Bool) : Keyword
  /-- Leaves the block. -/
  | breakOut : Keyword
  deriving DecidableEq

/-- The spelling of the keywords. -/
def keywords : Assoc (List Char) Keyword :=
  [("if".toList, .opener .ifBlock), ("switch".toList, .opener .switchBlock),
    ("for".toList, .opener .forBlock), ("foreach".toList, .opener .foreachBlock),
    ("while".toList, .opener .whileBlock), ("endif".toList, .closer), ("endswitch".toList, .closer),
    ("endfor".toList, .closer), ("endforeach".toList, .closer), ("endwhile".toList, .closer),
    ("end".toList, .closer), ("else".toList, .otherwise), ("elseif".toList, .otherwiseIf),
    ("case".toList, .label false false), ("default".toList, .label false true),
    ("break@case".toList, .label true false), ("break@default".toList, .label true true),
    ("break".toList, .breakOut)]

/-- Why a construct has no code. -/
structure Fault where
  /-- What is wrong. -/
  defect : Defect
  /-- How to mend it. -/
  help : String
  deriving DecidableEq

/-- Whether the text after a keyword is an argument in parentheses. -/
def hasArgument (args : List Char) : Bool := startsWith ['('] (trimLeft args)

/-- A nonempty text before the first space, the first character aside. -/
def wordBeforeSpace : List Char → Option (List Char)
  | [] => none
  | c :: cs => (breakOn [' '] cs).map fun (before, _) => c :: before

/-- The collection of a loop: what stands before a space, without as many of the blanks before it as
possible. -/
def collectionAfterBlanks : List Char → Option (List Char)
  | [] => none
  | c :: cs =>
    if isBlank c then (collectionAfterBlanks cs).or (wordBeforeSpace (c :: cs))
    else wordBeforeSpace (c :: cs)

/-- The collection that the argument of a loop over entries names. -/
def collectionOf (args : List Char) : Option (List Char) :=
  (dropStart? ['('] (trimLeft args)).bind collectionAfterBlanks

/-- The guard that a collection is there and has entries. -/
def guardOf (collection : List Char) : List Char :=
  "if(".toList ++ collection ++ "&&count(".toList ++ collection ++ "))".toList

/-- The head of a block with its opening brace; a loop over entries has a guard in front. -/
def blockHead (block : Block) (args : List Char) : List Char :=
  let guard :=
    match block with
    | .foreachBlock => ((collectionOf args).map guardOf).getD []
    | _ => []
  bindVars (guard ++ block.word ++ args) ++ ['\x7b']

/-- The value of a label, without the parentheses around it. -/
def labelValue (args : List Char) : List Char :=
  trim (stripBoth (fun c => c = '(' ∨ c = ')') (trim args))

/-- The code of a keyword with the text after it. -/
def Keyword.code (args : List Char) : Keyword → Except Fault (List Char)
  | opener block =>
    if hasArgument args then .ok (island (blockHead block args))
    else .error ⟨.malformedDirective, "the keyword needs a parenthesized argument"⟩
  | closer => .ok (island ['\x7d'])
  | otherwise => .ok (island ('\x7d' :: "else".toList ++ bindVars args ++ ['\x7b']))
  | otherwiseIf =>
    if hasArgument args then .ok (island ('\x7d' :: "elseif".toList ++ bindVars args ++ ['\x7b']))
    else .error ⟨.malformedDirective, "elseif needs a parenthesized condition"⟩
  | label breaks isDefault =>
    let leave := if breaks then "break; ".toList else []
    if isDefault then .ok (island (leave ++ "default:".toList))
    else if (labelValue args).isEmpty then .error ⟨.malformedDirective, "case needs a value"⟩
    else .ok (island (leave ++ "case ".toList ++ bindVars (labelValue args) ++ [':']))
  | breakOut => .ok (island "break;".toList)

/-- What a keyword with the text after it does to the blocks around it; an opener without an
argument opens nothing. -/
def Keyword.nesting? (args : List Char) : Keyword → Option Nesting
  | opener _ => if hasArgument args then some .opens else none
  | closer => some .closes
  | _ => some .inside

/-- The code of a control comment. -/
def controlCode (keyword args : List Char) : Except Fault (List Char) :=
  match Assoc.get? keywords keyword with
  | some k => k.code args
  | none =>
    .error
      ⟨.unknownDirective,
        "known keywords: if, elseif, else, for, foreach, while, switch, case, default, break, end"⟩

/-- What a control comment does to the blocks around it. -/
def controlNesting? (keyword args : List Char) : Option Nesting :=
  (Assoc.get? keywords keyword).bind (Keyword.nesting? args)

end Stencil
