import Stencil.Error
import Stencil.Text.Letter
import Stencil.Text.Pattern
import Stencil.Value.Access
import Stencil.Value.Compare

/-!
# Built-in functions

The functions every template may call.  A missing argument counts as null.

## Main definitions

* `escapeHtml` — text made safe between tags and in quoted attributes.
* `formatText` — the conversions `%s`, `%d` and `%%`.
* `mergeArrays` — arrays joined, integer keys being numbered anew.
* `callBuiltin?` — a function by name.
-/

namespace Stencil

open Value

/-- The text of a character between tags and in quoted attributes. -/
def escapeChar (c : Char) : List Char :=
  if c = '&' then ['&', 'a', 'm', 'p', ';']
  else if c = '<' then ['&', 'l', 't', ';']
  else if c = '>' then ['&', 'g', 't', ';']
  else if c = '\x22' then ['&', 'q', 'u', 'o', 't', ';']
  else if c = '\x27' then ['&', '#', '0', '3', '9', ';']
  else [c]

/-- Text made safe between tags and in quoted attributes. -/
def escapeHtml (s : String) : String := String.ofList (s.toList.flatMap escapeChar)

/-- A pattern with `%s` and `%d` replaced by the texts and integer parts of the arguments in turn,
and `%%` by a percent sign.  Any other use of the percent sign stays. -/
def formatText : List Char → List Value → Except RuntimeError (List Char)
  | [], _ => .ok []
  | '%' :: '%' :: cs, args => (formatText cs args).map ('%' :: ·)
  | '%' :: 's' :: cs, arg :: args => (formatText cs args).map (arg.text.toList ++ ·)
  | '%' :: 'd' :: cs, arg :: args =>
    let i := match arg.toNumber? with
      | some n => Number.truncate n.toFloat
      | none => 0
    (formatText cs args).map ((wordText i).toList ++ ·)
  | '%' :: 's' :: _, [] => .error (.badArguments "sprintf" "one argument per conversion")
  | '%' :: 'd' :: _, [] => .error (.badArguments "sprintf" "one argument per conversion")
  | '%' :: c :: cs, args => (formatText cs args).map ('%' :: c :: ·)
  | c :: cs, args => (formatText cs args).map (c :: ·)

/-- Entries put into a map in order, those with integer keys under the numbers from `next` on. -/
def mergeEntries : Nat → List (String × Value) → List (Value × Value) → List (String × Value)
  | _, m, [] => m
  | next, m, (.int _, v) :: rest => mergeEntries (next + 1) (Assoc.insert m (toString next) v) rest
  | next, m, (key, v) :: rest => mergeEntries next (Assoc.insert m key.toKey v) rest

/-- Whether the value is a list. -/
def isList : Value → Bool
  | list _ => true
  | _ => false

/-- Lists joined into a list; other arrays joined into a map. -/
def mergeArrays (args : List Value) : Value :=
  let all := args.flatMap entries
  if args.all isList then list (all.map Prod.snd) else map (mergeEntries 0 [] all)

/-- Whether the value is a number or a string that is one. -/
def isNumeric : Value → Bool
  | int _ | float _ => true
  | string s => (Number.readFloat? (Text.trim s.toList)).isSome
  | _ => false

/-- The texts of the elements of an array, joined. -/
def joinTexts (glue : String) (pieces : Value) : String :=
  glue.intercalate (pieces.entries.map fun (_, v) => v.text)

/-- The pieces of a text between the occurrences of a delimiter. -/
def explode (delimiter subject : String) : Except RuntimeError Value :=
  if delimiter = "" then .error (.badArguments "explode" "a non-empty delimiter")
  else
    .ok (list ((Text.splitText delimiter.toList subject.toList).map fun piece =>
      string (String.ofList piece)))

/-- Whether an array has an element equal to `needle`. -/
def hasElement (needle : Value) (strict : Bool) (haystack : Value) : Bool :=
  haystack.entries.any fun (_, v) => if strict then strictEq v needle else looseEq v needle

/-- The integer a value stands for. -/
def integerOf (v : Value) : Int64 :=
  match v.toNumber? with
  | some n => n.toWord
  | none => if v.isTruthy then 1 else 0

/-- The floating-point number a value stands for. -/
def floatOf (v : Value) : Float :=
  match v.toNumber? with
  | some n => n.toFloat
  | none => 0

/-- A built-in function that cannot fail. -/
def pureBuiltin? (name : String) (args : List Value) : Option Value :=
  let arg (i : Nat) : Value := (args[i]?).getD null
  let chars (f : List Char → List Char) : Value := string (String.ofList (f (arg 0).text.toList))
  match name with
  | "count" | "sizeof" => some (int (Int64.ofNat (arg 0).count))
  | "isset" => some (bool (!args.isEmpty && args.all fun v => !v.isNull))
  | "empty" => some (bool !(arg 0).isTruthy)
  | "is_array" => some (bool (arg 0).isArray)
  | "is_string" => some (bool ((arg 0).typeName == "string"))
  | "is_numeric" => some (bool (isNumeric (arg 0)))
  | "strlen" => some (int (Int64.ofNat (arg 0).text.utf8ByteSize))
  | "in_array" => some (bool (hasElement (arg 0) (arg 2).isTruthy (arg 1)))
  | "implode" | "join" =>
    some (string (match (arg 0).isArray, arg 1 with
      | true, null => joinTexts "" (arg 0)
      | true, glue => joinTexts glue.text (arg 0)
      | false, pieces => joinTexts (arg 0).text pieces))
  | "trim" => some (chars Text.trim)
  | "ltrim" => some (chars Text.trimLeft)
  | "rtrim" => some (chars Text.trimRight)
  | "strtolower" => some (chars Text.lower)
  | "strtoupper" => some (chars Text.upper)
  | "htmlspecialchars" => some (string (escapeHtml (arg 0).text))
  | "intval" => some (int (integerOf (arg 0)))
  | "floatval" => some (float (floatOf (arg 0)))
  | "strval" => some (string (arg 0).text)
  | "boolval" => some (bool (arg 0).isTruthy)
  | "array_keys" => some (list ((arg 0).entries.map Prod.fst))
  | "array_merge" => some (mergeArrays args)
  | _ => none

/-- A built-in function by name. -/
def callBuiltin? (name : String) (args : List Value) : Option (Except RuntimeError Value) :=
  let textAt (i : Nat) : String := ((args[i]?).getD null).text
  match name with
  | "explode" => some (explode (textAt 0) (textAt 1))
  | "sprintf" =>
    some ((formatText (textAt 0).toList args.tail).map fun cs => string (String.ofList cs))
  | _ => (pureBuiltin? name args).map .ok

end Stencil
