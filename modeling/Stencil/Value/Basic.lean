import Stencil.Assoc
import Stencil.Number.Read
import Stencil.Number.Shortest

/-!
# Values of the script

## Main definitions

* `Value` — null, truth values, numbers, strings, lists and ordered maps.
* `Value.isTruthy` — what a condition makes of a value.
* `Value.text` — what `echo` writes for a value.
* `Value.count` — the number of elements.
* `Value.toNumber?` — the number a value stands for in arithmetic.
-/

namespace Stencil

/-- A value of the script. -/
inductive Value where
  /-- The absent value. -/
  | null : Value
  /-- A truth value. -/
  | bool (b : Bool) : Value
  /-- A signed 64-bit integer. -/
  | int (i : Int64) : Value
  /-- A floating-point number. -/
  | float (x : Float) : Value
  /-- A string. -/
  | string (s : String) : Value
  /-- A list. -/
  | list (items : List Value) : Value
  /-- An ordered map. -/
  | map (entries : List (String × Value)) : Value
  deriving Inhabited

/-- A number as a value. -/
def Number.toValue : Number → Value
  | int i => .int i
  | float x => .float x

/-- The decimal text of a word. -/
def wordText (i : Int64) : String := toString i.toInt

namespace Value

/-- Whether a condition holds of the value: all but null, false, zero, the strings `""` and `"0"`,
and empty arrays. -/
def isTruthy : Value → Bool
  | null => false
  | bool b => b
  | int i => i ≠ 0
  | float x => x != 0
  | string s => s ≠ "" && s ≠ "0"
  | list items => !items.isEmpty
  | map entries => !entries.isEmpty

/-- The name of the value's type. -/
def typeName : Value → String
  | null => "null"
  | bool _ => "bool"
  | int _ => "int"
  | float _ => "float"
  | string _ => "string"
  | list _ => "list"
  | map _ => "map"

/-- Whether the value is null. -/
def isNull : Value → Bool
  | null => true
  | _ => false

/-- Whether the value is a list or a map. -/
def isArray : Value → Bool
  | list _ | map _ => true
  | _ => false

/-- The text of a floating-point number: an integer below `10 ^ 15` in size is written like a
word, anything else in its shortest form. -/
def floatText (x : Float) : String :=
  if Number.isIntegral x && x.abs < 1e15 then wordText (Number.truncate x)
  else String.ofList (Number.floatText x)

/-- What `echo` writes for the value. -/
def text : Value → String
  | null => ""
  | bool true => "1"
  | bool false => ""
  | int i => wordText i
  | float x => floatText x
  | string s => s
  | list _ | map _ => "Array"

/-- The number of elements of an array; zero for null, one for anything else. -/
def count : Value → Nat
  | null => 0
  | list items => items.length
  | map entries => entries.length
  | _ => 1

/-- The number the value stands for in arithmetic, absent for arrays. -/
def toNumber? : Value → Option Number
  | null => some (.int 0)
  | bool b => some (.int (if b then 1 else 0))
  | int i => some (.int i)
  | float x => some (.float x)
  | string s => some (Number.leadingNumber s.toList)
  | list _ | map _ => none

/-- The key the value stands for in a map. -/
def toKey : Value → String
  | bool b => if b then "1" else "0"
  | float x => wordText (Number.truncate x)
  | v => v.text

end Value

end Stencil
