import Stencil.Json.Basic
import Stencil.Value.Basic

/-!
# Values and JSON

## Main definitions

* `Value.ofJson` — the value of a document: objects become maps sorted by key, and a number is an
  integer when it fits a signed word.
* `Value.toJson` — the document of a value; a number that is not finite becomes `null`.
-/

namespace Stencil.Value

mutual

/-- The value of a document. -/
def ofJson : Json → Value
  | .null => null
  | .bool b => bool b
  | .integer n =>
    match Number.fits? n with
    | some i => int i
    | none => float (Float.ofInt n)
  | .float x => float x
  | .string s => string s
  | .array items => list (ofJsonItems items)
  | .object members => map (Json.sortMembers (ofJsonMembers members))

/-- The values of the items of an array. -/
def ofJsonItems : List Json → List Value
  | [] => []
  | item :: rest => ofJson item :: ofJsonItems rest

/-- The values of the members of an object. -/
def ofJsonMembers : List (String × Json) → List (String × Value)
  | [] => []
  | (name, member) :: rest => (name, ofJson member) :: ofJsonMembers rest

end

mutual

/-- The document of a value. -/
def toJson : Value → Json
  | null => .null
  | bool b => .bool b
  | int i => .integer i.toInt
  | float x => if x.isFinite then .float x else .null
  | string s => .string s
  | list items => .array (toJsonItems items)
  | map entries => .object (Json.sortMembers (toJsonEntries entries))

/-- The documents of the items of a list. -/
def toJsonItems : List Value → List Json
  | [] => []
  | v :: rest => toJson v :: toJsonItems rest

/-- The documents of the entries of a map. -/
def toJsonEntries : List (String × Value) → List (String × Json)
  | [] => []
  | (k, v) :: rest => (k, toJson v) :: toJsonEntries rest

end

end Stencil.Value
