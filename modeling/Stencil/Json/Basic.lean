/-!
# JSON documents

A document keeps the members of an object in the order of the text, repeated names included; what
a repeated name means is for the reader of the document to say.

## Main definitions

* `Json` — a document.
* `Json.sortMembers` — the members by name, the last one of each name winning.
-/

namespace Stencil

/-- A JSON document. -/
inductive Json where
  /-- The document `null`. -/
  | null : Json
  /-- A truth value. -/
  | bool (b : Bool) : Json
  /-- An integer numeral that fits a signed or unsigned 64-bit word. -/
  | integer (n : Int) : Json
  /-- Any other numeral. -/
  | float (x : Float) : Json
  /-- A string. -/
  | string (s : String) : Json
  /-- An array. -/
  | array (items : List Json) : Json
  /-- An object. -/
  | object (members : List (String × Json)) : Json
  deriving Inhabited

namespace Json

variable {α : Type}

/-- Members sorted by name with one more put in its place, over a member of the same name. -/
def insertMember (name : String) (a : α) : List (String × α) → List (String × α)
  | [] => [(name, a)]
  | (l, b) :: rest =>
    if name < l then (name, a) :: (l, b) :: rest
    else if name = l then (l, a) :: rest
    else (l, b) :: insertMember name a rest

/-- The members by name, the last one of each name winning. -/
def sortMembers (members : List (String × α)) : List (String × α) :=
  members.foldl (fun sorted (name, a) => insertMember name a sorted) []

end Json

end Stencil
