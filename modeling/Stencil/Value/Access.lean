import Stencil.Value.Basic

/-!
# Elements of values

## Main definitions

* `Value.member`, `Value.index` — the elements that `->name` and `[key]` read.
* `Value.entries` — the keys and values that `foreach` goes through.
* `Slot`, `Value.slot?` — the place of an element in a container, and the one a step leads to.
* `Value.write` — assignment to an element along a path, which creates what is missing.
-/

namespace Stencil

/-- The value of a map key when it is handed to the script: canonical decimals of words are
integers again. -/
def keyValue (key : String) : Value :=
  match Number.readInteger? key.toList with
  | some i => if wordText i = key then .int i else .string key
  | none => .string key

/-- One step from a container to an element. -/
inductive Step where
  /-- The element of a key. -/
  | key (k : String) : Step
  /-- A new element at the end. -/
  | append : Step
  deriving DecidableEq

/-- The place of an element in a container. -/
inductive Slot where
  /-- A position in a list. -/
  | item (n : Nat) : Slot
  /-- A key of a map. -/
  | entry (k : String) : Slot
  deriving DecidableEq

namespace Value

/-- The member that `->name` reads. -/
def member (v : Value) (name : String) : Value :=
  match v with
  | map entries => (Assoc.get? entries name).getD null
  | _ => null

/-- The item at a position given by a word, none below zero. -/
def itemAt (items : List Value) (i : Int64) : Value :=
  if i.toInt < 0 then null else (items[i.toInt.toNat]?).getD null

/-- The element that `[key]` reads: an item of a list by number, an entry of a map by key, a
character of a string by integer. -/
def index (v key : Value) : Value :=
  match v, key with
  | list items, k =>
    match k.toNumber? with
    -- a fraction is cut off
    | some n => itemAt items n.toWord
    | none => null
  | map entries, k => (Assoc.get? entries k.toKey).getD null
  | string s, int i =>
    if i.toInt < 0 then null
    else match s.toList[i.toInt.toNat]? with
      | some c => string (String.ofList [c])
      | none => null
  | _, _ => null

/-- Items with their positions, counted from `n`. -/
def numbered : Nat → List Value → List (Value × Value)
  | _, [] => []
  | n, v :: rest => (int (Int64.ofNat n), v) :: numbered (n + 1) rest

/-- The keys and values of an array in order; nothing for any other value. -/
def entries : Value → List (Value × Value)
  | list items => numbered 0 items
  | map es => es.map fun (k, v) => (keyValue k, v)
  | _ => []

/-- The key that appending to a map gives: one above the largest integer key, zero when there is
none. -/
def nextKey (es : List (String × Value)) : String :=
  match (es.filterMap fun (k, _) => Number.readInteger? k.toList).map Int64.toInt with
  | [] => "0"
  | i :: rest => toString (rest.foldl max i + 1)

/-- Null turned into an empty container that a step fits; any other value stays as it is. -/
def opened (v : Value) (step : Step) : Value :=
  match v, step with
  | null, .append => list []
  | null, .key _ => map []
  | v, _ => v

/-- The slot that a step leads to, in a container that has it or to which it can be added: a list
has slots up to the one past its end, and a map has one for every key. -/
def slot? (v : Value) (step : Step) : Option Slot :=
  match v, step with
  | list items, .append => some (.item items.length)
  | list items, .key k =>
    match Number.readNatural? k.toList with
    | some n => if n ≤ items.length then some (.item n) else none
    | none => none
  | map es, .append => some (.entry (nextKey es))
  | map _, .key k => some (.entry k)
  | _, _ => none

/-- The element in a slot. -/
def element? (v : Value) (s : Slot) : Option Value :=
  match v, s with
  | list items, .item n => items[n]?
  | map es, .entry k => Assoc.get? es k
  | _, _ => none

/-- A container with the element in a slot set; a new one comes last. -/
def put (v : Value) (s : Slot) (x : Value) : Value :=
  match v, s with
  | list items, .item n => list (items.take n ++ x :: items.drop (n + 1))
  | map es, .entry k => map (Assoc.insert es k x)
  | v, _ => v

/-- The value after a walk along the path that sets the element at its end, and whether the end was
reached.  The walk creates what is missing, step by step, and ends at the first step that leads to
no slot; what it has created by then is not taken back. -/
def write (new : Value) : List Step → Value → Value × Bool
  | [], _ => (new, true)
  | step :: path, v =>
    let container := v.opened step
    match container.slot? step with
    | some s =>
      let (x, reached) := write new path ((container.element? s).getD null)
      (container.put s x, reached)
    | none => (container, false)

end Value

end Stencil
