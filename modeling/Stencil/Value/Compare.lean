import Stencil.Value.Basic

/-!
# Comparing values

Loose comparison converts between types as the operators `==` and `<` of the script do; strict
comparison asks for the same type and the same content.

## Main definitions

* `Value.looseEq` — the operator `==`.
* `Value.strictEq` — the operator `===`.
* `Value.looseOrder?` — the order behind `<`, `<=`, `>` and `>=`.
-/

namespace Stencil.Value

/-- Whether a string and a number are loosely equal: as numbers when the string is a numeral, by
text otherwise. -/
def stringEqNumber (s : String) (v : Value) : Bool :=
  match Number.readNumber? s.toList with
  | some x =>
    match v.toNumber? with
    | some y => x.toFloat == y.toFloat
    | none => false
  | none => s == v.text

/-- Whether two strings are loosely equal: as numbers when both are numerals, by content
otherwise. -/
def stringEq (s t : String) : Bool :=
  match Number.readNumber? s.toList, Number.readNumber? t.toList with
  | some x, some y => x.toFloat == y.toFloat
  | _, _ => s == t

mutual

/-- Loose equality. -/
def looseEq : Value → Value → Bool
  | null, null => true
  | bool a, v => a == v.isTruthy
  | v, bool b => b == v.isTruthy
  | null, string s => s == ""
  | string s, null => s == ""
  | null, v => !v.isTruthy
  | v, null => !v.isTruthy
  | string s, string t => stringEq s t
  | list xs, list ys => xs.length == ys.length && looseEqItems xs ys
  | map xs, map ys => xs.length == ys.length && looseEqEntries xs ys
  | list _, _ => false
  | map _, _ => false
  | _, list _ => false
  | _, map _ => false
  | string s, v => stringEqNumber s v
  | v, string s => stringEqNumber s v
  | int i, int j => Number.ofInteger i == Number.ofInteger j
  | int i, float y => Number.ofInteger i == y
  | float x, int j => x == Number.ofInteger j
  | float x, float y => x == y

/-- Loose equality of the items at the same places. -/
def looseEqItems : List Value → List Value → Bool
  | x :: xs, y :: ys => looseEq x y && looseEqItems xs ys
  | _, _ => true

/-- Whether every entry has a loosely equal value under the same key of the other map. -/
def looseEqEntries : List (String × Value) → List (String × Value) → Bool
  | [], _ => true
  | (k, v) :: rest, other =>
    (match Assoc.get? other k with
      | some w => looseEq v w
      | none => false) && looseEqEntries rest other

end

mutual

/-- Strict equality: the same type and the same content, entries in the same order. -/
def strictEq : Value → Value → Bool
  | null, null => true
  | bool a, bool b => a == b
  | int i, int j => i == j
  | float x, float y => x == y
  | string s, string t => s == t
  | list xs, list ys => strictEqItems xs ys
  | map xs, map ys => strictEqEntries xs ys
  | _, _ => false

/-- Strict equality of lists. -/
def strictEqItems : List Value → List Value → Bool
  | [], [] => true
  | x :: xs, y :: ys => strictEq x y && strictEqItems xs ys
  | _, _ => false

/-- Strict equality of maps, entry by entry. -/
def strictEqEntries : List (String × Value) → List (String × Value) → Bool
  | [], [] => true
  | (k, v) :: xs, (l, w) :: ys => k == l && strictEq v w && strictEqEntries xs ys
  | _, _ => false

end

/-- The order of two strings: as numbers when both are numerals, by code points otherwise. -/
def stringOrder? (s t : String) : Option Ordering :=
  match Number.readNumber? s.toList, Number.readNumber? t.toList with
  | some x, some y => Number.order? x.toFloat y.toFloat
  | _, _ => some (compare s t)

/-- The loose order of two values, absent when they cannot be ordered. -/
def looseOrder? : Value → Value → Option Ordering
  | string s, string t => stringOrder? s t
  | null, string t => some (compare "" t)
  | string s, null => some (compare s "")
  | bool a, v => some (compare a v.isTruthy)
  | null, v => some (compare false v.isTruthy)
  | v, bool b => some (compare v.isTruthy b)
  | v, null => some (compare v.isTruthy false)
  | list xs, list ys => some (compare xs.length ys.length)
  | map xs, map ys => some (compare xs.length ys.length)
  | v, w =>
    match v.toNumber?, w.toNumber? with
    | some x, some y => Number.order? x.toFloat y.toFloat
    | _, _ => none

end Stencil.Value
