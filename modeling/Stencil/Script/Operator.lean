import Stencil.Error
import Stencil.Script.Tree
import Stencil.Value.Access
import Stencil.Value.Compare

/-!
# Operators of the script

## Main definitions

* `Value.applyBinary` — the binary operators on values.
* `Value.applyUnary` — the unary operators on values.
* `Value.stepped` — what `++` and `--` make of a value.
* `Value.ofItems` — the value of an array literal.
-/

namespace Stencil.Value

/-- The numbers two operands stand for. -/
def operands (v w : Value) : Except RuntimeError (Number × Number) :=
  match v.toNumber?, w.toNumber? with
  | some a, some b => .ok (a, b)
  | _, _ =>
    .error (.badArguments "arithmetic" ("numbers, found " ++ v.typeName ++ " and " ++ w.typeName))

/-- Arithmetic on two operands. -/
def arithmetic (exact : Int → Int → Int) (rounded : Float → Float → Float) (v w : Value) :
    Except RuntimeError Value := do
  let (a, b) ← operands v w
  .ok (Number.combine exact rounded a b).toValue

/-- Division: an integer when both operands are integers and nothing remains. -/
def divide (v w : Value) : Except RuntimeError Value := do
  let (a, b) ← operands v w
  if b.toFloat == 0 then .error .divisionByZero
  else match a, b with
    | .int x, .int y =>
      if x.toInt.tmod y.toInt = 0 then .ok (Number.combine Int.tdiv (· / ·) a b).toValue
      else .ok (float (a.toFloat / b.toFloat))
    | _, _ => .ok (float (a.toFloat / b.toFloat))

/-- The remainder of the integer parts, with the sign of the dividend. -/
def modulo (v w : Value) : Except RuntimeError Value := do
  let (a, b) ← operands v w
  let x := Number.truncate a.toFloat
  let y := Number.truncate b.toFloat
  if y = 0 then .error .divisionByZero
  -- the smallest word has no remainder by minus one
  else .ok (int (Int64.ofInt (x.toInt.tmod y.toInt)))

/-- The union of two maps, in which the left one decides. -/
def union (xs ys : List (String × Value)) : List (String × Value) :=
  ys.foldl (fun m (k, v) => if Assoc.contains m k then m else m ++ [(k, v)]) xs

/-- A sum, or the union of two maps. -/
def sum (v w : Value) : Except RuntimeError Value :=
  match v, w with
  | map xs, map ys => .ok (map (union xs ys))
  | _, _ => arithmetic (· + ·) (· + ·) v w

/-- A binary operator applied to two values. -/
def applyBinary (op : BinaryOp) (v w : Value) : Except RuntimeError Value :=
  match op with
  | .or => .ok (bool (v.isTruthy || w.isTruthy))
  | .and => .ok (bool (v.isTruthy && w.isTruthy))
  | .equal => .ok (bool (looseEq v w))
  | .notEqual => .ok (bool !looseEq v w)
  | .identical => .ok (bool (strictEq v w))
  | .notIdentical => .ok (bool !strictEq v w)
  | .less => .ok (bool (looseOrder? v w == some .lt))
  | .lessEqual => .ok (bool (looseOrder? v w == some .lt || looseOrder? v w == some .eq))
  | .greater => .ok (bool (looseOrder? v w == some .gt))
  | .greaterEqual => .ok (bool (looseOrder? v w == some .gt || looseOrder? v w == some .eq))
  | .concat => .ok (string (v.text ++ w.text))
  | .add => sum v w
  | .subtract => arithmetic (· - ·) (· - ·) v w
  | .multiply => arithmetic (· * ·) (· * ·) v w
  | .divide => divide v w
  | .modulo => modulo v w

/-- A unary operator applied to a value; arithmetic on arrays gives null. -/
def applyUnary (op : UnaryOp) (v : Value) : Value :=
  match op with
  | .not => bool !v.isTruthy
  | .negate => (v.toNumber?.map fun n => n.negate.toValue).getD null
  | .plus => (v.toNumber?.map Number.toValue).getD null

/-- The value after an increment (`up`) or a decrement: null becomes one or stays, numbers and
strings are counted on, and anything else stays. -/
def stepped (up : Bool) (v : Value) : Value :=
  match v with
  | null => if up then int 1 else null
  | int _ | float _ | string _ =>
    match v.toNumber? with
    | some n => (if up then n.successor else n.predecessor).toValue
    | none => v
  | _ => v

/-- The items of an array literal in order, with the key that the next item without one gets. -/
def keyedItems : Int → List (Option Value × Value) → List (String × Value)
  | _, [] => []
  | next, (none, v) :: rest => (toString next, v) :: keyedItems (next + 1) rest
  | next, (some key, v) :: rest =>
    let next := match key with
      | int i => max next (i.toInt + 1)
      | _ => next
    (key.toKey, v) :: keyedItems next rest

/-- The value of an array literal: a list when no item has a key, a map otherwise. -/
def ofItems (items : List (Option Value × Value)) : Value :=
  if items.all fun (key, _) => key.isNone then list (items.map Prod.snd)
  else map (Assoc.ofList (keyedItems 0 items))

end Stencil.Value
