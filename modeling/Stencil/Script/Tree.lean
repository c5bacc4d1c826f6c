import Stencil.Value.Basic

/-!
# Syntax trees of the script

## Main definitions

* `Expr`, `Item` — expressions and the items of array literals.
* `Stmt`, `Branch`, `Arm` — statements, the branches of an `if` and the arms of a `switch`.
* `Expr.isPlace` — the expressions that can be assigned to.
-/

namespace Stencil

/-- The operators before an operand. -/
inductive UnaryOp where
  | not | negate | plus
  deriving DecidableEq

/-- The operators between two operands. -/
inductive BinaryOp where
  | or | and | equal | notEqual | identical | notIdentical | less | lessEqual | greater
  | greaterEqual | add | subtract | concat | multiply | divide | modulo
  deriving DecidableEq

/-- The assignment operators. -/
inductive AssignOp where
  | set | add | subtract | multiply | divide | concat
  deriving DecidableEq

/-- The operator that a compound assignment applies to the old and the new value. -/
def AssignOp.binary? : AssignOp → Option BinaryOp
  | set => none
  | add => some .add
  | subtract => some .subtract
  | multiply => some .multiply
  | divide => some .divide
  | concat => some .concat

mutual

/-- An expression. -/
inductive Expr where
  /-- A literal value. -/
  | literal (value : Value) : Expr
  /-- A variable, without its dollar sign. -/
  | var (name : String) : Expr
  /-- A constant. -/
  | const (name : String) : Expr
  /-- A member `base->name`. -/
  | member (base : Expr) (name : String) : Expr
  /-- An element `base[key]`. -/
  | index (base key : Expr) : Expr
  /-- The append form `base[]`. -/
  | append (base : Expr) : Expr
  /-- A function call. -/
  | call (name : String) (args : List Expr) : Expr
  /-- A method call. -/
  | method (target : Expr) (name : String) (args : List Expr) : Expr
  /-- An array literal. -/
  | array (items : List Item) : Expr
  /-- An operator before its operand. -/
  | unary (op : UnaryOp) (operand : Expr) : Expr
  /-- An operator between its operands. -/
  | binary (op : BinaryOp) (left right : Expr) : Expr
  /-- An assignment. -/
  | assign (op : AssignOp) (target value : Expr) : Expr
  /-- An increment (`up`) or decrement, written before its target (`before`) or after it. -/
  | step (target : Expr) (up before : Bool) : Expr
  /-- The choice `cond ? yes : no`. -/
  | choice (cond yes no : Expr) : Expr
  /-- The short choice `cond ?: no`. -/
  | fallback (cond no : Expr) : Expr

/-- An item of an array literal. -/
inductive Item where
  /-- A value without a key. -/
  | plain (value : Expr) : Item
  /-- A value with a key. -/
  | keyed (key value : Expr) : Item

end

/-- Whether the expression can be assigned to. -/
def Expr.isPlace : Expr → Bool
  | var _ | member _ _ | index _ _ | append _ => true
  | _ => false

mutual

/-- A statement. -/
inductive Stmt where
  /-- Text between islands. -/
  | text (s : String) : Stmt
  /-- Writes the values of expressions. -/
  | echo (exprs : List Expr) : Stmt
  /-- Evaluates an expression. -/
  | expr (e : Expr) : Stmt
  /-- Runs the first branch whose condition holds, or the last body. -/
  | cond (branches : List Branch) (otherwise : Option (List Stmt)) : Stmt
  /-- Runs a body for every entry of an array. -/
  | foreach (subject : Expr) (key : Option Expr) (value : Expr) (body : List Stmt) : Stmt
  /-- Runs a body while a condition holds, with expressions before the first and after every
  round. -/
  | forLoop (init : List Expr) (cond : Option Expr) (step : List Expr) (body : List Stmt) : Stmt
  /-- Runs a body while a condition holds. -/
  | whileLoop (cond : Expr) (body : List Stmt) : Stmt
  /-- Runs the arms from the first one that fits. -/
  | switch (subject : Expr) (arms : List Arm) : Stmt
  /-- Leaves the innermost loop or switch. -/
  | breakOut : Stmt
  /-- Goes on with the next round of the innermost loop. -/
  | continueOn : Stmt
  /-- Ends the program. -/
  | exit : Stmt

/-- A branch of an `if`. -/
inductive Branch where
  /-- A body under a condition. -/
  | mk (cond : Expr) (body : List Stmt) : Branch

/-- An arm of a `switch`; without a label it is the default. -/
inductive Arm where
  /-- A body under a label. -/
  | mk (label : Option Expr) (body : List Stmt) : Arm

end

/-- Whether the arm is the default. -/
def Arm.isDefault : Arm → Bool
  | mk label _ => label.isNone

end Stencil
