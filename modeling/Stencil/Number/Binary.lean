import Stencil.Number.Integer

/-!
# Binary floating point

A finite nonzero number is a sign, a positive mantissa and a power of two.

## Main definitions

* `ofInteger` — the floating-point number nearest to a word.
* `truncate` — the integer part as a word, pinned at the ends; not-a-number gives zero.
* `isIntegral` — whether a number is finite and has no fraction.
* `order?` — the order of two numbers, absent when one is not a number.
-/

namespace Stencil.Number

open Float.Model

/-- The floating-point number nearest to a word. -/
def ofInteger (i : Int64) : Float := Float.ofInt i.toInt

/-- The integer part of `m * 2 ^ e`. -/
def scaled (m : Nat) (e : Int) : Nat :=
  if 0 ≤ e then m * Nat.pow 2 e.toNat else m / Nat.pow 2 (-e).toNat

/-- The integer part as a word, pinned at the ends; not-a-number gives zero. -/
def truncate (x : Float) : Int64 :=
  match x.toModel.unpack with
  | .notANumber => 0
  | .zero _ => 0
  | .infinity .positive => Int64.maxValue
  | .infinity .negative => Int64.minValue
  | .finite .positive m e _ => pinned (scaled m e)
  | .finite .negative m e _ => pinned (-(scaled m e : Int))

/-- Whether the number is finite and has no fraction. -/
def isIntegral (x : Float) : Bool :=
  match x.toModel.unpack with
  | .notANumber => false
  | .infinity _ => false
  | .zero _ => true
  | .finite _ m e _ => 0 ≤ e || m % Nat.pow 2 (-e).toNat == 0

/-- The order of two numbers, absent when one of them is not a number. -/
def order? (x y : Float) : Option Ordering :=
  if x < y then some .lt else if y < x then some .gt else if x == y then some .eq else none

end Stencil.Number
