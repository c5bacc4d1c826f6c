import Stencil.Number.Binary

/-!
# Numbers of the script

A number is a machine integer or a floating-point number.

## Main definitions

* `Number` — the two kinds of numbers.
* `Number.toFloat` — the nearest floating-point number.
* `Number.combine` — arithmetic that is exact on integers where the result fits.
-/

namespace Stencil

/-- A machine integer or a floating-point number. -/
inductive Number where
  /-- A signed 64-bit integer. -/
  | int (i : Int64) : Number
  /-- A floating-point number. -/
  | float (x : Float) : Number
  deriving DecidableEq

namespace Number

/-- The nearest floating-point number. -/
def toFloat : Number → Float
  | int i => ofInteger i
  | float x => x

/-- The number as a word: an integer itself, a floating-point number cut to its integer part. -/
def toWord : Number → Int64
  | int i => i
  | float x => truncate x

/-- Arithmetic: exact on two integers when the result fits a word, and in floating point
otherwise. -/
def combine (exact : Int → Int → Int) (rounded : Float → Float → Float) (a b : Number) : Number :=
  match a, b with
  | int x, int y =>
    match fits? (exact x.toInt y.toInt) with
    | some w => int w
    | none => float (rounded (ofInteger x) (ofInteger y))
  | _, _ => float (rounded a.toFloat b.toFloat)

/-- The number with its sign changed. -/
def negate : Number → Number
  | int i =>
    match fits? (-i.toInt) with
    | some w => int w
    | none => float (-ofInteger i)
  | float x => float (-x)

/-- The number after the given one. -/
def successor : Number → Number
  | int i => int (increment i)
  | float x => float (x + 1)

/-- The number before the given one. -/
def predecessor : Number → Number
  | int i => int (decrement i)
  | float x => float (x - 1)

end Number

end Stencil
