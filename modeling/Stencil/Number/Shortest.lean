import Stencil.Number.Binary

/-!
# Shortest decimal text

The text of a floating-point number has the fewest digits that read back as the same number, and
among those the digits nearest to it.  It never has an exponent.

The reals that read back as `m * 2 ^ e` reach half way to the two neighbouring numbers; the ends
belong to them when `m` is even.  Below a power of two the neighbour is half as far away.  Grids
of powers of ten are tried from coarse to fine: the first grid with a point in that interval has
the fewest digits, and one of the two grid points around the number is such a point.

## Main definitions

* `Interval` — the reals that read back as one number, with a common denominator.
* `shortest` — the digits and the power of ten of the shortest decimal.
* `floatText` — the positional text of a number.
-/

namespace Stencil.Number

/-- The numerators of a positive number and of the ends of the interval that reads back as it,
over one denominator, and whether the ends belong to the interval. -/
structure Interval where
  /-- The numerator of the lower end. -/
  low : Nat
  /-- The numerator of the number. -/
  mid : Nat
  /-- The numerator of the upper end. -/
  high : Nat
  /-- The common denominator. -/
  denominator : Nat
  /-- Whether the ends read back as the number. -/
  closed : Bool

/-- The interval of the number `m * 2 ^ e`. -/
def Interval.ofBinary (m : Nat) (e : Int) : Interval :=
  let below := if m = 0x10000000000000 then 1 else 2
  let up := if 2 ≤ e then Nat.pow 2 (e - 2).toNat else 1
  { low := (4 * m - below) * up
    mid := 4 * m * up
    high := (4 * m + 2) * up
    denominator := if 2 ≤ e then 1 else Nat.pow 2 (2 - e).toNat
    closed := m % 2 == 0 }

/-- Whether `d * 10 ^ p` lies in the interval. -/
def Interval.holds (v : Interval) (d : Nat) (p : Int) : Bool :=
  let point := if 0 ≤ p then d * Nat.pow 10 p.toNat * v.denominator else d * v.denominator
  let unit := if 0 ≤ p then 1 else Nat.pow 10 (-p).toNat
  if v.closed then v.low * unit ≤ point && point ≤ v.high * unit
  else v.low * unit < point && point < v.high * unit

/-- The integer part of the number divided by `10 ^ p`, and whether the rest is at least a half. -/
def Interval.quotient (v : Interval) (p : Int) : Nat × Bool :=
  let num := if 0 ≤ p then v.mid else v.mid * Nat.pow 10 (-p).toNat
  let den := if 0 ≤ p then v.denominator * Nat.pow 10 p.toNat else v.denominator
  (num / den, den ≤ 2 * (num % den))

/-- The first grid point in the interval, grids being tried from `10 ^ p` downwards. -/
def Interval.search (v : Interval) : Nat → Int → Nat × Int
  | 0, p => ((v.quotient p).1, p)
  | n + 1, p =>
    let (d, upper) := v.quotient p
    match v.holds d p, v.holds (d + 1) p with
    | true, true => (if upper then d + 1 else d, p)
    | true, false => (d, p)
    | false, true => (d + 1, p)
    | false, false => v.search n (p - 1)

/-- A power of ten above `m * 2 ^ e`. -/
def decimalBound (m : Nat) (e : Int) : Int := (m.log2 + 1 + e) * 30103 / 100000 + 1

/-- The shortest decimal `d * 10 ^ p` that reads back as `m * 2 ^ e`, and of those the nearest. -/
def shortest (m : Nat) (e : Int) : Nat × Int :=
  (Interval.ofBinary m e).search 24 (decimalBound m e)

/-- The positional text of `d * 10 ^ p`. -/
def positional (d : Nat) (p : Int) : List Char :=
  let digits := Nat.toDigits 10 d
  if 0 ≤ p then digits ++ List.replicate p.toNat '0'
  else
    let places := (-p).toNat
    if places < digits.length then
      digits.take (digits.length - places) ++ '.' :: digits.drop (digits.length - places)
    else '0' :: '.' :: (List.replicate (places - digits.length) '0' ++ digits)

/-- The positional text of a number. -/
def floatText (x : Float) : List Char :=
  match x.toModel.unpack with
  | .notANumber => "NaN".toList
  | .infinity .positive => "inf".toList
  | .infinity .negative => "-inf".toList
  | .zero .positive => "0".toList
  | .zero .negative => "-0".toList
  | .finite .positive m e _ => let (d, p) := shortest m e; positional d p
  | .finite .negative m e _ => let (d, p) := shortest m e; '-' :: positional d p

end Stencil.Number
