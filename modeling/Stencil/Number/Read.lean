import Stencil.Number.Basic
import Stencil.Text.Basic
import Stencil.Text.Blank
import Stencil.Text.Letter

/-!
# Numerals

The numerals of the script: decimal integers with an optional sign, and decimal fractions with an
optional sign and exponent, together with the names of infinity and not-a-number.

## Main definitions

* `digitsValue` — the number a run of digits denotes.
* `readNatural?`, `readInteger?` — unsigned and signed integers that fit a word.
* `readFloat?` — the nearest floating-point number.
* `readNumber?` — the number that a whole text denotes, blanks around it aside.
* `leadingNumber` — the number that a text starts with.
-/

namespace Stencil.Number

open Text

/-- The number that a digit denotes. -/
def digitValue (c : Char) : Nat := c.toNat - 48

/-- The number that a run of digits denotes. -/
def digitsValue (cs : List Char) : Nat := cs.foldl (fun n c => 10 * n + digitValue c) 0

/-- A nonempty run of digits and nothing else. -/
def isNumeral (cs : List Char) : Bool := !cs.isEmpty && cs.all isAsciiDigit

/-- A sign, if there is one, and the rest: whether the sign is a minus. -/
def splitSign : List Char → Bool × List Char
  | '-' :: cs => (true, cs)
  | '+' :: cs => (false, cs)
  | cs => (false, cs)

/-- An unsigned 64-bit integer, which a plus sign may precede. -/
def readNatural? (cs : List Char) : Option Nat :=
  let digits := match cs with
    | '+' :: rest => rest
    | _ => cs
  if isNumeral digits && digitsValue digits < UInt64.size then some (digitsValue digits) else none

/-- A signed 64-bit integer. -/
def readInteger? (cs : List Char) : Option Int64 :=
  let (negative, digits) := splitSign cs
  if isNumeral digits then
    fits? (if negative then -(digitsValue digits : Int) else digitsValue digits)
  else none

/-- The exponent after its mark: digits with an optional sign. -/
def readExponent? (cs : List Char) : Option Int :=
  let (negative, digits) := splitSign cs
  if isNumeral digits then
    some (if negative then -(digitsValue digits : Int) else digitsValue digits)
  else none

/-- The floating-point number nearest to `m * 10 ^ e`. -/
def ofDecimal (m : Nat) (e : Int) : Float := Float.ofScientific m (e < 0) e.natAbs

/-- An unsigned decimal fraction: digits with a point among them or at either end, then an
exponent. -/
def readFraction? (cs : List Char) : Option Float :=
  let whole := cs.takeWhile isAsciiDigit
  let (fraction, rest) := match cs.dropWhile isAsciiDigit with
    | '.' :: more => (more.takeWhile isAsciiDigit, more.dropWhile isAsciiDigit)
    | rest => ([], rest)
  let exponent? := match rest with
    | [] => some 0
    | c :: more => if asciiLower c = 'e' then readExponent? more else none
  if whole.isEmpty && fraction.isEmpty then none
  else exponent?.map fun e => ofDecimal (digitsValue (whole ++ fraction)) (e - fraction.length)

/-- Infinity or not-a-number, by name. -/
def readName? (cs : List Char) : Option Float :=
  let name := cs.map asciiLower
  if name = "inf".toList ∨ name = "infinity".toList then some (1 / 0)
  else if name = "nan".toList then some (0 / 0)
  else none

/-- A floating-point number with an optional sign. -/
def readFloat? (cs : List Char) : Option Float :=
  let (negative, body) := splitSign cs
  ((readFraction? body).or (readName? body)).map fun x => if negative then -x else x

/-- A letter that no numeral of the script has. -/
def isForeignLetter (c : Char) : Bool := isAsciiLetter c && asciiLower c ≠ 'e'

/-- The number that a whole text denotes, blanks around it aside. -/
def readNumber? (cs : List Char) : Option Number :=
  let body := trim cs
  match readInteger? body with
  | some i => some (int i)
  | none => if body.any isForeignLetter then none else (readFloat? body).map float

/-- The number that the text starts with after its leading blanks: an optional sign, digits, and
a point with digits after it.  A text that starts otherwise counts as zero, and so does an integer
that does not fit a word. -/
def leadingNumber (cs : List Char) : Number :=
  match readNumber? cs with
  | some n => n
  | none =>
    let body := trimLeft cs
    let sign := match body with
      | '-' :: _ => ['-']
      | '+' :: _ => ['+']
      | _ => []
    let rest := body.drop sign.length
    let whole := rest.takeWhile isAsciiDigit
    let fraction := match rest.dropWhile isAsciiDigit with
      | '.' :: more => more.takeWhile isAsciiDigit
      | _ => []
    -- a point without digits after it ends the number
    if fraction.isEmpty then ((readInteger? (sign ++ whole)).map int).getD (int 0)
    else ((readFloat? (sign ++ whole ++ '.' :: fraction)).map float).getD (int 0)

end Stencil.Number
