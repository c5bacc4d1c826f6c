import Stencil.Json.Basic
import Stencil.Number.Read

/-!
# Reading JSON

The grammar is that of RFC 8259.  Arrays and objects nest less than 128 deep, and half of a
surrogate pair standing alone is refused.

A numeral is read through a significand of at most 64 bits.  Digits of the fraction that do not fit
are dropped, digits of the integer part that do not fit count towards the exponent, and the
significand is then multiplied or divided by one power of ten; a result beyond the largest
floating-point number is refused.

## Main definitions

* `Json.read?` — the document that a whole text denotes.
* `Json.ofNumeral?` — the number of a numeral, given its parts.
-/

namespace Stencil.Json

open Text Number

/-- A blank between the signs of a document. -/
def isSpace (c : Char) : Bool := c = ' ' || c = '\n' || c = '\t' || c = '\r'

/-- The value of a hexadecimal digit. -/
def hexDigit? (c : Char) : Option Nat :=
  let n := c.toNat
  if 48 ≤ n ∧ n ≤ 57 then some (n - 48)
  else if 65 ≤ n ∧ n ≤ 70 then some (n - 55)
  else if 97 ≤ n ∧ n ≤ 102 then some (n - 87)
  else none

/-- The value of four hexadecimal digits. -/
def hexUnit? (a b c d : Char) : Option Nat := do
  let a ← hexDigit? a
  let b ← hexDigit? b
  let c ← hexDigit? c
  let d ← hexDigit? d
  pure (((a * 16 + b) * 16 + c) * 16 + d)

/-- The character of a one-letter escape. -/
def escaped? : Char → Option Char
  | '\x22' => some '\x22'
  | '\\' => some '\\'
  | '/' => some '/'
  | 'b' => some '\x08'
  | 'f' => some '\x0c'
  | 'n' => some '\n'
  | 'r' => some '\r'
  | 't' => some '\t'
  | _ => none

/-- The characters up to the closing quote, and the text after it. -/
def readString : List Char → Option (List Char × List Char)
  | '\x22' :: rest => some ([], rest)
  | '\\' :: 'u' :: a :: b :: c :: d :: rest =>
    match hexUnit? a b c d with
    | none => none
    | some high =>
      if 0xDC00 ≤ high ∧ high ≤ 0xDFFF then none
      else if 0xD800 ≤ high ∧ high ≤ 0xDBFF then
        match rest with
        | '\\' :: 'u' :: e :: f :: g :: h :: rest =>
          match hexUnit? e f g h with
          | none => none
          | some low =>
            if 0xDC00 ≤ low ∧ low ≤ 0xDFFF then
              (readString rest).map fun (cs, after) =>
                (Char.ofNat (0x10000 + (high - 0xD800) * 0x400 + (low - 0xDC00)) :: cs, after)
            else none
        | _ => none
      else (readString rest).map fun (cs, after) => (Char.ofNat high :: cs, after)
  | '\\' :: c :: rest =>
    match escaped? c with
    | none => none
    | some e => (readString rest).map fun (cs, after) => (e :: cs, after)
  | c :: rest =>
    if c.toNat < 32 || c = '\\' then none
    else (readString rest).map fun (cs, after) => (c :: cs, after)
  | [] => none

/-- Appends digits to a significand as long as it fits 64 bits: the significand, and the number of
digits taken. -/
def absorb (s : Nat) : List Char → Nat × Nat
  | [] => (s, 0)
  | c :: cs =>
    let t := 10 * s + digitValue c
    if t < UInt64.size then
      let (u, n) := absorb t cs
      (u, n + 1)
    else (s, 0)

/-- The floating-point number nearest to a power of ten. -/
def powerOfTen (n : Nat) : Float := Float.ofScientific 1 false n

/-- The significand times a power of ten, refused when it is infinite. -/
def scaleSignificand (s : Nat) (e : Int) : Option Float :=
  let x := Float.ofNat s
  if 308 < e then (if s = 0 then some x else none)
  else if 0 ≤ e then
    let y := x * powerOfTen e.toNat
    if y.isInf then none else some y
  else if -308 ≤ e then some (x / powerOfTen (-e).toNat)
  else if -616 ≤ e then some (x / powerOfTen 308 / powerOfTen (-(e + 308)).toNat)
  else some 0

/-- The number of a numeral, given its sign, the digits of its integer part and of its fraction,
and the sign and digits of its exponent. -/
def ofNumeral? (negative : Bool) (whole : List Char) (fraction : Option (List Char))
    (exponent : Option (Bool × List Char)) : Option Json :=
  let (s, taken) := absorb 0 whole
  let dropped := whole.length - taken
  let signed (x : Float) : Json := .float (if negative then -x else x)
  match fraction, exponent with
  | none, none =>
    if dropped = 0 then
      if !negative then some (.integer s)
      else if 0 < s ∧ s ≤ 0x8000000000000000 then some (.integer (-s))
      else some (signed (Float.ofNat s))
    else (scaleSignificand s dropped).map signed
  | _, _ =>
    let (s, places) := absorb s (fraction.getD [])
    let start : Int := dropped - places
    match exponent with
    | none => (scaleSignificand s start).map signed
    | some (down, digits) =>
      let e := digitsValue digits
      if e < 0x80000000 then
        (scaleSignificand s (if down then start - e else start + e)).map signed
      else if s ≠ 0 ∧ !down then none
      else some (signed 0)

/-- The exponent of a numeral after its mark: its sign, its digits, and the text after it. -/
def readExponent (cs : List Char) : Option ((Bool × List Char) × List Char) :=
  let (down, body) := splitSign cs
  let digits := body.takeWhile isAsciiDigit
  if digits.isEmpty then none else some ((down, digits), body.dropWhile isAsciiDigit)

/-- A numeral without its minus sign, and the text after it. -/
def readNumeral (negative : Bool) (cs : List Char) : Option (Json × List Char) := do
  let whole := cs.takeWhile isAsciiDigit
  let rest := cs.dropWhile isAsciiDigit
  match whole with
  | [] => none
  | '0' :: _ :: _ => none
  | _ => pure ()
  let (fraction, rest) ← match rest with
    | '.' :: more =>
      let digits := more.takeWhile isAsciiDigit
      if digits.isEmpty then none else some (some digits, more.dropWhile isAsciiDigit)
    | _ => some (none, rest)
  let (exponent, rest) ← match rest with
    | c :: more =>
      if asciiLower c = 'e' then (readExponent more).map fun (e, after) => (some e, after)
      else some (none, rest)
    | [] => some (none, [])
  let number ← ofNumeral? negative whole fraction exponent
  pure (number, rest)

mutual

/-- A value, and the text after it.  `depth` is the number of arrays and objects that may still be
opened; `budget` is at least the length of the text. -/
def readValue (budget depth : Nat) (cs : List Char) : Option (Json × List Char) :=
  match budget with
  | 0 => none
  | budget + 1 =>
    match cs.dropWhile isSpace with
    | '\x22' :: rest => (readString rest).map fun (s, after) => (.string (String.ofList s), after)
    | '-' :: rest => readNumeral true rest
    | '[' :: rest =>
      match depth with
      | 0 => none
      | depth + 1 =>
        match rest.dropWhile isSpace with
        | ']' :: after => some (.array [], after)
        | _ => (readItems budget depth rest).map fun (items, after) => (.array items, after)
    | '{' :: rest =>
      match depth with
      | 0 => none
      | depth + 1 =>
        match rest.dropWhile isSpace with
        | '}' :: after => some (.object [], after)
        | _ => (readMembers budget depth rest).map fun (ms, after) => (.object ms, after)
    | rest =>
      if let some after := dropStart? "null".toList rest then some (.null, after)
      else if let some after := dropStart? "true".toList rest then some (.bool true, after)
      else if let some after := dropStart? "false".toList rest then some (.bool false, after)
      else readNumeral false rest

/-- The items of an array up to its closing bracket, and the text after it. -/
def readItems (budget depth : Nat) (cs : List Char) : Option (List Json × List Char) :=
  match budget with
  | 0 => none
  | budget + 1 =>
    match readValue budget depth cs with
    | none => none
    | some (item, rest) =>
      match rest.dropWhile isSpace with
      | ']' :: after => some ([item], after)
      | ',' :: rest =>
        (readItems budget depth rest).map fun (items, after) => (item :: items, after)
      | _ => none

/-- The members of an object up to its closing brace, and the text after it. -/
def readMembers (budget depth : Nat) (cs : List Char) : Option (List (String × Json) × List Char) :=
  match budget with
  | 0 => none
  | budget + 1 =>
    match cs.dropWhile isSpace with
    | '\x22' :: rest =>
      match readString rest with
      | none => none
      | some (name, rest) =>
        match rest.dropWhile isSpace with
        | ':' :: rest =>
          match readValue budget depth rest with
          | none => none
          | some (value, rest) =>
            match rest.dropWhile isSpace with
            | '}' :: after => some ([(String.ofList name, value)], after)
            | ',' :: rest =>
              (readMembers budget depth rest).map fun (ms, after) =>
                ((String.ofList name, value) :: ms, after)
            | _ => none
        | _ => none
    | _ => none

end

/-- The document that a whole text denotes. -/
def read? (cs : List Char) : Option Json :=
  -- a value takes at most two calls for each of its characters
  match readValue (2 * cs.length + 1) 127 cs with
  | some (value, rest) => if rest.all isSpace then some value else none
  | none => none

end Stencil.Json
