import Stencil.Text.Basic

/-!
# Matches of a pattern

A pattern is given by what it finds at the start of a text and by how many characters the match
takes.  A text is read from left to right: the first position at which the pattern matches is
taken, and reading goes on after the match.  The text is thereby cut into pieces, and the
sources of the pieces put together are the text again.

## Main definitions

* `Matcher` — a pattern.
* `Piece`, `cut` — the cutting of a text by a pattern.
* `findAll`, `replaceMatches`, `removeMatches` — what is found, and the text with every match
  replaced.
* `findFirst?` — the first match with the texts around it.
* `findPlaces` — everything found, with its place in bytes.
* `replaceText`, `splitText`, `occurrences` — the same for a fixed phrase.
-/

namespace Stencil.Text

/-- What is found at the start of a text, and the positive number of characters matched. -/
abbrev Matcher (α : Type) := List Char → Option (α × Nat)

/-- A piece of a text that has been read with a pattern. -/
inductive Piece (α : Type) where
  /-- A character that no match holds. -/
  | plain (c : Char) : Piece α
  /-- A match and its source. -/
  | found (value : α) (source : List Char) : Piece α

namespace Piece

variable {α : Type}

/-- The text the piece was read from. -/
def source : Piece α → List Char
  | plain c => [c]
  | found _ cs => cs

/-- What was found, if anything. -/
def value? : Piece α → Option α
  | plain _ => none
  | found a _ => some a

/-- The piece's source, or what `f` makes of its value. -/
def render (f : α → List Char) : Piece α → List Char
  | plain c => [c]
  | found a _ => f a

@[simp] theorem source_plain (c : Char) : (plain c : Piece α).source = [c] := rfl

@[simp] theorem source_found (a : α) (cs : List Char) : (found a cs).source = cs := rfl

end Piece

variable {α : Type}

/-- The pieces after the next `n` characters, which belong to a match already taken. -/
def cutFrom (m : Matcher α) : Nat → List Char → List (Piece α)
  | _, [] => []
  | n + 1, _ :: cs => cutFrom m n cs
  | 0, c :: cs =>
    match m (c :: cs) with
    | some (a, k) => .found a (c :: cs.take (k - 1)) :: cutFrom m (k - 1) cs
    | none => .plain c :: cutFrom m 0 cs

/-- The text cut by the pattern. -/
def cut (m : Matcher α) (cs : List Char) : List (Piece α) := cutFrom m 0 cs

theorem flatMap_source_cutFrom (m : Matcher α) (n : Nat) (cs : List Char) :
    (cutFrom m n cs).flatMap Piece.source = cs.drop n := by
  induction cs generalizing n with
  | nil => simp [cutFrom]
  | cons c cs ih =>
    cases n with
    | succ n => simpa [cutFrom] using ih n
    | zero =>
      unfold cutFrom
      split
      · simp [ih, List.take_append_drop]
      · simp [ih]

/-- Cutting a text loses nothing. -/
theorem flatMap_source_cut (m : Matcher α) (cs : List Char) :
    (cut m cs).flatMap Piece.source = cs := flatMap_source_cutFrom m 0 cs

/-- Everything the pattern finds, in order. -/
def findAll (m : Matcher α) (cs : List Char) : List α := (cut m cs).filterMap Piece.value?

/-- The text with every match replaced by what `f` makes of it. -/
def replaceMatches (m : Matcher α) (f : α → List Char) (cs : List Char) : List Char :=
  (cut m cs).flatMap (Piece.render f)

/-- The text without the matches. -/
def removeMatches (m : Matcher α) (cs : List Char) : List Char := replaceMatches m (fun _ => []) cs

/-- The first match: the text before it, what is found, its source and the text after it. -/
def findFirst? (m : Matcher α) : List Char → Option (List Char × α × List Char × List Char)
  | [] => none
  | c :: cs =>
    match m (c :: cs) with
    | some (a, k) => some ([], a, (c :: cs).take k, (c :: cs).drop k)
    | none => (findFirst? m cs).map fun (before, a, source, rest) => (c :: before, a, source, rest)

/-- Whether the pattern matches somewhere. -/
def occurs (m : Matcher α) : List Char → Bool
  | [] => false
  | c :: cs => (m (c :: cs)).isSome || occurs m cs

theorem cutFrom_of_not_occurs {m : Matcher α} {cs : List Char} (h : occurs m cs = false) :
    cutFrom m 0 cs = cs.map Piece.plain := by
  induction cs with
  | nil => rfl
  | cons c cs ih =>
    simp only [occurs, Bool.or_eq_false_iff, Option.isSome_eq_false_iff,
      Option.isNone_iff_eq_none] at h
    simp [cutFrom, h.1, ih h.2]

/-- A text without matches stays. -/
theorem replaceMatches_of_not_occurs {m : Matcher α} {cs : List Char} (f : α → List Char)
    (h : occurs m cs = false) : replaceMatches m f cs = cs := by
  simp only [replaceMatches, cut, cutFrom_of_not_occurs h, List.flatMap_map]
  exact List.flatMap_singleton' cs

/-- The pattern that matches exactly one phrase. -/
def phrase (p : List Char) : Matcher Unit := fun cs =>
  (dropStart? p cs).map fun _ => ((), p.length)

/-- The text with every occurrence of the nonempty phrase `p` replaced by `q`. -/
def replaceText (p q cs : List Char) : List Char := replaceMatches (phrase p) (fun _ => q) cs

/-- The texts between the occurrences of a phrase. -/
def splitPieces : List (Piece Unit) → List (List Char)
  | [] => [[]]
  | .found _ _ :: rest => [] :: splitPieces rest
  | .plain c :: rest =>
    match splitPieces rest with
    | [] => [[c]]
    | piece :: more => (c :: piece) :: more

/-- The pieces between the occurrences of the nonempty phrase `p`. -/
def splitText (p cs : List Char) : List (List Char) := splitPieces (cut (phrase p) cs)

/-- A match, with its place in the text. -/
structure Found (α : Type) where
  /-- The offset in bytes. -/
  offset : Nat
  /-- What was found. -/
  value : α
  /-- The text of the match. -/
  source : List Char

/-- The matches among pieces, the first of which starts at the given offset. -/
def foundFrom : Nat → List (Piece α) → List (Found α)
  | _, [] => []
  | offset, .plain c :: rest => foundFrom (offset + c.utf8Size) rest
  | offset, .found value source :: rest =>
    { offset, value, source } :: foundFrom (offset + byteSize source) rest

/-- Every match of the pattern with its place, in order. -/
def findPlaces (m : Matcher α) (cs : List Char) : List (Found α) := foundFrom 0 (cut m cs)

/-- The offset in bytes of every occurrence of the nonempty phrase `p`, in order. -/
def occurrences (p cs : List Char) : List Nat := (findPlaces (phrase p) cs).map Found.offset

end Stencil.Text
