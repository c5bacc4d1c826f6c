/-!
# Sets of code points

A set of code points is written as the increasing list of its boundaries: the first element,
one past the last element of its first run, the first element of the second run, and so on.
This is the shape in which character properties are tabulated.

## Main definitions

* `inRanges` — whether a code point lies in the set with the given boundaries.
-/

namespace Stencil.Text

/-- Whether `n` lies in the set with these boundaries. -/
def inRanges : List Nat → Nat → Bool
  | lo :: hi :: rest, n => if n < lo then false else if n < hi then true else inRanges rest n
  | _, _ => false

@[simp] theorem inRanges_nil (n : Nat) : inRanges [] n = false := rfl

end Stencil.Text
