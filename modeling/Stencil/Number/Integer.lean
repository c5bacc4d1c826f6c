/-!
# Machine integers

The integers of the script are the signed 64-bit words.  Results that do not fit are either
refused or pinned to the nearest word.

## Main definitions

* `fits?` — the word for an integer, if there is one.
* `pinned` — the nearest word.
* `increment`, `decrement` — the neighbours, pinned at the ends.
-/

namespace Stencil.Number

/-- The word for an integer, if there is one. -/
def fits? (i : Int) : Option Int64 :=
  if Int64.minValue.toInt ≤ i ∧ i ≤ Int64.maxValue.toInt then some (Int64.ofInt i) else none

/-- The word nearest to an integer. -/
def pinned (i : Int) : Int64 :=
  if i < Int64.minValue.toInt then Int64.minValue
  else if Int64.maxValue.toInt < i then Int64.maxValue
  else Int64.ofInt i

/-- The next word, the largest one being its own. -/
def increment (i : Int64) : Int64 := pinned (i.toInt + 1)

/-- The word before, the smallest one being its own. -/
def decrement (i : Int64) : Int64 := pinned (i.toInt - 1)

theorem toInt_of_fits? {i : Int} {w : Int64} (h : fits? i = some w) : w.toInt = i := by
  unfold fits? at h
  split at h
  next hi =>
    obtain rfl : Int64.ofInt i = w := by simpa using h
    exact Int64.toInt_ofInt_of_le hi.1 (Int.lt_add_one_of_le hi.2)
  next => simp at h

theorem fits?_toInt (w : Int64) : fits? w.toInt = some w := by
  have hl := Int64.le_toInt w
  have hu := Int64.toInt_lt w
  simp only [fits?]
  rw [if_pos ⟨hl, Int.le_of_lt_add_one hu⟩]
  simp

end Stencil.Number
