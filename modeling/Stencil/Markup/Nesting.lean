/-!
# Nesting of control comments

Control comments open, continue and close blocks.  Reading them from left to right, a closer ends
the latest block that is open.  Comments that break the nesting are left out, so that what remains
is balanced.

## Main definitions

* `Nesting` — what a comment does to the blocks around it.
* `Imbalance` — why a comment breaks the nesting.
* `imbalances` — the verdict on every comment.
-/

namespace Stencil

/-- What a comment does to the blocks around it. -/
inductive Nesting where
  /-- Opens a block. -/
  | opens : Nesting
  /-- Closes the latest block that is open. -/
  | closes : Nesting
  /-- Stands inside of an open block. -/
  | inside : Nesting
  deriving DecidableEq

/-- Why a comment breaks the nesting. -/
inductive Imbalance where
  /-- It closes a block, and none is open. -/
  | neverOpened : Imbalance
  /-- It belongs into a block, and none is open. -/
  | outside : Imbalance
  /-- It opens a block that stays open. -/
  | neverClosed : Imbalance
  deriving DecidableEq

/-- How to mend an imbalance. -/
def Imbalance.help : Imbalance → String
  | neverOpened => "this closes a block that was never opened"
  | outside => "this only makes sense inside an open block"
  | neverClosed => "this block is never closed; add `<!--@end-->`"

/-- The verdicts on comments that follow `depth` open blocks, and how many of those blocks they
close. -/
def imbalancesFrom : Nat → List (Option Nesting) → List (Option Imbalance) × Nat
  | _, [] => ([], 0)
  | depth, none :: rest =>
    let (verdicts, closed) := imbalancesFrom depth rest
    (none :: verdicts, closed)
  | 0, some .inside :: rest =>
    let (verdicts, closed) := imbalancesFrom 0 rest
    (some .outside :: verdicts, closed)
  | depth + 1, some .inside :: rest =>
    let (verdicts, closed) := imbalancesFrom (depth + 1) rest
    (none :: verdicts, closed)
  | 0, some .closes :: rest =>
    let (verdicts, closed) := imbalancesFrom 0 rest
    (some .neverOpened :: verdicts, closed)
  | depth + 1, some .closes :: rest =>
    let (verdicts, closed) := imbalancesFrom depth rest
    (none :: verdicts, closed + 1)
  | depth, some .opens :: rest =>
    match imbalancesFrom (depth + 1) rest with
    | (verdicts, 0) => (some .neverClosed :: verdicts, 0)
    | (verdicts, closed + 1) => (none :: verdicts, closed)

/-- The verdict on every comment: why it breaks the nesting, if it does. -/
def imbalances (comments : List (Option Nesting)) : List (Option Imbalance) :=
  (imbalancesFrom 0 comments).1

end Stencil
