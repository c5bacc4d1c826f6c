import Stencil.Path.Basic
import Stencil.Text.Blank
import Stencil.Text.Letter

/-!
# Sources of images, inputs and scripts

The `src` attributes of these elements are relative to the directory of the template.  Compiled
templates are shown under other addresses, so the sources are taken from the directory as browsers
see it.

## Main definitions

* `collapseRepeated` — a path in which no run of directories is followed by itself.
* `assetPath` — a source taken from the directory of the template.
* `assetAt`, `resolveAssets` — the sources in a text.
-/

namespace Stencil

open Text

/-! ### Repeated directories -/

/-- Whether a segment is a plain name. -/
def isPlainName (s : Segment) : Bool :=
  ! s.isEmpty && s.all fun c => isAlphanumeric c || c = '_' || c = '-'

/-- Whether the first `n` segments are plain names and followed by the same ones. -/
def repeatsAt (segs : List Segment) (n : Nat) : Bool :=
  (segs.take n).all isPlainName && segs.take n == (segs.drop n).take n

/-- The length of the longest run, of at most `n` segments, that is followed by itself. -/
def repeatedRun : Nat → List Segment → Option Nat
  | 0, _ => none
  | n + 1, segs => if repeatsAt segs (n + 1) then some (n + 1) else repeatedRun n segs

theorem repeatedRun_pos {n k : Nat} {segs : List Segment} (h : repeatedRun n segs = some k) :
    0 < k := by
  induction n with
  | zero => simp [repeatedRun] at h
  | succ n ih =>
    unfold repeatedRun at h
    split at h
    · simp only [Option.some.injEq] at h
      omega
    · exact ih h

theorem repeatedRun_le {n k : Nat} {segs : List Segment} (h : repeatedRun n segs = some k) :
    k ≤ n := by
  induction n with
  | zero => simp [repeatedRun] at h
  | succ n ih =>
    unfold repeatedRun at h
    split at h
    · simp only [Option.some.injEq] at h
      omega
    · have := ih h
      omega

/-- Directories without runs that follow themselves, from the first one on and the longest runs
first. -/
def collapseRuns : List Segment → List Segment
  | [] => []
  | s :: rest =>
    match _h : repeatedRun ((rest.length + 1) / 2) (s :: rest) with
    | some n => collapseRuns ((s :: rest).take n ++ (s :: rest).drop (2 * n))
    | none => s :: collapseRuns rest
termination_by segs => segs.length
decreasing_by
  · have := repeatedRun_pos _h
    have := repeatedRun_le _h
    simp only [List.length_append, List.length_take, List.length_drop, List.length_cons]
    omega
  · simp

/-- The path in which no run of plain directories is followed by itself; the last segment is no
directory. -/
def collapseRepeated (p : Path) : Path :=
  let segs := splitText ['/'] p
  Path.joinSegments (collapseRuns segs.dropLast ++ segs.getLast?.toList)

/-! ### Sources -/

/-- A segment followed by a double point. -/
def parentStepAt : Matcher Unit := fun cs =>
  let name := cs.takeWhile (· ≠ '/')
  if ! name.isEmpty && startsWith "/../".toList (cs.dropWhile (· ≠ '/')) then
    some ((), name.length + 4)
  else none

/-- The path with segments before double points left out, `n` times at most. -/
def dropParentSteps : Nat → Path → Path
  | 0, p => p
  | n + 1, p =>
    let q := removeMatches parentStepAt p
    if q = p then p else dropParentSteps n q

/-- A source without points at its start. -/
def dropHere : List Char → List Char
  | '.' :: '/' :: cs => dropHere cs
  | cs => cs

/-- A source taken from the directory of the template. -/
def assetPath (webPath src : List Char) : Path :=
  let joined := replaceText "/./".toList ['/'] (webPath ++ dropHere src)
  let collapsed := collapseRepeated joined
  dropParentSteps collapsed.length collapsed

/-- Whether a source stays as it is: it has a host, starts at the root, or is an expression. -/
def isFixedSource (src : List Char) : Bool :=
  let small := src.map asciiLower
  startsWith "http://".toList small || startsWith "https://".toList small ||
    startsWith ['/'] src || startsWith ['\x7b'] src

/-- The elements whose sources are resolved. -/
def assetElements : List (List Char) := ["img".toList, "input".toList, "script".toList]

/-- The value of the first source attribute before the end of a tag, and the number of characters
before it. -/
def sourceValue : List Char → Option (List Char × Nat)
  | [] => none
  | c :: cs =>
    let here :=
      -- an empty value is passed over
      if isBlank c then
        (dropStartFold? "src=\x22".toList cs).bind fun rest =>
          match breakOn ['\x22'] rest with
          | some (v :: value, _) => some (v :: value, 6)
          | _ => none
      else none
    here.or <| if c = '>' then none else (sourceValue cs).map fun (value, n) => (value, n + 1)

/-- Whether a text does not go on with a word. -/
def endsWord : List Char → Bool
  | [] => true
  | c :: _ => ! isWord c

/-- A tag up to and with the value of its source: the text before the value, and the value. -/
def assetAt : Matcher (List Char × List Char)
  | '<' :: cs =>
    assetElements.findSome? fun name =>
      (dropStartFold? name cs).bind fun rest =>
        if endsWord rest then
          (sourceValue rest).map fun (value, n) =>
            let head := '<' :: cs.take (name.length + n)
            ((head, value), head.length + value.length)
        else none
  | _ => none

/-- The tag with its source taken from the directory of the template. -/
def resolveAsset (webPath : List Char) (asset : List Char × List Char) : List Char :=
  let src := trim asset.2
  asset.1 ++ if isFixedSource src then asset.2 else assetPath webPath src

/-- The text with the sources taken from the directory of the template. -/
def resolveAssets (webPath cs : List Char) : List Char :=
  replaceMatches assetAt (resolveAsset webPath) cs

end Stencil
