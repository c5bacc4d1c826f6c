import Stencil.Text.Case

/-!
# Cutting texts

Texts are lists of characters.  This module measures them in bytes and cuts them at a given
phrase.  Phrases are compared exactly, or without regard to case; in the second comparison the
Kelvin sign counts as a `k` and the long s as an `s`, as the simple case folding of Unicode has it.

## Main definitions

* `byteSize` — the length of a text in UTF-8.
* `dropStart?`, `dropStartFold?` — the rest of a text that starts with a phrase.
* `breakOn` — the parts before and after the first occurrence of a phrase.
* `breakLast` — the parts before and after the last occurrence of a character.
-/

namespace Stencil.Text

/-- The length in UTF-8 bytes. -/
def byteSize : List Char → Nat
  | [] => 0
  | c :: cs => c.utf8Size + byteSize cs

@[simp] theorem byteSize_nil : byteSize [] = 0 := rfl

@[simp] theorem byteSize_cons (c : Char) (cs : List Char) :
    byteSize (c :: cs) = c.utf8Size + byteSize cs := rfl

@[simp] theorem byteSize_append (cs ds : List Char) :
    byteSize (cs ++ ds) = byteSize cs + byteSize ds := by
  induction cs with
  | nil => simp
  | cons c cs ih => simp [ih, Nat.add_assoc]

theorem length_le_byteSize (cs : List Char) : cs.length ≤ byteSize cs := by
  induction cs with
  | nil => simp
  | cons c cs ih =>
    have := c.utf8Size_pos
    simp only [byteSize_cons, List.length_cons]
    omega

@[simp] theorem byteSize_toList (s : String) : byteSize s.toList = s.utf8ByteSize := by
  suffices h : ∀ cs : List Char, byteSize cs = (String.ofList cs).utf8ByteSize by
    rw [h, String.ofList_toList]
  intro cs
  induction cs with
  | nil => simp
  | cons c cs ih =>
    have h : String.ofList (c :: cs) = String.singleton c ++ String.ofList cs := by
      rw [String.singleton_eq_ofList, ← String.ofList_append]; rfl
    simp [h, String.utf8ByteSize_append, ih]

/-- The rest of the text after the phrase, when the text starts with it. -/
def dropStart? : List Char → List Char → Option (List Char)
  | [], cs => some cs
  | _ :: _, [] => none
  | a :: p, c :: cs => if a = c then dropStart? p cs else none

/-- Whether the text starts with the phrase. -/
def startsWith (p cs : List Char) : Bool := (dropStart? p cs).isSome

theorem dropStart?_eq_some_iff {p cs rest : List Char} :
    dropStart? p cs = some rest ↔ cs = p ++ rest := by
  induction p generalizing cs with
  | nil => simp [dropStart?, eq_comm]
  | cons a p ih =>
    cases cs with
    | nil => simp [dropStart?]
    | cons c cs =>
      by_cases h : a = c
      · simp [dropStart?, h, ih]
      · simp [dropStart?, h, Ne.symm h]

@[simp] theorem dropStart?_append (p rest : List Char) : dropStart? p (p ++ rest) = some rest :=
  dropStart?_eq_some_iff.mpr rfl

theorem startsWith_iff {p cs : List Char} : startsWith p cs = true ↔ p <+: cs := by
  simp only [startsWith, Option.isSome_iff_exists, dropStart?_eq_some_iff]
  exact ⟨fun ⟨rest, h⟩ => ⟨rest, h.symm⟩, fun ⟨rest, h⟩ => ⟨rest, h.symm⟩⟩

/-- Whether `c` is a form of the small letter or other sign `a`, case aside. -/
def isFormOf (a c : Char) : Bool :=
  asciiLower c = a || (a = 'k' && c.toNat = 0x212A) || (a = 's' && c.toNat = 0x17F)

/-- The rest of the text after the phrase, case aside.  The phrase is written small. -/
def dropStartFold? : List Char → List Char → Option (List Char)
  | [], cs => some cs
  | _ :: _, [] => none
  | a :: p, c :: cs => if isFormOf a c then dropStartFold? p cs else none

/-- The parts before and after the first occurrence of the phrase. -/
def breakOn (p : List Char) : List Char → Option (List Char × List Char)
  | [] => (dropStart? p []).map fun rest => ([], rest)
  | c :: cs =>
    match dropStart? p (c :: cs) with
    | some rest => some ([], rest)
    | none => (breakOn p cs).map fun (before, rest) => (c :: before, rest)

theorem breakOn_eq_some {p cs before rest : List Char} (h : breakOn p cs = some (before, rest)) :
    cs = before ++ p ++ rest := by
  induction cs generalizing before with
  | nil =>
    simp only [breakOn, Option.map_eq_some_iff, Prod.mk.injEq] at h
    obtain ⟨r, hr, rfl, rfl⟩ := h
    simpa using dropStart?_eq_some_iff.mp hr
  | cons c cs ih =>
    unfold breakOn at h
    split at h
    next r hr =>
      obtain ⟨rfl, rfl⟩ : [] = before ∧ r = rest := by simpa using h
      simpa using dropStart?_eq_some_iff.mp hr
    next =>
      simp only [Option.map_eq_some_iff, Prod.mk.injEq, Prod.exists] at h
      obtain ⟨b, r, hb, rfl, rfl⟩ := h
      simpa using ih hb

/-- Whether the phrase occurs. -/
def contains (p cs : List Char) : Bool := (breakOn p cs).isSome

/-- The parts before and after the last occurrence of the character. -/
def breakLast (c : Char) (cs : List Char) : Option (List Char × List Char) :=
  match cs.reverse.dropWhile (· ≠ c) with
  | [] => none
  | _ :: before => some (before.reverse, (cs.reverse.takeWhile (· ≠ c)).reverse)

/-- The text without the characters at both ends that satisfy `p`. -/
def stripBoth (p : Char → Bool) (cs : List Char) : List Char :=
  ((cs.dropWhile p).reverse.dropWhile p).reverse

end Stencil.Text
