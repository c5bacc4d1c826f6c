import Stencil.Proofs.Searching

/-!
# Islands that stand in a text

The islands of a text are read as the lexer reads them: an island ends where the lexer leaves code,
over string literals and comments.  A text holds islands when they stand in it, in order and apart
from each other, whatever stands between them.

## Main definitions

* `codeEnd`, `islandsOf` — the islands of a text.
* `Holds` — the islands stand in a text.
* `Straddles` — an island begins in one text and ends in the next.
* `ClosesOnce` — no other closing tag stands in an island.

## Main results

* `holds_islandsOf` — a text holds its islands.
* `Holds.split` — the islands of two texts side by side.
* `Holds.cutOut` — islands stay when a text between them is taken out.
-/

namespace Stencil

open Text Lexer

/-! ### Islands as the lexer reads them -/

/-- The number of characters up to and with the closing tag at which the lexer leaves code, of which
the next `n` are read already. -/
def codeEnd : Nat → List Char → Option Nat
  | _, [] => none
  | n + 1, _ :: cs => (codeEnd n cs).map (· + 1)
  | 0, c :: cs =>
    match step .code c cs with
    | .ok s => if s.mode = .text then some s.width else (codeEnd (s.width - 1) cs).map (· + 1)
    | .error _ => none

/-- The islands of a text, the next `n` characters of which are read already.  Code that the lexer
never leaves is no island. -/
def islandsFrom : Nat → List Char → List (List Char)
  | _, [] => []
  | n + 1, _ :: cs => islandsFrom n cs
  | 0, c :: cs =>
    match dropStart? openTag (c :: cs) with
    | some rest =>
      match codeEnd 0 rest with
      | some n => (c :: cs).take (n + openTag.length) :: islandsFrom (n + openTag.length - 1) cs
      | none => []
    | none => islandsFrom 0 cs

/-- The islands of a text. -/
def islandsOf (cs : List Char) : List (List Char) := islandsFrom 0 cs

/-- No closing tag stands in the island, but the one that ends it. -/
def ClosesOnce (i : List Char) : Prop :=
  ∃ code, i = openTag ++ (code ++ closeTag) ∧ breakOn closeTag code = none

/-- What stands between the tags of an island. -/
def islandCode (i : List Char) : List Char := (i.drop openTag.length).dropLast.dropLast

instance : DecidablePred ClosesOnce := fun i =>
  decidable_of_iff
    (i = openTag ++ (islandCode i ++ closeTag) ∧ breakOn closeTag (islandCode i) = none)
    ⟨fun h => ⟨_, h⟩, fun ⟨code, hi, hcode⟩ => by
      have hinner : islandCode i = code := by
        rw [hi, islandCode, List.drop_left]
        simp [closeTag, List.dropLast_append_of_ne_nil]
      rw [hinner]
      exact ⟨hi, hcode⟩⟩

/-! ### Texts that hold islands -/

/-- The islands stand in the text, in order and apart from each other. -/
inductive Holds : List (List Char) → List Char → Prop where
  /-- There are no more islands. -/
  | nil (cs : List Char) : Holds [] cs
  /-- A character in front of the islands. -/
  | skip {is : List (List Char)} {cs : List Char} (c : Char) (h : Holds is cs) : Holds is (c :: cs)
  /-- An island. -/
  | take {is : List (List Char)} {cs : List Char} (i : List Char) (h : Holds is cs) :
    Holds (i :: is) (i ++ cs)

/-- The island begins in the first text and ends in the second. -/
def Straddles (i a b : List Char) : Prop :=
  ∃ u v w z, u ≠ [] ∧ v ≠ [] ∧ i = u ++ v ∧ a = w ++ u ∧ b = v ++ z

variable {is js : List (List Char)} {i a b cs rest : List Char}

theorem Holds.behind (a : List Char) (h : Holds is cs) : Holds is (a ++ cs) := by
  induction a with
  | nil => exact h
  | cons c a ih => exact ih.skip c

theorem Holds.append (ha : Holds is a) (hb : Holds js b) : Holds (is ++ js) (a ++ b) := by
  induction ha with
  | nil cs => exact hb.behind cs
  | skip c _ ih => exact ih.skip c
  | take i _ ih =>
    rw [List.append_assoc]
    exact ih.take i

/-- Islands stand in one of two texts side by side, or one begins in the first and ends in the
second. -/
theorem Holds.split (h : Holds is (a ++ b)) :
    (∃ l r, is = l ++ r ∧ Holds l a ∧ Holds r b) ∨ ∃ i ∈ is, Straddles i a b := by
  generalize hcs : a ++ b = cs at h
  induction h generalizing a with
  | nil cs => exact .inl ⟨[], [], rfl, .nil a, .nil b⟩
  | @skip is cs c h ih =>
    cases a with
    | nil =>
      rw [List.nil_append] at hcs
      exact .inl ⟨[], is, rfl, .nil [], hcs ▸ h.skip c⟩
    | cons d a =>
      obtain ⟨rfl, hrest⟩ := List.cons.inj hcs
      rcases ih hrest with ⟨l, r, hlr, hl, hr⟩ | ⟨i, hi, u, v, w, z, hu, hv, huv, hw, hz⟩
      · exact .inl ⟨l, r, hlr, hl.skip d, hr⟩
      · exact .inr ⟨i, hi, u, v, d :: w, z, hu, hv, huv, by rw [hw, List.cons_append], hz⟩
  | @take is cs i h ih =>
    rcases List.append_eq_append_iff.mp hcs with ⟨t, rfl, hb⟩ | ⟨t, rfl, hrest⟩
    · -- the island does not end in the first text
      cases a with
      | nil => exact .inl ⟨[], t :: is, rfl, .nil [], hb ▸ h.take t⟩
      | cons d a =>
        cases t with
        | nil =>
          rw [List.append_nil]
          rw [List.nil_append] at hb
          refine .inl ⟨[d :: a], is, rfl, ?_, hb ▸ h⟩
          have hone := (Holds.nil []).take (d :: a)
          rwa [List.append_nil] at hone
        | cons e t =>
          exact .inr ⟨_, List.mem_cons_self, d :: a, e :: t, [], cs, List.cons_ne_nil d a,
            List.cons_ne_nil e t, rfl, rfl, hb⟩
    · rcases ih hrest.symm with ⟨l, r, rfl, hl, hr⟩ | ⟨j, hj, u, v, w, z, hu, hv, huv, hw, hz⟩
      · exact .inl ⟨i :: l, r, rfl, hl.take i, hr⟩
      · refine .inr ⟨j, List.mem_cons_of_mem i hj, u, v, i ++ w, z, hu, hv, huv, ?_, hz⟩
        rw [hw, List.append_assoc]

/-- A text holds its islands. -/
theorem holds_islandsOf (cs : List Char) : Holds (islandsOf cs) cs := by
  have hfrom : ∀ n, Holds (islandsFrom n cs) (cs.drop n) := by
    induction cs with
    | nil =>
      intro n
      cases n <;> exact .nil _
    | cons c cs ih =>
      intro n
      cases n with
      | succ n => exact ih n
      | zero =>
        rw [islandsFrom]
        split
        next rest hopen =>
          split
          next n hend =>
            have htake := (ih (n + openTag.length - 1)).take ((c :: cs).take (n + openTag.length))
            have hpos : n + openTag.length = n + openTag.length - 1 + 1 := by
              simp [openTag]
            have hdrop :
                cs.drop (n + openTag.length - 1) = (c :: cs).drop (n + openTag.length) := by
              rw [hpos]
              rfl
            rwa [hdrop, List.take_append_drop] at htake
          next => exact .nil _
        next => exact (ih 0).skip c
  exact hfrom 0

/-! ### Texts without islands -/

theorem ClosesOnce.opens (h : ClosesOnce i) : openTag <+: i := by
  obtain ⟨code, rfl, -⟩ := h
  exact List.prefix_append _ _

/-- Where no island opens there is none. -/
theorem Holds.eq_nil (h : Holds is a) (hcloses : ∀ i ∈ is, ClosesOnce i)
    (ha : contains openTag a = false) : is = [] := by
  rw [← Bool.not_eq_true, contains_iff_isInfix] at ha
  induction h with
  | nil => rfl
  | skip c _ ih => exact ih hcloses fun hinside => ha (hinside.trans (List.suffix_cons c _).isInfix)
  | take i _ _ =>
    have hopen := (hcloses i List.mem_cons_self).opens
    exact absurd (hopen.trans (List.prefix_append i _)).isInfix ha

/-- No island begins in a text in which none opens, when the text does not end like an opening
tag. -/
theorem not_straddles_of_not_contains (hcloses : ClosesOnce i) (ha : contains openTag a = false)
    (hlast : ∀ c ∈ a.getLast?, c ∉ openTag) : ¬ Straddles i a b := by
  rintro ⟨u, v, w, z, hu, -, huv, rfl, -⟩
  rw [← Bool.not_eq_true, contains_iff_isInfix] at ha
  rcases List.prefix_or_prefix_of_prefix hcloses.opens (huv ▸ List.prefix_append u v)
    with hopen | hopen
  · exact ha (hopen.isInfix.trans (List.suffix_append w u).isInfix)
  · refine hlast (u.getLast hu) ?_ (hopen.subset (List.getLast_mem hu))
    rw [List.getLast?_append, List.getLast?_eq_some_getLast hu]
    rfl

/-- **Islands stay when a text between them is taken out.** -/
theorem Holds.cutOut (h : Holds is (a ++ (b ++ rest))) (hcloses : ∀ i ∈ is, ClosesOnce i)
    (hstart : ∀ i ∈ is, ¬ Straddles i a (b ++ rest)) (hopen : contains openTag b = false)
    (hlast : ∀ c ∈ b.getLast?, c ∉ openTag) : Holds is (a ++ rest) := by
  rcases h.split with ⟨l, r, rfl, hl, hr⟩ | ⟨i, hi, hstraddles⟩
  · have hr_closes : ∀ i ∈ r, ClosesOnce i := fun i hi => hcloses i (List.mem_append_right l hi)
    rcases hr.split with ⟨l', r', rfl, hl', hr'⟩ | ⟨i, hi, hstraddles⟩
    · have hnil : l' = [] :=
        hl'.eq_nil (fun i hi => hr_closes i (List.mem_append_left r' hi)) hopen
      rw [hnil, List.nil_append]
      exact hl.append hr'
    · exact absurd hstraddles (not_straddles_of_not_contains (hr_closes i hi) hopen hlast)
  · exact absurd hstraddles (hstart i hi)

end Stencil
