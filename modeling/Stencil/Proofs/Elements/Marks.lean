import Stencil.Markup.Scope

/-!
# Marks of controlled elements

A name is observed when an opening tag of it has a mark: the start of a control attribute, or of the
condition of an attribute.  Elements of any other name are left as they are.

## Main definitions

* `Unheeded` — elements of names that are not observed have no statements around them.

## Main results

* `openTagText_of_not_occurs`, `unheeded` — a tag without a mark stays as it is.
-/

namespace Stencil

open Text

variable {observed : List (List Char)}

section Marks

variable {α β : Type} {m : Matcher α} {m' : Matcher β} {cs : List Char}

/-- What occurs at the end of a text occurs in the text. -/
theorem occurs_append (a : List Char) (h : occurs m cs = true) : occurs m (a ++ cs) = true := by
  induction a with
  | nil => exact h
  | cons c a ih => rw [List.cons_append, occurs, ih, Bool.or_true]

theorem not_occurs_of_append {a : List Char} (h : occurs m (a ++ cs) = false) :
    occurs m cs = false := by
  refine Bool.eq_false_iff.mpr fun hcs => ?_
  rw [occurs_append a hcs] at h
  cases h

theorem occurs_cons {c : Char} (h : (m (c :: cs)).isSome = true) : occurs m (c :: cs) = true := by
  rw [occurs, h, Bool.true_or]

/-- A pattern does not occur where every match of it holds a match of another one. -/
theorem not_occurs_of_imp (himp : ∀ cs, (m cs).isSome = true → occurs m' cs = true)
    (h : occurs m' cs = false) : occurs m cs = false := by
  induction cs with
  | nil => rfl
  | cons c cs ih =>
    rw [occurs, Bool.or_eq_false_iff]
    constructor
    · refine Bool.eq_false_iff.mpr fun hm => ?_
      rw [himp _ hm] at h
      cases h
    · refine ih (Bool.eq_false_iff.mpr fun hm => ?_)
      have hcons : occurs m' ([c] ++ cs) = true := occurs_append [c] hm
      rw [List.singleton_append, h] at hcons
      cases hcons

end Marks

theorem startsWith_of_dropStart? {q cs rest : List Char} (h : dropStart? q cs = some rest) :
    startsWith q cs = true := by
  rw [startsWith, h]
  rfl

/-- A control attribute starts with a mark. -/
theorem isSome_controlMarkAt {cs : List Char} (h : (controlAttributeAt cs).isSome = true) :
    (controlMarkAt cs).isSome = true := by
  cases cs with
  | nil => cases h
  | cons c cs =>
    rw [controlAttributeAt] at h
    split at h
    next hb =>
      rw [controlMarkAt, hb]
      split at h
      next rest hloop =>
        rw [startsWith_of_dropStart? hloop]
        split <;> rfl
      next rest hcond _ =>
        rw [startsWith_of_dropStart? hcond]
        rfl
      next => cases h
    next => cases h

theorem controlMark_of_controlAttribute (cs : List Char)
    (h : (controlAttributeAt cs).isSome = true) : occurs controlMarkAt cs = true := by
  cases cs with
  | nil => cases h
  | cons c cs => exact occurs_cons (isSome_controlMarkAt h)

/-- An attribute under a condition has a mark. -/
theorem controlMark_of_conditionalAttribute (cs : List Char)
    (h : (conditionalAttributeAt cs).isSome = true) : occurs controlMarkAt cs = true := by
  cases cs with
  | nil => cases h
  | cons c cs =>
    rw [conditionalAttributeAt] at h
    split at h
    next =>
      simp only [] at h
      split at h
      next rest _ hrest =>
        split at h
        next value n _ =>
          split at h
          next d condition hcond =>
            have hmark : occurs controlMarkAt (rest.drop n) = true := by
              rw [dropStart?_eq_some_iff.mp hcond]
              rfl
            have hcs : c :: cs = c :: (cs.takeWhile isAttributeChar ++
                (['=', '\x22'] ++ (rest.take n ++ rest.drop n))) := by
              rw [List.take_append_drop, ← dropStart?_eq_some_iff.mp hrest,
                List.takeWhile_append_dropWhile]
            rw [hcs, ← List.singleton_append]
            exact occurs_append _ (occurs_append _ (occurs_append _ (occurs_append _ hmark)))
          next => cases h
        next => cases h
      next => cases h
    next => cases h

/-- An opening tag without a mark stays as it is. -/
theorem openTagText_of_not_occurs {source : List Char} (h : occurs controlMarkAt source = false) :
    controlAttributes source = [] ∧ openTagText source = source := by
  have hcontrol := not_occurs_of_imp controlMark_of_controlAttribute h
  have hconditional := not_occurs_of_imp controlMark_of_conditionalAttribute h
  constructor
  · have hfound : ∀ (cs : List Char) (offset : Nat),
        foundFrom offset (cs.map (Piece.plain (α := ControlAttribute))) = [] := by
      intro cs
      induction cs with
      | nil => exact fun _ => rfl
      | cons c cs ih => exact fun offset => ih _
    rw [controlAttributes, findPlaces, cut, cutFrom_of_not_occurs hcontrol]
    exact hfound source 0
  · rw [openTagText, removeMatches, replaceMatches_of_not_occurs _ hcontrol,
      replaceMatches_of_not_occurs _ hconditional]

/-- Elements of names that are not observed have no statements around them. -/
def Unheeded (observed : List (List Char)) (ps : List (Piece Tag)) : Prop :=
  ∀ tag source, .found tag source ∈ ps → tag.isClosing = false → tag.name ∉ observed →
    controlAttributes source = [] ∧ openTagText source = source

theorem Unheeded.mono {ps qs : List (Piece Tag)} (h : Unheeded observed ps)
    (hqs : ∀ p ∈ qs, p ∈ ps) : Unheeded observed qs :=
  fun tag source hmem => h tag source (hqs _ hmem)

theorem unheeded (ps : List (Piece Tag)) : Unheeded (ps.filterMap observedName?) ps := by
  intro tag source hmem hc hobs
  refine openTagText_of_not_occurs (Bool.eq_false_iff.mpr fun hm => hobs ?_)
  refine List.mem_filterMap.mpr ⟨_, hmem, ?_⟩
  simp [observedName?, hc, hm]

end Stencil
