import Mathlib.Data.List.Basic
import Stencil.Proofs.Searching

/-!
# Inputs of forms

The fields that every form has are looked for in the text of its inputs.  They are found when their
name is written in double quotes, no angle bracket closes in front of it, and no other part of the
input reads as the name of a field.

## Main definitions

* `fieldPhrase` — the attribute that names a field.
* `fieldNameAt` — all that reads as the name of a field.
* `FieldInput`, `OtherInput`, `Input` — inputs with and without the name of a field.

## Main results

* `Input.identityInputAt_eq`, `Input.returnInputAt_eq` — the two patterns find the field of an
  input.
-/

namespace Stencil

open Text Lexer

variable {f g : List Char} {a b cs rest : List Char}

/-! ### Names of fields -/

/-- The fields of every form, in the order in which missing ones are added. -/
def formFields : List (List Char) := "error_return_url".toList :: identityFields

/-- The attribute that names a field, as it is looked for. -/
def fieldPhrase (field : List Char) : List Char := "name=\x22".toList ++ (field ++ ['\x22'])

/-- The value of an attribute, quoted or not. -/
def attributeValue : List Char → List Char
  | [] => []
  | c :: cs =>
    if c = '\x22' ∨ c = '\x27' then cs.takeWhile (· ≠ c)
    else (c :: cs).takeWhile fun d => ! isBlank d && d ≠ '>'

/-- Whether a text goes on, behind the name of an attribute, with a field as its value. -/
def valueIsField (cs : List Char) : Bool :=
  match dropStart? ['='] (cs.dropWhile isBlank) with
  | some value => formFields.any fun f => FormOf f (attributeValue (value.dropWhile isBlank))
  | none => false

/-- What reads as the name of a field, however it is quoted. -/
def fieldNameAt : Matcher Unit := fun cs =>
  (dropStartFold? "name".toList cs).bind fun rest =>
    if valueIsField rest then some ((), 5) else none

theorem plain_fieldPhrase (hf : f ∈ formFields) : ∀ x ∈ fieldPhrase f, x ≠ 'k' ∧ x ≠ 's' := by
  have hall : ∀ f ∈ formFields,
      (fieldPhrase f).all (fun x => decide (x ≠ 'k' ∧ x ≠ 's')) = true := by decide
  exact forall_mem_of_all (hall f hf)

theorem forall_ne_of_notMem {x : Char} (h : x ∉ a) : ∀ c ∈ a, decide (c ≠ x) = true := by
  intro c hc
  refine decide_eq_true ?_
  rintro rfl
  exact h hc

/-- No quote spells a letter of a field. -/
theorem notMem_quote_of_formOf (hf : f ∈ formFields) (h : FormOf f a) : '\x22' ∉ a := by
  intro hmem
  obtain ⟨x, hx, hform⟩ := h.exists_isFormOf _ hmem
  have hall : ∀ f ∈ formFields, f.all (fun x => decide (isFormOf x '\x22' = false)) = true := by
    decide
  rw [forall_mem_of_all (hall f hf) x hx] at hform
  cases hform

/-- The attribute that names a field reads as its name. -/
theorem fieldNameAt_of_fieldPhrase (hf : f ∈ formFields)
    (h : (phraseFold (fieldPhrase f) cs).isSome = true) : (fieldNameAt cs).isSome = true := by
  have hsplit : fieldPhrase f = "name".toList ++ ('=' :: '\x22' :: (f ++ ['\x22'])) := rfl
  rw [phraseFold, Option.isSome_map, Option.isSome_iff_exists, hsplit] at h
  obtain ⟨rest, hrest⟩ := h
  obtain ⟨q, hq, rfl⟩ := dropStartFold?_eq_some_iff.mp hrest
  obtain ⟨word, tail, rfl, hword, htail⟩ := formOf_append.mp hq
  obtain ⟨quoted, rfl, hquoted⟩ := htail.eq_cons (by decide)
  obtain ⟨tail, rfl, hfield⟩ := hquoted.eq_cons (by decide)
  obtain ⟨value, quote, rfl, hvalue, hquote⟩ := formOf_append.mp hfield
  obtain ⟨quote, rfl, hnil⟩ := hquote.eq_cons (by decide)
  have hread : attributeValue ('\x22' :: (value ++ '\x22' :: (quote ++ rest))) = value := by
    have hne := forall_ne_of_notMem (notMem_quote_of_formOf hf hvalue)
    rw [attributeValue, if_pos (.inl rfl), List.takeWhile_append_of_pos hne]
    simp
  have hbool : (formFields.any fun f => decide (FormOf f value)) = true :=
    List.any_eq_true.mpr ⟨f, hf, decide_eq_true hvalue⟩
  have hfield : valueIsField ('=' :: '\x22' :: (value ++ '\x22' :: (quote ++ rest))) = true := by
    rw [valueIsField, List.dropWhile_cons_of_neg (by decide)]
    simp only [dropStart?, if_true]
    rw [List.dropWhile_cons_of_neg (by decide), hread]
    exact hbool
  rw [fieldNameAt]
  simp only [List.append_assoc, List.cons_append, hword.dropStartFold?]
  simp [hfield]

theorem not_occurs_fieldPhrase (hf : f ∈ formFields) (h : occurs fieldNameAt cs = false) :
    occurs (phraseFold (fieldPhrase f)) cs = false := by
  refine not_occurs_of_imp (fun cs hm => ?_) h
  cases cs with
  | nil => cases hm
  | cons c cs => exact occurs_cons (fieldNameAt_of_fieldPhrase hf hm)

/-- A character that keeps an attribute apart from the next one. -/
def isAttributeGap (c : Char) : Bool := ! isNamePart c && c ≠ '=' && c ≠ '\x22'

theorem isAttributeGap_of_isBlank {c : Char} (h : isBlank c = true) : isAttributeGap c = true := by
  rw [isAttributeGap, isNamePart_of_isApart (isApart_of_isBlank h)]
  simp only [Bool.not_false, Bool.true_and, Bool.and_eq_true, decide_eq_true_eq]
  constructor
  · rintro rfl
    exact absurd h (by decide)
  · rintro rfl
    exact absurd h (by decide)

/-- Such a character is in no attribute that names a field. -/
theorem not_isFormOf_of_isAttributeGap (hf : f ∈ formFields) {d : Char}
    (hd : isAttributeGap d = true) : ∀ x ∈ fieldPhrase f, isFormOf x d = false := by
  intro x hx
  refine Bool.eq_false_iff.mpr fun hform => ?_
  have hplain := plain_fieldPhrase hf x hx
  simp only [isFormOf, hplain, decide_false, Bool.false_and, Bool.or_false,
    decide_eq_true_eq] at hform
  by_cases hc : 65 ≤ d.toNat ∧ d.toNat ≤ 90
  · have hletter : isNamePart d = true := by
      simp [isNamePart, isAsciiAlnum, isAsciiLetter, hc]
    rw [isAttributeGap, hletter] at hd
    cases hd
  · rw [asciiLower_of_not hc] at hform
    have hall : ∀ f ∈ formFields,
        (fieldPhrase f).all (fun x => decide (isAttributeGap x = false)) = true := by decide
    rw [hform, forall_mem_of_all (hall f hf) x hx] at hd
    cases hd

/-- The attribute of a field reaches into no text behind such a character. -/
theorem severs_fieldPhrase (hf : f ∈ formFields) (hb : ∀ c ∈ b.head?, isAttributeGap c = true) :
    Severs (fieldPhrase f) a b :=
  .inl fun x hx d hd => not_isFormOf_of_isAttributeGap hf (hb d hd) x (List.mem_of_mem_tail hx)

/-! ### Inputs -/

/-- An input neither holds another one nor the end of a form; `inner` is what stands between the
word that opens it and its last angle bracket. -/
def StaysInside (opening inner : List Char) : Prop :=
  occurs (phraseFold "<input".toList) inner = false ∧
    occurs (phraseFold "</form>".toList) (opening ++ (inner ++ ['>'])) = false

instance (opening inner : List Char) : Decidable (StaysInside opening inner) :=
  inferInstanceAs (Decidable (_ ∧ _))

/-- An input that is named for one of the fields. -/
structure FieldInput where
  /-- The word that opens it. -/
  opening : List Char
  /-- What stands in front of its name. -/
  before : List Char
  /-- The blank in front of its name. -/
  blank : Char
  /-- The field. -/
  field : List Char
  /-- The attribute with its name. -/
  named : List Char
  /-- What stands behind its name. -/
  after : List Char
  isOpening : FormOf "<input".toList opening
  isBlank : Text.isBlank blank = true
  isField : field ∈ formFields
  isNamed : FormOf (fieldPhrase field) named
  before_apart : ∀ c ∈ before.head?, Text.isBlank c = true
  before_open : '>' ∉ before
  before_nameless : occurs fieldNameAt before = false
  after_apart : ∀ c ∈ after.head?, isAttributeGap c = true
  after_nameless : occurs fieldNameAt after = false
  inside : StaysInside opening (before ++ blank :: (named ++ after))

/-- An input that is named for none of the fields. -/
structure OtherInput where
  /-- The word that opens it. -/
  opening : List Char
  /-- The rest without the last angle bracket. -/
  inner : List Char
  isOpening : FormOf "<input".toList opening
  nameless : occurs fieldNameAt inner = false
  inside : StaysInside opening inner

/-- What stands behind the word that opens the input, without the last angle bracket. -/
def FieldInput.inner (t : FieldInput) : List Char := t.before ++ t.blank :: (t.named ++ t.after)

/-- An input. -/
inductive Input where
  /-- One that is named for a field. -/
  | field (t : FieldInput) : Input
  /-- Any other one. -/
  | other (t : OtherInput) : Input

namespace Input

/-- The word that opens the input. -/
def opening : Input → List Char
  | field t => t.opening
  | other t => t.opening

/-- What stands behind that word, without the last angle bracket. -/
def inner : Input → List Char
  | field t => t.inner
  | other t => t.inner

/-- The field that the input is named for. -/
def field? : Input → Option (List Char)
  | field t => some t.field
  | other _ => none

/-- The text of the input. -/
def text (t : Input) : List Char := t.opening ++ (t.inner ++ ['>'])

theorem isOpening (t : Input) : FormOf "<input".toList t.opening := by
  cases t with
  | field t => exact t.isOpening
  | other t => exact t.isOpening

theorem inside (t : Input) : StaysInside t.opening t.inner := by
  cases t with
  | field t => exact t.inside
  | other t => exact t.inside

end Input

/-! ### Finding names -/

/-- An attribute starts with a letter of its name. -/
theorem FieldInput.named_eq_cons (t : FieldInput) :
    ∃ c cs, t.named = c :: cs ∧ c ≠ '>' ∧ Text.isBlank c = false ∧
      ∀ g ∈ formFields, Misses (phraseFold (fieldPhrase g)) cs t.after := by
  have hlen : 0 < t.named.length := t.isNamed.length ▸ Nat.succ_pos _
  obtain ⟨c, cs, hcs⟩ := List.exists_cons_of_ne_nil (List.ne_nil_of_length_pos hlen)
  have hlower := t.isNamed.map_asciiLower (plain_fieldPhrase t.isField)
  rw [hcs] at hlower
  have hc : asciiLower c = 'n' := (List.cons.inj hlower).1
  refine ⟨c, cs, hcs, ?_, ?_, fun g hg => ?_⟩
  · rintro rfl
    exact absurd hc (by decide)
  · refine Bool.eq_false_iff.mpr fun hblank => ?_
    have hn : 'n' ∈ fieldPhrase t.field := List.mem_append_left _ (by decide)
    have hform := not_isFormOf_of_isAttributeGap t.isField (isAttributeGap_of_isBlank hblank) _ hn
    simp [isFormOf, hc] at hform
  · refine misses_phraseFold ?_ (severs_fieldPhrase hg t.after_apart)
    have hall : ∀ f ∈ formFields, ∀ g ∈ formFields,
        occurs (phraseFold (fieldPhrase g)) (fieldPhrase f).tail = false := by decide
    rw [← occurs_phraseFold_map (plain_fieldPhrase hg)]
    have htail : cs.map asciiLower = (fieldPhrase t.field).tail := (List.cons.inj hlower).2
    rw [htail]
    exact hall _ t.isField g hg

theorem FieldInput.blank_open (t : FieldInput) : '>' ∉ [t.blank] := by
  intro hmem
  have hb := t.isBlank
  rw [← List.mem_singleton.mp hmem] at hb
  exact absurd hb (by decide)

theorem FieldInput.named_open (t : FieldInput) : '>' ∉ t.named := by
  intro hmem
  obtain ⟨x, hx, hform⟩ := t.isNamed.exists_isFormOf _ hmem
  rw [not_isFormOf_of_isAttributeGap t.isField (by decide) x hx] at hform
  cases hform

/-- No field is found in front of the name of an input. -/
theorem FieldInput.misses_before (t : FieldInput) (hg : g ∈ formFields) (rest : List Char) :
    Misses (phraseFold (fieldPhrase g)) (t.before ++ [t.blank]) rest := by
  have hgap : isAttributeGap t.blank = true := isAttributeGap_of_isBlank t.isBlank
  refine misses_append.mpr ⟨?_, ?_⟩
  · refine misses_phraseFold (not_occurs_fieldPhrase hg t.before_nameless) ?_
    refine severs_fieldPhrase hg fun c hc => ?_
    cases hc
    exact hgap
  · refine misses_phraseFold ?_ (.inr fun x hx d hd => ?_)
    · have hn : isFormOf 'n' t.blank = false :=
        not_isFormOf_of_isAttributeGap hg hgap 'n' (List.mem_append_left _ (by decide))
      have hsplit : fieldPhrase g = 'n' :: (fieldPhrase g).tail := rfl
      rw [occurs, phraseFold, hsplit, dropStartFold?, hn]
      rfl
    · cases hd
      exact not_isFormOf_of_isAttributeGap hg hgap x (List.dropLast_subset _ hx)

/-- The only field that occurs in the name of an input is its own. -/
theorem FieldInput.occurs_inner (t : FieldInput) (hg : g ∈ formFields) :
    occurs (phraseFold (fieldPhrase g)) t.inner = decide (t.field = g) := by
  have hinner : t.inner = (t.before ++ [t.blank]) ++ (t.named ++ t.after) := by
    simp [FieldInput.inner]
  rw [hinner, (t.misses_before hg _).occurs]
  by_cases hfield : t.field = g
  · subst hfield
    obtain ⟨c, cs, hcs, -⟩ := t.named_eq_cons
    have hfound : (phraseFold (fieldPhrase t.field) (t.named ++ t.after)).isSome = true := by
      rw [phraseFold, t.isNamed.dropStartFold?]
      rfl
    rw [hcs, List.cons_append] at hfound ⊢
    rw [occurs_cons hfound, decide_eq_true rfl]
  · have hnamed : Misses (phraseFold (fieldPhrase g)) t.named t.after := by
      refine misses_phraseFold ?_ (severs_fieldPhrase hg t.after_apart)
      have hall : ∀ f ∈ formFields, ∀ g ∈ formFields, f ≠ g →
          occurs (phraseFold (fieldPhrase g)) (fieldPhrase f) = false := by decide
      rw [← occurs_phraseFold_map (plain_fieldPhrase hg),
        t.isNamed.map_asciiLower (plain_fieldPhrase t.isField)]
      exact hall _ t.isField g hg hfield
    rw [hnamed.occurs, not_occurs_fieldPhrase hg t.after_nameless, decide_eq_false hfield]

/-- The fields that occur in an input are its own. -/
theorem Input.occurs_inner (t : Input) (hg : g ∈ formFields) :
    occurs (phraseFold (fieldPhrase g)) t.inner = decide (t.field? = some g) := by
  cases t with
  | field t => simp [Input.inner, Input.field?, t.occurs_inner hg]
  | other t => simp [Input.inner, Input.field?, not_occurs_fieldPhrase hg t.nameless]

/-! ### The pattern of identifying fields -/

theorem identityNameAt_cons (c : Char) (cs : List Char) :
    identityNameAt (c :: cs) =
      if isBlank c then
        identityFields.findSome? fun f => (dropStartFold? (fieldPhrase f) cs).map fun _ => (f, 11)
      else none := by
  rw [identityNameAt]
  split
  next =>
    have hsplit : ∀ f, dropStartFold? (fieldPhrase f) cs =
        (dropStartFold? "name=\x22".toList cs).bind (dropStartFold? (f ++ ['\x22'])) :=
      fun f => dropStartFold?_append _ _ cs
    simp only [hsplit]
    cases dropStartFold? "name=\x22".toList cs with
    | none =>
      symm
      exact List.findSome?_eq_none_iff.mpr fun _ _ => rfl
    | some rest => rfl
  next => rfl

/-- A text without the attribute of an identifying field has none. -/
theorem lastIdentity_eq_none
    (h : ∀ g ∈ identityFields, occurs (phraseFold (fieldPhrase g)) cs = false) :
    lastIdentity cs = none := by
  induction cs with
  | nil => rfl
  | cons c cs ih =>
    have htail : ∀ g ∈ identityFields, occurs (phraseFold (fieldPhrase g)) cs = false :=
      fun g hg => (Bool.or_eq_false_iff.mp (h g hg)).2
    have hhead : identityNameAt (c :: cs) = none := by
      rw [identityNameAt_cons]
      split
      next =>
        refine List.findSome?_eq_none_iff.mpr fun g hg => ?_
        cases cs with
        | nil => rfl
        | cons d cs =>
          have hcs := (Bool.or_eq_false_iff.mp (htail g hg)).1
          simpa [phraseFold] using hcs
      next => rfl
    rw [lastIdentity, ih htail, hhead, ite_self]

theorem lastIdentity_append {x : List Char × Nat} (ha : '>' ∉ a)
    (h : lastIdentity b = some x) : lastIdentity (a ++ b) = some (x.1, x.2 + a.length) := by
  induction a with
  | nil => exact h
  | cons c a ih =>
    rw [List.mem_cons, not_or] at ha
    rw [List.cons_append, lastIdentity, if_neg (Ne.symm ha.1), ih ha.2, List.length_cons]
    rfl

/-- No name is read past the end of a tag. -/
theorem lastIdentity_close (a rest : List Char) :
    lastIdentity (a ++ '>' :: rest) = lastIdentity a := by
  have hphrase : ∀ f ∈ identityFields, ∀ x ∈ fieldPhrase f, ∀ d ∈ ('>' :: rest).head?,
      isFormOf x d = false := by
    intro f hf x hx d hd
    cases hd
    exact not_isFormOf_of_isAttributeGap (List.mem_cons_of_mem _ hf) (by decide) x hx
  induction a with
  | nil => rfl
  | cons c a ih =>
    have hhead : identityNameAt (c :: (a ++ '>' :: rest)) = identityNameAt (c :: a) := by
      rw [identityNameAt_cons, identityNameAt_cons]
      congr 1
      rw [← List.head?_filterMap, ← List.head?_filterMap]
      congr 1
      refine List.filterMap_congr fun f hf => ?_
      rw [dropStartFold?_append_of_notMem (hphrase f hf), Option.map_map]
      rfl
    rw [List.cons_append, lastIdentity, lastIdentity, ih, hhead]

theorem FieldInput.lastIdentity_inner (t : FieldInput) (hf : t.field ∈ identityFields) :
    lastIdentity t.inner = some (t.field, 11 + t.before.length) := by
  obtain ⟨c, cs, hcs, hclose, hblank, hmisses⟩ := t.named_eq_cons
  have hrest : lastIdentity (cs ++ t.after) = none := by
    refine lastIdentity_eq_none fun g hg => ?_
    have hg : g ∈ formFields := List.mem_cons_of_mem _ hg
    rw [(hmisses g hg).occurs, not_occurs_fieldPhrase hg t.after_nameless]
  have hnamed : lastIdentity (t.named ++ t.after) = none := by
    rw [hcs, List.cons_append, lastIdentity, if_neg hclose, hrest, identityNameAt_cons, hblank]
    rfl
  refine lastIdentity_append t.before_open (x := (t.field, 11)) ?_
  have hne : t.blank ≠ '>' := fun heq => t.blank_open (heq ▸ List.mem_singleton_self _)
  rw [lastIdentity, if_neg hne, hnamed, identityNameAt_cons, if_pos t.isBlank]
  have hfound : (dropStartFold? (fieldPhrase t.field) (t.named ++ t.after)).map
      (fun _ => (t.field, 11)) = some (t.field, 11) := by
    rw [t.isNamed.dropStartFold?]
    rfl
  cases hsome : identityFields.findSome? fun f =>
      (dropStartFold? (fieldPhrase f) (t.named ++ t.after)).map fun _ => (f, 11) with
  | none =>
    have hnone := List.findSome?_eq_none_iff.mp hsome t.field hf
    rw [hfound] at hnone
    cases hnone
  | some x =>
    obtain ⟨g, hg, hx⟩ := List.exists_of_findSome?_eq_some hsome
    obtain ⟨rest, hrest, rfl⟩ := Option.map_eq_some_iff.mp hx
    -- no other field occurs in the input
    have hoccurs : occurs (phraseFold (fieldPhrase g)) (t.named ++ t.after) = true := by
      rw [hcs, List.cons_append] at hrest ⊢
      refine occurs_cons ?_
      rw [phraseFold, hrest]
      rfl
    have hinner := t.occurs_inner (List.mem_cons_of_mem _ hg)
    rw [FieldInput.inner, ← List.singleton_append,
      occurs_append _ (occurs_append _ hoccurs)] at hinner
    rw [of_decide_eq_true hinner.symm]

/-! ### The patterns of inputs -/

/-- No other input starts in a text that stays inside of an input. -/
theorem misses_opening (h : occurs (phraseFold "<input".toList) a = false) (rest : List Char) :
    Misses (phraseFold "<input".toList) (a ++ ['>']) rest := by
  refine misses_append.mpr ⟨misses_phraseFold h (.inl fun x hx d hd => ?_), ?_⟩
  · cases hd
    have hall : ∀ x ∈ "<input".toList.tail, isFormOf x '>' = false :=
      forall_mem_of_all (by decide)
    exact hall x hx
  · exact misses_phraseFold_of_head (by simp; decide)

theorem identityInputAt_eq_none (h : phraseFold "<input".toList cs = none) :
    identityInputAt cs = none := by
  rw [phraseFold, Option.map_eq_none_iff] at h
  rw [identityInputAt, h]
  rfl

theorem returnInputAt_eq_none (h : phraseFold "<input".toList cs = none) :
    returnInputAt cs = none := by
  rw [phraseFold, Option.map_eq_none_iff] at h
  rw [returnInputAt, h]

namespace Input

theorem identityInputAt_text (t : Input) (rest : List Char) :
    identityInputAt (t.text ++ rest) = (lastIdentity t.inner).map fun x => (x.1, x.2 + 6) := by
  rw [identityInputAt, text, List.append_assoc, t.isOpening.dropStartFold?]
  rw [List.append_assoc, List.singleton_append, Option.bind_some, lastIdentity_close]

/-- The word that opens an input is behind its first character no longer looked for. -/
theorem text_eq_cons (t : Input) : ∃ cs, t.text = '<' :: cs ∧
    ∀ rest, Misses (phraseFold "<input".toList) cs rest := by
  have hsplit : "<input".toList = '<' :: "input".toList := rfl
  have hopening := t.isOpening
  rw [hsplit] at hopening
  obtain ⟨word, hword, hforms⟩ := hopening.eq_cons (by decide)
  rw [hsplit]
  refine ⟨word ++ (t.inner ++ ['>']), by rw [text, hword]; rfl, fun rest => ?_⟩
  refine misses_append.mpr
    ⟨misses_phraseFold_of_head fun c hc => ?_, misses_opening t.inside.1 rest⟩
  obtain ⟨x, hx, hform⟩ := hforms.exists_isFormOf c hc
  refine Bool.eq_false_iff.mpr fun hangle => ?_
  rw [eq_of_isFormOf (by decide) hangle] at hform
  have hall : ∀ x ∈ "input".toList, isFormOf x '<' = false := forall_mem_of_all (by decide)
  rw [hall x hx] at hform
  cases hform

/-- Nothing is found in an input that is named for no identifying field. -/
theorem findAll_of_other (t : Input) (hother : ∀ f ∈ identityFields, t.field? ≠ some f)
    (rest : List Char) :
    findAll identityInputAt (t.text ++ rest) = findAll identityInputAt rest := by
  obtain ⟨cs, hcs, hmisses⟩ := t.text_eq_cons
  have hnone : lastIdentity t.inner = none := by
    refine lastIdentity_eq_none fun g hg => ?_
    rw [t.occurs_inner (List.mem_cons_of_mem _ hg), decide_eq_false (hother g hg)]
  have hhead : identityInputAt (t.text ++ rest) = none := by
    rw [t.identityInputAt_text, hnone]
    rfl
  rw [hcs] at hhead ⊢
  exact Misses.findAll ⟨hhead, (hmisses rest).imp fun cs => identityInputAt_eq_none⟩

/-- The field of an input is found, and the input is read up to the end of its name. -/
theorem findAll_of_field (t : FieldInput) (hf : t.field ∈ identityFields) (rest : List Char) :
    findAll identityInputAt ((field t).text ++ rest) =
      t.field :: findAll identityInputAt rest := by
  have hsplit : (field t).text =
      (t.opening ++ (t.before ++ t.blank :: t.named)) ++ (t.after ++ ['>']) := by
    simp [text, opening, inner, FieldInput.inner]
  have hlen : (t.opening ++ (t.before ++ t.blank :: t.named)).length =
      11 + t.before.length + 6 := by
    have hall : ∀ f ∈ identityFields, (fieldPhrase f).length = 10 := by decide
    have hname := hall _ hf
    have hword : "<input".toList.length = 6 := rfl
    have hopening := t.isOpening.length
    have hnamed := t.isNamed.length
    simp only [List.length_append, List.length_cons]
    omega
  have hmisses : Misses (phraseFold "<input".toList) (t.after ++ ['>']) rest := by
    refine misses_opening ?_ rest
    have hinside : occurs (phraseFold "<input".toList)
        (t.before ++ (t.blank :: t.named ++ t.after)) = false := t.inside.1
    exact not_occurs_of_append (not_occurs_of_append hinside)
  have hfound := (field t).identityInputAt_text rest
  rw [inner, t.lastIdentity_inner hf, Option.map_some, ← hlen, hsplit, List.append_assoc] at hfound
  rw [hsplit, List.append_assoc]
  exact findAll_found (by simp) hfound (hmisses.imp fun cs => identityInputAt_eq_none)

/-- **The pattern of identifying fields finds the field of an input.** -/
theorem findAll_identityInputAt (t : Input) (rest : List Char) :
    findAll identityInputAt (t.text ++ rest) =
      (t.field?.filter (· ∈ identityFields)).toList ++ findAll identityInputAt rest := by
  cases t with
  | other t => exact findAll_of_other (other t) (fun f _ h => by cases h) rest
  | field t =>
    by_cases hf : t.field ∈ identityFields
    · rw [findAll_of_field t hf, field?, Option.filter_some, decide_eq_true hf]
      rfl
    · have hnone : ∀ f ∈ identityFields, (Input.field t).field? ≠ some f := by
        rintro f hmem ⟨⟩
        exact hf hmem
      rw [findAll_of_other (field t) hnone, field?, Option.filter_some, decide_eq_false hf]
      rfl

/-- What the pattern of addresses reads of an input. -/
theorem takeWhile_inner (t : Input) (rest : List Char) :
    (t.inner ++ '>' :: rest).takeWhile (· ≠ '>') = t.inner.takeWhile (· ≠ '>') := by
  induction t.inner with
  | nil => rfl
  | cons c cs ih =>
    rw [List.cons_append, List.takeWhile_cons, List.takeWhile_cons, ih]

/-- The address is named in what is read of an input when it is the field of the input. -/
theorem occurs_takeWhile_inner (t : Input) :
    occurs (phraseFold "name=\x22error_return_url\x22".toList) (t.inner.takeWhile (· ≠ '>')) =
      decide (t.field? = some "error_return_url".toList) := by
  have hphrase : "name=\x22error_return_url\x22".toList =
      fieldPhrase "error_return_url".toList := rfl
  have hmem : "error_return_url".toList ∈ formFields := List.mem_cons_self
  rw [hphrase]
  by_cases hfield : t.field? = some "error_return_url".toList
  · rw [decide_eq_true hfield]
    cases t with
    | other t => cases hfield
    | field t =>
      have hfield : t.field = "error_return_url".toList := Option.some.inj hfield
      have hread : (t.before ++ ([t.blank] ++ (t.named ++ t.after))).takeWhile (· ≠ '>') =
          t.before ++ ([t.blank] ++ (t.named ++ t.after.takeWhile (· ≠ '>'))) := by
        rw [List.takeWhile_append_of_pos (forall_ne_of_notMem t.before_open),
          List.takeWhile_append_of_pos (forall_ne_of_notMem t.blank_open),
          List.takeWhile_append_of_pos (forall_ne_of_notMem t.named_open)]
      have hfound : (phraseFold (fieldPhrase t.field)
          (t.named ++ t.after.takeWhile (· ≠ '>'))).isSome = true := by
        rw [phraseFold, t.isNamed.dropStartFold?]
        rfl
      have hinner : (Input.field t).inner = t.before ++ ([t.blank] ++ (t.named ++ t.after)) := rfl
      rw [hinner, hread, ← hfield]
      refine occurs_append _ (occurs_append _ ?_)
      obtain ⟨c, cs, hcs, -⟩ := t.named_eq_cons
      rw [hcs, List.cons_append] at hfound ⊢
      exact occurs_cons hfound
  · rw [decide_eq_false hfield]
    refine Bool.eq_false_iff.mpr fun hoccurs => ?_
    have hinner := occurs_phraseFold_append (b := t.inner.dropWhile (· ≠ '>')) hoccurs
    rw [List.takeWhile_append_dropWhile, t.occurs_inner hmem] at hinner
    exact hfield (of_decide_eq_true hinner)

theorem isSome_returnInputAt (t : Input) (rest : List Char) :
    (returnInputAt (t.text ++ rest)).isSome =
      decide (t.field? = some "error_return_url".toList) := by
  have hlen : (t.inner.takeWhile (· ≠ '>')).length < (t.inner ++ '>' :: rest).length := by
    have hle := (List.takeWhile_sublist (· ≠ '>') (l := t.inner)).length_le
    rw [List.length_append, List.length_cons]
    omega
  rw [returnInputAt, text, List.append_assoc, t.isOpening.dropStartFold?, List.append_assoc,
    List.singleton_append]
  simp only [t.takeWhile_inner, t.occurs_takeWhile_inner, decide_eq_true hlen, Bool.true_and]
  generalize decide (t.field? = some "error_return_url".toList) = isReturn
  cases isReturn <;> rfl

/-- **The pattern of addresses finds an input that is named for the address.** -/
theorem occurs_returnInputAt (t : Input) (rest : List Char) :
    occurs returnInputAt (t.text ++ rest) =
      (decide (t.field? = some "error_return_url".toList) || occurs returnInputAt rest) := by
  obtain ⟨cs, hcs, hmisses⟩ := t.text_eq_cons
  have hhead := t.isSome_returnInputAt rest
  rw [hcs, List.cons_append] at hhead ⊢
  rw [occurs, hhead, ((hmisses rest).imp fun cs => returnInputAt_eq_none).occurs]

end Input

end Stencil
