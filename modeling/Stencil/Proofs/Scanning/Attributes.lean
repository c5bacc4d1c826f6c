import Stencil.Markup.Attribute
import Stencil.Proofs.Collecting
import Stencil.Proofs.Cutting

/-!
# Attributes written one after another

An attribute with a value is found as a whole, so whatever its value looks like is passed over.  An
attribute with the empty value is found nowhere: what can start an attribute is the sign in front of
it alone, and there the search fails at the quote that follows directly on the first one.  Reading
goes on behind the attribute in both cases.

## Main definitions

* `GivenAttribute` — a name and a value that can stand between double quotes.
* `GivenAttribute.text` — the attribute as it is written.

## Main results

* `findAll_texts` — the attributes with a value are found in order, and nothing else.
* `attributesOf_texts` — **written attributes are read back.**
-/

namespace Stencil

open Text Lexer

/-- The sign that is written in front of an attribute. -/
def AttributeStyle.sign : AttributeStyle → Char
  | tag => ' '
  | comment => ','

/-- A name of letters, digits and low lines, and a value that fits between double quotes. -/
structure GivenAttribute where
  /-- The name. -/
  name : List Char
  /-- The value. -/
  value : List Char
  name_ne_nil : name ≠ []
  isName : ∀ c ∈ name, isNamePart c = true
  fits : '\x22' ∉ value

variable {style : AttributeStyle} {c : Char}

theorem isWord_of_isNamePart (h : isNamePart c = true) : isWord c = true := by
  rw [isNamePart, Bool.or_eq_true, decide_eq_true_eq] at h
  rcases h with h | rfl
  · exact isWord_of_isAsciiAlnum h
  · decide

/-- An attribute starts with a blank or a comma. -/
theorem attributeAt_eq_none (hb : isBlank c = false) (hc : c ≠ ',') (cs : List Char) :
    attributeAt style (c :: cs) = none := by
  cases style with
  | tag => simp [attributeAt, hb]
  | comment => simp [attributeAt, hc]

namespace GivenAttribute

/-- The name with the value. -/
def entry (attr : GivenAttribute) : List Char × List Char := (attr.name, attr.value)

/-- The attribute as it is written. -/
def text (style : AttributeStyle) (attr : GivenAttribute) : List Char :=
  style.sign :: (attr.name ++ '=' :: '\x22' :: (attr.value ++ ['\x22']))

/-- What the attribute is cut into. -/
def pieces (style : AttributeStyle) (attr : GivenAttribute) :
    List (Piece (List Char × List Char)) :=
  if attr.value = [] then (attr.text style).map .plain else [.found attr.entry (attr.text style)]

variable (style : AttributeStyle) (attr : GivenAttribute) (rest : List Char)

theorem takeWhile_name : (attr.name ++ '=' :: rest).takeWhile isWord = attr.name ∧
    (attr.name ++ '=' :: rest).dropWhile isWord = '=' :: rest :=
  takeWhile_append_head (fun c hc => isWord_of_isNamePart (attr.isName c hc))
    (by rintro _ ⟨⟩; decide)

theorem takeWhile_value : (attr.value ++ '\x22' :: rest).takeWhile (· ≠ '\x22') = attr.value ∧
    (attr.value ++ '\x22' :: rest).dropWhile (· ≠ '\x22') = '\x22' :: rest :=
  takeWhile_append_head (fun c hc => decide_eq_true fun he => attr.fits (he ▸ hc))
    (by rintro _ ⟨⟩; decide)

theorem namedValue_text :
    namedValue (attr.name ++ '=' :: '\x22' :: (attr.value ++ '\x22' :: rest)) =
      if attr.value = [] then none
      else some (attr.entry, attr.name.length + attr.value.length + 3) := by
  obtain ⟨hname, hequals⟩ := attr.takeWhile_name ('\x22' :: (attr.value ++ '\x22' :: rest))
  obtain ⟨hvalue, hquote⟩ := attr.takeWhile_value rest
  rw [namedValue, hname, hequals]
  simp only [hvalue, hquote, List.isEmpty_cons, Bool.or_false, Bool.or_eq_true,
    List.isEmpty_iff, attr.name_ne_nil, false_or]
  rfl

theorem length_text : (attr.text style).length = attr.name.length + attr.value.length + 3 + 1 := by
  simp only [text, List.length_cons, List.length_append, List.length_nil]
  omega

theorem attributeAt_text : attributeAt style (attr.text style ++ rest) =
    if attr.value = [] then none else some (attr.entry, (attr.text style).length) := by
  have htext : attr.text style ++ rest =
      style.sign :: (attr.name ++ '=' :: '\x22' :: (attr.value ++ '\x22' :: rest)) := by
    simp [text]
  rw [htext, length_text]
  cases style with
  | tag =>
    have hblank : isBlank AttributeStyle.tag.sign = true := by decide
    rw [attributeAt]
    simp only [hblank, if_true, namedValue_text]
    split <;> rfl
  | comment =>
    -- no blanks are skipped behind the comma
    obtain ⟨c, name, hname⟩ := List.exists_cons_of_ne_nil attr.name_ne_nil
    have hblank : isBlank c = false :=
      not_isBlank_of_isNamePart (attr.isName c (hname ▸ List.mem_cons_self))
    have hnone (ds : List Char) : (attr.name ++ ds).takeWhile isBlank = [] ∧
        (attr.name ++ ds).dropWhile isBlank = attr.name ++ ds := by
      simp [hname, hblank]
    have hcomma : AttributeStyle.comment.sign = ',' := rfl
    rw [attributeAt, hcomma]
    simp only [if_true, (hnone _).1, (hnone _).2, namedValue_text]
    split <;> rfl

/-- No attribute starts inside of an attribute with the empty value. -/
theorem attributeAt_inside (h : attr.value = []) (hc : c ∈ (attr.text style).tail)
    (cs : List Char) : attributeAt style (c :: cs) = none := by
  simp only [text, h, List.tail_cons, List.nil_append, List.mem_append, List.mem_cons,
    List.not_mem_nil, or_false] at hc
  rcases hc with hc | rfl | rfl | rfl
  · refine attributeAt_eq_none (not_isBlank_of_isNamePart (attr.isName c hc)) ?_ cs
    rintro rfl
    exact absurd (attr.isName ',' hc) (by decide)
  · exact attributeAt_eq_none (by decide) (by decide) cs
  · exact attributeAt_eq_none (by decide) (by decide) cs
  · exact attributeAt_eq_none (by decide) (by decide) cs

/-- Reading goes on behind the attribute. -/
theorem cutFrom_text : cutFrom (attributeAt style) 0 (attr.text style ++ rest) =
    attr.pieces style ++ cutFrom (attributeAt style) 0 rest := by
  have hread := attr.attributeAt_text style rest
  by_cases h : attr.value = []
  · have htail : cutFrom (attributeAt style) 0 ((attr.text style).tail ++ rest) =
        (attr.text style).tail.map .plain ++ cutFrom (attributeAt style) 0 rest :=
      cutFrom_plain fun c hc ds => attr.attributeAt_inside style h hc ds
    have htext : attr.text style = style.sign :: (attr.text style).tail := rfl
    rw [if_pos h, htext, List.cons_append] at hread
    rw [pieces, if_pos h, htext, List.cons_append, cutFrom, hread]
    exact congrArg (Piece.plain style.sign :: ·) htail
  · have hne : attr.text style ≠ [] := List.cons_ne_nil _ _
    rw [if_neg h] at hread
    rw [cutFrom_found hne hread, pieces, if_neg h, List.singleton_append]

theorem filterMap_value_pieces :
    (attr.pieces style).filterMap Piece.value? = if attr.value = [] then [] else [attr.entry] := by
  unfold pieces
  split
  · exact filterMap_value_plain _
  · rfl

end GivenAttribute

/-- **The attributes with a value are found** in order, and nothing else is. -/
theorem findAll_texts (style : AttributeStyle) (attrs : List GivenAttribute) :
    findAll (attributeAt style) (attrs.flatMap (GivenAttribute.text style)) =
      (attrs.filter fun attr => attr.value ≠ []).map GivenAttribute.entry := by
  unfold findAll cut
  induction attrs with
  | nil => rfl
  | cons attr attrs ih =>
    rw [List.flatMap_cons, attr.cutFrom_text, List.filterMap_append, attr.filterMap_value_pieces,
      ih, List.filter_cons]
    by_cases h : attr.value = [] <;> simp [h]

/-- **Written attributes are read back**: each name that has a value somewhere stands once, in the
place of its first attribute with a value and with the last of its values. -/
theorem attributesOf_texts (style : AttributeStyle) (attrs : List GivenAttribute) :
    Assoc.Collects ((attrs.filter fun attr => attr.value ≠ []).map GivenAttribute.entry)
      (attributesOf style (attrs.flatMap (GivenAttribute.text style))) := by
  rw [attributesOf, findAll_texts]
  exact Assoc.collects_ofList _

-- a value that looks like the beginning of another attribute
example : attributesOf .tag " a=\" b=\" c=\"\" a=\"2\"".toList = [("a".toList, "2".toList)] := by
  decide

end Stencil
