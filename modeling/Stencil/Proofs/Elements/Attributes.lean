import Stencil.Proofs.Elements.Tags

/-!
# Attributes read from a tag

A value in which no control attribute is spelled hides it from the reader of attributes: the text of
a control attribute would need the quote after its equals sign inside of the value.  So the control
attributes of a printed tag are found in order, and without them the tag has no mark left.

## Main definitions

* `Unmarked` — text in which no mark starts, whatever follows it.

## Main results

* `headsOf_source`, `malformedLoops_source` — the heads of an opening tag, all of which are there.
* `openTagText_source` — the opening tag without its control attributes.
* `isAlone_source` — when an element has no content.
-/

namespace Stencil

open Text Lexer Stencil.Parser

variable {a b rest : List Char}

/-! ### Text without marks -/

/-- No mark starts in the text, whatever follows it. -/
def Unmarked : List Char → Prop
  | [] => True
  | c :: cs => (∀ rest, controlMarkAt (c :: (cs ++ rest)) = none) ∧ Unmarked cs

theorem Unmarked.append (ha : Unmarked a) (hb : Unmarked b) : Unmarked (a ++ b) := by
  induction a with
  | nil => exact hb
  | cons c a ih =>
    rw [List.cons_append]
    refine ⟨fun rest => ?_, ih ha.2⟩
    rw [List.append_assoc]
    exact ha.1 (b ++ rest)

/-- A mark starts with a blank or with a bar. -/
theorem controlMarkAt_of_ne {c : Char} (hb : isBlank c = false) (hc : c ≠ '|') (cs : List Char) :
    controlMarkAt (c :: cs) = none := by
  rw [controlMarkAt, hb, decide_eq_false hc]
  rfl

/-- It goes on with one of two phrases. -/
theorem controlMarkAt_of_phrases {cs : List Char} (hcond : startsWith "cond=\x22".toList cs = false)
    (hloop : startsWith "loop=\x22".toList cs = false) (c : Char) :
    controlMarkAt (c :: cs) = none := by
  rw [controlMarkAt, hcond, hloop, Bool.and_false, Bool.and_false]
  rfl

theorem unmarked_of_ne (h : ∀ c ∈ a, isBlank c = false ∧ c ≠ '|') : Unmarked a := by
  induction a with
  | nil => trivial
  | cons c a ih =>
    obtain ⟨hb, hc⟩ := h c List.mem_cons_self
    exact ⟨fun rest => controlMarkAt_of_ne hb hc _, ih fun d hd => h d (List.mem_cons_of_mem c hd)⟩

/-- What stands before the first `d` of a text. -/
theorem eq_of_startsWith {d : Char} {p q : List Char} (hp : d ∉ p) (ha : d ∉ a)
    (h : startsWith (p ++ d :: q) (a ++ d :: rest) = true) : a = p := by
  have hstop : ∀ {xs : List Char}, ∀ c, (d :: xs).head? = some c → decide (c ≠ d) = false := by
    rintro xs _ ⟨⟩
    simp
  have hbefore : ∀ {xs : List Char} (ys : List Char), d ∉ xs →
      (xs ++ d :: ys).takeWhile (fun c => decide (c ≠ d)) = xs := by
    intro xs ys hx
    refine (takeWhile_append_head (fun c hc => ?_) hstop).1
    rw [decide_eq_true_iff]
    rintro rfl
    exact hx hc
  obtain ⟨t, ht⟩ := startsWith_iff.mp h
  rw [← hbefore rest ha, ← ht, List.append_assoc, List.cons_append, hbefore _ hp]

/-- A value that does not hold a phrase is not the phrase. -/
theorem ne_of_breakOn {x : Char} {p : List Char} (h : breakOn (x :: p) a = none) : a ≠ x :: p := by
  rintro rfl
  rw [breakOn_eq_none_cons] at h
  have hs : startsWith (x :: p) (x :: p) = true := startsWith_iff.mpr (List.prefix_refl _)
  rw [hs] at h
  cases h.1

/-- No mark starts in a value that holds no control attribute. -/
theorem unmarked_value (hfits : FitsAttribute a) (hcond : breakOn "cond=".toList a = none)
    (hloop : breakOn "loop=".toList a = none) : Unmarked (a ++ ['\x22']) := by
  induction a with
  | nil => exact unmarked_of_ne (by simp; decide)
  | cons c a ih =>
    have hfits : '\x22' ∉ a := fun hm => hfits (List.mem_cons_of_mem c hm)
    have hcond := (breakOn_eq_none_cons.mp hcond).2
    have hloop := (breakOn_eq_none_cons.mp hloop).2
    rw [List.cons_append]
    refine ⟨fun rest => controlMarkAt_of_phrases ?_ ?_ c, ih hfits hcond hloop⟩
    · rw [List.append_assoc]
      exact Bool.eq_false_iff.mpr fun hs =>
        ne_of_breakOn hcond (eq_of_startsWith (p := "cond=".toList) (by decide) hfits hs)
    · rw [List.append_assoc]
      exact Bool.eq_false_iff.mpr fun hs =>
        ne_of_breakOn hloop (eq_of_startsWith (p := "loop=".toList) (by decide) hfits hs)

theorem startsWith_of_notMem {d : Char} {p q : List Char} (hp : d ∉ p) (ha : d ∉ a) (hne : a ≠ p)
    (rest : List Char) : startsWith (p ++ d :: q) (a ++ d :: rest) = false :=
  Bool.eq_false_iff.mpr fun hs => hne (eq_of_startsWith hp ha hs)

/-- A plain attribute has no mark. -/
theorem PlainAttribute.unmarked (attr : PlainAttribute) :
    Unmarked (quoted attr.name attr.value) := by
  have hname : ∀ c ∈ attr.name, isBlank c = false ∧ c ≠ '|' := by
    intro c hc
    obtain ⟨hb, hs⟩ := attr.isName c hc
    exact ⟨hb, fun he => hs (he ▸ by decide)⟩
  have hequals : '=' ∉ attr.name := fun hm => (attr.isName '=' hm).2 (by decide)
  have hsigns : Unmarked ['=', '\x22'] := unmarked_of_ne (by simp; decide)
  have hrest : Unmarked (attr.name ++ '=' :: '\x22' :: (attr.value ++ ['\x22'])) :=
    (unmarked_of_ne hname).append
      (hsigns.append (unmarked_value attr.fits attr.noCond attr.noLoop))
  refine ⟨fun rest => ?_, hrest⟩
  rw [List.append_assoc, List.cons_append]
  exact controlMarkAt_of_phrases
    (startsWith_of_notMem (p := "cond".toList) (by decide) hequals attr.ne_cond _)
    (startsWith_of_notMem (p := "loop".toList) (by decide) hequals attr.ne_loop _) ' '

theorem ElementName.unmarked (n : ElementName) : Unmarked ('<' :: n.chars) := by
  have hbracket : Unmarked ['<'] := unmarked_of_ne (by simp; decide)
  refine hbracket.append (unmarked_of_ne fun c hc => ?_)
  have halnum : isAsciiAlnum c = true := Bool.or_eq_true_iff.mpr (n.isLetter_or_isDigit c hc)
  constructor
  · exact not_isBlank_of_isNamePart (Bool.or_eq_true_iff.mpr (.inl halnum))
  · rintro rfl
    exact absurd halnum (by decide)

theorem Ending.unmarked (e : Ending) : Unmarked e.chars := by
  cases e with
  | plain => exact unmarked_of_ne (by simp [Ending.chars]; decide)
  | slash => exact unmarked_of_ne (by simp [Ending.chars]; decide)
  | blankSlash =>
    refine ⟨fun rest => controlMarkAt_of_phrases ?_ ?_ ' ', unmarked_of_ne (by simp; decide)⟩
    · rfl
    · rfl

theorem Attribute.unmarked_kept (attr : Attribute) : Unmarked attr.kept := by
  cases attr with
  | plain attr => exact attr.unmarked
  | control c => trivial

/-- Without its control attributes a tag has no mark. -/
theorem OpenTag.unmarked (t : OpenTag) (e : Ending) : Unmarked (t.kept e) := by
  have hattributes : ∀ as : List Attribute, Unmarked (as.flatMap Attribute.kept) := by
    intro as
    induction as with
    | nil => trivial
    | cons attr as ih => exact attr.unmarked_kept.append ih
  exact t.name.unmarked.append ((hattributes t.attributes).append e.unmarked)

theorem Unmarked.not_occurs (h : Unmarked a) : occurs controlMarkAt a = false := by
  induction a with
  | nil => rfl
  | cons c a ih =>
    have hc := h.1 []
    rw [List.append_nil] at hc
    rw [occurs, hc, ih h.2]
    rfl

/-! ### Reading the attributes -/

/-- No control attribute is found where no mark starts. -/
theorem Unmarked.cutFrom (h : Unmarked a) (rest : List Char) :
    Text.cutFrom controlAttributeAt 0 (a ++ rest) =
      a.map .plain ++ Text.cutFrom controlAttributeAt 0 rest := by
  induction a with
  | nil => rfl
  | cons c a ih =>
    have hnone : controlAttributeAt (c :: (a ++ rest)) = none := by
      refine Option.not_isSome_iff_eq_none.mp fun hs => ?_
      have hmark := isSome_controlMarkAt hs
      rw [h.1 rest] at hmark
      cases hmark
    rw [List.cons_append, Text.cutFrom, hnone, ih h.2]
    rfl

theorem quotedValue_append (hne : a ≠ []) (h : FitsAttribute a) (rest : List Char) :
    quotedValue (a ++ '\x22' :: rest) = some (a, a.length + 1) := by
  have hcut : breakOn ['\x22'] (a ++ (['\x22'] ++ rest)) = some (a, rest) :=
    breakOn_append_self (by simp) (breakOn_singleton h)
  rw [List.singleton_append] at hcut
  obtain ⟨c, a, rfl⟩ := List.exists_cons_of_ne_nil hne
  rw [quotedValue, hcut]
  rfl

theorem ControlAttribute.text_append (s : ControlAttribute) (rest : List Char) :
    s.text ++ rest = ' ' :: (s.keyword ++ "=\x22".toList ++ (s.code ++ '\x22' :: rest)) := by
  simp [ControlAttribute.text, quoted]

theorem ControlAttribute.length_text (s : ControlAttribute) :
    s.text.length = s.code.length + 1 + 7 := by
  cases s <;> simp [ControlAttribute.text, quoted, ControlAttribute.keyword]

/-- A control attribute is found as it was printed. -/
theorem controlAttributeAt_text {s : ControlAttribute} (hne : s.code ≠ [])
    (h : FitsAttribute s.code) (rest : List Char) :
    controlAttributeAt (s.text ++ rest) = some (s, s.text.length) := by
  have hvalue := quotedValue_append hne h rest
  rw [s.text_append, s.length_text, controlAttributeAt]
  cases s with
  | cond code =>
    -- the other phrase is tried first
    have hloop (ds : List Char) : dropStart? "loop=\x22".toList ("cond=\x22".toList ++ ds) = none :=
      rfl
    have hphrase : (ControlAttribute.cond code).keyword ++ "=\x22".toList = "cond=\x22".toList :=
      rfl
    rw [hphrase, hloop, dropStart?_append]
    simp only [hvalue, Option.map_some]
    rfl
  | loop code =>
    have hphrase : (ControlAttribute.loop code).keyword ++ "=\x22".toList = "loop=\x22".toList :=
      rfl
    rw [hphrase, dropStart?_append]
    simp only [hvalue, Option.map_some]
    rfl

/-- What an attribute is cut into. -/
def Attribute.pieces : Attribute → List (Piece ControlAttribute)
  | plain attr => (quoted attr.name attr.value).map .plain
  | control c => [.found c.source c.source.text]

theorem Attribute.cutFrom (attr : Attribute) (rest : List Char) :
    Text.cutFrom controlAttributeAt 0 (attr.text ++ rest) =
      attr.pieces ++ Text.cutFrom controlAttributeAt 0 rest := by
  cases attr with
  | plain attr => exact attr.unmarked.cutFrom rest
  | control c =>
    have hne : c.source.text ≠ [] := List.cons_ne_nil _ _
    exact cutFrom_found hne (controlAttributeAt_text c.source_ne_nil c.fits rest)

/-- **The control attributes of a printed tag are found**, and nothing else is. -/
theorem cut_source (t : OpenTag) (e : Ending) : cut controlAttributeAt (t.source e) =
    ('<' :: t.name.chars).map .plain ++
      (t.attributes.flatMap Attribute.pieces ++ e.chars.map .plain) := by
  have hattributes : ∀ (as : List Attribute) (rest : List Char),
      cutFrom controlAttributeAt 0 (as.flatMap Attribute.text ++ rest) =
        as.flatMap Attribute.pieces ++ cutFrom controlAttributeAt 0 rest := by
    intro as rest
    induction as with
    | nil => rfl
    | cons attr as ih =>
      rw [List.flatMap_cons, List.append_assoc, attr.cutFrom, ih, List.flatMap_cons,
        List.append_assoc]
  have hending := e.unmarked.cutFrom []
  rw [List.append_nil] at hending
  rw [cut, OpenTag.source, ← List.cons_append, t.name.unmarked.cutFrom, hattributes, hending]
  simp [cutFrom]

theorem map_value_foundFrom {α : Type} (offset : Nat) (ps : List (Piece α)) :
    (foundFrom offset ps).map Found.value = ps.filterMap Piece.value? := by
  induction ps generalizing offset with
  | nil => rfl
  | cons p ps ih =>
    cases p with
    | plain c => exact ih _
    | found a source => exact congrArg (a :: ·) (ih _)

/-- The control attributes in order. -/
theorem map_value_controlAttributes (t : OpenTag) (e : Ending) :
    (controlAttributes (t.source e)).map Found.value = t.controls.map Control.source := by
  have hattributes : ∀ as : List Attribute, (as.flatMap Attribute.pieces).filterMap Piece.value? =
      (as.filterMap Attribute.control?).map Control.source := by
    intro as
    induction as with
    | nil => rfl
    | cons attr as ih =>
      rw [List.flatMap_cons, List.filterMap_append, ih]
      cases attr with
      | plain attr =>
        rw [Attribute.pieces, filterMap_value_plain]
        rfl
      | control c => rfl
  rw [controlAttributes, findPlaces, map_value_foundFrom, cut_source, List.filterMap_append,
    List.filterMap_append, filterMap_value_plain, filterMap_value_plain, hattributes]
  simp [OpenTag.controls]

/-- **The heads of an element**, from its first control attribute on. -/
theorem headsOf_source (t : OpenTag) (e : Ending) :
    headsOf (t.source e) = t.controls.map Control.head := by
  have hvalues : headsOf (t.source e) =
      ((controlAttributes (t.source e)).map Found.value).filterMap ControlAttribute.head? := by
    rw [List.filterMap_map]
    rfl
  rw [hvalues, map_value_controlAttributes, List.filterMap_map]
  have hhead : ControlAttribute.head? ∘ Control.source = some ∘ Control.head := by
    funext c
    exact c.head?_eq
  rw [hhead, List.filterMap_eq_map]

/-- Every control attribute has a head. -/
theorem malformedLoops_source (t : OpenTag) (e : Ending) (offset : Nat) :
    malformedLoops offset (t.source e) = [] := by
  refine List.filterMap_eq_nil_iff.mpr fun a ha => ?_
  have hvalue : a.value ∈ t.controls.map Control.source := by
    rw [← map_value_controlAttributes t e]
    exact List.mem_map_of_mem ha
  obtain ⟨c, -, hc⟩ := List.mem_map.mp hvalue
  rw [← hc, c.head?_eq]
  rfl

/-- **An opening tag without its control attributes.** -/
theorem openTagText_source (t : OpenTag) (e : Ending) : openTagText (t.source e) = t.kept e := by
  have hplain : ∀ cs : List Char, (cs.map (Piece.plain (α := ControlAttribute))).flatMap
      (Piece.render fun _ => []) = cs := by
    intro cs
    rw [List.flatMap_map]
    exact List.flatMap_singleton' cs
  have hattributes : ∀ as : List Attribute, (as.flatMap Attribute.pieces).flatMap
      (Piece.render fun _ => []) = as.flatMap Attribute.kept := by
    intro as
    induction as with
    | nil => rfl
    | cons attr as ih =>
      rw [List.flatMap_cons, List.flatMap_append, ih, List.flatMap_cons]
      cases attr with
      | plain attr => rw [Attribute.pieces, hplain, Attribute.kept]
      | control c => rfl
  have hremoved : removeMatches controlAttributeAt (t.source e) = t.kept e := by
    rw [removeMatches, replaceMatches, cut_source, List.flatMap_append, List.flatMap_append, hplain,
      hplain, hattributes]
    rfl
  rw [openTagText, hremoved, replaceMatches_of_not_occurs]
  exact not_occurs_of_imp controlMark_of_conditionalAttribute (t.unmarked e).not_occurs

/-! ### Elements without content -/

theorem getLast?_quoted (name value : List Char) : (quoted name value).getLast? = some '\x22' := by
  simp [quoted, List.getLast?_cons, List.getLast?_append]

theorem getLast?_attributes (ha : a.getLast? ≠ some '/') (as : List Attribute) :
    (a ++ as.flatMap Attribute.text).getLast? ≠ some '/' := by
  induction as generalizing a with
  | nil => simpa using ha
  | cons attr as ih =>
    rw [List.flatMap_cons, ← List.append_assoc]
    refine ih ?_
    have hlast : attr.text.getLast? = some '\x22' := by
      cases attr with
      | plain attr => exact getLast?_quoted _ _
      | control c => exact getLast?_quoted _ _
    rw [List.getLast?_append, hlast]
    simp

/-- An element has no content when its name says so, or the end of its tag. -/
theorem isAlone_source (t : OpenTag) (e : Ending) (name : List Char) :
    isAlone name (t.source e) = (isVoid name || e ≠ .plain) := by
  have hsource : t.source e =
      '<' :: t.name.chars ++ t.attributes.flatMap Attribute.text ++ e.chars := by
    simp [OpenTag.source]
  rw [isAlone, hsource, List.reverse_append]
  congr 1
  cases e with
  | plain =>
    have hname : ('<' :: t.name.chars).getLast? ≠ some '/' := by
      intro hlast
      rcases List.mem_cons.mp (List.mem_of_getLast? hlast) with h | h
      · exact absurd h (by decide)
      · exact absurd (t.name.isLetter_or_isDigit '/' h) (by decide)
    have hlast := getLast?_attributes hname t.attributes
    rw [List.getLast?_eq_head?_reverse] at hlast
    generalize ('<' :: t.name.chars ++ t.attributes.flatMap Attribute.text).reverse = ds at hlast
    cases ds with
    | nil => rfl
    | cons d ds =>
      have hd : d ≠ '/' := fun he => hlast (by rw [he, List.head?_cons])
      have hne : ['>', d] ≠ ['>', '/'] := by simpa using hd
      exact (beq_false_of_ne hne).trans rfl
  | slash => rfl
  | blankSlash => rfl

end Stencil
