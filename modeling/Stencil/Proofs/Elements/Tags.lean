import Stencil.Proofs.Elements.Control
import Stencil.Proofs.Elements.Marks

/-!
# Tags as they are printed

An opening tag is printed with its attributes after blanks.  The quotes around a value hide whatever
is in it from the reader of tags, so the tag is found again from its angle bracket to its end.

## Main definitions

* `ElementName`, `PlainAttribute`, `Attribute`, `Ending`, `OpenTag` — the parts of an opening tag.
* `OpenTag.source` — the tag as it is printed, and `OpenTag.kept`, without its control attributes.
* `Passes` — text that lies inside of a tag, whatever follows it.

## Main results

* `tagAt_openTag`, `tagAt_closingTag` — the tags are found.
-/

namespace Stencil

open Text Lexer Stencil.Parser

variable {a b rest : List Char}

/-! ### Parts of tags -/

/-- The name of an element: letters, and perhaps a digit after them. -/
structure ElementName where
  /-- The letters. -/
  letters : List Char
  /-- The digit. -/
  digit : Option Char
  ne_nil : letters ≠ []
  isLetter : ∀ c ∈ letters, isAsciiLetter c = true
  isDigit : ∀ c, digit = some c → isAsciiDigit c = true

/-- The characters of the name. -/
def ElementName.chars (n : ElementName) : List Char := n.letters ++ n.digit.toList

/-- The name in small letters. -/
def ElementName.folded (n : ElementName) : List Char := n.chars.map asciiLower

/-- The signs that do not stand in the name of an attribute. -/
def nonNameSigns : List Char := ['\x22', '\x27', '<', '>', '/', '=', '\x7b', '|']

/-- An attribute with a value that is written as it is. -/
structure PlainAttribute where
  /-- The name. -/
  name : List Char
  /-- The value. -/
  value : List Char
  isName : ∀ c ∈ name, isBlank c = false ∧ c ∉ nonNameSigns
  ne_cond : name ≠ "cond".toList
  ne_loop : name ≠ "loop".toList
  fits : FitsAttribute value
  noCond : breakOn "cond=".toList value = none
  noLoop : breakOn "loop=".toList value = none
  noIsland : breakOn openTag value = none

/-- An attribute with its value in double quotes. -/
def quoted (name value : List Char) : List Char :=
  ' ' :: (name ++ '=' :: '\x22' :: (value ++ ['\x22']))

namespace ControlAttribute

/-- The name of the attribute. -/
def keyword : ControlAttribute → List Char
  | cond _ => "cond".toList
  | loop _ => "loop".toList

/-- The value of the attribute. -/
def code : ControlAttribute → List Char
  | cond code => code
  | loop code => code

/-- The attribute as it is printed. -/
def text (a : ControlAttribute) : List Char := quoted a.keyword a.code

end ControlAttribute

/-- An attribute of an opening tag. -/
inductive Attribute where
  /-- A plain one. -/
  | plain (attr : PlainAttribute) : Attribute
  /-- One that controls the element. -/
  | control (c : Control) : Attribute

namespace Attribute

/-- The attribute as it is printed. -/
def text : Attribute → List Char
  | plain attr => quoted attr.name attr.value
  | control c => c.source.text

/-- What is left of the attribute. -/
def kept : Attribute → List Char
  | plain attr => quoted attr.name attr.value
  | control _ => []

/-- The control, if it is one. -/
def control? : Attribute → Option Control
  | plain _ => none
  | control c => some c

end Attribute

/-- The end of an opening tag. -/
inductive Ending where
  /-- `>`. -/
  | plain : Ending
  /-- `/>`, which closes the element. -/
  | slash : Ending
  /-- The same behind a blank. -/
  | blankSlash : Ending
  deriving DecidableEq

/-- The characters of the end. -/
def Ending.chars : Ending → List Char
  | plain => ['>']
  | slash => ['/', '>']
  | blankSlash => [' ', '/', '>']

/-- An opening tag. -/
structure OpenTag where
  /-- The name of the element. -/
  name : ElementName
  /-- The attributes, in order. -/
  attributes : List Attribute

namespace OpenTag

/-- The tag as it is printed. -/
def source (t : OpenTag) (e : Ending) : List Char :=
  '<' :: (t.name.chars ++ (t.attributes.flatMap Attribute.text ++ e.chars))

/-- The tag without its control attributes. -/
def kept (t : OpenTag) (e : Ending) : List Char :=
  '<' :: (t.name.chars ++ (t.attributes.flatMap Attribute.kept ++ e.chars))

/-- What controls the element, in order. -/
def controls (t : OpenTag) : List Control := t.attributes.filterMap Attribute.control?

end OpenTag

/-- A closing tag. -/
def closingTag (n : ElementName) : List Char := '<' :: '/' :: (n.chars ++ ['>'])

/-! ### The end of a tag -/

/-- The signs that a reader of tags heeds. -/
def tagSigns : List Char := ['>', '\x27', '\x22', '\x7b', '<']

/-- The text lies inside of a tag, whatever follows it. -/
def Passes (a : List Char) : Prop := ∀ rest, tagEnd? (a ++ rest) = (tagEnd? rest).map (· + a.length)

theorem passes_nil : Passes [] := by
  intro rest
  cases h : tagEnd? rest <;> simp [h]

theorem Passes.append (ha : Passes a) (hb : Passes b) : Passes (a ++ b) := by
  intro rest
  rw [List.append_assoc, ha, hb, Option.map_map, List.length_append]
  congr 1
  funext n
  simp only [Function.comp_apply]
  omega

/-- A character that stands for itself in a tag. -/
theorem passes_singleton {c : Char} (h : c ∉ tagSigns) : Passes [c] := by
  intro rest
  simp only [tagSigns, List.mem_cons, List.not_mem_nil, or_false, not_or] at h
  obtain ⟨h₁, h₂, h₃, h₄, h₅⟩ := h
  have hstep : tagStep c rest = some 1 := by
    rw [tagStep, if_neg (by simp [h₂, h₃]), if_neg h₄, if_neg h₅]
  rw [tagEnd?, List.singleton_append, tagEndFrom, if_neg h₁, hstep]
  rfl

theorem passes_of_notMem (h : ∀ c ∈ a, c ∉ tagSigns) : Passes a := by
  induction a with
  | nil => exact passes_nil
  | cons c a ih =>
    exact (passes_singleton (h c List.mem_cons_self)).append
      (ih fun d hd => h d (List.mem_cons_of_mem c hd))

theorem tagEndFrom_skip (a rest : List Char) :
    tagEndFrom a.length (a ++ rest) = (tagEndFrom 0 rest).map (· + a.length) := by
  induction a with
  | nil => cases h : tagEndFrom 0 rest <;> simp [h]
  | cons c a ih =>
    rw [List.cons_append, List.length_cons, tagEndFrom, ih, Option.map_map]
    rfl

/-- A value in double quotes is passed at once. -/
theorem passes_quotes (h : '\x22' ∉ a) : Passes ('\x22' :: (a ++ ['\x22'])) := by
  intro rest
  have hcut : breakOn ['\x22'] (a ++ (['\x22'] ++ rest)) = some (a, rest) :=
    breakOn_append_self (by simp) (breakOn_singleton h)
  have hstep : tagStep '\x22' (a ++ (['\x22'] ++ rest)) = some (a.length + 2) := by
    rw [tagStep, if_pos (Or.inr rfl), hcut]
    rfl
  have hskip := tagEndFrom_skip (a ++ ['\x22']) rest
  rw [List.append_assoc, List.length_append, List.length_singleton] at hskip
  have hne : '\x22' ≠ '>' := by decide
  rw [List.cons_append, List.append_assoc, tagEnd?, tagEndFrom, if_neg hne, hstep]
  simp only [Nat.add_succ_sub_one, hskip, Option.map_map]
  rw [tagEnd?]
  congr 1
  funext n
  simp
  omega

theorem passes_quoted {name value : List Char}
    (hname : ∀ c ∈ name, c ∉ tagSigns) (hvalue : FitsAttribute value) :
    Passes (quoted name value) := by
  have hblank : Passes [' '] := passes_singleton (by decide)
  have hequals : Passes ['='] := passes_singleton (by decide)
  exact hblank.append ((passes_of_notMem hname).append (hequals.append (passes_quotes hvalue)))

theorem EntryVars.fits (vars : EntryVars) : FitsAttribute vars.code := by
  cases vars with
  | value v _ => exact v.fits
  | keyed k v _ =>
    have h : '\x22' ∉ k.code ++ [','] ++ v.code := by
      simp only [List.mem_append, not_or]
      exact ⟨⟨k.fits, by decide⟩, v.fits⟩
    simpa [FitsAttribute, EntryVars.code] using h

/-- What controls an element fits into an attribute. -/
theorem Control.fits (c : Control) : FitsAttribute c.source.code := by
  cases c with
  | cond c => exact c.fits
  | entries l vars =>
    simp only [Control.source, ControlAttribute.code, FitsAttribute, List.mem_append, not_or]
    exact ⟨l.fits, by decide, vars.fits⟩
  | counting init test step _ =>
    have h₁ := init.fits
    have h₂ := test.fits
    have h₃ := step.fits
    simp_all [FitsAttribute, Control.source, ControlAttribute.code, countingCode]
  | repeating r =>
    have h₁ := r.fits
    have h₂ := r.value.fits
    simp_all [FitsAttribute, Control.source, ControlAttribute.code]

theorem Control.source_ne_nil (c : Control) : c.source.code ≠ [] := by
  cases c with
  | cond c =>
    intro hnil
    obtain ⟨ls, hls, hparse⟩ := exprOf?_parses c.stands
    refine hls.trim_ne_nil (ne_nil_of_parseExpr hparse) ?_
    rw [show c.code = [] from hnil]
    rfl
  | entries l vars => simp [Control.source, ControlAttribute.code]
  | counting init test step _ => simp [Control.source, ControlAttribute.code, countingCode]
  | repeating r => simp [Control.source, ControlAttribute.code]

theorem notMem_keyword (a : ControlAttribute) :
    ∀ c ∈ a.keyword, c ∉ tagSigns := by
  have hcond : ∀ c ∈ "cond".toList, c ∉ tagSigns :=
    forall_mem_of_all (by decide)
  have hloop : ∀ c ∈ "loop".toList, c ∉ tagSigns :=
    forall_mem_of_all (by decide)
  cases a with
  | cond => exact hcond
  | loop => exact hloop

theorem Attribute.passes (attr : Attribute) : Passes attr.text := by
  cases attr with
  | plain attr =>
    have hsigns : ∀ c ∈ tagSigns, c ∈ nonNameSigns :=
      forall_mem_of_all (by decide)
    exact passes_quoted (fun c hc hmem => (attr.isName c hc).2 (hsigns c hmem)) attr.fits
  | control c => exact passes_quoted (notMem_keyword _) c.fits

theorem passes_attributes (as : List Attribute) : Passes (as.flatMap Attribute.text) := by
  induction as with
  | nil => exact passes_nil
  | cons attr as ih => exact attr.passes.append ih

theorem tagEnd?_ending (e : Ending) (rest : List Char) :
    tagEnd? (e.chars ++ rest) = some e.chars.length := by
  cases e <;> rfl

/-! ### Finding tags -/

/-- The character ends a name and is allowed after one. -/
theorem afterName {c : Char} (h : c ∈ [' ', '>', '/']) :
    isAsciiLetter c = false ∧ isAsciiDigit c = false ∧ ∀ cs, endsName (c :: cs) = true := by
  simp only [List.mem_cons, List.not_mem_nil, or_false] at h
  rcases h with rfl | rfl | rfl <;> exact ⟨by decide, by decide, fun _ => rfl⟩

theorem ElementName.isLetter_or_isDigit (n : ElementName) :
    ∀ c ∈ n.chars, isAsciiLetter c = true ∨ isAsciiDigit c = true := by
  intro c hc
  rcases List.mem_append.mp hc with hc | hc
  · exact .inl (n.isLetter c hc)
  · exact .inr (n.isDigit c (Option.mem_toList.mp hc))

theorem ElementName.chars_ne_nil (n : ElementName) : n.chars ≠ [] :=
  fun h => n.ne_nil (List.append_eq_nil_iff.mp h).1

theorem isAsciiLetter_of_isAsciiDigit {c : Char} (h : isAsciiDigit c = true) :
    isAsciiLetter c = false := by
  simp only [isAsciiDigit, isAsciiLetter, Bool.and_eq_true, decide_eq_true_eq,
    Bool.or_eq_false_iff, Bool.and_eq_false_iff, decide_eq_false_iff_not] at h ⊢
  omega

/-- The letters of a name, and what is read after them. -/
theorem elementName_letters {letters : List Char} (hne : letters ≠ [])
    (h : ∀ c ∈ letters, isAsciiLetter c = true) {c : Char} (hc : isAsciiLetter c = false) :
    elementName (letters ++ c :: rest) = if isAsciiDigit c then letters ++ [c] else letters := by
  have hhead : ∀ d, (c :: rest).head? = some d → isAsciiLetter d = false := by
    rintro _ ⟨⟩
    exact hc
  obtain ⟨htake, hdrop⟩ := takeWhile_append_head h hhead
  rw [elementName, htake, hdrop]
  obtain ⟨l, letters, rfl⟩ := List.exists_cons_of_ne_nil hne
  rfl

/-- The whole name is read. -/
theorem elementName_append (n : ElementName) {c : Char} (hc : c ∈ [' ', '>', '/'])
    (rest : List Char) : elementName (n.chars ++ c :: rest) = n.chars := by
  obtain ⟨hletter, hdigit, -⟩ := afterName hc
  rw [ElementName.chars]
  cases hn : n.digit with
  | none =>
    rw [Option.toList_none, List.append_nil, elementName_letters n.ne_nil n.isLetter hletter,
      hdigit]
    rfl
  | some d =>
    have hd := n.isDigit d hn
    rw [Option.toList_some, List.append_assoc, List.singleton_append,
      elementName_letters n.ne_nil n.isLetter (isAsciiLetter_of_isAsciiDigit hd), hd]
    rfl

/-- A named tag is found up to its end. -/
theorem namedTagAt_append (n : ElementName) (isClosing : Bool) {c : Char}
    (hc : c ∈ [' ', '>', '/']) (hend : tagEnd? (c :: a ++ rest) = some (c :: a).length) :
    namedTagAt isClosing (n.chars ++ (c :: a ++ rest)) =
      some ({ name := n.folded, isClosing }, (n.chars ++ c :: a).length) := by
  have hname : elementName (n.chars ++ (c :: a ++ rest)) = n.chars := elementName_append n hc _
  rw [namedTagAt, hname, List.drop_left, hend]
  have hends : endsName (c :: a ++ rest) = true := (afterName hc).2.2 _
  rw [hends, List.isEmpty_eq_false_iff.mpr n.chars_ne_nil, List.length_append]
  rfl

theorem Attribute.text_eq_cons (attr : Attribute) : ∃ cs, attr.text = ' ' :: cs := by
  cases attr with
  | plain attr => exact ⟨_, rfl⟩
  | control c => exact ⟨_, rfl⟩

/-- What follows the name of an opening tag. -/
theorem attributes_eq_cons (as : List Attribute) (e : Ending) :
    ∃ c cs, as.flatMap Attribute.text ++ e.chars = c :: cs ∧ c ∈ [' ', '>', '/'] := by
  cases as with
  | nil =>
    cases e with
    | plain => exact ⟨'>', [], rfl, by decide⟩
    | slash => exact ⟨'/', ['>'], rfl, by decide⟩
    | blankSlash => exact ⟨' ', ['/', '>'], rfl, by decide⟩
  | cons attr as =>
    obtain ⟨cs, hcs⟩ := attr.text_eq_cons
    rw [List.flatMap_cons, hcs]
    exact ⟨' ', _, rfl, by decide⟩

theorem tagAt_of_head_ne {cs : List Char} (h : cs.head? ≠ some '/') :
    tagAt ('<' :: cs) = (namedTagAt false cs).map fun x => (x.1, x.2 + 1) := by
  cases cs with
  | nil => rfl
  | cons c cs =>
    have hc : c ≠ '/' := fun he => h (by rw [he, List.head?_cons])
    rw [tagAt]
    rintro _ ⟨⟩
    exact hc rfl

/-- **An opening tag is found as it was printed.** -/
theorem tagAt_openTag (t : OpenTag) (e : Ending) (rest : List Char) :
    tagAt (t.source e ++ rest) =
      some ({ name := t.name.folded, isClosing := false }, (t.source e).length) := by
  obtain ⟨c, cs, hcs, hc⟩ := attributes_eq_cons t.attributes e
  have hend : tagEnd? (c :: cs ++ rest) = some (c :: cs).length := by
    rw [← hcs, List.append_assoc, passes_attributes, tagEnd?_ending, List.length_append,
      Option.map_some, Nat.add_comm]
  have hhead : (t.name.chars ++ (c :: cs ++ rest)).head? ≠ some '/' := by
    obtain ⟨d, ds, hd⟩ := List.exists_cons_of_ne_nil t.name.chars_ne_nil
    rw [hd, List.cons_append, List.head?_cons]
    rintro ⟨⟩
    have h := t.name.isLetter_or_isDigit '/' (hd ▸ List.mem_cons_self)
    exact absurd h (by decide)
  rw [OpenTag.source, hcs, List.cons_append, List.append_assoc, tagAt_of_head_ne hhead,
    namedTagAt_append t.name false hc hend]
  rfl

/-- **A closing tag is found as it was printed.** -/
theorem tagAt_closingTag (n : ElementName) (rest : List Char) :
    tagAt (closingTag n ++ rest) =
      some ({ name := n.folded, isClosing := true }, (closingTag n).length) := by
  have hend : tagEnd? (['>'] ++ rest) = some ['>'].length := tagEnd?_ending .plain rest
  have hnamed := namedTagAt_append (a := []) n true (by decide) hend
  rw [closingTag, List.cons_append, List.cons_append, List.append_assoc, tagAt, hnamed]
  rfl

theorem cutFrom_openTag (t : OpenTag) (e : Ending) (rest : List Char) :
    cutFrom tagAt 0 (t.source e ++ rest) =
      .found { name := t.name.folded, isClosing := false } (t.source e) ::
        cutFrom tagAt 0 rest := by
  have hne : t.source e ≠ [] := List.cons_ne_nil _ _
  exact cutFrom_found hne (tagAt_openTag t e rest)

theorem cutFrom_closingTag (n : ElementName) (rest : List Char) :
    cutFrom tagAt 0 (closingTag n ++ rest) =
      .found { name := n.folded, isClosing := true } (closingTag n) :: cutFrom tagAt 0 rest := by
  have hne : closingTag n ≠ [] := List.cons_ne_nil _ _
  exact cutFrom_found hne (tagAt_closingTag n rest)

/-- No tag starts outside of an angle bracket. -/
theorem tagAt_of_ne {c : Char} (h : c ≠ '<') (cs : List Char) : tagAt (c :: cs) = none := by
  rw [tagAt]
  · rintro _ ⟨⟩
    exact h rfl
  · rintro _ ⟨⟩
    exact h rfl

end Stencil
