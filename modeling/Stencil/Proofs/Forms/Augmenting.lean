import Stencil.Proofs.Forms.Regions

/-!
# Adding fields to forms

Fields are inserted and attributes that name rulesets are taken out; no other character of a text
changes.  On a page every form gets the fields that it lacks directly behind its opening tag.

## Main definitions

* `RulesetAttribute` — the attribute that names a ruleset, with the blanks in front of it.
* `Edited` — a text with hidden fields and requests of rulesets inserted, and such attributes
  removed.
* `RulesetMoved` — what becomes of the opening tag of a form.

## Main results

* `edited_augmentForms` — the rest of every text stays.
* `augmentForms_page` — **every form of a page has every field once.**
-/

namespace Stencil

open Text Lexer

/-- The attribute that names a ruleset, with the blanks in front of it. -/
def RulesetAttribute (name source : List Char) : Prop :=
  ∃ blanks word, (∀ c ∈ blanks, isBlank c = true) ∧ FormOf "ruleset=\x22".toList word ∧
    '\x22' ∉ name ∧ source = blanks ++ (word ++ (name ++ ['\x22']))

/-- The code that asks for a ruleset. -/
def loadIsland (path : Path) : List Char :=
  island ("load_ruleset(".toList ++ quoteLiteral path ++ [')'])

/-- What becomes of the opening tag of a form, and the field that it gives.  A tag without a ruleset
stays; otherwise the attribute goes, and code that asks for the ruleset may come in front. -/
inductive RulesetMoved : List Char → List Char → List Char → Prop where
  /-- There is no ruleset. -/
  | stays {tag : List Char} (h : occurs rulesetAttributeAt tag = false) : RulesetMoved tag tag []
  /-- The ruleset has no file. -/
  | dropped {before name source rest : List Char} (h : RulesetAttribute name source) :
    RulesetMoved (before ++ (source ++ rest)) (before ++ rest)
      (hiddenField "ruleset".toList (rulesetName name))
  /-- The ruleset has a file. -/
  | loaded {before name source rest : List Char} (path : Path) (h : RulesetAttribute name source) :
    RulesetMoved (before ++ (source ++ rest)) (loadIsland path ++ (before ++ rest))
      (hiddenField "ruleset".toList (rulesetName name))

/-- A text with hidden fields and requests of rulesets inserted, and the attributes of rulesets
removed. -/
inductive Edited : List Char → List Char → Prop where
  /-- The end of the text. -/
  | nil : Edited [] []
  /-- A character that stays. -/
  | keep {cs out : List Char} (c : Char) (h : Edited cs out) : Edited (c :: cs) (c :: out)
  /-- A field that is inserted. -/
  | insert {cs out : List Char} (name value : List Char) (h : Edited cs out) :
    Edited cs (hiddenField name value ++ out)
  /-- Code that is inserted. -/
  | load {cs out : List Char} (path : Path) (h : Edited cs out) :
    Edited cs (loadIsland path ++ out)
  /-- An attribute that is removed. -/
  | remove {cs out name source : List Char} (hsource : RulesetAttribute name source)
    (h : Edited cs out) : Edited (source ++ cs) out

variable {a b cs out tag field : List Char}

/-! ### Edited texts -/

theorem Edited.keepAll (a : List Char) (h : Edited cs out) : Edited (a ++ cs) (a ++ out) := by
  induction a with
  | nil => exact h
  | cons c a ih => exact ih.keep c

theorem Edited.refl (cs : List Char) : Edited cs cs := by
  have hnil := Edited.nil.keepAll cs
  rwa [List.append_nil] at hnil

theorem Edited.append (ha : Edited a b) (h : Edited cs out) : Edited (a ++ cs) (b ++ out) := by
  induction ha with
  | nil => exact h
  | keep c _ ih => exact ih.keep c
  | insert name value _ ih =>
    rw [List.append_assoc]
    exact ih.insert name value
  | load path _ ih =>
    rw [List.append_assoc]
    exact ih.load path
  | remove hsource _ ih =>
    rw [List.append_assoc]
    exact ih.remove hsource

/-- The attribute of a ruleset is found as one. -/
theorem rulesetAttribute_of_some {name : List Char} {n : Nat}
    (h : rulesetAttributeAt cs = some (name, n)) : RulesetAttribute name (cs.take n) := by
  rw [rulesetAttributeAt] at h
  split at h
  next rest hword =>
    obtain ⟨⟨name', rest'⟩, hcut, heq⟩ := Option.map_eq_some_iff.mp h
    obtain ⟨rfl, rfl⟩ := Prod.mk.inj heq
    obtain ⟨word, hform, hdrop⟩ := dropStartFold?_eq_some_iff.mp hword
    refine ⟨cs.takeWhile isBlank, word, fun c hc => List.mem_takeWhile_imp hc, hform,
      notMem_of_breakOn hcut, ?_⟩
    have hcs : cs = (cs.takeWhile isBlank ++ (word ++ (name' ++ ['\x22']))) ++ rest' := by
      conv => lhs; rw [← List.takeWhile_append_dropWhile (p := isBlank) (l := cs), hdrop,
        breakOn_eq_some hcut]
      simp
    have hlen : (cs.takeWhile isBlank ++ (word ++ (name' ++ ['\x22']))).length =
        (cs.takeWhile isBlank).length + name'.length + 10 := by
      have hword : "ruleset=\x22".toList.length = 9 := rfl
      simp only [List.length_append, hform.length, hword, List.length_singleton]
      omega
    have htake : ((cs.takeWhile isBlank ++ (word ++ (name' ++ ['\x22']))) ++ rest').take
        ((cs.takeWhile isBlank).length + name'.length + 10) =
          cs.takeWhile isBlank ++ (word ++ (name' ++ ['\x22'])) := List.take_left' hlen
    rwa [← hcs] at htake
  next => cases h

/-- **What becomes of an opening tag.** -/
theorem rulesetMoved (template rulesetDir : Path) (tag : List Char) :
    RulesetMoved tag (rulesetParts template rulesetDir tag).1
      (rulesetParts template rulesetDir tag).2.1 := by
  rw [rulesetParts]
  cases hfirst : findFirst? rulesetAttributeAt tag with
  | none => exact .stays (not_occurs_of_findFirst? hfirst)
  | some found =>
    obtain ⟨before, name, source, rest⟩ := found
    obtain ⟨htag, n, hmatch, hsource⟩ := findFirst?_eq_some hfirst
    have hattribute : RulesetAttribute name source := hsource ▸ rulesetAttribute_of_some hmatch
    subst htag
    cases hpath : rulesetPath? name template rulesetDir with
    | none =>
      simp only [hpath]
      exact .dropped hattribute
    | some path =>
      simp only [hpath, List.append_assoc]
      exact .loaded path hattribute

theorem RulesetMoved.edited {tag' : List Char} (h : RulesetMoved tag tag' field) :
    Edited tag tag' := by
  cases h with
  | stays => exact .refl tag
  | dropped hsource => exact ((Edited.refl _).remove hsource).keepAll _
  | loaded path hsource => exact (((Edited.refl _).remove hsource).keepAll _).load path

/-- The field of a ruleset is a hidden one. -/
theorem RulesetMoved.insert {tag' : List Char} (hmoved : RulesetMoved tag tag' field)
    (h : Edited cs out) : Edited cs (field ++ out) := by
  cases hmoved with
  | stays => exact h
  | dropped => exact h.insert _ _
  | loaded => exact h.insert _ _

/-- Missing fields are hidden ones. -/
theorem Edited.missingFields (body : List Char) (h : Edited cs out) :
    Edited cs (missingFields body ++ out) := by
  rw [Stencil.missingFields, List.append_assoc]
  generalize identityFields.filter _ = fields
  have hfields : Edited cs (fields.flatMap contextField ++ out) := by
    induction fields with
    | nil => exact h
    | cons f fields ih =>
      rw [List.flatMap_cons, List.append_assoc]
      exact ih.insert _ _
  split
  next => exact hfields
  next => exact hfields.insert _ _

theorem edited_augment (template rulesetDir : Path) (f : Form) :
    Edited f.source (f.augment template rulesetDir).1 := by
  have hmoved := rulesetMoved template rulesetDir f.tag
  have hrest := Edited.refl (f.body ++ f.closing)
  have htext : (f.augment template rulesetDir).1 =
      (rulesetParts template rulesetDir f.tag).1 ++ (missingFields f.body ++
        ((rulesetParts template rulesetDir f.tag).2.1 ++ (f.body ++ f.closing))) := by
    simp [Form.augment]
  rw [htext]
  exact hmoved.edited.append ((hmoved.insert hrest).missingFields f.body)

/-- **Fields are inserted, attributes of rulesets are removed, and all else stays.** -/
theorem edited_augmentForms (template rulesetDir : Path) (cs : List Char) :
    Edited cs (augmentForms template rulesetDir cs).1 := by
  rw [augmentForms_fst]
  have hcuts := formCuts cs
  generalize cut formAt cs = ps at hcuts
  induction hcuts with
  | nil => exact .nil
  | plain _ _ ih => exact ih.keep _
  | form _ _ ih => exact (edited_augment template rulesetDir _).append ih
  | @rest cs =>
    rw [List.flatMap_singleton]
    exact .refl cs

/-! ### Pages -/

/-- The form is written with its fields. -/
theorem PageForm.fst_augment (template rulesetDir : Path) (form : PageForm) :
    (Form.augment template rulesetDir ⟨form.tag, form.content, form.closing⟩).1 =
      form.augmented template rulesetDir := by
  rw [Form.augment, augmented, form.missingFields_content]
  simp

theorem PageForm.source_eq_cons (form : PageForm) : ∃ cs, form.source = '<' :: cs := by
  have hopening := form.isOpening
  have hsplit : "<form".toList = '<' :: "form".toList := rfl
  rw [hsplit] at hopening
  obtain ⟨word, hword, -⟩ := hopening.eq_cons (by decide)
  exact ⟨_, by rw [source, tag, hword, List.cons_append, List.cons_append]⟩

section Pieces

variable (template rulesetDir : Path)

theorem flatMap_plain (a : List Char) (pieces : List (Piece FormPiece)) :
    (a.map Piece.plain ++ pieces).flatMap (pieceText template rulesetDir) =
      a ++ pieces.flatMap (pieceText template rulesetDir) := by
  rw [List.flatMap_append, List.flatMap_map]
  congr 1
  exact List.flatMap_singleton' a

/-- A text without forms stays. -/
theorem FormCuts.flatMap_pieceText {ps : List (Piece FormPiece)} (h : FormCuts cs ps)
    (hnone : formsIn ps = []) : ps.flatMap (pieceText template rulesetDir) = cs := by
  induction h with
  | nil => rfl
  | plain _ _ ih => exact congrArg _ (ih hnone)
  | form => cases hnone
  | rest => exact List.append_nil _

theorem Page.cut_source (page : Page) :
    (cut formAt page.source).flatMap (pieceText template rulesetDir) =
      page.augmented template rulesetDir := by
  rw [cut, source, augmented]
  induction page.forms with
  | nil => exact (formCuts page.tail).flatMap_pieceText _ _ ((formCuts _).formsIn_eq_nil page.done)
  | cons x forms ih =>
    obtain ⟨cs, hcs⟩ := x.2.source_eq_cons
    have hne : x.2.source ≠ [] := hcs ▸ List.cons_ne_nil '<' cs
    have hb : Bracketed (x.2.source ++
        ((forms.flatMap fun x => x.1.chars ++ x.2.source) ++ page.tail)) := by
      intro c hc
      rw [hcs] at hc
      exact (Option.some.inj hc).symm
    simp only [List.flatMap_cons, List.append_assoc]
    rw [(x.1.misses hb).cutFrom, flatMap_plain, cutFrom_found hne (x.2.formAt_source _),
      List.flatMap_cons, ih, pieceText, x.2.fst_augment]

end Pieces

/-- **Every form of a page has every field once.** -/
theorem augmentForms_page (template rulesetDir : Path) :
    (∀ cs, Edited cs (augmentForms template rulesetDir cs).1) ∧
      ∀ page : Page,
        (augmentForms template rulesetDir page.source).1 = page.augmented template rulesetDir ∧
        ∀ x ∈ page.forms,
          RulesetMoved x.2.tag (rulesetParts template rulesetDir x.2.tag).1
            (rulesetParts template rulesetDir x.2.tag).2.1 ∧
          ∀ field ∈ formFields,
            (x.2.added.map FieldInput.field ++ x.2.fields).count field =
              max 1 (x.2.fields.count field) := by
  refine ⟨edited_augmentForms template rulesetDir, fun page => ⟨?_, fun x _ => ⟨?_, ?_⟩⟩⟩
  · rw [augmentForms_fst, page.cut_source]
  · exact rulesetMoved template rulesetDir x.2.tag
  · intro field hfield
    exact x.2.count_fields hfield

theorem mid_mem_formFields : "mid".toList ∈ formFields := by decide

/-- A form that has one of the fields, behind a line break, with an island as its value. -/
def midForm : PageForm where
  opening := "<form".toList
  parts := [.sign ' ' (by decide), .island " echo $attributes ".toList (by decide)]
  lead := ⟨"a > b".toList, by decide, by decide⟩
  body := [(.field {
    opening := "<INPUT".toList
    before := []
    blank := '\n'
    field := "mid".toList
    named := "name=\x22mid\x22".toList
    after := " value=\x22<?tpl echo $a->b ?>\x22 /".toList
    isOpening := by decide
    isBlank := by decide
    isField := mid_mem_formFields
    isNamed := by decide
    before_apart := by rintro c ⟨⟩
    before_open := by decide
    before_nameless := by decide
    after_apart := by rintro c ⟨⟩; decide
    after_nameless := by decide +kernel
    inside := by decide +kernel }, ⟨"c".toList, by decide, by decide⟩)]
  closing := "</form>".toList
  isOpening := by decide
  apart := by rintro c ⟨⟩; decide
  isClosing := by decide

/-- The page with that form. -/
def midPage : Page := ⟨[(⟨"<p>".toList, by decide⟩, midForm)], "</p>".toList, .inl (by decide)⟩

theorem augmentForms_page_mid :
    (augmentForms [] [] midPage.source).1 = midPage.augmented [] [] ∧
      midForm.fields.count "mid".toList = 1 ∧
      (midForm.added.map FieldInput.field ++ midForm.fields).count "mid".toList = 1 := by
  obtain ⟨-, hpage⟩ := augmentForms_page [] []
  obtain ⟨hsource, hforms⟩ := hpage midPage
  obtain ⟨-, hcount⟩ := hforms _ List.mem_cons_self
  have hafter : (midForm.added.map FieldInput.field ++ midForm.fields).count "mid".toList =
      max 1 (midForm.fields.count "mid".toList) := hcount _ mid_mem_formFields
  have hbefore : midForm.fields.count "mid".toList = 1 := by decide
  refine ⟨hsource, hbefore, ?_⟩
  rw [hafter, hbefore]
  rfl

/-- A form with an input whose name stands behind an island. -/
def behindIsland : List Char :=
  "<form><input value=\x22<?tpl echo $__ctx->act ?>\x22 name=\x22act\x22 /></form>".toList

/-- An island in front of the name of an input hides the name, and the field is added again. -/
theorem field_behind_island_twice :
    (occurrences "name=\x22act\x22".toList behindIsland).length = 1 ∧
      (occurrences "name=\x22act\x22".toList (augmentForms [] [] behindIsland).1).length = 2 := by
  decide +kernel

end Stencil
