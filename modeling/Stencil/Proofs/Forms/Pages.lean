import Stencil.Proofs.Forms.Inputs

/-!
# Pages with forms

A page is text with forms in it, and a form is text with inputs in it.  Every form gets the fields
that it lacks, directly behind its opening tag, and everything else on the page stays as it is.

## Main definitions

* `TagPart`, `PageForm`, `Page` — pages.
* `Form.Found` — what a form that is found looks like.
* `hasField`, `missingInputs` — the fields that a content has, and the inputs for those it lacks.
* `PageForm.added` — the fields that a form lacks.

## Main results

* `missingFields_eq` — missing fields are added as inputs.
* `PageForm.missingFields_content` — the missing fields of a form are added.
* `PageForm.count_fields` — a form with its fields has every one of them once.
* `Form.Found.formAt` — a form is found as it was printed.
-/

namespace Stencil

open Text Lexer

/-! ### Pages -/

/-- A part of the opening tag of a form. -/
inductive TagPart where
  /-- A character that is no angle bracket. -/
  | sign (c : Char) (plain : c ∉ ['<', '>']) : TagPart
  /-- An island. -/
  | island (code : List Char) (closed : breakOn closeTag code = none) : TagPart

/-- The text of a part. -/
def TagPart.text : TagPart → List Char
  | sign c _ => [c]
  | island code _ => openTag ++ (code ++ closeTag)

/-- A text in a form: no input starts in it, and the form does not end. -/
structure BodyText where
  /-- The text. -/
  chars : List Char
  noInput : occurs (phraseFold "<input".toList) chars = false
  noClosing : occurs (phraseFold "</form>".toList) chars = false

/-- A form on a page. -/
structure PageForm where
  /-- The word that opens it. -/
  opening : List Char
  /-- The rest of its opening tag, without the last angle bracket. -/
  parts : List TagPart
  /-- What stands in front of its inputs. -/
  lead : BodyText
  /-- Its inputs, and what stands behind each. -/
  body : List (Input × BodyText)
  /-- Its closing tag. -/
  closing : List Char
  isOpening : FormOf "<form".toList opening
  apart : ∀ c ∈ (parts.flatMap TagPart.text).head?, isBlank c = true
  isClosing : FormOf "</form>".toList closing

/-- The text of a form. -/
def Form.source (f : Form) : List Char := f.tag ++ (f.body ++ f.closing)

/-- What a form that is found looks like: an opening tag, a content in which no form is closed, and
a closing tag. -/
structure Form.Found (f : Form) : Prop where
  opening : ∃ (word : List Char) (parts : List TagPart), FormOf "<form".toList word ∧
    endsFormName (parts.flatMap TagPart.text ++ ['>']) = true ∧
    f.tag = word ++ (parts.flatMap TagPart.text ++ ['>'])
  inside : Misses (phraseFold "</form>".toList) f.body f.closing
  closing : FormOf "</form>".toList f.closing

/-- The start of the opening tag of a form. -/
def formOpenAt : Matcher Unit := fun cs =>
  (dropStartFold? "<form".toList cs).bind fun rest =>
    if endsFormName rest then some ((), 5) else none

/-- A text in which no form starts. -/
structure FormlessText where
  /-- The text. -/
  chars : List Char
  noForm : occurs formOpenAt chars = false

/-- A page: forms with the texts in front of them, and the text behind the last one.  In that one
either no form starts or none ends. -/
structure Page where
  /-- The forms with the texts in front of them. -/
  forms : List (FormlessText × PageForm)
  /-- The text behind the forms. -/
  tail : List Char
  done : occurs formOpenAt tail = false ∨ occurs (phraseFold "</form>".toList) tail = false

namespace PageForm

/-- The opening tag. -/
def tag (form : PageForm) : List Char :=
  form.opening ++ (form.parts.flatMap TagPart.text ++ ['>'])

/-- The content. -/
def content (form : PageForm) : List Char :=
  form.lead.chars ++ form.body.flatMap fun x => x.1.text ++ x.2.chars

/-- The text of the form. -/
def source (form : PageForm) : List Char := form.tag ++ (form.content ++ form.closing)

/-- The fields that the inputs of the form are named for. -/
def fields (form : PageForm) : List (List Char) := form.body.filterMap fun x => x.1.field?

end PageForm

/-- The text of the page. -/
def Page.source (page : Page) : List Char :=
  (page.forms.flatMap fun x => x.1.chars ++ x.2.source) ++ page.tail

/-! ### Fields that are added -/

/-- A hidden field with code as its value. -/
def hiddenInput (field code : List Char) (isField : field ∈ formFields)
    (nameless : occurs fieldNameAt
      (" value=\x22".toList ++ (island code ++ "\x22 /".toList)) = false)
    (inside : StaysInside "<input".toList (" type=\x22hidden\x22".toList ++ ' ' ::
      (fieldPhrase field ++ (" value=\x22".toList ++ (island code ++ "\x22 /".toList))))) :
    FieldInput where
  opening := "<input".toList
  before := " type=\x22hidden\x22".toList
  blank := ' '
  field := field
  named := fieldPhrase field
  after := " value=\x22".toList ++ (island code ++ "\x22 /".toList)
  isOpening := by decide
  isBlank := by decide
  isField := isField
  isNamed := by
    have hall : ∀ f ∈ formFields, FormOf (fieldPhrase f) (fieldPhrase f) := by decide
    exact hall field isField
  before_apart := by rintro c ⟨⟩; decide
  before_open := by decide
  before_nameless := by decide
  after_apart := by rintro c ⟨⟩; decide
  after_nameless := nameless
  inside := inside

theorem text_hiddenInput (field code : List Char) (h₁ h₂ h₃) :
    (Input.field (hiddenInput field code h₁ h₂ h₃)).text = hiddenField field (island code) := by
  have hopening : "<input type=\x22hidden\x22 name=\x22".toList =
      "<input".toList ++ (" type=\x22hidden\x22".toList ++ ' ' :: "name=\x22".toList) := by
    decide +kernel
  have hvalue : "\x22 value=\x22".toList = '\x22' :: " value=\x22".toList := by decide +kernel
  have hclosing : "\x22 />".toList = "\x22 /".toList ++ ['>'] := by decide +kernel
  have htext : (Input.field (hiddenInput field code h₁ h₂ h₃)).text = "<input".toList ++
      (" type=\x22hidden\x22".toList ++ ' ' :: ("name=\x22".toList ++ (field ++ ['\x22']) ++
        (" value=\x22".toList ++ (island code ++ "\x22 /".toList))) ++ ['>']) := rfl
  refine htext.trans ?_
  unfold hiddenField
  simp only [hopening, hvalue, hclosing, List.append_assoc, List.cons_append, List.nil_append]

/-- The address to go back to. -/
def returnInput : FieldInput :=
  hiddenInput "error_return_url".toList "echo htmlspecialchars(request_uri())".toList
    (by decide) (by decide +kernel) (by decide +kernel)

/-- The fields that identify a request, with their values from the context. -/
def contextInputs : List FieldInput :=
  [hiddenInput "act".toList ("echo $".toList ++ contextPath ++ "act".toList)
      (by decide) (by decide +kernel) (by decide +kernel),
    hiddenInput "mid".toList ("echo $".toList ++ contextPath ++ "mid".toList)
      (by decide) (by decide +kernel) (by decide +kernel),
    hiddenInput "vid".toList ("echo $".toList ++ contextPath ++ "vid".toList)
      (by decide) (by decide +kernel) (by decide +kernel)]

theorem map_field_contextInputs : contextInputs.map FieldInput.field = identityFields := rfl

theorem text_contextInputs :
    ∀ t ∈ contextInputs, (Input.field t).text = contextField t.field := by
  intro t ht
  simp only [contextInputs, List.mem_cons, List.not_mem_nil, or_false] at ht
  rcases ht with rfl | rfl | rfl
  all_goals
    rw [text_hiddenInput]
    rfl

/-- Whether an input of the content is named for the field. -/
def hasField (body field : List Char) : Bool :=
  if field = "error_return_url".toList then occurs returnInputAt body
  else (findAll identityInputAt body).contains field

/-- The inputs that are added to a form with this content. -/
def missingInputs (body : List Char) : List FieldInput :=
  (returnInput :: contextInputs).filter fun t => ! hasField body t.field

theorem hasField_return (body : List Char) :
    hasField body "error_return_url".toList = occurs returnInputAt body := if_pos rfl

theorem hasField_of_mem {f : List Char} (hf : f ∈ identityFields) (body : List Char) :
    hasField body f = (findAll identityInputAt body).contains f := by
  have hall : ∀ f ∈ identityFields, f ≠ "error_return_url".toList := by decide
  exact if_neg (hall f hf)

/-- **The missing fields are the inputs for the fields that the content does not have.** -/
theorem missingFields_eq (body : List Char) :
    missingFields body = (missingInputs body).flatMap fun t => (Input.field t).text := by
  have hcontext : (contextInputs.filter fun t => ! hasField body t.field).flatMap
        (fun t => (Input.field t).text) =
      (identityFields.filter fun f => ! (findAll identityInputAt body).contains f).flatMap
        contextField := by
    rw [← List.filter_congr fun f hf => congrArg (! ·) (hasField_of_mem hf body),
      ← map_field_contextInputs, List.filter_map, List.flatMap_map]
    exact List.flatMap_congr fun t ht => text_contextInputs t (List.mem_of_mem_filter ht)
  have hreturn : hasField body returnInput.field = occurs returnInputAt body := hasField_return body
  rw [missingFields, missingInputs, List.filter_cons, hreturn, ← hcontext]
  cases occurs returnInputAt body with
  | true => rfl
  | false =>
    rw [← text_hiddenInput]
    rfl

/-- An input has the field that it is named for. -/
theorem Input.hasField_text (t : Input) (body : List Char) {f : List Char}
    (hf : f ∈ formFields) :
    hasField (t.text ++ body) f = (decide (t.field? = some f) || hasField body f) := by
  rcases List.mem_cons.mp hf with rfl | hf
  · rw [hasField_return, hasField_return, t.occurs_returnInputAt]
  · rw [hasField_of_mem hf, hasField_of_mem hf, t.findAll_identityInputAt]
    cases t.field? with
    | none => rfl
    | some g =>
      by_cases hg : g ∈ identityFields
      · simp [Option.filter_some, hg, eq_comm]
      · have hne : g ≠ f := fun heq => hg (heq ▸ hf)
        simp [Option.filter_some, hg, hne]

/-- A text in which no input starts has no field. -/
theorem Misses.hasField {a b : List Char} (h : Misses (phraseFold "<input".toList) a b)
    (f : List Char) : hasField (a ++ b) f = hasField b f := by
  have hidentity := (h.imp fun cs => identityInputAt_eq_none).findAll
  have hreturn := (h.imp fun cs => returnInputAt_eq_none).occurs
  rw [Stencil.hasField, Stencil.hasField, hidentity, hreturn]

/-- The fields that are added to a form. -/
def PageForm.added (form : PageForm) : List FieldInput :=
  (returnInput :: contextInputs).filter fun t => ! form.fields.contains t.field

/-- The form with its fields. -/
def PageForm.augmented (template rulesetDir : Path) (form : PageForm) : List Char :=
  let (tag, ruleset, _) := rulesetParts template rulesetDir form.tag
  tag ++ ((form.added.flatMap fun t => (Input.field t).text) ++
    (ruleset ++ (form.content ++ form.closing)))

/-- The page with the fields of its forms. -/
def Page.augmented (template rulesetDir : Path) (page : Page) : List Char :=
  (page.forms.flatMap fun x => x.1.chars ++ x.2.augmented template rulesetDir) ++ page.tail

/-! ### The content of a form -/

section Content

variable {b rest : List Char}

/-- What stands behind a text in a form starts with an angle bracket, or there is nothing. -/
def Bracketed (b : List Char) : Prop := ∀ c ∈ b.head?, c = '<'

theorem bracketed_opening (t : Input) (rest : List Char) : Bracketed (t.text ++ rest) := by
  intro c hc
  obtain ⟨cs, hcs, -⟩ := t.text_eq_cons
  rw [hcs, List.cons_append] at hc
  exact (Option.some.inj hc).symm

theorem bracketed_body (body : List (Input × BodyText)) (hrest : Bracketed rest) :
    Bracketed ((body.flatMap fun x => x.1.text ++ x.2.chars) ++ rest) := by
  cases body with
  | nil => exact hrest
  | cons x body =>
    rw [List.flatMap_cons, List.append_assoc, List.append_assoc]
    exact bracketed_opening x.1 _

theorem bracketed_inputs (body : List (Input × BodyText)) :
    Bracketed (body.flatMap fun x => x.1.text ++ x.2.chars) := by
  have hnil : Bracketed [] := by rintro c ⟨⟩
  have hb := bracketed_body body hnil
  rwa [List.append_nil] at hb

theorem BodyText.misses_input (text : BodyText) (hb : Bracketed b) :
    Misses (phraseFold "<input".toList) text.chars b := by
  refine misses_phraseFold text.noInput (.inl fun x hx d hd => ?_)
  have hall : ∀ x ∈ "<input".toList.tail, isFormOf x '<' = false :=
    forall_mem_of_all (by decide)
  rw [hb d hd]
  exact hall x hx

theorem BodyText.misses_closing (text : BodyText) (hb : Bracketed b) :
    Misses (phraseFold "</form>".toList) text.chars b := by
  refine misses_phraseFold text.noClosing (.inl fun x hx d hd => ?_)
  have hall : ∀ x ∈ "</form>".toList.tail, isFormOf x '<' = false :=
    forall_mem_of_all (by decide)
  rw [hb d hd]
  exact hall x hx

theorem Input.misses_closing (t : Input) : Misses (phraseFold "</form>".toList) t.text b := by
  refine misses_phraseFold t.inside.2 (.inr fun x hx d hd => ?_)
  have hall : ∀ x ∈ "</form>".toList.dropLast, isFormOf x '>' = false :=
    forall_mem_of_all (by decide)
  have hlast : t.text.getLast? = some '>' := by
    rw [Input.text, ← List.append_assoc, List.getLast?_concat]
  rw [hlast] at hd
  cases hd
  exact hall x hx

/-- A form does not end in its content. -/
theorem misses_closing_body (body : List (Input × BodyText)) (hrest : Bracketed rest) :
    Misses (phraseFold "</form>".toList) (body.flatMap fun x => x.1.text ++ x.2.chars) rest := by
  induction body with
  | nil => trivial
  | cons x body ih =>
    rw [List.flatMap_cons, List.append_assoc]
    refine misses_append.mpr ⟨x.1.misses_closing, misses_append.mpr ⟨?_, ih⟩⟩
    exact x.2.misses_closing (bracketed_body body hrest)

/-- The content has the fields that its inputs are named for. -/
theorem hasField_body (body : List (Input × BodyText)) {f : List Char} (hf : f ∈ formFields) :
    hasField (body.flatMap fun x => x.1.text ++ x.2.chars) f =
      (body.filterMap fun x => x.1.field?).contains f := by
  induction body with
  | nil =>
    have hall : ∀ f ∈ formFields, hasField [] f = false := by decide
    exact hall f hf
  | cons x body ih =>
    have hb := bracketed_inputs body
    rw [List.flatMap_cons, List.append_assoc, x.1.hasField_text _ hf,
      (x.2.misses_input hb).hasField, ih, List.filterMap_cons]
    cases x.1.field? with
    | none => rfl
    | some g =>
      rw [List.contains_cons]
      congr 1
      rw [Bool.eq_iff_iff, decide_eq_true_iff, beq_iff_eq, Option.some.injEq, eq_comm]

end Content

namespace PageForm

theorem hasField_content (form : PageForm) {f : List Char} (hf : f ∈ formFields) :
    hasField form.content f = form.fields.contains f := by
  rw [content, (form.lead.misses_input (bracketed_inputs form.body)).hasField, hasField_body _ hf,
    fields]

/-- **The missing fields of a form are those that none of its inputs is named for.** -/
theorem missingFields_content (form : PageForm) :
    missingFields form.content = form.added.flatMap fun t => (Input.field t).text := by
  rw [missingFields_eq, missingInputs, added,
    List.filter_congr fun t _ => congrArg (! ·) (form.hasField_content t.isField)]

/-- **A form has every field once, if it had it at most once.** -/
theorem count_fields (form : PageForm) {f : List Char} (hf : f ∈ formFields) :
    (form.added.map FieldInput.field ++ form.fields).count f = max 1 (form.fields.count f) := by
  have hadded : form.added.map FieldInput.field =
      formFields.filter fun f => ! form.fields.contains f := by
    have hmap : formFields = (returnInput :: contextInputs).map FieldInput.field := rfl
    rw [hmap, List.filter_map]
    rfl
  have honce : formFields.count f = 1 := by
    have hall : ∀ f ∈ formFields, formFields.count f = 1 := by decide
    exact hall f hf
  rw [hadded, List.count_append]
  by_cases hmem : f ∈ form.fields
  · have hnone : (formFields.filter fun f => ! form.fields.contains f).count f = 0 :=
      List.count_eq_zero.mpr (by simp [hmem])
    have hpos := List.count_pos_iff.mpr hmem
    omega
  · have hone : (formFields.filter fun f => ! form.fields.contains f).count f = 1 := by
      rw [List.count_filter (by simp [hmem]), honce]
    have hzero := List.count_eq_zero.mpr hmem
    omega

end PageForm

/-! ### Finding forms -/

section Finding

variable {a b cs rest : List Char}

theorem formTagEnd_skip (a rest : List Char) :
    formTagEnd a.length (a ++ rest) = (formTagEnd 0 rest).map (· + a.length) := by
  induction a with
  | nil => simp
  | cons c a ih =>
    rw [List.cons_append, List.length_cons, formTagEnd, ih, Option.map_map]
    rfl

/-- A part of an opening tag is passed, whatever follows it. -/
theorem TagPart.formTagEnd (part : TagPart) (rest : List Char) :
    formTagEnd 0 (part.text ++ rest) = (formTagEnd 0 rest).map (· + part.text.length) := by
  cases part with
  | sign c plain =>
    simp only [List.mem_cons, List.not_mem_nil, or_false, not_or] at plain
    rw [text, List.singleton_append, Stencil.formTagEnd, if_neg plain.2, if_neg plain.1]
    rfl
  | island code closed =>
    have hcut : breakOn closeTag (code ++ (closeTag ++ rest)) = some (code, rest) :=
      breakOn_append_self (by decide) closed
    have hsplit : (island code closed).text ++ rest =
        '<' :: (("?tpl".toList ++ (code ++ closeTag)) ++ rest) := rfl
    have hopen : dropStart? openTag ('<' :: (("?tpl".toList ++ (code ++ closeTag)) ++ rest)) =
        some (code ++ (closeTag ++ rest)) := by
      rw [List.append_assoc, List.append_assoc]
      exact dropStart?_append openTag _
    have hskip := formTagEnd_skip ("?tpl".toList ++ (code ++ closeTag)) rest
    have hlen : ("?tpl".toList ++ (code ++ closeTag)).length =
        code.length + openTag.length + 1 := by
      simp [closeTag, openTag]
    have htext : (island code closed).text.length = code.length + openTag.length + 1 + 1 := by
      rw [← hlen]
      rfl
    rw [hlen] at hskip
    rw [hsplit, Stencil.formTagEnd, if_neg (by decide), if_pos rfl, hopen]
    simp only [hcut, hskip, Option.map_map, htext]
    rfl

theorem formTagEnd_parts (parts : List TagPart) (rest : List Char) :
    formTagEnd 0 (parts.flatMap TagPart.text ++ rest) =
      (formTagEnd 0 rest).map (· + (parts.flatMap TagPart.text).length) := by
  induction parts with
  | nil => simp
  | cons part parts ih =>
    rw [List.flatMap_cons, List.append_assoc, part.formTagEnd, ih, Option.map_map,
      List.length_append]
    congr 1
    funext n
    simp only [Function.comp_apply]
    omega

theorem endsFormName_append_of_ne (h : a ≠ []) : endsFormName (a ++ b) = endsFormName a := by
  obtain ⟨c, a, rfl⟩ := List.exists_cons_of_ne_nil h
  rfl

/-- **A form is found as it was printed.** -/
theorem Form.Found.formAt {f : Form} (h : f.Found) (rest : List Char) :
    formAt (f.source ++ rest) = some (.form f, f.source.length) := by
  obtain ⟨word, parts, hword, hends, htag⟩ := h.opening
  have hsplit : f.source ++ rest =
      word ++ ((parts.flatMap TagPart.text ++ ['>']) ++ (f.body ++ (f.closing ++ rest))) := by
    simp [source, htag]
  have hend : formTagEnd 0 ((parts.flatMap TagPart.text ++ ['>']) ++
      (f.body ++ (f.closing ++ rest))) = some (parts.flatMap TagPart.text ++ ['>']).length := by
    rw [List.append_assoc, formTagEnd_parts, List.singleton_append, formTagEnd, if_pos rfl,
      List.length_append, Nat.add_comm]
    rfl
  have hname : endsFormName ((parts.flatMap TagPart.text ++ ['>']) ++
      (f.body ++ (f.closing ++ rest))) = true := by
    rwa [endsFormName_append_of_ne (List.append_ne_nil_of_right_ne_nil _ (List.cons_ne_nil _ _))]
  have hlen : f.tag.length = (parts.flatMap TagPart.text ++ ['>']).length + 5 := by
    rw [htag, List.length_append, hword.length, Nat.add_comm]
    rfl
  have htake : (f.source ++ rest).take ((parts.flatMap TagPart.text ++ ['>']).length + 5) =
      f.tag := by
    rw [source, List.append_assoc, ← hlen, List.take_left]
  have hclosing : findFirst? (phraseFold "</form>".toList) (f.body ++ (f.closing ++ rest)) =
      some (f.body, (), f.closing, rest) := by
    have hmisses : Misses (phraseFold "</form>".toList) f.body (f.closing ++ rest) :=
      (misses_phraseFold_append h.closing.length.ge).mpr h.inside
    have hmatch : phraseFold "</form>".toList (f.closing ++ rest) =
        some ((), f.closing.length) := by
      rw [phraseFold, h.closing.dropStartFold?, h.closing.length]
      rfl
    have hne : f.closing ≠ [] := List.ne_nil_of_length_pos (h.closing.length ▸ Nat.succ_pos _)
    rw [hmisses.findFirst?, findFirst?_found hne hmatch, Option.map_some, List.append_nil]
  have hlength : f.source.length = f.tag.length + f.body.length + f.closing.length := by
    simp [source, Nat.add_assoc]
  have hopening := hword.dropStartFold?
    ((parts.flatMap TagPart.text ++ ['>']) ++ (f.body ++ (f.closing ++ rest)))
  rw [← hsplit] at hopening
  rw [Stencil.formAt, hopening]
  simp only [hname, hend, List.drop_left, hclosing, htake, hlength]

namespace PageForm

theorem bracketed_closing (form : PageForm) : Bracketed form.closing := by
  have hsplit : "</form>".toList = '<' :: "/form>".toList := rfl
  have hclosing := form.isClosing
  rw [hsplit] at hclosing
  obtain ⟨word, hword, -⟩ := hclosing.eq_cons (by decide)
  intro c hc
  rw [hword] at hc
  exact (Option.some.inj hc).symm

theorem found (form : PageForm) : Form.Found ⟨form.tag, form.content, form.closing⟩ where
  opening := by
    refine ⟨form.opening, form.parts, form.isOpening, ?_, rfl⟩
    have hapart := form.apart
    cases hparts : form.parts.flatMap TagPart.text with
    | nil => rfl
    | cons c cs =>
      rw [hparts] at hapart
      rw [List.cons_append, endsFormName, hapart c rfl, Bool.true_or]
  inside := misses_append.mpr
    ⟨form.lead.misses_closing (bracketed_body form.body form.bracketed_closing),
      misses_closing_body form.body form.bracketed_closing⟩
  closing := form.isClosing

theorem formAt_source (form : PageForm) (rest : List Char) :
    formAt (form.source ++ rest) =
      some (.form ⟨form.tag, form.content, form.closing⟩, form.source.length) :=
  form.found.formAt rest

end PageForm

theorem formAt_eq_none (h : formOpenAt cs = none) : formAt cs = none := by
  rw [formOpenAt] at h
  rw [formAt]
  cases hopen : dropStartFold? "<form".toList cs with
  | none => rfl
  | some rest =>
    rw [hopen, Option.bind_some] at h
    cases hends : endsFormName rest with
    | false => simp only [hends]
    | true =>
      rw [hends] at h
      cases h

/-- A name at the end of a text is not ended by an angle bracket that opens. -/
theorem endsFormName_append (hb : Bracketed b) : endsFormName (a ++ b) = endsFormName a := by
  cases a with
  | cons c a => rfl
  | nil =>
    cases b with
    | nil => rfl
    | cons d b =>
      rw [hb d rfl]
      rfl

theorem FormlessText.misses_formOpenAt (text : FormlessText) (hb : Bracketed b) :
    Misses formOpenAt text.chars b := by
  have hoccurs := text.noForm
  generalize text.chars = a at hoccurs
  induction a with
  | nil => trivial
  | cons c a ih =>
    rw [occurs, Bool.or_eq_false_iff, Option.isSome_eq_false_iff, Option.isNone_iff_eq_none]
      at hoccurs
    refine ⟨?_, ih hoccurs.2⟩
    have hhead := hoccurs.1
    have hsplit : "<form".toList = '<' :: "form".toList := rfl
    have htail : ∀ x ∈ "form".toList, ∀ d ∈ b.head?, isFormOf x d = false := by
      intro x hx d hd
      have hall : ∀ x ∈ "form".toList, isFormOf x '<' = false := forall_mem_of_all (by decide)
      rw [hb d hd]
      exact hall x hx
    rw [formOpenAt, hsplit, dropStartFold?] at hhead ⊢
    split at hhead
    next hc =>
      rw [if_pos hc, dropStartFold?_append_of_notMem htail]
      cases hword : dropStartFold? "form".toList a with
      | none => rfl
      | some rest =>
        rw [hword, Option.bind_some] at hhead
        rw [Option.map_some, Option.bind_some, endsFormName_append hb, hhead]
    next hc =>
      rw [if_neg hc]
      rfl

/-- No form starts in the text in front of a form. -/
theorem FormlessText.misses (text : FormlessText) (hb : Bracketed b) : Misses formAt text.chars b :=
  (text.misses_formOpenAt hb).imp fun _ => formAt_eq_none

end Finding

/-- What is written for a piece of a text. -/
def pieceText (template rulesetDir : Path) : Piece FormPiece → List Char
  | .plain c => [c]
  | .found .rest source => source
  | .found (.form f) _ => (f.augment template rulesetDir).1

theorem augmentForms_fst (template rulesetDir : Path) (cs : List Char) :
    (augmentForms template rulesetDir cs).1 =
      (cut formAt cs).flatMap (pieceText template rulesetDir) := by
  rw [augmentForms]
  generalize 0 = offset
  induction cut formAt cs generalizing offset with
  | nil => rfl
  | cons piece pieces ih =>
    cases piece with
    | plain c =>
      rw [augmentPieces, List.flatMap_cons, ← ih (offset + c.utf8Size)]
      rfl
    | found value source =>
      cases value with
      | rest =>
        rw [augmentPieces, List.flatMap_cons, ← ih (offset + byteSize source)]
        rfl
      | form f =>
        rw [augmentPieces, List.flatMap_cons, ← ih (offset + byteSize source)]
        rfl

end Stencil
