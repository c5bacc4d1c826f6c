import Stencil.Proofs.Forms.Augmenting

/-!
# Adding fields again

The text with the fields of its forms has the same forms at other places, and none of them lacks a
field.  There is one exception: a text that starts as the opening tag of a form but breaks off in an
island is no form, and the search goes on inside of that island.  A form that is found there gets
its fields, and the first of them closes the island.  Then the opening tag in front ends in that
field, its form is found instead, and it lacks the field again.

## Main definitions

* `BreaksInIsland` — a text that starts as the opening tag of a form and ends in an island of it.
* `upToLacking` — the text up to the first form that lacks a field.
* `FormsOutside` — no form that lacks a field stands in such an island.
* `completedText` — the pieces of a text with the fields of the forms.

## Main results

* `missingFields_missingFields` — a form with its fields lacks none.
* `FormCuts.again`, `FormCuts.lacks_again` — what is found in the text with the fields.
* `augmentForms_again` — **fields are added once, unless a form stands in an open island**.
* `field_in_open_island_twice` — in such an island a field is added again.
-/

namespace Stencil

open Text

variable {a b cs p q : List Char} {ps : List (Piece FormPiece)} {template rulesetDir : Path}

/-! ### Fields of completed forms -/

theorem hasField_inputs (ts : List FieldInput) (body : List Char) {f : List Char}
    (hf : f ∈ formFields) : hasField ((ts.flatMap fun t => (Input.field t).text) ++ body) f =
      ((ts.map FieldInput.field).contains f || hasField body f) := by
  induction ts with
  | nil => rfl
  | cons t ts ih =>
    rw [List.flatMap_cons, List.append_assoc, (Input.field t).hasField_text _ hf, ih, List.map_cons,
      List.contains_cons, Bool.or_assoc, Input.field?]
    congr 1
    rw [Bool.eq_iff_iff, decide_eq_true_iff, beq_iff_eq, Option.some.injEq, eq_comm]

theorem missingFields_eq_nil {body : List Char} :
    missingFields body = [] ↔ missingInputs body = [] := by
  rw [missingFields_eq, List.flatMap_eq_nil_iff]
  constructor
  · intro h
    refine List.eq_nil_iff_forall_not_mem.mpr fun t ht => ?_
    have hnil := h t ht
    obtain ⟨cs, hcs, -⟩ := (Input.field t).text_eq_cons
    rw [hcs] at hnil
    cases hnil
  · intro h t ht
    rw [h] at ht
    cases ht

/-- **A form with its fields lacks none.** -/
theorem missingFields_missingFields (body : List Char) :
    missingFields (missingFields body ++ body) = [] := by
  rw [missingFields_eq_nil, missingInputs, List.filter_eq_nil_iff]
  intro t ht
  rw [missingFields_eq, hasField_inputs _ _ t.isField]
  cases hhas : hasField body t.field with
  | true => simp
  | false =>
    have hmem : t ∈ missingInputs body := List.mem_filter.mpr ⟨ht, by rw [hhas]; rfl⟩
    rw [List.contains_iff_mem.mpr (List.mem_map_of_mem hmem)]
    simp

/-- With all but the first of the fields that it lacks, a form still lacks that one. -/
theorem missingFields_ne_nil {t : FieldInput} {ts : List FieldInput} {body : List Char}
    (h : missingInputs body = t :: ts) :
    missingFields ((ts.flatMap fun t => (Input.field t).text) ++ body) ≠ [] := by
  have hmem : t ∈ missingInputs body := h ▸ List.mem_cons_self
  obtain ⟨hinput, hlacks⟩ := List.mem_filter.mp hmem
  have honce : ((missingInputs body).map FieldInput.field).Nodup := by
    have hsub : ((missingInputs body).map FieldInput.field).Sublist formFields :=
      List.filter_sublist.map FieldInput.field
    exact hsub.nodup (by decide)
  rw [h, List.map_cons, List.nodup_cons] at honce
  rw [Ne, missingFields_eq_nil]
  refine List.ne_nil_of_mem (List.mem_filter.mpr ⟨hinput, ?_⟩)
  rw [hasField_inputs _ _ t.isField, Bool.not_or, hlacks]
  simpa using honce.1

/-- A form does not end in inputs. -/
theorem misses_closing_inputs (ts : List FieldInput) (rest : List Char) :
    Misses (phraseFold "</form>".toList) (ts.flatMap fun t => (Input.field t).text) rest := by
  induction ts with
  | nil => trivial
  | cons t ts ih => exact misses_append.mpr ⟨(Input.field t).misses_closing, ih⟩

/-- The form with its fields. -/
def Form.completed (f : Form) : Form := { f with body := missingFields f.body ++ f.body }

theorem Form.completed_eq {f : Form} (h : missingFields f.body = []) : f.completed = f := by
  rw [completed, h]
  rfl

theorem Form.completed_completed (f : Form) : f.completed.completed = f.completed :=
  completed_eq (missingFields_missingFields f.body)

theorem Form.Found.completed {f : Form} (h : f.Found) : f.completed.Found where
  opening := h.opening
  inside := by
    have hinputs := misses_closing_inputs (missingInputs f.body) (f.body ++ f.closing)
    rw [← missingFields_eq] at hinputs
    exact misses_append.mpr ⟨hinputs, h.inside⟩
  closing := h.closing

/-- The first field that a form lacks, and the content without it. -/
theorem Form.Found.exists_missing {f : Form} (h : f.Found) (hlacks : missingFields f.body ≠ []) :
    ∃ t ∈ returnInput :: contextInputs, ∃ b,
      missingFields f.body ++ f.body = (Input.field t).text ++ b ∧
        Misses (phraseFold "</form>".toList) b f.closing ∧ missingFields b ≠ [] := by
  rw [Ne, missingFields_eq_nil] at hlacks
  obtain ⟨t, ts, hmissing⟩ := List.exists_cons_of_ne_nil hlacks
  have ht : t ∈ missingInputs f.body := hmissing ▸ List.mem_cons_self
  refine ⟨t, List.mem_of_mem_filter ht, (ts.flatMap fun t => (Input.field t).text) ++ f.body, ?_,
    misses_append.mpr ⟨misses_closing_inputs ts _, h.inside⟩, missingFields_ne_nil hmissing⟩
  rw [missingFields_eq, hmissing, List.flatMap_cons, List.append_assoc]

/-! ### Islands that an opening tag leaves open -/

/-- The text starts as the opening tag of a form and ends in one of its islands. -/
def BreaksInIsland (cs : List Char) : Prop :=
  ∃ (word : List Char) (parts : List TagPart) (code : List Char),
    FormOf "<form".toList word ∧
    endsFormName (parts.flatMap TagPart.text ++ (openTag ++ code)) = true ∧
    breakOn closeTag code = none ∧
    cs = word ++ (parts.flatMap TagPart.text ++ (openTag ++ code))

/-- A form starts in front of such an island. -/
theorem BreaksInIsland.formOpenAt_ne_none (h : BreaksInIsland cs) (rest : List Char) :
    formOpenAt (cs ++ rest) ≠ none := by
  obtain ⟨word, parts, code, hword, hends, -, rfl⟩ := h
  have hne : parts.flatMap TagPart.text ++ (openTag ++ code) ≠ [] := by simp [openTag]
  rw [formOpenAt, List.append_assoc, hword.dropStartFold?, Option.bind_some,
    endsFormName_append_of_ne hne, if_pos hends]
  exact Option.some_ne_none _

/-- The island of a field that is added is closed near the end of the field. -/
theorem exists_front {t : FieldInput} (ht : t ∈ returnInput :: contextInputs) :
    ∃ front, (Input.field t).text = '<' :: 'i' :: front ++ (closeTag ++ "\x22 />".toList) ∧
      breakOn closeTag ('<' :: 'i' :: front) = none := by
  have hall : ((returnInput :: contextInputs).all fun t =>
      let front := ((Input.field t).text.drop 2).take ((Input.field t).text.length - 8)
      decide ((Input.field t).text = '<' :: 'i' :: front ++ (closeTag ++ "\x22 />".toList) ∧
        breakOn closeTag ('<' :: 'i' :: front) = none)) = true := by decide +kernel
  exact ⟨_, of_decide_eq_true (List.all_eq_true.mp hall t ht)⟩

/-- An opening tag does not end where a field follows, unless it breaks off in an island. -/
theorem formAt_before_tag (hlen : 5 < a.length) (hnone : formAt (a ++ q) = none)
    (hbreaks : ¬ BreaksInIsland a) (hb : dropStart? openTag ('<' :: b) = none) :
    formAt (a ++ '<' :: b) = none := by
  refine formAt_eq_none_iff.mpr fun word rest hword hcs hends => ?_
  have hfive : word.length = 5 := hword.length
  obtain ⟨r, rfl, hrest⟩ : ∃ r, a = word ++ r ∧ rest = r ++ '<' :: b := by
    rcases List.append_eq_append_iff.mp hcs with ⟨t, rfl, -⟩ | h
    · simp only [List.length_append] at hfive
      omega
    · exact h
  have hne : r ≠ [] := by
    rintro rfl
    rw [List.append_nil, hfive] at hlen
    omega
  rw [hrest, endsFormName_append_of_ne hne] at hends
  have hend : formTagEnd 0 (r ++ q) = none :=
    formAt_eq_none_iff.mp hnone word (r ++ q) hword (List.append_assoc ..)
      (by rwa [endsFormName_append_of_ne hne])
  have hstop : formTagEnd 0 ('<' :: b) = none := by
    rw [formTagEnd, if_neg (by decide), if_pos rfl, hb]
  rw [hrest]
  have htagEnd := tagEnd r
  generalize formTagEnd 0 r = n at htagEnd
  cases htagEnd with
  | closes parts after =>
    rw [List.append_assoc, formTagEnd_parts, List.cons_append, formTagEnd, if_pos rfl] at hend
    cases hend
  | stops parts after h =>
    have hopen : dropStart? openTag ('<' :: (after ++ '<' :: b)) = none :=
      dropStart?_append_eq_none (a := '<' :: after) (List.cons_ne_nil '<' after)
        (.inl fun d hd => by cases hd; decide) h
    rw [List.append_assoc, formTagEnd_parts, List.cons_append, formTagEnd, if_neg (by decide),
      if_pos rfl, hopen]
    rfl
  | breaks parts code h => exact absurd ⟨word, parts, code, hword, hends, h, rfl⟩ hbreaks
  | runsOut parts => rw [formTagEnd_parts, hstop, Option.map_none]

/-- **An island that an opening tag leaves open takes in the field that follows.** -/
theorem BreaksInIsland.exists_form (h : BreaksInIsland a) {t : FieldInput}
    (ht : t ∈ returnInput :: contextInputs) (hinside : Misses (phraseFold "</form>".toList) b p)
    (hclosing : FormOf "</form>".toList p) :
    ∃ g : Form, g.Found ∧ g.body = b ∧ g.source = a ++ ((Input.field t).text ++ (b ++ p)) := by
  obtain ⟨word, parts, code, hword, hends, hopen, rfl⟩ := h
  obtain ⟨front, htext, hfront⟩ := exists_front ht
  have hclosed : breakOn closeTag (code ++ '<' :: 'i' :: front) = none := by
    have hmisses : Misses (phrase closeTag) code ('<' :: 'i' :: front) :=
      misses_phrase (by rw [contains, hopen]; rfl) (.inl fun d hd => by cases hd; decide)
    rw [hmisses.breakOn, hfront]
    rfl
  let more : List TagPart := [.island (code ++ '<' :: 'i' :: front) hclosed,
    .sign '\x22' (by decide), .sign ' ' (by decide), .sign '/' (by decide)]
  have hparts : (parts ++ more).flatMap TagPart.text ++ ['>'] =
      (parts.flatMap TagPart.text ++ (openTag ++ code)) ++ (Input.field t).text := by
    rw [htext]
    simp [more, TagPart.text]
  refine ⟨⟨word ++ ((parts.flatMap TagPart.text ++ (openTag ++ code)) ++ (Input.field t).text),
    b, p⟩, ⟨⟨word, _, hword, ?_, congrArg _ hparts.symm⟩, hinside, hclosing⟩, rfl, ?_⟩
  · rw [hparts, endsFormName_append_of_ne]
    · exact hends
    · simp [openTag]
  · simp only [Form.source, List.append_assoc]

/-! ### The second run -/

/-- A piece, with its fields if it is a form. -/
def completedPiece : Piece FormPiece → Piece FormPiece
  | .found (.form f) _ => .found (.form f.completed) f.completed.source
  | piece => piece

/-- The text of the pieces with the fields of the forms. -/
def completedText (ps : List (Piece FormPiece)) : List Char :=
  (ps.map completedPiece).flatMap Piece.source

@[simp] theorem completedText_plain (c : Char) (ps : List (Piece FormPiece)) :
    completedText (.plain c :: ps) = c :: completedText ps := rfl

@[simp] theorem completedText_form (f : Form) (source : List Char) (ps : List (Piece FormPiece)) :
    completedText (.found (.form f) source :: ps) = f.completed.source ++ completedText ps := rfl

@[simp] theorem completedText_rest (source : List Char) (ps : List (Piece FormPiece)) :
    completedText (.found .rest source :: ps) = source ++ completedText ps := rfl

/-- The text up to the first form that lacks a field, with the opening tag of that form. -/
def upToLacking : List (Piece FormPiece) → Option (List Char)
  | [] => none
  | .plain c :: ps => (upToLacking ps).map (c :: ·)
  | .found (.form f) source :: ps =>
    if missingFields f.body = [] then (upToLacking ps).map (source ++ ·) else some f.tag
  | .found .rest _ :: _ => none

/-- From no place between the forms does an island of an opening tag reach behind the opening tag of
the next form that lacks a field. -/
def FormsOutside : List (Piece FormPiece) → Prop
  | [] => True
  | .plain c :: ps =>
    (∀ text ∈ upToLacking ps, ¬ BreaksInIsland (c :: text)) ∧ FormsOutside ps
  | .found _ _ :: ps => FormsOutside ps

theorem FormCuts.completedText_of_none (h : FormCuts cs ps) (hnone : upToLacking ps = none) :
    completedText ps = cs := by
  induction h with
  | nil => rfl
  | plain _ _ ih => rw [completedText_plain, ih (Option.map_eq_none_iff.mp hnone)]
  | form _ _ ih =>
    rw [upToLacking] at hnone
    split at hnone
    next hfull =>
      rw [completedText_form, Form.completed_eq hfull, ih (Option.map_eq_none_iff.mp hnone)]
    next => cases hnone
  | rest => exact List.append_nil _

/-- Up to the first form that lacks a field, the text stays. -/
theorem FormCuts.completedText_of_some (h : FormCuts cs ps) (hsome : upToLacking ps = some p) :
    ∃ (f : Form) (q q' : List Char), f.Found ∧ missingFields f.body ≠ [] ∧ 5 < p.length ∧
      cs = p ++ q ∧
      completedText ps = p ++ ((missingFields f.body ++ f.body) ++ (f.closing ++ q')) := by
  induction h generalizing p with
  | nil => cases hsome
  | plain _ _ ih =>
    obtain ⟨p, hp, rfl⟩ := Option.map_eq_some_iff.mp hsome
    obtain ⟨f, q, q', hf, hlacks, hlen, rfl, htext⟩ := ih hp
    exact ⟨f, q, q', hf, hlacks, hlen.trans (Nat.lt_succ_self _), rfl, congrArg _ htext⟩
  | @form f cs ps hf _ ih =>
    rw [upToLacking] at hsome
    split at hsome
    next hfull =>
      obtain ⟨p, hp, rfl⟩ := Option.map_eq_some_iff.mp hsome
      obtain ⟨g, q, q', hg, hlacks, hlen, rfl, htext⟩ := ih hp
      refine ⟨g, q, q', hg, hlacks, ?_, (List.append_assoc ..).symm, ?_⟩
      · rw [List.length_append]
        omega
      · rw [completedText_form, Form.completed_eq hfull, htext, List.append_assoc f.source]
    next hlacks =>
      cases hsome
      refine ⟨f, f.body ++ f.closing ++ cs, completedText ps, hf, hlacks, hf.five_lt, ?_, ?_⟩
      · simp only [Form.source, List.append_assoc]
      · simp only [completedText_form, Form.source, Form.completed, List.append_assoc]
  | rest => cases hsome

/-- Where no form was found, none is found in the text with the fields. -/
theorem FormCuts.formAt_eq_none {c : Char} (h : FormCuts cs ps) (hnone : formAt (c :: cs) = none)
    (hout : ∀ text ∈ upToLacking ps, ¬ BreaksInIsland (c :: text)) :
    formAt (c :: completedText ps) = none := by
  cases hfirst : upToLacking ps with
  | none => rwa [h.completedText_of_none hfirst]
  | some p =>
    obtain ⟨f, q, q', hf, hlacks, hlen, rfl, htext⟩ := h.completedText_of_some hfirst
    obtain ⟨t, ht, b, hfields, -, -⟩ := hf.exists_missing hlacks
    obtain ⟨front, hfront, -⟩ := exists_front ht
    have hsplit : c :: completedText ps = (c :: p) ++
        '<' :: ('i' :: front ++ (closeTag ++ "\x22 />".toList) ++ (b ++ (f.closing ++ q'))) := by
      rw [htext, hfields, hfront]
      simp only [List.append_assoc, List.cons_append]
    rw [hsplit]
    exact formAt_before_tag (hlen.trans (Nat.lt_succ_self _)) hnone (hout p hfirst) rfl

/-- A field that is added in an open island becomes part of the opening tag in front, and the form
of that tag lacks it. -/
theorem FormCuts.exists_form {c : Char} (h : FormCuts cs ps) (hfirst : upToLacking ps = some p)
    (hbreaks : BreaksInIsland (c :: p)) : ∃ (g : Form) (rest : List Char), g.Found ∧
      missingFields g.body ≠ [] ∧ c :: completedText ps = g.source ++ rest := by
  obtain ⟨f, q, q', hf, hlacks, -, -, htext⟩ := h.completedText_of_some hfirst
  obtain ⟨t, ht, b, hfields, hinside, hstill⟩ := hf.exists_missing hlacks
  obtain ⟨g, hg, rfl, hsource⟩ := hbreaks.exists_form ht hinside hf.closing
  refine ⟨g, q', hg, hstill, ?_⟩
  rw [hsource, htext, hfields]
  simp only [List.append_assoc, List.cons_append]

/-- **The same forms are found in the text with the fields.** -/
theorem FormCuts.again (h : FormCuts cs ps) (hout : FormsOutside ps) :
    FormCuts (completedText ps) (ps.map completedPiece) := by
  induction h with
  | nil => exact .nil
  | plain hnone hrest ih => exact .plain (hrest.formAt_eq_none hnone hout.1) (ih hout.2)
  | form hf _ ih => exact .form hf.completed (ih hout)
  | @rest cs hne hmatch =>
    rw [completedText_rest, completedText, List.map_nil, List.flatMap_nil, List.append_nil]
    exact .rest hne hmatch

/-- **Otherwise a form is found that lacks a field.** -/
theorem FormCuts.lacks_again (h : FormCuts cs ps) (hin : ¬ FormsOutside ps) :
    ∃ g ∈ formsIn (cut formAt (completedText ps)), missingFields g.body ≠ [] := by
  induction h with
  | nil => exact absurd trivial hin
  | @plain c cs ps hnone hrest ih =>
    rw [completedText_plain]
    by_cases hout : ∀ text ∈ upToLacking ps, ¬ BreaksInIsland (c :: text)
    · rw [cut_plain (hrest.formAt_eq_none hnone hout)]
      exact ih fun hps => hin ⟨hout, hps⟩
    · push Not at hout
      obtain ⟨p, hp, hbreaks⟩ := hout
      obtain ⟨g, rest, hg, hlacks, htext⟩ := hrest.exists_form hp hbreaks
      rw [htext, hg.cut_eq]
      exact ⟨g, List.mem_cons_self, hlacks⟩
  | @form f cs ps hf _ ih =>
    obtain ⟨g, hg, hlacks⟩ := ih hin
    rw [completedText_form, hf.completed.cut_eq]
    exact ⟨g, List.mem_cons_of_mem _ hg, hlacks⟩
  | rest => exact absurd trivial hin

/-! ### Pages -/

theorem upToLacking_eq_none (h : formsIn ps = []) : upToLacking ps = none := by
  induction ps with
  | nil => rfl
  | cons piece ps ih =>
    match piece with
    | .plain c => exact Option.map_eq_none_iff.mpr (ih h)
    | .found .rest source => rfl
    | .found (.form f) source => cases h

theorem formsOutside_of_formsIn (h : formsIn ps = []) : FormsOutside ps := by
  induction ps with
  | nil => trivial
  | cons piece ps ih =>
    match piece with
    | .plain c =>
      have hps : formsIn ps = [] := h
      refine ⟨fun text htext => ?_, ih hps⟩
      rw [upToLacking_eq_none hps] at htext
      cases htext
    | .found .rest source => exact ih h
    | .found (.form f) source => cases h

/-- No island is open behind a text in which no form starts. -/
theorem FormsOutside.behind (hmisses : Misses formOpenAt a cs)
    (hout : FormsOutside (cut formAt cs)) : FormsOutside (cut formAt (a ++ cs)) := by
  induction a with
  | nil => exact hout
  | cons c a ih =>
    obtain ⟨hnone, hmisses⟩ := hmisses
    rw [List.cons_append, cut_plain (Stencil.formAt_eq_none hnone)]
    refine ⟨fun text htext hbreaks => ?_, ih hmisses⟩
    obtain ⟨-, q, -, -, -, -, hsplit, -⟩ := (formCuts (a ++ cs)).completedText_of_some htext
    rw [hsplit, ← List.cons_append] at hnone
    exact hbreaks.formOpenAt_ne_none q hnone

/-- **No form of a page stands in an open island.** -/
theorem Page.formsOutside (page : Page) : FormsOutside (cut formAt page.source) := by
  rw [source]
  induction page.forms with
  | nil => exact formsOutside_of_formsIn ((formCuts _).formsIn_eq_nil page.done)
  | cons x forms ih =>
    have hb : Bracketed (x.2.source ++
        ((forms.flatMap fun x => x.1.chars ++ x.2.source) ++ page.tail)) := by
      intro c hc
      obtain ⟨cs, hcs⟩ := x.2.source_eq_cons
      rw [hcs] at hc
      exact (Option.some.inj hc).symm
    simp only [List.flatMap_cons, List.append_assoc]
    refine FormsOutside.behind (x.1.misses_formOpenAt hb) ?_
    have hcut := x.2.found.cut_eq ((forms.flatMap fun x => x.1.chars ++ x.2.source) ++ page.tail)
    have hsource : x.2.source = Form.source ⟨x.2.tag, x.2.content, x.2.closing⟩ := rfl
    rw [hsource, hcut]
    exact ih

/-! ### Rulesets -/

theorem not_occurs_rulesetAttributeAt {tag : List Char}
    (h : occurs (phraseFold "ruleset=\x22".toList) tag = false) :
    occurs rulesetAttributeAt tag = false := by
  refine not_occurs_of_imp (fun cs hm => ?_) h
  rw [← List.takeWhile_append_dropWhile (p := isBlank) (l := cs)]
  refine occurs_append _ ?_
  rw [rulesetAttributeAt] at hm
  cases hdrop : cs.dropWhile isBlank with
  | nil =>
    rw [hdrop] at hm
    cases hm
  | cons c rest =>
    rw [hdrop] at hm
    split at hm
    next hword =>
      refine occurs_cons ?_
      rw [phraseFold, hword]
      rfl
    next => cases hm

/-- Without a ruleset a form only gets its fields. -/
theorem augment_of_not_occurs {f : Form}
    (h : occurs (phraseFold "ruleset=\x22".toList) f.tag = false) :
    f.augment template rulesetDir = (f.completed.source, none) := by
  rw [Form.augment, rulesetParts, findFirst?_eq_none (not_occurs_rulesetAttributeAt h)]
  simp [Form.completed, Form.source]

theorem augmentPieces_eq
    (h : ∀ f ∈ formsIn ps, occurs (phraseFold "ruleset=\x22".toList) f.tag = false)
    (offset : Nat) : augmentPieces template rulesetDir offset ps = (completedText ps, []) := by
  induction ps generalizing offset with
  | nil => rfl
  | cons piece ps ih =>
    match piece with
    | .plain c =>
      rw [augmentPieces, ih h]
      rfl
    | .found .rest source =>
      rw [augmentPieces, ih h]
      rfl
    | .found (.form f) source =>
      rw [formsIn_form, List.forall_mem_cons] at h
      rw [augmentPieces, ih h.2, augment_of_not_occurs h.1]
      rfl

theorem formsIn_map_completedPiece (ps : List (Piece FormPiece)) :
    formsIn (ps.map completedPiece) = (formsIn ps).map Form.completed := by
  induction ps with
  | nil => rfl
  | cons piece ps ih =>
    match piece with
    | .plain c => exact ih
    | .found .rest source => exact ih
    | .found (.form f) source => exact congrArg (f.completed :: ·) ih

theorem completedText_map_completedPiece (ps : List (Piece FormPiece)) :
    completedText (ps.map completedPiece) = completedText ps := by
  have hpiece : completedPiece ∘ completedPiece = completedPiece := by
    funext piece
    match piece with
    | .plain c => rfl
    | .found .rest source => rfl
    | .found (.form f) source =>
      simp only [Function.comp_apply, completedPiece, Form.completed_completed]
  rw [completedText, List.map_map, hpiece, completedText]

/-- **Where no form that lacks a field stands in an open island, adding the fields again changes
nothing and reports nothing; anywhere else some form then lacks a field again.** -/
theorem augmentForms_again (template rulesetDir : Path) (cs : List Char)
    (hrulesets : ∀ f ∈ formsIn (cut formAt cs),
      occurs (phraseFold "ruleset=\x22".toList) f.tag = false) :
    (FormsOutside (cut formAt cs) →
      augmentForms template rulesetDir (augmentForms template rulesetDir cs).1 =
        ((augmentForms template rulesetDir cs).1, [])) ∧
    (¬ FormsOutside (cut formAt cs) →
      ∃ g ∈ formsIn (cut formAt (augmentForms template rulesetDir cs).1),
        missingFields g.body ≠ []) := by
  have hcuts := formCuts cs
  have hfirst : (augmentForms template rulesetDir cs).1 = completedText (cut formAt cs) := by
    rw [augmentForms, augmentPieces_eq hrulesets]
  have hagain : ∀ f ∈ formsIn ((cut formAt cs).map completedPiece),
      occurs (phraseFold "ruleset=\x22".toList) f.tag = false := by
    rw [formsIn_map_completedPiece, List.forall_mem_map]
    exact hrulesets
  rw [hfirst]
  refine ⟨fun hout => ?_, hcuts.lacks_again⟩
  rw [augmentForms, (hcuts.again hout).cut_eq, augmentPieces_eq hagain,
    completedText_map_completedPiece]

theorem augmentForms_again_mid :
    (∀ f ∈ formsIn (cut formAt midPage.source),
      occurs (phraseFold "ruleset=\x22".toList) f.tag = false) ∧
    FormsOutside (cut formAt midPage.source) ∧
    augmentForms [] [] (augmentForms [] [] midPage.source).1 =
      ((augmentForms [] [] midPage.source).1, []) := by
  have hrulesets : ∀ f ∈ formsIn (cut formAt midPage.source),
      occurs (phraseFold "ruleset=\x22".toList) f.tag = false := by decide +kernel
  obtain ⟨hagain, -⟩ := augmentForms_again [] [] midPage.source hrulesets
  exact ⟨hrulesets, midPage.formsOutside, hagain midPage.formsOutside⟩

/-- A form in an island that is never closed, in a text that starts as the tag of another one. -/
def openIsland : List Char := "<form <?tpl # <form></form>".toList

/-- In an open island a field is added again. -/
theorem field_in_open_island_twice :
    (∀ f ∈ formsIn (cut formAt openIsland),
      occurs (phraseFold "ruleset=\x22".toList) f.tag = false) ∧
    (occurrences "name=\x22error_return_url\x22".toList
      (augmentForms [] [] openIsland).1).length = 1 ∧
    (occurrences "name=\x22error_return_url\x22".toList
      (augmentForms [] [] (augmentForms [] [] openIsland).1).1).length = 2 := by
  decide +kernel

end Stencil
