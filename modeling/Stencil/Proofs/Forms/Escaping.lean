import Stencil.Proofs.Assignment.Targets
import Stencil.Proofs.Elements.Documents
import Stencil.Proofs.Forms.Pages
import Stencil.Proofs.Scanning.Spans
import Stencil.Proofs.Sequencing
import Stencil.Proofs.Spelling

/-!
# What hidden fields show

The fields that a form gets take their values from the request.  Text that is escaped has no quotes
and no angle brackets, and the entities in it stand for the text.  The address to go back to is
escaped, so its field is one input whatever the address is.  The values of the context are written
as they are: such a field is one input with the value in it if the value has nothing to escape, and
else it is not.

## Main definitions

* `entities`, `decodeEntities` — the entities of markup, and the text that they stand for.
* `Unmarked` — a text without quotes, angle brackets and entities.
* `ShowsField` — a text is one hidden input with a value that stands for a given text.
* `lackedFields`, `fieldStmts` — the fields that a form gets, and their statements.

## Main results

* `decodeEntities_escapeHtml` — escaping is undone by reading the entities.
* `renders_missingFields`, `execBlock_fieldStmts` — the statements of the fields, and what they write.
* `missingFields_show` — **which fields are shown as one input.**
-/

namespace Stencil

open Text Lexer Stencil.Parser

variable {cs rest text value field shown : List Char} {c : Char}

/-! ### Entities -/

/-- The entities of markup, and the characters that they stand for. -/
def entities : List (List Char × Char) :=
  [("&amp;".toList, '&'), ("&lt;".toList, '<'), ("&gt;".toList, '>'), ("&quot;".toList, '\x22'),
    ("&#039;".toList, '\x27')]

/-- An entity. -/
def entityAt : Matcher Char := fun cs =>
  entities.findSome? fun (spelling, c) => (dropStart? spelling cs).map fun _ => (c, spelling.length)

/-- The text with its entities read. -/
def decodeEntities (cs : List Char) : List Char := replaceMatches entityAt (fun c => [c]) cs

/-- The signs that end a quoted value or a tag, or start one. -/
def delimiters : List Char := ['\x22', '<', '>']

/-- The text can stand in a quoted value as it is. -/
def Harmless (cs : List Char) : Prop := (∀ c ∈ cs, c ∉ delimiters) ∧ occurs entityAt cs = false

instance : Decidable (Harmless cs) :=
  -- the search must go through the text, not through all characters
  have : Decidable (∀ c ∈ cs, c ∉ delimiters) := List.decidableBAll _ _
  inferInstanceAs (Decidable ((∀ c ∈ cs, c ∉ delimiters) ∧ occurs entityAt cs = false))

/-- A character becomes its entity, or it is none that has one. -/
theorem escapeChar_cases (c : Char) :
    (∃ x ∈ entities, x.2 = c ∧ escapeChar c = x.1) ∨
      (∀ x ∈ entities, x.2 ≠ c) ∧ escapeChar c = [c] := by
  by_cases h : ∃ x ∈ entities, x.2 = c
  · obtain ⟨x, hx, rfl⟩ := h
    have hall : ∀ x ∈ entities, escapeChar x.2 = x.1 := by decide
    exact .inl ⟨x, hx, rfl, hall x hx⟩
  · have hnone : ∀ x ∈ entities, x.2 ≠ c := fun x hx heq => h ⟨x, hx, heq⟩
    refine .inr ⟨hnone, ?_⟩
    simp only [entities, List.forall_mem_cons, List.not_mem_nil] at hnone
    obtain ⟨h₁, h₂, h₃, h₄, h₅, -⟩ := hnone
    simp [escapeChar, h₁.symm, h₂.symm, h₃.symm, h₄.symm, h₅.symm]

theorem ne_nil_of_mem_entities : ∀ x ∈ entities, x.1 ≠ [] := by decide

theorem entityAt_append : ∀ x ∈ entities, ∀ rest : List Char,
    entityAt (x.1 ++ rest) = some (x.2, x.1.length) := by
  simp only [entities, List.forall_mem_cons, List.not_mem_nil]
  exact ⟨fun _ => rfl, fun _ => rfl, fun _ => rfl, fun _ => rfl, fun _ => rfl, nofun⟩

/-- Entities start with an ampersand, which has one itself. -/
theorem entityAt_eq_none (hc : ∀ x ∈ entities, x.2 ≠ c) (cs : List Char) :
    entityAt (c :: cs) = none := by
  have hamp : ('&' : Char) ≠ c := hc _ List.mem_cons_self
  have hall : ∀ x ∈ entities, ∃ p, x.1 = '&' :: p := by
    simp only [entities, List.forall_mem_cons, List.not_mem_nil]
    exact ⟨⟨_, rfl⟩, ⟨_, rfl⟩, ⟨_, rfl⟩, ⟨_, rfl⟩, ⟨_, rfl⟩, nofun⟩
  refine List.findSome?_eq_none_iff.mpr ?_
  rintro ⟨spelling, d⟩ hx
  obtain ⟨p, rfl⟩ : ∃ p, spelling = '&' :: p := hall _ hx
  simp [dropStart?, hamp]

/-- What is found is the text of an entity. -/
theorem exists_of_entityAt {n : Nat} (h : entityAt cs = some (c, n)) :
    ∃ x ∈ entities, ∃ rest, cs = x.1 ++ rest ∧ n = x.1.length := by
  obtain ⟨x, hx, hfound⟩ := List.exists_of_findSome?_eq_some h
  obtain ⟨rest, hrest, heq⟩ := Option.map_eq_some_iff.mp hfound
  cases heq
  exact ⟨x, hx, rest, dropStart?_eq_some_iff.mp hrest, rfl⟩

theorem takesStarts_entityAt : TakesStarts entityAt := by
  intro cs d n h
  obtain ⟨x, hx, rest, hcs, hn⟩ := exists_of_entityAt h
  exact ⟨x.1, rest, ne_nil_of_mem_entities x hx, hcs, hn⟩

/-- **Reading the entities undoes the escaping.** -/
theorem decodeEntities_escape (cs : List Char) :
    decodeEntities (cs.flatMap escapeChar) = cs := by
  induction cs with
  | nil => rfl
  | cons c cs ih =>
    rw [List.flatMap_cons]
    rcases escapeChar_cases c with ⟨x, hx, rfl, hescape⟩ | ⟨hnone, hescape⟩
    · rw [hescape, decodeEntities, replaceMatches, cut,
        cutFrom_found (ne_nil_of_mem_entities x hx) (entityAt_append x hx _)]
      exact congrArg (x.2 :: ·) ih
    · rw [hescape, List.singleton_append, decodeEntities, replaceMatches, cut, cutFrom,
        entityAt_eq_none hnone]
      exact congrArg (c :: ·) ih

/-- Escaped text has no delimiters. -/
theorem notMem_delimiters_escape : ∀ d ∈ cs.flatMap escapeChar, d ∉ delimiters := by
  intro d hd
  obtain ⟨c, -, hd⟩ := List.mem_flatMap.mp hd
  rcases escapeChar_cases c with ⟨x, hx, -, hescape⟩ | ⟨hnone, hescape⟩
  · have hall : ∀ x ∈ entities, (x.1.all fun d => decide (d ∉ delimiters)) = true := by decide
    exact forall_mem_of_all (hall x hx) d (hescape ▸ hd)
  · rw [hescape, List.mem_singleton] at hd
    have hall : ∀ d ∈ delimiters, ∃ x ∈ entities, x.2 = d := forall_mem_of_all (by decide)
    intro hmem
    obtain ⟨x, hx, heq⟩ := hall d hmem
    exact hnone x hx (heq.trans hd)

/-- Reading an entity makes a text shorter. -/
theorem length_decode_of_cuts {ps : List (Piece Char)} (h : Cuts entityAt cs ps) :
    (ps.flatMap (Piece.render fun c => [c])).length ≤ cs.length ∧
      ((ps.flatMap (Piece.render fun c => [c])).length = cs.length →
        occurs entityAt cs = false) := by
  induction h with
  | nil => exact ⟨le_rfl, fun _ => rfl⟩
  | @plain c rest ps hnone _ ih =>
    obtain ⟨hle, hsame⟩ := ih
    simp only [List.flatMap_cons, Piece.render, List.singleton_append, List.length_cons]
    refine ⟨Nat.succ_le_succ hle, fun hlength => ?_⟩
    rw [occurs, hnone, hsame (Nat.succ.inj hlength)]
    rfl
  | @found c source rest ps hne hmatch _ ih =>
    obtain ⟨x, hx, -, -, hlength⟩ := exists_of_entityAt hmatch
    have hall : ∀ x ∈ entities, 1 < x.1.length := by decide
    have hlong := hall x hx
    have hle := ih.1
    simp only [List.flatMap_cons, Piece.render, List.singleton_append, List.length_cons,
      List.length_append]
    omega

/-- Only a text without entities stands for itself. -/
theorem decodeEntities_eq_self_iff : decodeEntities cs = cs ↔ occurs entityAt cs = false := by
  constructor
  · intro h
    refine (length_decode_of_cuts (cuts_cut takesStarts_entityAt cs)).2 ?_
    rw [decodeEntities, replaceMatches] at h
    rw [h]
  · exact replaceMatches_of_not_occurs _

/-! ### One field -/

/-- The text is one hidden input for the field.  Its value has no delimiters, and it stands for the
given text. -/
def ShowsField (field text shown : List Char) : Prop :=
  ∃ value, shown = hiddenField field value ∧ (∀ c ∈ value, c ∉ delimiters) ∧
    decodeEntities value = text

/-- The text of a field in front of its value. -/
def fieldStart (field : List Char) : List Char :=
  "<input type=\x22hidden\x22 name=\x22".toList ++ field ++ "\x22 value=\x22".toList

/-- The text of a field behind its value. -/
def fieldEnd : List Char := "\x22 />".toList

theorem hiddenField_eq (field value : List Char) :
    hiddenField field value = fieldStart field ++ (value ++ fieldEnd) := by
  unfold hiddenField fieldStart fieldEnd
  simp only [List.append_assoc]

theorem hiddenField_inj {value' : List Char}
    (h : hiddenField field value = hiddenField field value') : value = value' := by
  rw [hiddenField_eq, hiddenField_eq] at h
  exact List.append_cancel_right (List.append_cancel_left h)

theorem showsField_hiddenField : ShowsField field text (hiddenField field value) ↔
    (∀ c ∈ value, c ∉ delimiters) ∧ decodeEntities value = text := by
  constructor
  · rintro ⟨value', h, hshown⟩
    rwa [hiddenField_inj h]
  · exact fun h => ⟨value, rfl, h⟩

/-- An escaped text is shown whatever it is. -/
theorem showsField_escape (field text : List Char) :
    ShowsField field text (hiddenField field (text.flatMap escapeChar)) :=
  showsField_hiddenField.mpr ⟨notMem_delimiters_escape, decodeEntities_escape text⟩

/-- A text that is not escaped is shown if there is nothing to escape. -/
theorem showsField_self : ShowsField field text (hiddenField field text) ↔ Harmless text := by
  rw [showsField_hiddenField, decodeEntities_eq_self_iff, Harmless]

/-! ### The fields of a form -/

/-- The field with the address to go back to. -/
def returnField : List Char := "error_return_url".toList

/-- The code that writes the value of a field. -/
def fieldCode (field : List Char) : List Char :=
  if field = returnField then "echo htmlspecialchars(request_uri())".toList
  else "echo $".toList ++ contextPath ++ field

/-- The value of a field. -/
def fieldExpr (field : List Char) : Expr :=
  if field = returnField then .call "htmlspecialchars" [.call "request_uri" []]
  else .member (.var contextName) (String.ofList field)

/-- The fields that a content does not have. -/
def lackedFields (body : List Char) : List (List Char) := formFields.filter fun f => ! hasField body f

/-- The fields that are added, each with its code. -/
theorem missingFields_eq_lacked (body : List Char) :
    missingFields body = (lackedFields body).flatMap fun f => hiddenField f (island (fieldCode f)) := by
  have htext : ∀ t ∈ returnInput :: contextInputs,
      (Input.field t).text = hiddenField t.field (island (fieldCode t.field)) := by
    intro t ht
    simp only [contextInputs, List.mem_cons, List.not_mem_nil, or_false] at ht
    rcases ht with rfl | rfl | rfl | rfl
    all_goals exact text_hiddenInput _ _ _ _ _
  have hfields : (returnInput :: contextInputs).map FieldInput.field = formFields := rfl
  rw [missingFields_eq, missingInputs, lackedFields, ← hfields, List.filter_map, List.flatMap_map]
  exact List.flatMap_congr fun t ht => htext t (List.mem_of_mem_filter ht)

theorem spells_fieldCode (hf : field ∈ formFields) :
    Spells (fieldCode field) (.word "echo" :: (fieldExpr field).tokens) := by
  have hall : ∀ f ∈ formFields, bindVars (fieldCode f) = fieldCode f ∧
      (tokensOf? (fieldCode f)).map (List.map Lexeme.token) =
        some (.word "echo" :: (fieldExpr f).tokens) := by decide +kernel
  obtain ⟨hbind, htokens⟩ := hall field hf
  obtain ⟨ls, hls, heq⟩ := Option.map_eq_some_iff.mp htokens
  have hspell := (hasTokens_of_tokensOf? hls).whole
  rwa [hbind, heq] at hspell

theorem printable_fieldExpr (hf : field ∈ formFields) : (fieldExpr field).Printable := by
  have hname {w : List Char} (h : w ≠ [] ∧ nameAt w = w) : IsQualified w := .name h
  simp only [formFields, identityFields, List.mem_cons, List.not_mem_nil, or_false] at hf
  rcases hf with rfl | rfl | rfl | rfl
  · exact ⟨hname (by decide), by decide, ⟨hname (by decide), by decide, trivial⟩, trivial⟩
  all_goals exact ⟨⟨by decide, by decide⟩, hname (by decide)⟩

/-! ### What the fields write -/

section Writing

variable {σ : Type} {host : Host σ} {st : State σ} {context : Context} {K : List Stmt}

/-- The statements of a field. -/
def fieldStmts (field : List Char) : List Stmt :=
  [.text (String.ofList (fieldStart field)), .echo [fieldExpr field],
    .text (String.ofList fieldEnd)]

theorem inert_fieldStart (hf : field ∈ formFields) : Inert (fieldStart field) := by
  have hall : ∀ f ∈ formFields, ∃ a, fieldStart f = '<' :: 'i' :: a ∧ '<' ∉ 'i' :: a := by
    simp only [formFields, identityFields, List.forall_mem_cons, List.not_mem_nil]
    exact ⟨⟨_, rfl, by decide⟩, ⟨_, rfl, by decide⟩, ⟨_, rfl, by decide⟩, ⟨_, rfl, by decide⟩, nofun⟩
  obtain ⟨a, ha, hnot⟩ := hall field hf
  rw [ha]
  exact inert_cons (fun rest => rfl) (inert_of_notMem hnot)

/-- **The statements of a field**, wherever it stands. -/
theorem renders_field (hf : field ∈ formFields) :
    Renders (hiddenField field (island (fieldCode field))) (fieldStmts field) := by
  have hecho : Renders (island (fieldCode field)) [.echo [fieldExpr field]] := by
    intro stop rest K r h
    obtain ⟨us, hus, hK⟩ := h.reads
    rw [List.singleton_append, mergeTexts_cons rfl]
    exact yields_of_island ((spells_fieldCode hf).reads_island hus)
      (gives_echo (printable_fieldExpr hf) hK) rfl
  have hend : Renders fieldEnd [.text (String.ofList fieldEnd)] :=
    renders_text (inert_of_notMem (by decide))
  rw [hiddenField_eq]
  exact (renders_text (inert_fieldStart hf)).append (hecho.append hend)

theorem execBlock_text (s : String) (K : List Stmt) (st : State σ) :
    execBlock host (.text s :: K) st = execBlock host K { st with out := st.out ++ s } := rfl

/-- Texts side by side are written like one text. -/
theorem execBlock_joinText (a : List Char) (K : List Stmt) (st : State σ) :
    execBlock host (joinText a K) st =
      execBlock host K { st with out := st.out ++ String.ofList a } := by
  by_cases hK : startsText K = true
  · match K, hK with
    | .text s :: K, _ =>
      rw [joinText, execBlock_text, execBlock_text, String.append_assoc]
  · rw [joinText_of_not_startsText a (Bool.eq_false_iff.mpr hK), headText]
    split
    next ha =>
      subst ha
      exact congrArg (execBlock host K) (by rw [String.ofList_nil, String.append_empty])
    next => rfl

theorem execBlock_mergeTexts (K : List Stmt) (st : State σ) :
    execBlock host (mergeTexts K) st = execBlock host K st := by
  induction K generalizing st with
  | nil => rfl
  | cons s K ih =>
    by_cases hs : startsText [s] = true
    · match s, hs with
      | .text s, _ => rw [mergeTexts, execBlock_joinText, ih, String.ofList_toList, execBlock_text]
    · rw [mergeTexts_cons (Bool.eq_false_iff.mpr hs), execBlock, execBlock, bind_eq, bind_eq]
      cases s.exec host st with
      | error e st => rfl
      | ok flow st =>
        cases flow with
        | normal => exact ih st
        | _ => rfl

/-- The value of a field when it is written. -/
def Context.fieldValue (context : Context) (field : List Char) : Value :=
  if field = returnField then .string (escapeHtml context.requestUri)
  else (context.get? (String.ofList field)).getD .null

theorem eval_fieldExpr (hhost : host.functions "htmlspecialchars" = none) (field : List Char)
    (st : State σ) : (fieldExpr field).eval host st = .ok (st.context.fieldValue field) st := by
  unfold fieldExpr Context.fieldValue
  split
  · have huri : (Expr.call "request_uri" []).eval host st =
        .ok (.string st.context.requestUri) st := rfl
    have hbuiltin : host.callFunction "htmlspecialchars" [.string st.context.requestUri] =
        Run.ofExcept (.ok (.string (escapeHtml st.context.requestUri))) := by
      rw [Host.callFunction, hhost]
      rfl
    have hargs : evalAll host [.call "request_uri" []] st =
        .ok [.string st.context.requestUri] st := by
      rw [evalAll, Run.bind_of_ok huri]
      rfl
    rw [Expr.eval, Run.bind_of_ok hargs]
    show host.callFunction "htmlspecialchars" _ st = _
    rw [hbuiltin]
    rfl
  · rfl

/-- The text of a field when it is written. -/
def Context.shownField (context : Context) (field : List Char) : List Char :=
  hiddenField field (context.fieldValue field).text.toList

/-- The text that the value of a field is to stand for. -/
def Context.fieldText (context : Context) (field : List Char) : List Char :=
  if field = returnField then context.requestUri.toList
  else ((context.get? (String.ofList field)).getD .null).text.toList

theorem execBlock_field (hhost : host.functions "htmlspecialchars" = none) (field : List Char)
    (K : List Stmt) (st : State σ) :
    execBlock host (fieldStmts field ++ K) st =
      execBlock host K { st with out := st.out ++ String.ofList (st.context.shownField field) } := by
  let st' : State σ := { st with out := st.out ++ String.ofList (fieldStart field) }
  have hecho : (Stmt.echo [fieldExpr field]).exec host st' =
      .ok .normal { st' with out := st'.out ++ (st.context.fieldValue field).text } := by
    rw [Stmt.exec, echoAll, bind_eq, Run.bind_of_ok (eval_fieldExpr hhost field st')]
    rfl
  have hshown : String.ofList (st.context.shownField field) = String.ofList (fieldStart field) ++
      ((st.context.fieldValue field).text ++ String.ofList fieldEnd) := by
    rw [Context.shownField, hiddenField_eq, String.ofList_append, String.ofList_append,
      String.ofList_toList]
  rw [fieldStmts, List.cons_append, execBlock_text, List.cons_append, execBlock,
    Run.bind_of_ok hecho]
  dsimp only
  rw [List.singleton_append, execBlock_text, hshown]
  simp only [st', String.append_assoc]

/-- **What the fields write**, whatever the state is. -/
theorem execBlock_fieldStmts (hhost : host.functions "htmlspecialchars" = none)
    (fields : List (List Char)) (st : State σ) :
    execBlock host (fields.flatMap fieldStmts) st =
      .ok .normal { st with out := st.out ++ String.ofList (fields.flatMap st.context.shownField) } := by
  induction fields generalizing st with
  | nil =>
    rw [List.flatMap_nil, List.flatMap_nil, String.ofList_nil, String.append_empty]
    rfl
  | cons field fields ih =>
    rw [List.flatMap_cons, execBlock_field hhost, ih, List.flatMap_cons, String.ofList_append,
      String.append_assoc]

theorem mem_formFields (hf : field ∈ lackedFields cs) : field ∈ formFields := by
  rw [lackedFields] at hf
  exact (List.mem_filter.mp hf).1

/-- **The statements of the missing fields**, wherever they stand. -/
theorem renders_missingFields (body : List Char) :
    Renders (missingFields body) ((lackedFields body).flatMap fieldStmts) := by
  have hall : ∀ fields : List (List Char), (∀ f ∈ fields, f ∈ formFields) →
      Renders (fields.flatMap fun f => hiddenField f (island (fieldCode f)))
        (fields.flatMap fieldStmts) := by
    intro fields hfields
    induction fields with
    | nil => exact renders_nil
    | cons f fields ih =>
      obtain ⟨hf, hfields⟩ := List.forall_mem_cons.mp hfields
      rw [List.flatMap_cons, List.flatMap_cons]
      exact (renders_field hf).append (ih hfields)
  rw [missingFields_eq_lacked]
  exact hall _ fun f hf => mem_formFields hf

/-- A field shows its text when it is the escaped one or has nothing to escape. -/
theorem showsField_shownField (context : Context) (field : List Char) :
    ShowsField field (context.fieldText field) (context.shownField field) ↔
      field = returnField ∨ Harmless (context.fieldText field) := by
  unfold Context.shownField Context.fieldText Context.fieldValue
  by_cases hf : field = returnField
  · rw [if_pos hf, if_pos hf]
    have hescape : (Value.string (escapeHtml context.requestUri)).text.toList =
        context.requestUri.toList.flatMap escapeChar := String.toList_ofList
    rw [hescape]
    exact iff_of_true (showsField_escape _ _) (.inl hf)
  · rw [if_neg hf, if_neg hf, showsField_self]
    exact (or_iff_right hf).symm

/-- **Which fields are shown as one input.**  A form gets the fields that it lacks as one piece of
text.  Rendered, each of them is a hidden input with the address of the request or a value of the
context.  The address is escaped, and its input has one value, which stands for the address.  A value
of the context is written as it is, so its input has a value that stands for it exactly when there
are no quotes, angle brackets and entities in it. -/
theorem missingFields_show (hhost : host.functions "htmlspecialchars" = none)
    (template rulesetDir : Path) (f : Form) :
    (∃ before behind, (f.augment template rulesetDir).1 =
      before ++ (missingFields f.body ++ behind)) ∧
    (∀ name, ∃ program, parseProgram name (missingFields f.body) = .ok program ∧
      ∀ context s, program.run host context s =
        (.ok (String.ofList ((lackedFields f.body).flatMap context.shownField)), context, s)) ∧
    ∀ context : Context, ∀ field ∈ lackedFields f.body,
      (ShowsField field (context.fieldText field) (context.shownField field) ↔
        field = returnField ∨ Harmless (context.fieldText field)) := by
  refine ⟨?place, fun name => ?run, fun context field _ => showsField_shownField context field⟩
  case place =>
    refine ⟨(rulesetParts template rulesetDir f.tag).1,
      (rulesetParts template rulesetDir f.tag).2.1 ++ (f.body ++ f.closing), ?_⟩
    rw [Form.augment]
    simp only [List.append_assoc]
  case run =>
    have hyields := renders_missingFields f.body (K := []) Yields.nil
    rw [List.append_nil, List.append_nil] at hyields
    refine ⟨_, parseProgram_of_yields name hyields, fun context s => ?_⟩
    rw [Program.run, execBlock_mergeTexts, execBlock_fieldStmts hhost]
    simp only [String.empty_append]

end Writing

/-- A form without fields of its own. -/
def emptyForm : Form := ⟨"<form>".toList, [], "</form>".toList⟩

/-- The address may have quotes, and the values of the context may not. -/
theorem missingFields_show_search :
    let context : Context :=
      { vars := [("mid", .string "board"), ("act", .string "a&lt;")], requestUri := "/?q=\x22a&b\x22" }
    (∀ field ∈ lackedFields emptyForm.body,
      ShowsField field (context.fieldText field) (context.shownField field) ↔
        field ≠ "act".toList) ∧
    ∃ program, parseProgram "t" (missingFields emptyForm.body) = .ok program ∧
      program.run bareHost context () =
        (.ok (String.ofList ((lackedFields emptyForm.body).flatMap context.shownField)),
          context, ()) := by
  intro context
  have hhost : bareHost.functions "htmlspecialchars" = none := rfl
  obtain ⟨-, hrun, hshows⟩ := missingFields_show hhost "t.html".toList "ruleset".toList emptyForm
  obtain ⟨program, hparse, hresult⟩ := hrun "t"
  refine ⟨fun field hf => (hshows context field hf).trans ?_, program, hparse, hresult context ()⟩
  have hall : ∀ field ∈ formFields,
      (field = returnField ∨ Harmless (context.fieldText field) ↔ field ≠ "act".toList) := by
    decide +kernel
  exact hall field (mem_formFields hf)

/-- A value of the context that closes its attribute ends the input, too. -/
theorem quoted_mid_ends_input :
    let context : Context := { vars := [("mid", .string "\x22><b>")] }
    "mid".toList ∈ lackedFields emptyForm.body ∧
      context.shownField "mid".toList =
        "<input type=\x22hidden\x22 name=\x22mid\x22 value=\x22\x22><b>\x22 />".toList ∧
      (match parseProgram "t" (contextField "mid".toList) with
        | .ok program => decide ((program.run bareHost context ()).1 =
            .ok "<input type=\x22hidden\x22 name=\x22mid\x22 value=\x22\x22><b>\x22 />")
        | .error _ => false) = true ∧
      ¬ ShowsField "mid".toList "\x22><b>".toList
        "<input type=\x22hidden\x22 name=\x22mid\x22 value=\x22\x22><b>\x22 />".toList := by
  refine ⟨by decide +kernel, by decide +kernel, by decide +kernel, ?_⟩
  exact fun h => absurd (showsField_self.mp h) (by decide +kernel)

end Stencil
