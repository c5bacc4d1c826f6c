import Stencil.Proofs.Forms.Pages
import Stencil.Proofs.Scanning.Spans

/-!
# What is found as a form

The search for the end of an opening tag passes characters and whole islands, and ends at an angle
bracket, in an island that is never closed, or with the text.  What is found as a form is therefore
an opening tag of such parts, a content and a closing tag, whatever the text around it is.

## Main definitions

* `TagEnd` — how the search for the end of an opening tag goes.
* `formsIn` — the forms that are found.
* `FormCuts` — the pieces of a text with forms, step by step.

## Main results

* `Form.found_of_formAt` — what is found as a form is one.
* `formCuts`, `FormCuts.cut_eq` — cutting a text gives its only pieces.
-/

namespace Stencil

open Text

variable {cs : List Char} {ps : List (Piece FormPiece)}

/-! ### Where an opening tag ends -/

/-- How the search for the end of an opening tag goes, and what it gives. -/
inductive TagEnd : List Char → Option Nat → Prop where
  /-- The tag ends. -/
  | closes (parts : List TagPart) (rest : List Char) :
    TagEnd (parts.flatMap TagPart.text ++ '>' :: rest)
      (some ((parts.flatMap TagPart.text).length + 1))
  /-- Another tag starts. -/
  | stops (parts : List TagPart) (rest : List Char) (h : dropStart? openTag ('<' :: rest) = none) :
    TagEnd (parts.flatMap TagPart.text ++ '<' :: rest) none
  /-- The text ends in an island. -/
  | breaks (parts : List TagPart) (code : List Char) (h : breakOn closeTag code = none) :
    TagEnd (parts.flatMap TagPart.text ++ (openTag ++ code)) none
  /-- The text ends. -/
  | runsOut (parts : List TagPart) : TagEnd (parts.flatMap TagPart.text) none

theorem TagEnd.behind {n : Option Nat} (h : TagEnd cs n) (part : TagPart) :
    TagEnd (part.text ++ cs) (n.map (· + part.text.length)) := by
  have hcons : ∀ parts, part.text ++ parts.flatMap TagPart.text =
      (part :: parts).flatMap TagPart.text := fun parts => (List.flatMap_cons ..).symm
  cases h with
  | closes parts rest =>
    have hlen : (parts.flatMap TagPart.text).length + 1 + part.text.length =
        ((part :: parts).flatMap TagPart.text).length + 1 := by
      rw [← hcons, List.length_append]
      omega
    rw [Option.map_some, hlen, ← List.append_assoc, hcons]
    exact .closes (part :: parts) rest
  | stops parts rest h =>
    rw [← List.append_assoc, hcons]
    exact .stops (part :: parts) rest h
  | breaks parts code h =>
    rw [← List.append_assoc, hcons]
    exact .breaks (part :: parts) code h
  | runsOut parts =>
    rw [hcons]
    exact .runsOut (part :: parts)

/-- **The search ends in one of these ways.** -/
theorem tagEnd (cs : List Char) : TagEnd cs (formTagEnd 0 cs) := by
  -- on the length, as an island is passed at once
  obtain ⟨n, hn⟩ : ∃ n, cs.length ≤ n := ⟨_, le_rfl⟩
  induction n generalizing cs with
  | zero =>
    rw [List.length_eq_zero_iff.mp (Nat.le_zero.mp hn)]
    exact .runsOut []
  | succ n ih =>
    cases cs with
    | nil => exact .runsOut []
    | cons c cs =>
      have hle : cs.length ≤ n := Nat.le_of_succ_le_succ hn
      by_cases hclose : c = '>'
      · rw [formTagEnd, if_pos hclose, hclose]
        exact .closes [] cs
      by_cases hopen : c = '<'
      · subst hopen
        cases hisland : dropStart? openTag ('<' :: cs) with
        | none =>
          rw [formTagEnd, if_neg hclose, if_pos rfl, hisland]
          exact .stops [] cs hisland
        | some code =>
          have hcs := dropStart?_eq_some_iff.mp hisland
          cases hend : breakOn closeTag code with
          | none =>
            rw [formTagEnd, if_neg hclose, if_pos rfl, hisland]
            simp only [hend]
            rw [hcs]
            exact .breaks [] code hend
          | some found =>
            obtain ⟨code, after⟩ := found
            obtain ⟨rfl, hcut⟩ := breakOn_iff.mp hend
            have hsplit : '<' :: cs =
                (TagPart.island code (hcut.breakOn_eq_none (by decide))).text ++ after := by
              rw [hcs, TagPart.text]
              simp only [List.append_assoc]
            rw [hsplit, TagPart.formTagEnd]
            refine (ih after ?_).behind _
            have hlen := congrArg List.length hcs
            simp only [List.length_cons, List.length_append] at hlen
            have htag : openTag.length = 5 := rfl
            omega
      · have hplain : c ∉ ['<', '>'] := by simp [hclose, hopen]
        have hpart := TagPart.formTagEnd (.sign c hplain) cs
        rw [TagPart.text, List.singleton_append] at hpart
        rw [hpart, ← List.singleton_append]
        exact (ih cs hle).behind (.sign c hplain)

/-! ### Forms that are found -/

/-- **What is found as a form is one.** -/
theorem Form.found_of_formAt {f : Form} {n : Nat} (h : Stencil.formAt cs = some (.form f, n)) :
    f.Found ∧ ∃ rest, cs = f.source ++ rest ∧ n = f.source.length := by
  rw [Stencil.formAt] at h
  split at h
  next rest hopen =>
    split at h
    next k hends hend =>
      split at h
      next body _ closing tail hfirst =>
        obtain ⟨word, hword, rfl⟩ := dropStartFold?_eq_some_iff.mp hopen
        have htagEnd := tagEnd rest
        rw [hend] at htagEnd
        cases htagEnd with
        | closes parts after =>
          have hsplit : parts.flatMap TagPart.text ++ '>' :: after =
              (parts.flatMap TagPart.text ++ ['>']) ++ after := by simp
          have hlen : (parts.flatMap TagPart.text).length + 1 =
              (parts.flatMap TagPart.text ++ ['>']).length := by simp
          have htake : (word ++ (parts.flatMap TagPart.text ++ '>' :: after)).take
              ((parts.flatMap TagPart.text).length + 1 + 5) =
                word ++ (parts.flatMap TagPart.text ++ ['>']) := by
            rw [hsplit, ← List.append_assoc]
            refine List.take_left' ?_
            rw [List.length_append, hword.length, ← hlen, Nat.add_comm]
            rfl
          have hclosing := formOf_of_findFirst? hfirst
          have hinside := misses_of_findFirst? hfirst
          have hafter := (findFirst?_eq_some hfirst).1
          rw [hsplit, hlen, List.drop_left] at hafter
          rw [hsplit] at hends
          simp only [htake] at h
          cases h
          refine ⟨⟨⟨word, parts, hword, ?_, rfl⟩, ?_, hclosing⟩, tail, ?_, ?_⟩
          · rwa [endsFormName_append_of_ne] at hends
            exact List.append_ne_nil_of_right_ne_nil _ (List.cons_ne_nil _ _)
          · exact (misses_phraseFold_append hclosing.length.ge).mp hinside
          · simp only [source, hafter, List.append_assoc, List.cons_append, List.nil_append]
          · simp only [source, List.length_append, Nat.add_assoc]
      next => cases h
    next => cases h
  next => cases h

theorem Form.Found.five_lt {f : Form} (h : f.Found) : 5 < f.tag.length := by
  obtain ⟨word, parts, hword, -, htag⟩ := h.opening
  have hfive : word.length = 5 := hword.length
  simp only [htag, List.length_append, List.length_singleton, hfive]
  omega

theorem Form.Found.source_ne_nil {f : Form} (h : f.Found) : f.source ≠ [] :=
  List.append_ne_nil_of_left_ne_nil (List.ne_nil_of_length_pos (Nat.zero_lt_of_lt h.five_lt)) _

theorem length_of_formAt_rest {n : Nat} (h : formAt cs = some (.rest, n)) : n = cs.length := by
  rw [formAt] at h
  split at h
  next =>
    split at h
    next =>
      split at h <;> cases h
      rfl
    next => cases h
  next => cases h

/-- A form, or the rest of the text, is read as a whole. -/
theorem exists_append_of_formAt {v : FormPiece} {n : Nat} (h : formAt cs = some (v, n)) :
    ∃ a rest, a ≠ [] ∧ cs = a ++ rest ∧ n = a.length := by
  cases v with
  | form f =>
    obtain ⟨hf, rest, hcs, hlen⟩ := Form.found_of_formAt h
    exact ⟨f.source, rest, hf.source_ne_nil, hcs, hlen⟩
  | rest =>
    have hne : cs ≠ [] := by
      rintro rfl
      cases h
    exact ⟨cs, [], hne, (List.append_nil cs).symm, length_of_formAt_rest h⟩

/-- Where no form is found, no opening tag of one ends. -/
theorem formAt_eq_none_iff : formAt cs = none ↔ ∀ word rest, FormOf "<form".toList word →
    cs = word ++ rest → endsFormName rest = true → formTagEnd 0 rest = none := by
  constructor
  · rintro h word rest hword rfl hends
    rw [formAt, hword.dropStartFold?] at h
    cases hend : formTagEnd 0 rest with
    | none => rfl
    | some k =>
      simp only [hends, hend] at h
      split at h <;> cases h
  · intro h
    rw [formAt]
    split
    next rest hopen =>
      obtain ⟨word, hword, rfl⟩ := dropStartFold?_eq_some_iff.mp hopen
      split
      next hends hend =>
        rw [h word rest hword rfl hends] at hend
        cases hend
      next => rfl
    next => rfl

/-! ### Cutting a text -/

/-- The form that was found. -/
def FormPiece.form? : FormPiece → Option Form
  | .form f => some f
  | .rest => none

/-- The forms among the pieces of a text. -/
def formsIn (ps : List (Piece FormPiece)) : List Form :=
  (ps.filterMap Piece.value?).filterMap FormPiece.form?

@[simp] theorem formsIn_plain (c : Char) (ps : List (Piece FormPiece)) :
    formsIn (.plain c :: ps) = formsIn ps := rfl

@[simp] theorem formsIn_form (f : Form) (source : List Char) (ps : List (Piece FormPiece)) :
    formsIn (.found (.form f) source :: ps) = f :: formsIn ps := rfl

@[simp] theorem formsIn_rest (source : List Char) (ps : List (Piece FormPiece)) :
    formsIn (.found .rest source :: ps) = formsIn ps := rfl

theorem cut_plain {c : Char} (h : formAt (c :: cs) = none) :
    cut formAt (c :: cs) = .plain c :: cut formAt cs := by
  rw [cut, cutFrom, h]
  rfl

theorem Form.Found.cut_eq {f : Form} (h : f.Found) (rest : List Char) :
    cut Stencil.formAt (f.source ++ rest) =
      .found (.form f) f.source :: cut Stencil.formAt rest :=
  cutFrom_found h.source_ne_nil (h.formAt rest)

/-- The pieces of a text with forms. -/
inductive FormCuts : List Char → List (Piece FormPiece) → Prop where
  /-- The end of the text. -/
  | nil : FormCuts [] []
  /-- A character at which no form starts. -/
  | plain {c : Char} {cs : List Char} {ps : List (Piece FormPiece)}
    (hnone : formAt (c :: cs) = none) (hrest : FormCuts cs ps) : FormCuts (c :: cs) (.plain c :: ps)
  /-- A form. -/
  | form {f : Form} {cs : List Char} {ps : List (Piece FormPiece)} (hf : f.Found)
    (hrest : FormCuts cs ps) : FormCuts (f.source ++ cs) (.found (.form f) f.source :: ps)
  /-- The text from a form on that does not end. -/
  | rest {cs : List Char} (hne : cs ≠ []) (hmatch : formAt cs = some (.rest, cs.length)) :
    FormCuts cs [.found .rest cs]

theorem FormCuts.cut_eq (h : FormCuts cs ps) : cut formAt cs = ps := by
  induction h with
  | nil => rfl
  | plain hnone _ ih => rw [cut_plain hnone, ih]
  | form hf _ ih => rw [hf.cut_eq, ih]
  | @rest cs hne hmatch =>
    have hwhole : formAt (cs ++ []) = some (.rest, cs.length) := by rwa [List.append_nil]
    have hcut := cutFrom_found hne hwhole
    rwa [List.append_nil] at hcut

/-- **Cutting a text gives such pieces.** -/
theorem formCuts (cs : List Char) : FormCuts cs (cut formAt cs) := by
  have hcuts := cuts_cut (fun _ _ _ => exists_append_of_formAt) cs
  generalize cut formAt cs = ps at hcuts
  induction hcuts with
  | nil => exact .nil
  | plain hnone _ ih => exact .plain hnone ih
  | @found x source rest ps hne hmatch _ ih =>
    cases x with
    | form f =>
      obtain ⟨hf, tail, hcs, hlen⟩ := Form.found_of_formAt hmatch
      obtain ⟨rfl, rfl⟩ := List.append_inj hcs hlen
      exact .form hf ih
    | rest =>
      have hlen := length_of_formAt_rest hmatch
      rw [List.length_append, Nat.left_eq_add, List.length_eq_zero_iff] at hlen
      subst hlen
      have hps : cut formAt [] = ps := ih.cut_eq
      rw [← hps]
      rw [List.append_nil] at hmatch ⊢
      exact .rest hne hmatch

/-- In a text in which no form starts, or none ends, none is found. -/
theorem FormCuts.formsIn_eq_nil (h : FormCuts cs ps) (hdone : occurs formOpenAt cs = false ∨
    occurs (phraseFold "</form>".toList) cs = false) : formsIn ps = [] := by
  induction h with
  | nil => rfl
  | plain _ _ ih =>
    exact ih (hdone.imp (Bool.or_eq_false_iff.mp · |>.2) (Bool.or_eq_false_iff.mp · |>.2))
  | @form f cs ps hf _ ih =>
    obtain ⟨c, rest, hcons⟩ := List.exists_cons_of_ne_nil hf.source_ne_nil
    rcases hdone with hopen | hclose
    · have hmatch := hf.formAt cs
      rw [hcons, List.cons_append] at hopen hmatch
      have hnone := Option.isSome_eq_false_iff.mp (Bool.or_eq_false_iff.mp hopen).1
      rw [formAt_eq_none (Option.isNone_iff_eq_none.mp hnone)] at hmatch
      cases hmatch
    · have hne : f.closing ≠ [] :=
        List.ne_nil_of_length_pos (hf.closing.length ▸ Nat.succ_pos _)
      rw [Form.source, List.append_assoc, List.append_assoc,
        occurs_append _ (occurs_append _ (hf.closing.occurs hne cs))] at hclose
      cases hclose
  | rest => rfl

end Stencil
