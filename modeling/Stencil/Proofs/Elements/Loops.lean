import Stencil.Markup.Scope
import Stencil.Proofs.Cutting
import Stencil.Proofs.Heads

/-!
# The shapes of loops

The value of a loop attribute is bound as a whole and cut into its parts afterwards.  Binding adds
no separator, so the parts that are found are those of the author, each bound on its own.

The shapes are tried one after the other.  A value of the second shape must not have the arrow of
the first one, and a value of the third shape must not have the separators of the other two.

## Main definitions

* `Collection`, `EntryVars` — the parts of a loop over entries.
* `Repetition` — the parts of an assignment that is repeated.

## Main results

* `loopHead?_entries`, `loopHead?_counting`, `loopHead?_repeating` — the head for each shape.
-/

namespace Stencil

open Text Lexer Stencil.Parser

variable {a b : List Char} {mode : Quoting} {before : List Char} {c d : Char}

/-! ### Separators -/

theorem separates_arrow : Separates "=>".toList :=
  ⟨forall_mem_of_all (by decide), by rintro _ ⟨⟩; decide, ⟨by decide, by decide⟩, by decide⟩

theorem separates_comma : Separates [','] :=
  ⟨forall_mem_of_all (by decide), by rintro _ ⟨⟩; decide, ⟨by decide, by decide⟩, by decide⟩

theorem separates_equals : Separates ['='] :=
  ⟨forall_mem_of_all (by decide), by rintro _ ⟨⟩; decide, ⟨by decide, by decide⟩, by decide⟩

/-- Binding adds no arrow between entries. -/
theorem breakOn_arrow_bindVars (h : breakOn "=>".toList a = none) :
    breakOn "=>".toList (bindVars a) = none :=
  breakOn_bindFrom (by decide) h

/-! ### Assignments -/

/-- The character before a text matters only when the text starts with an equals sign. -/
theorem breakAssignment_congr (h : a.head? ≠ some '=') :
    breakAssignment c a = breakAssignment d a := by
  cases a with
  | nil => rfl
  | cons x a =>
    have hx : x ≠ '=' := fun he => h (by rw [he, List.head?_cons])
    rw [breakAssignment, breakAssignment, if_neg fun hi => hx hi.1, if_neg fun hi => hx hi.1]

theorem breakAssignment_eq_none_cons {x : Char} : breakAssignment c (x :: a) = none ↔
    ¬ (x = '=' ∧ c ∉ ['=', '!', '<', '>'] ∧ a.head? ≠ some '=' ∧ a.head? ≠ some '>') ∧
      breakAssignment x a = none := by
  rw [breakAssignment]
  split
  next h => exact ⟨fun he => (by cases he), fun he => absurd h he.1⟩
  next h =>
    rw [Option.map_eq_none_iff]
    exact ⟨fun he => ⟨h, he⟩, And.right⟩

/-- A name that is bound does not start with an equals sign. -/
theorem head?_of_startsBound (h : startsBound a = true) : a.head? ≠ some '=' := by
  cases a with
  | nil => simp
  | cons x a =>
    rintro ⟨⟩
    cases a with
    | nil => exact absurd h (by decide)
    | cons y a =>
      rw [startsBound, Bool.or_eq_true] at h
      rcases h with h | h
      · exact absurd h (by decide)
      · exact absurd (Bool.and_eq_true_iff.mp h).1 (by decide)

/-- Binding adds no assignment. -/
theorem breakAssignment_bindFrom (h : breakAssignment c a = none) :
    breakAssignment c (bindFrom mode before a) = none := by
  induction a generalizing c mode before with
  | nil => exact h
  | cons x a ih =>
    rw [breakAssignment_eq_none_cons] at h
    have hrest : breakAssignment x (bindFrom (mode.next x) (x :: before) a) = none := ih h.2
    rw [bindFrom_cons]
    split
    next hb =>
      obtain ⟨rfl, rfl, hstarts, -⟩ := hb
      have hhead : (bindFrom (Quoting.code.next '$') ('$' :: before) a).head? ≠ some '=' := by
        rw [head?_bindFrom]
        exact head?_of_startsBound hstarts
      rw [breakAssignment_congr hhead (d := '>')] at hrest
      simp only [contextPath, List.cons_append, List.nil_append, breakAssignment_eq_none_cons]
      simp [hrest]
    next =>
      rw [List.nil_append, breakAssignment_eq_none_cons, head?_bindFrom]
      exact ⟨h.1, hrest⟩

/-- An equals sign between the texts assigns: it is no part of a comparison or of an arrow. -/
def AssignsBetween (a b : List Char) : Prop :=
  a.getLast?.getD ' ' ∉ ['=', '!', '<', '>'] ∧ b.head? ≠ some '=' ∧ b.head? ≠ some '>'

/-- The first equals sign that assigns is found. -/
theorem breakAssignment_append (h : breakAssignment c a = none)
    (ha : a.getLast?.getD c ∉ ['=', '!', '<', '>'])
    (hb : b.head? ≠ some '=' ∧ b.head? ≠ some '>') :
    breakAssignment c (a ++ '=' :: b) = some (a, b) := by
  induction a generalizing c with
  | nil =>
    rw [List.nil_append, breakAssignment]
    exact if_pos ⟨rfl, ha, hb⟩
  | cons x a ih =>
    rw [breakAssignment_eq_none_cons] at h
    rw [List.getLast?_cons, Option.getD_some] at ha
    have hnot : ¬ (x = '=' ∧ c ∉ ['=', '!', '<', '>'] ∧ (a ++ '=' :: b).head? ≠ some '=' ∧
        (a ++ '=' :: b).head? ≠ some '>') := by
      cases a with
      | nil => exact fun hi => hi.2.2.1 rfl
      | cons y a => exact h.1
    rw [List.cons_append, breakAssignment, if_neg hnot, ih h.2 ha]
    rfl

/-! ### Loops over entries -/

/-- The code has no double quote, so that it may stand in an attribute. -/
def FitsAttribute (code : List Char) : Prop := '\x22' ∉ code

/-- The collection of a loop over entries. -/
structure Collection where
  /-- The code. -/
  code : List Char
  /-- The expression, a primary with postfix forms. -/
  expr : Expr
  stands : postfixOf? code = some expr
  noArrow : breakOn "=>".toList code = none
  fits : FitsAttribute code

/-- Code of a place that a loop binds. -/
structure Binder where
  /-- The code. -/
  code : List Char
  /-- The place. -/
  expr : Expr
  stands : placeOf? code = some expr
  fits : FitsAttribute code

/-- The variables for an entry. -/
inductive EntryVars where
  /-- A variable for the value. -/
  | value (value : Binder) (noComma : ',' ∉ value.code) : EntryVars
  /-- One for the key, and one for the value. -/
  | keyed (key value : Binder) (noComma : ',' ∉ key.code) : EntryVars

namespace EntryVars

/-- The code of the variables. -/
def code : EntryVars → List Char
  | value v _ => v.code
  | keyed k v _ => k.code ++ ',' :: v.code

/-- The variables in the head of the loop. -/
def head : EntryVars → List Char
  | value v _ => trim (bindVars v.code)
  | keyed k v _ => trim (bindVars k.code) ++ " => ".toList ++ trim (bindVars v.code)

/-- The variable for the key, if there is one. -/
def key? : EntryVars → Option Expr
  | value _ _ => none
  | keyed k _ _ => some k.expr

/-- The variable for the value. -/
def target : EntryVars → Expr
  | value v _ => v.expr
  | keyed _ v _ => v.expr

end EntryVars

theorem Collection.trim_ne_nil (l : Collection) : trim (bindVars l.code) ≠ [] := by
  obtain ⟨ls, hls, -, hparse⟩ := postfixOf?_parses l.stands
  exact hls.trim_ne_nil (ne_nil_of_parsePostfix hparse)

theorem Binder.trim_ne_nil (p : Binder) : trim (bindVars p.code) ≠ [] := by
  obtain ⟨ls, hls, hparse, -⟩ := placeOf?_parses p.stands
  exact hls.trim_ne_nil (ne_nil_of_parsePostfix hparse)

/-- The variables are found again in their bound code. -/
theorem entryVars_bindVars (vars : EntryVars) :
    entryVars (bindVars vars.code) = some vars.head := by
  cases vars with
  | value v hv =>
    have hnone : breakOn [','] (bindVars v.code) = none :=
      breakOn_singleton (notMem_bindVars hv (by decide))
    rw [EntryVars.code, entryVars, hnone]
    exact if_neg (mt List.isEmpty_iff.mp v.trim_ne_nil)
  | keyed k v hk =>
    obtain ⟨ls, hls, -, -⟩ := placeOf?_parses k.stands
    have hbind : bindVars (k.code ++ ([','] ++ v.code)) =
        bindVars k.code ++ ([','] ++ bindVars v.code) :=
      bindVars_around separates_comma hls.outside
    have hcut : breakOn [','] (bindVars k.code ++ ([','] ++ bindVars v.code)) =
        some (bindVars k.code, bindVars v.code) :=
      breakOn_append_self (by decide) (breakOn_singleton (notMem_bindVars hk (by decide)))
    have hne : ¬ ((trim (bindVars k.code)).isEmpty || (trim (bindVars v.code)).isEmpty) = true := by
      rw [Bool.or_eq_true, List.isEmpty_iff, List.isEmpty_iff, not_or]
      exact ⟨k.trim_ne_nil, v.trim_ne_nil⟩
    rw [EntryVars.code, ← List.singleton_append, hbind, entryVars, hcut]
    exact if_neg hne

/-- The head of a loop over entries. -/
theorem loopHead?_entries (l : Collection) (vars : EntryVars) :
    loopHead? (bindVars (l.code ++ ("=>".toList ++ vars.code))) =
      some (entryLoop (trim (bindVars l.code)) vars.head) := by
  obtain ⟨ls, hls, -, -⟩ := postfixOf?_parses l.stands
  have hcut : breakOn "=>".toList (bindVars l.code ++ ("=>".toList ++ bindVars vars.code)) =
      some (bindVars l.code, bindVars vars.code) :=
    breakOn_append_self (by decide) (breakOn_arrow_bindVars l.noArrow)
  rw [bindVars_around separates_arrow hls.outside, loopHead?, hcut]
  simp only [entryVars_bindVars]
  exact if_neg (mt List.isEmpty_iff.mp l.trim_ne_nil)

/-! ### Counting loops -/

/-- The parts of a counting loop. -/
def countingCode {p : List Char → Prop} (init cond step : LoopPart p) : List Char :=
  init.code ++ ';' :: (cond.code ++ ';' :: step.code)

theorem LoopPart.outside {p : List Char → Prop} (l : LoopPart p) :
    l.code.foldl Quoting.next .code = .code := by
  obtain ⟨ts, hts, -⟩ := exprsOf?_parses l.stands
  exact hts.outside

theorem bindVars_countingCode {p : List Char → Prop} (init cond step : LoopPart p) :
    bindVars (countingCode init cond step) =
      bindVars init.code ++ ';' :: (bindVars cond.code ++ ';' :: bindVars step.code) := by
  rw [countingCode, bindVars_semicolon init.outside, bindVars_semicolon cond.outside]

/-- The head of a counting loop. -/
theorem loopHead?_counting {p : List Char → Prop} {init cond step : LoopPart p}
    (h : breakOn "=>".toList (countingCode init cond step) = none) :
    loopHead? (bindVars (countingCode init cond step)) =
      some ("for (".toList ++ bindVars (countingCode init cond step) ++ [')']) := by
  have hcount : 2 ≤ (bindVars (countingCode init cond step)).count ';' := by
    rw [bindVars_countingCode]
    simp only [List.count_append, List.count_cons_self]
    omega
  rw [loopHead?, breakOn_arrow_bindVars h]
  exact if_pos hcount

/-! ### Repeated assignments -/

/-- An assignment that is repeated while its value holds. -/
structure Repetition where
  /-- The code of the place. -/
  code : List Char
  /-- The place. -/
  place : Expr
  /-- The value. -/
  value : Condition FitsAttribute
  stands : postfixOf? code = some place
  isPlace : place.isPlace = true
  fits : FitsAttribute code
  plain : breakAssignment ' ' code = none
  assigns : AssignsBetween code value.code
  noArrow : breakOn "=>".toList (code ++ '=' :: value.code) = none
  noCounting : (code ++ '=' :: value.code).count ';' < 2

/-- The head of a loop that repeats an assignment. -/
theorem loopHead?_repeating (r : Repetition) :
    loopHead? (bindVars (r.code ++ '=' :: r.value.code)) =
      some ("while ((".toList ++ trim (bindVars r.code) ++ " = ".toList ++
        trim (bindVars r.value.code) ++ "))".toList) := by
  obtain ⟨ls, hls, -, hparse⟩ := postfixOf?_parses r.stands
  obtain ⟨ms, hms, hvalue⟩ := exprOf?_parses r.value.stands
  have hbind : bindVars (r.code ++ (['='] ++ r.value.code)) =
      bindVars r.code ++ (['='] ++ bindVars r.value.code) :=
    bindVars_around separates_equals hls.outside
  have hcut : breakAssignment ' ' (bindVars r.code ++ '=' :: bindVars r.value.code) =
      some (bindVars r.code, bindVars r.value.code) := by
    refine breakAssignment_append (breakAssignment_bindFrom r.plain) ?_ ?_
    · rw [bindVars, getLast?_bindFrom]
      exact r.assigns.1
    · rw [bindVars, head?_bindFrom]
      exact r.assigns.2
  have hcount : ¬ 2 ≤ (bindVars (r.code ++ '=' :: r.value.code)).count ';' := by
    rw [bindVars, count_bindFrom (by decide)]
    exact Nat.not_le_of_lt r.noCounting
  have hne : ¬ ((trim (bindVars r.code)).isEmpty ||
      (trim (bindVars r.value.code)).isEmpty) = true := by
    rw [Bool.or_eq_true, List.isEmpty_iff, List.isEmpty_iff, not_or]
    exact ⟨hls.trim_ne_nil (ne_nil_of_parsePostfix hparse),
      hms.trim_ne_nil (ne_nil_of_parseExpr hvalue)⟩
  rw [loopHead?, breakOn_arrow_bindVars r.noArrow]
  simp only [if_neg hcount]
  rw [← List.singleton_append, hbind, List.singleton_append, hcut]
  exact if_neg hne

end Stencil
