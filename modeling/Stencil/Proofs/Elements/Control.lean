import Stencil.Proofs.Elements.Loops
import Stencil.Proofs.Islands
import Stencil.Proofs.Parsing.Levels

/-!
# Control attributes and their statements

Every control attribute of an element has a head, and the head in front of a block is a statement:
an `if`, one of the three loops, or a loop over entries behind the guard that there are any.

## Main definitions

* `Control` — a condition, or a loop of one of the three shapes.
* `Control.source` — what an author writes, and `Control.head`, the code made of it.
* `Control.wrap` — the statement around an element.

## Main results

* `Control.head?_eq` — every attribute has its head.
* `Control.isHead` — the tokens of the head stand for the statement.
-/

namespace Stencil

open Text Lexer Stencil.Parser

/-- What controls an element. -/
inductive Control where
  /-- The element is written when the condition holds. -/
  | cond (cond : Condition FitsAttribute) : Control
  /-- The element is written for every entry. -/
  | entries (list : Collection) (vars : EntryVars) : Control
  /-- The element is written as often as a counting loop runs. -/
  | counting (init test step : LoopPart FitsAttribute)
      (noArrow : breakOn "=>".toList (countingCode init test step) = none) : Control
  /-- The element is written while a repeated assignment holds. -/
  | repeating (r : Repetition) : Control

namespace Control

/-- The attribute of an author. -/
def source : Control → ControlAttribute
  | cond c => .cond c.code
  | entries l vars => .loop (l.code ++ ("=>".toList ++ vars.code))
  | counting init test step _ => .loop (countingCode init test step)
  | repeating r => .loop (r.code ++ '=' :: r.value.code)

/-- The head of the statement around the element. -/
def head : Control → List Char
  | cond c => "if (".toList ++ bindVars c.code ++ [')']
  | entries l vars => entryLoop (trim (bindVars l.code)) vars.head
  | counting init test step _ => "for (".toList ++ bindVars (countingCode init test step) ++ [')']
  | repeating r => "while ((".toList ++ trim (bindVars r.code) ++ " = ".toList ++
      trim (bindVars r.value.code) ++ "))".toList

/-- The statement around the element. -/
def wrap : Control → List Stmt → Stmt
  | cond c => fun B => .cond [.mk c.expr B] none
  | entries l vars => fun B =>
    .cond [.mk (.binary .and l.expr (.call "count" [l.expr]))
      [.foreach l.expr vars.key? vars.target B]] none
  | counting init test step _ => .forLoop init.exprs test.exprs.getLast? step.exprs
  | repeating r => .whileLoop (.assign .set r.place r.value.expr)

/-- Every attribute has its head. -/
theorem head?_eq (c : Control) : c.source.head? = some c.head := by
  cases c with
  | cond c => rfl
  | entries l vars => exact loopHead?_entries l vars
  | counting init test step h => exact loopHead?_counting h
  | repeating r => exact loopHead?_repeating r

end Control

/-! ### Tokens -/

variable {l v : List Char} {ls vs : List Token}

theorem entryLoop_eq (l v : List Char) : entryLoop l v =
    "if".toList ++ ' ' ::
        argument (l ++ ' ' :: ("&&".toList ++ ' ' :: ("count".toList ++ argument l))) ++
      ' ' :: ("foreach".toList ++ ' ' :: argument (l ++ ' ' :: ("as".toList ++ ' ' :: v))) := by
  have hif : "if (".toList = "if".toList ++ [' ', '('] := rfl
  have hcount : " && count(".toList =
      ' ' :: ("&&".toList ++ ' ' :: ("count".toList ++ ['('])) := rfl
  have hforeach : ")) foreach (".toList = [')', ')', ' '] ++ "foreach".toList ++ [' ', '('] := rfl
  have has : " as ".toList = ' ' :: ("as".toList ++ [' ']) := rfl
  unfold entryLoop argument
  simp only [hif, hcount, hforeach, has, List.append_assoc, List.cons_append, List.nil_append]

theorem repetition_eq (l v : List Char) :
    "while ((".toList ++ l ++ " = ".toList ++ v ++ "))".toList =
      "while".toList ++ ' ' :: argument (argument (l ++ ' ' :: ("=".toList ++ ' ' :: v))) := by
  have hwhile : "while ((".toList = "while".toList ++ [' ', '(', '('] := rfl
  have hassign : " = ".toList = ' ' :: ("=".toList ++ [' ']) := rfl
  have hclose : "))".toList = [')', ')'] := rfl
  unfold argument
  simp only [hwhile, hassign, hclose, List.append_assoc, List.cons_append, List.nil_append]

/-- The tokens of a guarded loop over entries. -/
theorem spells_entryLoop (hl : Spells l ls) (hv : Spells v vs) :
    Spells (entryLoop l v) (.word "if" :: .sign .parenOpen ::
      ((ls ++ .sign .and :: .word "count" :: .sign .parenOpen :: (ls ++ [.sign .parenClose])) ++
        .sign .parenClose :: .word "foreach" :: .sign .parenOpen ::
          (ls ++ .word "as" :: (vs ++ [.sign .parenClose])))) := by
  have hguard := hl.append_blank (c := ' ') (by decide)
    (spellsAnywhere_and.spells.append_blank (c := ' ') (by decide)
      (spells_applied firm_count.spells hl))
  have hbinding := hl.append_blank (c := ' ') (by decide)
    (firm_as.spells.append_blank (c := ' ') (by decide) hv)
  have hloop := (spells_apart firm_if.spells hguard).append_blank (c := ' ') (by decide)
    (spells_apart firm_foreach.spells hbinding)
  rw [entryLoop_eq]
  simpa only [List.cons_append, List.append_assoc, List.nil_append] using hloop

/-- The variables for an entry are found between the parentheses of the loop. -/
theorem EntryVars.parses (vars : EntryVars) (ls : List Token) : ∃ ts, Spells vars.head ts ∧
    ∀ {subject : Expr} {us : List Token},
      (∀ {us}, Parses parseExpr (ls ++ .word "as" :: us) subject (.word "as" :: us)) →
        Parses foreachHead
          (.sign .parenOpen :: (ls ++ .word "as" :: (ts ++ .sign .parenClose :: us)))
          (subject, vars.key?, vars.target) us := by
  cases vars with
  | value v _ =>
    obtain ⟨ts, hts, hparse, hplace⟩ := placeOf?_parses v.stands
    exact ⟨_, hts.trimmed, fun h => parses_foreachHead h
      (stands_binding (stands_parsePostfix hparse) hplace)⟩
  | keyed k v _ =>
    obtain ⟨ks, hks, hkey, hkeyPlace⟩ := placeOf?_parses k.stands
    obtain ⟨ts, hts, hparse, hplace⟩ := placeOf?_parses v.stands
    have harrow : Spells "=>".toList [.sign .fatArrow] :=
      spells_of_step (c := '=') (a := ['>']) rfl rfl
    have hspell := hks.trimmed.append_blank (c := ' ') (by decide)
      (harrow.append_blank (c := ' ') (by decide) hts.trimmed)
    refine ⟨ks.map Lexeme.token ++ .sign .fatArrow :: ts.map Lexeme.token, ?_, ?_⟩
    · simpa [EntryVars.head] using hspell
    · intro subject us h
      have hforeach : Parses foreachHead _ _ us := parses_foreachHead_key h
        (stands_binding (stands_parsePostfix hkey) hkeyPlace)
        (stands_binding (stands_parsePostfix hparse) hplace)
      simpa [EntryVars.key?, EntryVars.target] using hforeach

/-- **The head of a control attribute**: its tokens in front of a block are the statement around the
element. -/
theorem Control.isHead (c : Control) : ∃ ts, Spells c.head ts ∧ IsHead ts c.wrap := by
  cases c with
  | cond c =>
    obtain ⟨ts, hts, hstands⟩ := exprOf?_stands c.stands
    exact ⟨_, spells_apart firm_if.spells hts.whole, isHead_cond hstands⟩
  | entries l vars =>
    obtain ⟨ls, hls, hcast, hparse⟩ := postfixOf?_parses l.stands
    obtain ⟨vs, hvs, hforeach⟩ := vars.parses (ls.map Lexeme.token)
    refine ⟨_, spells_entryLoop hls.trimmed hvs, ?_⟩
    -- the loop is the only statement under its guard
    refine IsHead.guarded (isHead_foreach fun {us} => ?_) (stands_guard_of_postfixed hparse hcast)
    have h : Parses foreachHead _ _ us := hforeach (parses_operand hparse hcast rfl)
    simpa using h
  | counting init test step h =>
    obtain ⟨ts, hts, hparse⟩ := LoopPart.head init test step
    refine ⟨.word "for" :: ts, ?_, isHead_for hparse⟩
    have hspell := firm_for.spells.append_blank (c := ' ') (by decide) hts
    -- the three parts are bound together, with the semicolons between them
    rw [← bindVars_countingCode] at hspell
    exact hspell
  | repeating r =>
    obtain ⟨ls, hls, hcast, hparse⟩ := postfixOf?_parses r.stands
    obtain ⟨ms, hms, hvalue⟩ := exprOf?_parses r.value.stands
    have hassign : Spells "=".toList [.sign .assign] := spells_of_step (c := '=') (a := []) rfl rfl
    have hinner := hls.trimmed.append_blank (c := ' ') (by decide)
      (hassign.append_blank (c := ' ') (by decide) hms.trimmed)
    have hspell := spells_apart firm_while.spells (spells_argument hinner)
    refine ⟨_, ?_, isHead_while (stands_assign hparse hcast r.isPlace hvalue)⟩
    have hhead : (Control.repeating r).head = _ := repetition_eq _ _
    rw [hhead]
    simpa only [List.cons_append, List.append_assoc, List.nil_append] using hspell

/-- The statement around an element is no text. -/
theorem Control.startsText_wrap (c : Control) (B : List Stmt) : startsText [c.wrap B] = false := by
  cases c <;> rfl

end Stencil
