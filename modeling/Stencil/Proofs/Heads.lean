import Stencil.Proofs.Fragment

/-!
# Heads of statements

The parts an author writes into the head of a block are put together before their code is bound and
read.  The parts are bound one by one, and so are their tokens read.

## Main definitions

* `Condition`, `LoopPart` — code that is an expression, or a list of them, and fits where it is put.
* `argument` — code in parentheses.

## Main results

* `bindVars_argument`, `bindVars_semicolon` — code is bound part by part.
* `spells_word`, `LoopPart.head` — the tokens of a head.
-/

namespace Stencil

open Text Lexer Stencil.Parser

/-- Code that is an expression and fits where it is put. -/
structure Condition (p : List Char → Prop) where
  /-- The code. -/
  code : List Char
  /-- The expression. -/
  expr : Expr
  stands : exprOf? code = some expr
  fits : p code

/-- Code that is a list of expressions and fits where it is put. -/
structure LoopPart (p : List Char → Prop) where
  /-- The code. -/
  code : List Char
  /-- The expressions. -/
  exprs : List Expr
  stands : exprsOf? code = some exprs
  fits : p code

/-- Code in parentheses. -/
def argument (code : List Char) : List Char := '(' :: (code ++ [')'])

variable {a b code : List Char} {ts : List Token}

/-! ### Binding -/

theorem separates_parenOpen : Separates ['('] :=
  ⟨forall_mem_of_all (by decide), by rintro _ ⟨⟩; decide, ⟨by decide, by decide⟩, by decide⟩

theorem separates_parenClose : Separates [')'] :=
  ⟨forall_mem_of_all (by decide), by rintro _ ⟨⟩; decide, ⟨by decide, by decide⟩, by decide⟩

theorem separates_semicolon : Separates [';'] :=
  ⟨forall_mem_of_all (by decide), by rintro _ ⟨⟩; decide, ⟨by decide, by decide⟩, by decide⟩

/-- A word and code in parentheses are bound apart. -/
theorem bindVars_argument {word : List Char} (hw : word.foldl Quoting.next .code = .code)
    (h : code.foldl Quoting.next .code = .code) :
    bindVars (word ++ argument code) = bindVars word ++ argument (bindVars code) := by
  have hclose : bindVars (code ++ ([')'] ++ [])) = bindVars code ++ ([')'] ++ bindVars []) :=
    bindVars_around separates_parenClose h
  have hopen : bindVars (word ++ (['('] ++ (code ++ [')']))) =
      bindVars word ++ (['('] ++ bindVars (code ++ [')'])) :=
    bindVars_around separates_parenOpen hw
  rw [List.append_nil] at hclose
  rw [argument, ← List.singleton_append, hopen, hclose]
  rfl

theorem bindVars_semicolon (h : a.foldl Quoting.next .code = .code) :
    bindVars (a ++ (';' :: b)) = bindVars a ++ (';' :: bindVars b) :=
  bindVars_around separates_semicolon h

theorem foldl_next_semicolon (ha : a.foldl Quoting.next .code = .code)
    (hb : b.foldl Quoting.next .code = .code) :
    (a ++ (';' :: b)).foldl Quoting.next .code = .code := by
  rw [List.foldl_append, ha, List.foldl_cons]
  exact hb

/-! ### Tokens -/

theorem spells_argument (h : Spells code ts) :
    Spells (argument code) (.sign .parenOpen :: (ts ++ [.sign .parenClose])) :=
  (h.append_own rfl Spells.nil).own rfl

theorem firm_if : SpellsFirm "if".toList [.word "if"] :=
  spellsFirm_of_step (c := 'i') (a := "f".toList) rfl rfl

theorem firm_elseif : SpellsFirm "elseif".toList [.word "elseif"] :=
  spellsFirm_of_step (c := 'e') (a := "lseif".toList) rfl rfl

theorem firm_else : SpellsFirm "else".toList [.word "else"] :=
  spellsFirm_of_step (c := 'e') (a := "lse".toList) rfl rfl

theorem firm_while : SpellsFirm "while".toList [.word "while"] :=
  spellsFirm_of_step (c := 'w') (a := "hile".toList) rfl rfl

theorem firm_for : SpellsFirm "for".toList [.word "for"] :=
  spellsFirm_of_step (c := 'f') (a := "or".toList) rfl rfl

theorem firm_foreach : SpellsFirm "foreach".toList [.word "foreach"] :=
  spellsFirm_of_step (c := 'f') (a := "oreach".toList) rfl rfl

theorem firm_switch : SpellsFirm "switch".toList [.word "switch"] :=
  spellsFirm_of_step (c := 's') (a := "witch".toList) rfl rfl

theorem firm_case : SpellsFirm "case".toList [.word "case"] :=
  spellsFirm_of_step (c := 'c') (a := "ase".toList) rfl rfl

theorem firm_default : SpellsFirm "default".toList [.word "default"] :=
  spellsFirm_of_step (c := 'd') (a := "efault".toList) rfl rfl

theorem firm_as : SpellsFirm "as".toList [.word "as"] :=
  spellsFirm_of_step (c := 'a') (a := ['s']) rfl rfl

theorem firm_count : SpellsFirm "count".toList [.word "count"] :=
  spellsFirm_of_step (c := 'c') (a := "ount".toList) rfl rfl

theorem spellsAnywhere_and : SpellsAnywhere "&&".toList [.sign .and] := by
  intro rest
  have hs : step .code '&' (['&'] ++ rest) =
      .ok { token := some (.sign .and), width := 2, mode := .code } := rfl
  exact readsFirst_of_step hs rfl rfl

section Word

variable {word : List Char} {t : Token}

/-- The tokens of a word and code in parentheses. -/
theorem spells_applied (hw : Spells word [t]) (h : Spells code ts) :
    Spells (word ++ argument code) (t :: .sign .parenOpen :: (ts ++ [.sign .parenClose])) :=
  hw.append (spells_argument h) (apart_cons (by decide)) (List.cons_ne_nil _ _)

/-- There may be a blank between them. -/
theorem spells_apart (hw : Spells word [t]) (h : Spells code ts) :
    Spells (word ++ ' ' :: argument code)
      (t :: .sign .parenOpen :: (ts ++ [.sign .parenClose])) :=
  hw.append_blank (by decide) (spells_argument h)

/-- The tokens of a word, code in parentheses and an opening brace. -/
theorem spells_word (hw : Spells word [t]) (h : Spells code ts) :
    Spells (word ++ argument code ++ ['\x7b'])
      (t :: .sign .parenOpen :: (ts ++ [.sign .parenClose]) ++ [.sign .braceOpen]) :=
  (spells_applied hw h).append_own rfl Spells.nil

end Word

/-- The argument of a counting loop, with its tokens. -/
theorem LoopPart.head {p : List Char → Prop} (init cond step : LoopPart p) :
    ∃ ts, Spells (argument (bindVars init.code ++
        (';' :: (bindVars cond.code ++ (';' :: bindVars step.code))))) ts ∧
      ∀ {us}, Parses forHead (ts ++ us) (init.exprs, cond.exprs.getLast?, step.exprs) us := by
  obtain ⟨is, hi, hinit⟩ := exprsOf?_parses init.stands
  obtain ⟨cs, hc, hcond⟩ := exprsOf?_parses cond.stands
  obtain ⟨ss, hs, hstep⟩ := exprsOf?_parses step.stands
  refine ⟨_, spells_argument (hi.whole.append_own rfl (hc.whole.append_own rfl hs.whole)), ?_⟩
  intro us
  have h : Parses forHead _ _ us := parses_forHead (hinit rfl rfl) (hcond rfl rfl) (hstep rfl rfl)
  simpa using h

end Stencil
