import Stencil.Proofs.Binding
import Stencil.Proofs.Parsing.Operands

/-!
# Fragments of code

A fragment is code that an author writes into a template: a condition, a part of a loop, a
collection.  What it stands for is read off it alone: its variables are bound, an island is made of
it, and the tokens of the island up to its end have to be one expression, or one list of them.  A
fragment has these tokens wherever it is put.

## Main definitions

* `tokensOf?` — the tokens of a fragment without comments.
* `exprOf?`, `exprsOf?`, `postfixOf?`, `placeOf?` — the expression, expressions, postfix form or
  place that a fragment stands for.
* `HasTokens` — the bound fragment has the tokens, with or without its outer blanks.

## Main results

* `hasTokens_of_tokensOf?` — the tokens of a fragment are those of its code.
* `exprOf?_stands`, `exprsOf?_parses` — fragments stand for their expressions wherever they are put.
-/

namespace Stencil

open Text Lexer Stencil.Parser

/-- The tokens of code with its variables bound, when it has no comment and does not end its
island. -/
def tokensOf? (code : List Char) : Option (List Lexeme) :=
  if uninterrupted .code code then
    match lex (island (bindVars code)) with
    | .ok ls => some ls.dropLast
    | .error _ => none
  else none

/-- What a parser makes of all the tokens. -/
def wholly? {α : Type} (f : List Lexeme → Parse (α × List Lexeme)) (ls : List Lexeme) : Option α :=
  match f ls with
  | .ok (a, []) => some a
  | _ => none

/-- The expression that a fragment stands for. -/
def exprOf? (code : List Char) : Option Expr := (tokensOf? code).bind (wholly? parseExpr)

/-- The expressions, separated by commas, that a fragment stands for; a blank one stands for
none. -/
def exprsOf? (code : List Char) : Option (List Expr) :=
  (tokensOf? code).bind fun ls => if ls = [] then some [] else wholly? parseExprs ls

/-- The primary with postfix forms that a fragment stands for. -/
def postfixOf? (code : List Char) : Option Expr :=
  (tokensOf? code).bind fun ls => if (cast? ls).isSome then none else wholly? parsePostfix ls

/-- The place that a fragment stands for. -/
def placeOf? (code : List Char) : Option Expr :=
  (tokensOf? code).bind fun ls => (wholly? parsePostfix ls).filter Expr.isPlace

variable {code : List Char} {ls : List Lexeme}

theorem wholly?_eq_some {α : Type} {f : List Lexeme → Parse (α × List Lexeme)} {a : α} :
    wholly? f ls = some a ↔ f ls = .ok (a, []) := by
  rw [wholly?]
  split
  next b h => simp [h]
  next h =>
    constructor
    · intro he
      cases he
    · intro he
      exact absurd he (h a)

/-- The bound fragment has the tokens, its outer blanks do not count, and it ends outside of its
literals. -/
structure HasTokens (code : List Char) (ts : List Token) : Prop where
  whole : Spells (bindVars code) ts
  trimmed : Spells (trim (bindVars code)) ts
  outside : code.foldl Quoting.next .code = .code

/-- Outer blanks stand around the text without them. -/
theorem trim_append (cs : List Char) : ∃ before after : List Char,
    cs = before ++ (trim cs ++ after) ∧ (∀ c ∈ before, isBlank c = true) ∧
      ∀ c ∈ after, isBlank c = true := by
  obtain ⟨after, hright, ha⟩ := trimRight_append (trimLeft cs)
  refine ⟨cs.takeWhile isBlank, after, ?_, fun c hc => List.mem_takeWhile_imp hc, ha⟩
  rw [trim, hright, trimLeft, List.takeWhile_append_dropWhile]

/-- An island up to its end is read by steps over its code. -/
theorem steps_of_lex (hlex : lex (island code) = .ok ls) (hu : uninterrupted .code code = true) :
    Steps code (ls.dropLast.map Lexeme.token) := by
  obtain ⟨ts, hts, hsteps⟩ := (reads_of_lex hlex).split_closing hu
  rwa [List.map_dropLast, hts, List.dropLast_concat]

/-- **A fragment has its tokens wherever it is put.** -/
theorem hasTokens_of_tokensOf? (h : tokensOf? code = some ls) :
    HasTokens code (ls.map Lexeme.token) := by
  rw [tokensOf?] at h
  split at h
  next hu =>
    split at h
    next all hlex =>
      cases h
      have hu := uninterrupted_bindVars hu
      have hsteps := steps_of_lex hlex hu
      have houtside : code.foldl Quoting.next .code = .code := by
        rw [← foldl_next_bindVars, hsteps.outside]
      exact ⟨hsteps.firm.spells, (hsteps.trim hu).firm.spells, houtside⟩
    next => cases h
  next => cases h

/-! ### What fragments stand for -/

theorem exprOf?_parses {e : Expr} (h : exprOf? code = some e) :
    ∃ ls, HasTokens code (ls.map Lexeme.token) ∧ parseExpr ls = .ok (e, []) := by
  obtain ⟨ls, hls, he⟩ := Option.bind_eq_some_iff.mp h
  exact ⟨ls, hasTokens_of_tokensOf? hls, wholly?_eq_some.mp he⟩

theorem exprOf?_stands {e : Expr} (h : exprOf? code = some e) :
    ∃ ts, HasTokens code ts ∧ Stands parseExpr extendsExpr ts e := by
  obtain ⟨ls, hls, he⟩ := exprOf?_parses h
  exact ⟨_, hls, stands_parseExpr he⟩

theorem postfixOf?_parses {e : Expr} (h : postfixOf? code = some e) :
    ∃ ls, HasTokens code (ls.map Lexeme.token) ∧ cast? ls = none ∧
      parsePostfix ls = .ok (e, []) := by
  obtain ⟨ls, hls, he⟩ := Option.bind_eq_some_iff.mp h
  split at he
  next => cases he
  next hcast =>
    rw [Bool.not_eq_true] at hcast
    exact ⟨ls, hasTokens_of_tokensOf? hls, eq_none_of_isSome hcast, wholly?_eq_some.mp he⟩

theorem placeOf?_parses {e : Expr} (h : placeOf? code = some e) :
    ∃ ls, HasTokens code (ls.map Lexeme.token) ∧ parsePostfix ls = .ok (e, []) ∧
      e.isPlace = true := by
  obtain ⟨ls, hls, he⟩ := Option.bind_eq_some_iff.mp h
  obtain ⟨he, hp⟩ := Option.filter_eq_some_iff.mp he
  exact ⟨ls, hasTokens_of_tokensOf? hls, wholly?_eq_some.mp he, hp⟩

theorem ne_nil_of_parseExpr {e : Expr} {r : List Lexeme} (h : parseExpr ls = .ok (e, r)) :
    ls ≠ [] := by
  obtain ⟨t, ht, -⟩ := starts_of_assignment h
  exact ne_nil_of_peek ht

theorem ne_nil_of_parsePostfix {e : Expr} {r : List Lexeme} (h : parsePostfix ls = .ok (e, r)) :
    ls ≠ [] := by
  obtain ⟨t, ht, -⟩ := starts_of_postfixed h
  exact ne_nil_of_peek ht

/-- A fragment with tokens is not blank. -/
theorem HasTokens.trim_ne_nil (h : HasTokens code (ls.map Lexeme.token)) (hls : ls ≠ []) :
    trim (bindVars code) ≠ [] := by
  intro hnil
  have hspell := h.trimmed
  rw [hnil] at hspell
  exact hls (List.map_eq_nil_iff.mp hspell.eq_nil)

/-- A list of expressions does not start with the token that ends it. -/
theorem exprsOf?_parses {es : List Expr} (h : exprsOf? code = some es) :
    ∃ ts, HasTokens code ts ∧ ∀ {close us}, startsExpr close = false → extendsList close = false →
      Parses (exprsBefore close) (ts ++ close :: us) es (close :: us) := by
  obtain ⟨ls, hls, he⟩ := Option.bind_eq_some_iff.mp h
  refine ⟨_, hasTokens_of_tokensOf? hls, fun {close us} hstart hclose => ?_⟩
  refine parses_exprsBefore hclose ?_
  split at he
  next hnil =>
    cases he
    exact .inl ⟨by rw [hnil]; rfl, rfl⟩
  next hne =>
    have hparse := wholly?_eq_some.mp he
    -- a token that starts an expression is none that ends the list
    refine .inr ⟨?_, by simpa using hne, stands_parseExprs hparse⟩
    rw [← peek_eq_head?]
    intro hpeek
    rw [parseExprs, depthBound, commas_succ, bind_eq_ok] at hparse
    obtain ⟨x, hx, -⟩ := hparse
    obtain ⟨t, ht, hs⟩ := starts_of_assignment hx
    rw [hpeek] at ht
    cases ht
    rw [hstart] at hs
    cases hs

end Stencil
