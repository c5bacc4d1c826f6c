import Stencil.Proofs.Iteration
import Stencil.Proofs.Parsing.Parentheses
import Stencil.Proofs.Relative

/-!
# Labels in comments

The comment that labels an arm of a switch has the label in parentheses, and the code of the label is
what remains when every parenthesis at the ends is taken away.  These are more than the two of the
comment when the label has parentheses at its own ends.  As long as they are pairs around the whole
label, it stays the same expression; an argument list at the end of a label, however, loses its
closing parenthesis, or all of it when it is empty.

## Main definitions

* `PairedEnds` — the parentheses at the ends of code are pairs around an expression.
* `Label` — the code of a label with such ends.

## Main results

* `labelValue_pairs` — all the pairs are taken away.
* `exprOf?_pairs` — code in parentheses stands for what the code stands for.
* `Label.spells` — the tokens of a label are those of its expression.
-/

namespace Stencil

open Text Lexer Stencil.Parser

variable {a code core cs : List Char} {ts us : List Token} {e x : Expr}

/-! ### Taking parentheses away -/

/-- A parenthesis. -/
def isParen (c : Char) : Bool := c = '(' ∨ c = ')'

theorem trim_argument (cs : List Char) : trim (argument cs) = argument cs := by
  have hhead : ∀ c ∈ (argument cs).head?, isBlank c = false := by
    rintro _ ⟨⟩
    decide
  have hlast : ∀ c ∈ (argument cs).getLast?, isBlank c = false := by
    have heq : (argument cs).getLast? = some ')' := by
      rw [argument, ← List.cons_append, List.getLast?_concat]
    rw [heq]
    rintro _ ⟨⟩
    decide
  exact stripBoth_of_ends hhead hlast

/-- A pair of parentheses is taken away with all that stand in it at its ends. -/
theorem stripBoth_argument (cs : List Char) :
    stripBoth isParen (argument cs) = stripBoth isParen cs := by
  have hopen : (argument cs).dropWhile isParen = (cs ++ [')']).dropWhile isParen :=
    List.dropWhile_cons_of_pos (by decide)
  rw [stripBoth, stripBoth, hopen, List.dropWhile_append]
  split
  next hnil =>
    rw [List.isEmpty_iff] at hnil
    rw [hnil]
    rfl
  next =>
    have hclose : (')' :: (cs.dropWhile isParen).reverse).dropWhile isParen =
        (cs.dropWhile isParen).reverse.dropWhile isParen :=
      List.dropWhile_cons_of_pos (by decide)
    rw [List.reverse_append, List.reverse_singleton, List.singleton_append, hclose]

/-- Code in any number of parentheses, with none at its own ends. -/
theorem labelValue_pairs (n : Nat) (hhead : ∀ c ∈ core.head?, isParen c = false)
    (hlast : ∀ c ∈ core.getLast?, isParen c = false) :
    labelValue (argument (argument^[n] core)) = trim core := by
  have hstrip : stripBoth isParen (argument^[n] core) = core := by
    induction n with
    | zero => exact stripBoth_of_ends hhead hlast
    | succ n ih => rw [Function.iterate_succ_apply', stripBoth_argument, ih]
  have hvalue : labelValue (argument (argument^[n] core)) =
      trim (stripBoth isParen (trim (argument (argument^[n] core)))) := rfl
  rw [hvalue, trim_argument, stripBoth_argument, hstrip]

/-! ### Code in parentheses -/

theorem HasTokens.argument (h : HasTokens code ts) : HasTokens (argument code) (inParens ts) := by
  have hbind : bindVars (Stencil.argument code) = Stencil.argument (bindVars code) :=
    bindVars_argument (rfl : [].foldl Quoting.next .code = .code) h.outside
  have hspells : Spells (bindVars (Stencil.argument code)) (inParens ts) := by
    rw [hbind]
    exact spells_argument h.whole
  refine ⟨hspells, ?_, ?_⟩
  · rwa [hbind, trim_argument, ← hbind]
  · have hopen : Quoting.code.next '(' = .code := by decide
    rw [Stencil.argument, List.foldl_cons, hopen, List.foldl_append, h.outside]
    rfl

theorem HasTokens.pairs (h : HasTokens code ts) (n : Nat) :
    HasTokens (Stencil.argument^[n] code) (inParens^[n] ts) := by
  induction n with
  | zero => exact h
  | succ n ih =>
    rw [Function.iterate_succ_apply', Function.iterate_succ_apply']
    exact ih.argument

theorem HasTokens.unique (h : HasTokens code ts) (h' : HasTokens code us) : ts = us := by
  have hapart : Apart (' ' :: closeTag) := apart_cons (by decide)
  exact List.append_cancel_right
    ((h.whole hapart reads_closing).unique (h'.whole hapart reads_closing))

/-- **Code in parentheses stands for what the code stands for**, if it stands for something. -/
theorem exprOf?_pairs (h : exprOf? core = some x) {n : Nat}
    (he : exprOf? (argument^[n] core) = some e) : e = x := by
  obtain ⟨ms, hms, hx⟩ := exprOf?_parses h
  obtain ⟨ls, hls, hparse⟩ := exprOf?_parses he
  have htokens : ls.map Lexeme.token = inParens^[n] (ms.map Lexeme.token) ++ [] := by
    rw [List.append_nil]
    exact hls.unique (hms.pairs n)
  exact (eq_of_inParens hx n htokens (fun t ht => by cases ht) (fun t ht => by cases ht)
    hparse).1

/-! ### Labels -/

/-- The parentheses at the ends of the code are pairs around an expression. -/
def PairedEnds (code : List Char) : Prop :=
  ∃ n core, code = argument^[n] core ∧ (exprOf? core).isSome = true ∧
    (∀ c ∈ core.head?, isParen c = false) ∧ ∀ c ∈ core.getLast?, isParen c = false

/-- The code of a label. -/
abbrev Label : Type := Condition fun code => FitsComment code ∧ PairedEnds code

/-- An expression without parentheses at its ends. -/
theorem pairedEnds_of_ends (h : exprOf? code = some e)
    (hhead : ∀ c ∈ code.head?, isParen c = false)
    (hlast : ∀ c ∈ code.getLast?, isParen c = false) : PairedEnds code :=
  ⟨0, code, rfl, by rw [h]; rfl, hhead, hlast⟩

example : PairedEnds "($a . f($b) . 'c')".toList :=
  ⟨1, "$a . f($b) . 'c'".toList, rfl, by decide +kernel, by rintro _ ⟨⟩; rfl, by rintro _ ⟨⟩; rfl⟩

/-- The code of a label, without the parentheses of its comment. -/
def Label.value (label : Label) : List Char := labelValue (argument label.code)

/-- **The tokens of a label are those of its expression.** -/
theorem Label.spells (label : Label) : ∃ ts, SpellsFirm (bindVars label.value) ts ∧
    Stands parseExpr extendsExpr ts label.expr ∧ label.value.isEmpty = false := by
  obtain ⟨n, core, hcode, hcore, hhead, hlast⟩ := label.fits.2
  obtain ⟨x, hx⟩ := Option.isSome_iff_exists.mp hcore
  obtain ⟨ls, hls, hparse⟩ := Option.bind_eq_some_iff.mp hx
  have hparse := wholly?_eq_some.mp hparse
  have hvalue : label.value = trim core := by
    rw [Label.value, hcode, labelValue_pairs n hhead hlast]
  -- the blanks around the expression are taken away with the parentheses
  obtain ⟨before, after, heq, hb, ha⟩ := trim_append core
  obtain ⟨hfirm, -⟩ := spellsFirm_of_tokensOf? (heq ▸ hls) hb ha
  have hexpr : label.expr = x := exprOf?_pairs hx (hcode ▸ label.stands)
  refine ⟨_, hvalue ▸ hfirm, hexpr ▸ stands_parseExpr hparse, ?_⟩
  rw [hvalue, List.isEmpty_eq_false_iff]
  exact trim_ne_nil_of_tokensOf? hls (ne_nil_of_parseExpr hparse)

end Stencil
