import Mathlib.Logic.Function.Iterate
import Stencil.Proofs.Parsing.Operands

/-!
# Expressions in parentheses

Parentheses around the tokens of an expression leave it as it is.  One form looks the same and is
none: a word in parentheses can be a cast, which then has no operand.

## Main definitions

* `inParens ts` — the tokens with a pair of parentheses around them.

## Main results

* `parens_inv` — what stands in the parentheses with which an expression starts.
* `stands_inParens` — an expression in parentheses is the expression.
* `eq_of_inParens` — of tokens in any number of parentheses comes what comes of the tokens.
-/

namespace Stencil.Parser

variable {ts more : List Token} {k m n : Nat} {e x : Expr} {ls ms r rest : List Lexeme}

/-- The tokens with a pair of parentheses around them. -/
def inParens (ts : List Token) : List Token := .sign .parenOpen :: (ts ++ [.sign .parenClose])

theorem inParens_append (ts more : List Token) :
    inParens ts ++ more = .sign .parenOpen :: (ts ++ .sign .parenClose :: more) := by
  simp [inParens]

/-! ### Casts -/

/-- The name of a type by itself is an expression. -/
theorem parseExpr_typeName {name function : String} (h : castFunction? name = some function)
    (a b : Nat) : ∃ x, parseExpr [⟨.word name, a, b⟩] = .ok (x, []) := by
  unfold castFunction? at h
  split at h
  next hname => rcases hname with rfl | rfl <;> exact ⟨_, rfl⟩
  split at h
  next hname => rcases hname with rfl | rfl <;> exact ⟨_, rfl⟩
  split at h
  next hname => subst hname; exact ⟨_, rfl⟩
  split at h
  next hname => rcases hname with rfl | rfl <;> exact ⟨_, rfl⟩
  next => cases h

/-- An expression in parentheses that is a cast is one word, and nothing in parentheses is the
operand of the cast. -/
theorem tokens_of_cast {function : String} (h : parseExpr ms = .ok (x, []))
    (hls : ls.map Lexeme.token = inParens (ms.map Lexeme.token) ++ more)
    (hcast : cast? ls = some (function, rest)) : rest.map Lexeme.token = more := by
  rw [inParens_append] at hls
  have htail : ls.tail.map Lexeme.token =
      ms.map Lexeme.token ++ .sign .parenClose :: more := by
    rw [List.map_tail, hls, List.tail_cons]
  rw [cast?_eq] at hcast
  split at hcast
  next =>
    split at hcast
    next name hword =>
      split at hcast
      next hclose =>
        obtain ⟨g, hg, heq⟩ := Option.map_eq_some_iff.mp hcast
        obtain ⟨rfl, rfl⟩ := Prod.mk.inj heq
        rw [peek_eq_head?, htail] at hword
        rw [peek_eq_head?, List.map_tail, htail] at hclose
        rw [List.map_tail, List.map_tail, htail]
        match ms, h with
        | [], h => cases h
        | [l], _ => rfl
        | ⟨t, c, d⟩ :: l :: ms, h =>
          -- the word alone is the expression, so the parenthesis would be left
          simp only [List.map_cons, List.cons_append, List.head?_cons, List.tail_cons,
            Option.some.injEq] at hword hclose
          subst hword
          obtain ⟨y, hy⟩ := parseExpr_typeName hg c d
          have hmore : NotNext extendsExpr ((l :: ms).map Lexeme.token) := by
            rw [List.map_cons, hclose]
            exact notNext_cons rfl
          obtain ⟨rs, hrs, htokens⟩ := stands_parseExpr hy hmore (⟨.word name, c, d⟩ :: l :: ms) rfl
          rw [h] at hrs
          cases hrs
          cases htokens
      next => cases hcast
    next => cases hcast
  next => cases hcast

/-! ### Parentheses -/

/-- An expression starts with an operand, and it is this operand, unless the tokens after it go on
with it. -/
theorem operand_inv (h : Parser.assignment n ls = .ok (e, r)) :
    ∃ m a us, unary m ls = .ok (a, us) ∧
      (NotNext extendsExpr (us.map Lexeme.token) → e = a ∧ r = us) := by
  obtain ⟨n, rfl⟩ := Nat.exists_eq_succ_of_ne_zero (n := n) (by rintro rfl; cases h)
  rw [assignment_succ, bind_eq_ok] at h
  obtain ⟨⟨a, as⟩, ha, hassign⟩ := h
  obtain ⟨n, rfl⟩ := Nat.exists_eq_succ_of_ne_zero (n := n) (by rintro rfl; cases ha)
  rw [choice_succ, bind_eq_ok] at ha
  obtain ⟨⟨b, bs⟩, hb, hchoice⟩ := ha
  obtain ⟨n, rfl⟩ := Nat.exists_eq_succ_of_ne_zero (n := n) (by rintro rfl; cases hb)
  rw [binary_succ, bind_eq_ok] at hb
  obtain ⟨⟨c, us⟩, hc, hoperators⟩ := hb
  refine ⟨n, c, us, hc, fun hmore => ?_⟩
  -- from the tightest level to the loosest, nothing comes next
  obtain ⟨n, rfl⟩ := Nat.exists_eq_succ_of_ne_zero (n := n) (by rintro rfl; cases hc)
  rw [operators_of_notNext hmore.choice.binary rfl] at hoperators
  cases hoperators
  have hquestion : peek bs ≠ some (.sign .question) := by
    rw [peek_eq_head?]
    intro ht
    exact absurd (hmore _ ht) (by decide)
  simp only [if_neg hquestion] at hchoice
  cases hchoice
  have hop : (peek as).bind assignOp? = none := bind_peek_of_notNext hmore rfl fun t ht =>
    eq_none_of_isSome (Bool.or_eq_false_iff.mp ht).2
  simp only [hop] at hassign
  cases hassign
  exact ⟨rfl, rfl⟩

/-- So it is with the parentheses that an operand starts with, when they are no cast. -/
theorem parens_inv (h : unary n ls = .ok (e, r)) (hopen : peek ls = some (.sign .parenOpen))
    (hcast : cast? ls = none) :
    ∃ m inner us, Parser.assignment m ls.tail = .ok (inner, us) ∧
      peek us = some (.sign .parenClose) ∧
      (NotNext extendsPostfix (us.tail.map Lexeme.token) → e = inner ∧ r = us.tail) := by
  obtain ⟨n, rfl⟩ := Nat.exists_eq_succ_of_ne_zero (n := n) (by rintro rfl; cases h)
  rw [unary_succ, hopen, hcast] at h
  simp only [Option.bind_some, prefixed?] at h
  obtain ⟨n, rfl⟩ := Nat.exists_eq_succ_of_ne_zero (n := n) (by rintro rfl; cases h)
  rw [postfixed_succ, bind_eq_ok] at h
  obtain ⟨⟨d, ds⟩, hd, hpostfixes⟩ := h
  obtain ⟨n, rfl⟩ := Nat.exists_eq_succ_of_ne_zero (n := n) (by rintro rfl; cases hd)
  rw [primary_succ, hopen] at hd
  simp only [Option.bind_some, atom?, bind_eq_ok, expect_eq_ok] at hd
  obtain ⟨⟨inner, us⟩, hinner, _, ⟨hclose, rfl⟩, heq⟩ := hd
  cases heq
  refine ⟨n, inner, us, hinner, hclose, fun hmore => ?_⟩
  rw [postfixes_of_notNext hmore rfl] at hpostfixes
  cases hpostfixes
  exact ⟨rfl, rfl⟩

/-- The operand of a cast. -/
theorem cast_inv {function : String} (h : unary n ls = .ok (e, r))
    (hopen : peek ls = some (.sign .parenOpen)) (hcast : cast? ls = some (function, rest)) :
    ∃ t, peek rest = some t ∧ startsExpr t = true := by
  obtain ⟨n, rfl⟩ := Nat.exists_eq_succ_of_ne_zero (n := n) (by rintro rfl; cases h)
  rw [unary_succ, hopen, hcast] at h
  simp only [Option.bind_some, prefixed?, bind_eq_ok] at h
  obtain ⟨x, hx, -⟩ := h
  exact starts_of_unary hx

/-- Parentheses around an expression are the operand that the expression is, unless they are a
cast. -/
theorem standsFrom_inParens (h : parseExpr ms = .ok (x, []))
    (hword : ∀ w, ms.map Lexeme.token ≠ [.word w]) :
    StandsFrom unary extendsPostfix (depthBound ms + 3) (inParens (ms.map Lexeme.token)) x := by
  intro n more hn hmore us hus
  obtain ⟨n, rfl⟩ : ∃ m, n = m + 3 := ⟨n - 3, by omega⟩
  have hcast : cast? us = none := by
    rw [Option.eq_none_iff_forall_ne_some]
    rintro ⟨function, rest⟩ hcast
    -- a cast takes three tokens, so a word alone would stand in the parentheses
    have hrest := congrArg List.length (tokens_of_cast h hus hcast)
    have hlength := congrArg List.length hus
    have hthree := length_of_cast? hcast
    rw [inParens_append] at hus
    simp only [inParens, List.length_map, List.length_append, List.length_cons,
      List.length_nil] at hlength hrest
    obtain ⟨m, rfl⟩ : ∃ m, ms = [m] := List.length_eq_one_iff.mp (by omega)
    rw [cast?_eq] at hcast
    split at hcast
    next =>
      split at hcast
      next w hw =>
        rw [peek_eq_head?, List.map_tail, hus] at hw
        exact hword w (by simpa using hw)
      next => cases hcast
    next => cases hcast
  rw [inParens_append] at hus
  obtain ⟨a, b, us₁, rfl, h₁⟩ := tokens_cons hus
  obtain ⟨us₂, h₂, h₂'⟩ := standsFrom_assignment h (n := n) (by omega) (notNext_cons rfl) us₁ h₁
  obtain ⟨us₃, h₃, h₃'⟩ := expect_tokens "`)`" h₂'
  refine ⟨us₃, ?_, h₃'⟩
  have hprimary : primary (n + 1) (⟨.sign .parenOpen, a, b⟩ :: us₁) = .ok (x, us₃) := by
    rw [primary_succ]
    simp only [peek_cons, Option.bind_some, atom?, List.tail_cons, h₂, ok_bind, h₃]
  rw [unary_succ, hcast, postfixed_succ, hprimary]
  simp only [peek_cons, Option.bind_some, prefixed?, ok_bind]
  exact postfixes_of_notNext hmore h₃'

/-- So they are an expression. -/
theorem stands_inParens (h : parseExpr ms = .ok (x, []))
    (hword : ∀ w, ms.map Lexeme.token ≠ [.word w]) :
    Stands parseExpr extendsExpr (inParens (ms.map Lexeme.token)) x := by
  refine ((standsFrom_inParens h hword).binary 0).choice.assignment.parseExpr ?_
  simp only [inParens, depthBound, List.length_append, List.length_cons, List.length_map]
  omega

/-- Whatever depth is enough, what comes of the tokens is the same. -/
theorem StandsFrom.unique (h : StandsFrom Parser.assignment extendsExpr k ts x)
    (hls : ls.map Lexeme.token = ts ++ more) (hmore : NotNext extendsExpr more)
    (hparse : Parser.assignment n ls = .ok (e, r)) : e = x ∧ r.map Lexeme.token = more := by
  have hsame : Continues [] ls ls := ⟨ls, rfl, (List.append_nil ls).symm⟩
  obtain ⟨r', hr', hcont⟩ := (steady [] n).assignment (Nat.le_max_left n k) hparse hsame
    fun _ => fun t ht => by cases ht
  obtain ⟨r'', hr'', htokens⟩ := h (Nat.le_max_right n k) hmore ls hls
  rw [hr'] at hr''
  cases hr''
  obtain ⟨vs, hvs, rfl⟩ := hcont
  rw [List.append_nil] at htokens
  exact ⟨rfl, by rw [← hvs, htokens]⟩

/-- A cast has no parentheses in its own. -/
theorem cast?_eq_none_of_nested {us : List Token}
    (hls : ls.map Lexeme.token = .sign .parenOpen :: .sign .parenOpen :: us) : cast? ls = none := by
  obtain ⟨a, b, ms, rfl, hms⟩ := tokens_cons hls
  obtain ⟨c, d, ns, rfl, -⟩ := tokens_cons hms
  rfl

/-- **Of tokens in parentheses comes what comes of the tokens**, however many pairs there are. -/
theorem eq_of_inParens (h : parseExpr ms = .ok (x, [])) (pairs : Nat)
    (hls : ls.map Lexeme.token = inParens^[pairs] (ms.map Lexeme.token) ++ more)
    (hmore : NotNext extendsExpr more) (hstart : NotNext startsExpr more)
    (hparse : Parser.assignment n ls = .ok (e, r)) : e = x ∧ r.map Lexeme.token = more := by
  induction pairs generalizing n ls e r more with
  | zero => exact (standsFrom_assignment h).unique hls hmore hparse
  | succ pairs ih =>
    rw [Function.iterate_succ_apply'] at hls
    have hopen : peek ls = some (.sign .parenOpen) := by
      rw [peek_eq_head?, hls]
      rfl
    obtain ⟨m, a, us, hunary, hoperand⟩ := operand_inv hparse
    have hcast : cast? ls = none := by
      cases pairs with
      | zero =>
        cases hc : cast? ls with
        | none => rfl
        | some c =>
          -- the cast would need an operand behind the parentheses
          obtain ⟨t, ht, hs⟩ := cast_inv hunary hopen hc
          rw [peek_eq_head?, tokens_of_cast h hls hc] at ht
          exact absurd (hstart t ht) (by simp [hs])
      | succ pairs =>
        rw [Function.iterate_succ_apply', inParens_append, inParens_append] at hls
        exact cast?_eq_none_of_nested hls
    obtain ⟨l, inner, vs, hinner, hclose, hparens⟩ := parens_inv hunary hopen hcast
    rw [inParens_append] at hls
    have htail : ls.tail.map Lexeme.token =
        inParens^[pairs] (ms.map Lexeme.token) ++ .sign .parenClose :: more := by
      rw [List.map_tail, hls, List.tail_cons]
    obtain ⟨rfl, hvs⟩ := ih htail (notNext_cons rfl) (notNext_cons rfl) hinner
    have hvs : vs.tail.map Lexeme.token = more := by
      rw [List.map_tail, hvs, List.tail_cons]
    obtain ⟨rfl, rfl⟩ := hparens (hvs.symm ▸ hmore.choice.binary.postfixed)
    obtain ⟨rfl, rfl⟩ := hoperand (hvs.symm ▸ hmore)
    exact ⟨rfl, hvs⟩

end Stencil.Parser
