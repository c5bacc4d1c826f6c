import Stencil.Proofs.Parsing.Statements

/-!
# Operands in larger expressions

An expression that a template makes of the code of an author has this code as an operand: the guard
`LIST && count(LIST)` of a loop, and the assignment `(VAR = EXPR)` that a loop repeats.  An operand
is parsed as it is on its own, from some depth on, and the levels above it add one each.

## Main definitions

* `StandsFrom f p k ts a` — from depth `k` on, the tokens `ts` stand for `a`.

## Main results

* `StandsFrom.binary`, `StandsFrom.choice`, `StandsFrom.assignment` — from one level to the next.
* `standsFrom_call`, `standsFrom_assign` — a call of one argument, and an assignment in parentheses.
* `parses_operand`, `stands_assign` — the expressions that templates make.
-/

namespace Stencil.Parser

variable {α : Type} {ts us vs : List Token} {k l : Nat} {e : Expr} {ls : List Lexeme}

/-- From depth `k` on, the tokens `ts` stand for `a`, unless a token after them goes on with it. -/
def StandsFrom (f : Nat → List Lexeme → Parse (α × List Lexeme)) (p : Token → Bool) (k : Nat)
    (ts : List Token) (a : α) : Prop :=
  ∀ ⦃n more⦄, k ≤ n → NotNext p more → Parses (f n) (ts ++ more) a more

/-- The tokens that go on with a choice. -/
def extendsChoice (t : Token) : Bool := extendsBinary t || t == .sign .question

theorem NotNext.mono {p q : Token → Bool} (h : NotNext q us)
    (hpq : ∀ t, q t = false → p t = false) : NotNext p us :=
  fun t ht => hpq t (h t ht)

theorem NotNext.postfixed (h : NotNext extendsBinary us) : NotNext extendsPostfix us :=
  h.mono fun _ ht => (Bool.or_eq_false_iff.mp ht).1

theorem NotNext.binary (h : NotNext extendsChoice us) : NotNext extendsBinary us :=
  h.mono fun _ ht => (Bool.or_eq_false_iff.mp ht).1

theorem NotNext.choice (h : NotNext extendsExpr us) : NotNext extendsChoice us :=
  h.mono fun _ ht => (Bool.or_eq_false_iff.mp ht).1

/-- A table that has nothing for a token has nothing for the next one. -/
theorem bind_peek_of_notNext {β : Type} {p : Token → Bool} {g : Token → Option β} {ms : List Lexeme}
    (h : NotNext p us) (hms : ms.map Lexeme.token = us) (hp : ∀ t, p t = false → g t = none) :
    (peek ms).bind g = none := by
  rw [peek_eq_head?, hms]
  cases hu : us.head? with
  | none => rfl
  | some t => exact hp t (h t hu)

/-! ### Levels -/

/-- A postfix form is parsed from its depth on. -/
theorem standsFrom_postfixed (h : parsePostfix ls = .ok (e, [])) :
    StandsFrom postfixed extendsPostfix (depthBound ls) (ls.map Lexeme.token) e := by
  intro n more hn hmore us hus
  obtain ⟨rest, hc, hrest⟩ := Continues.of_tokens hus
  obtain ⟨r, hr, hc⟩ := (steady rest _).postfixed hn h hc fun _ => hmore.ends hrest
  exact ⟨r, hr, by rw [hc.eq_of_nil, hrest]⟩

/-- So is an expression. -/
theorem standsFrom_assignment (h : parseExpr ls = .ok (e, [])) :
    StandsFrom assignment extendsExpr (depthBound ls) (ls.map Lexeme.token) e := by
  intro n more hn hmore us hus
  obtain ⟨rest, hc, hrest⟩ := Continues.of_tokens hus
  obtain ⟨r, hr, hc⟩ := (steady rest _).assignment hn h hc fun _ => hmore.ends hrest
  exact ⟨r, hr, by rw [hc.eq_of_nil, hrest]⟩

/-- A postfix form that is no cast is an operand. -/
theorem standsFrom_unary (h : parsePostfix ls = .ok (e, [])) (hcast : cast? ls = none) :
    StandsFrom unary extendsPostfix (depthBound ls + 1) (ls.map Lexeme.token) e := by
  intro n more hn hmore us hus
  obtain ⟨n, rfl⟩ : ∃ m, n = m + 1 := ⟨n - 1, by omega⟩
  obtain ⟨rest, hc, hrest⟩ := Continues.of_tokens hus
  obtain ⟨r, hr, hr'⟩ := standsFrom_postfixed h (Nat.le_of_succ_le_succ hn) hmore us hus
  obtain ⟨t, ht, hs⟩ := starts_of_postfixed h
  refine ⟨r, ?_, hr'⟩
  rw [unary_succ, hc.peek_some ht, Option.bind_some, prefixed?_of_startsPrimary hs,
    hc.cast?_none hcast h]
  exact hr

theorem eq_none_of_isSome {β : Type} {o : Option β} (h : o.isSome = false) : o = none :=
  Option.isNone_iff_eq_none.mp (Option.isSome_eq_false_iff.mp h)

/-- No operator comes next. -/
theorem operators_of_notNext {n least : Nat} {ms : List Lexeme} (h : NotNext extendsBinary us)
    (hms : ms.map Lexeme.token = us) : operators (n + 1) least e ms = .ok (e, ms) := by
  have hop : (peek ms).bind binaryOp? = none := bind_peek_of_notNext h hms fun t ht =>
    eq_none_of_isSome (Bool.or_eq_false_iff.mp ht).2
  rw [operators_succ, hop]

/-- No postfix form comes next. -/
theorem postfixes_of_notNext {n : Nat} {ms : List Lexeme} (h : NotNext extendsPostfix us)
    (hms : ms.map Lexeme.token = us) : postfixes (n + 1) e ms = .ok (e, ms) := by
  rw [postfixes_succ]
  split
  all_goals first
    | rfl
    | next hp =>
      rw [peek_eq_head?, hms] at hp
      exact absurd (h _ hp) (by decide)

/-- An operand is a binary operation without operators. -/
theorem StandsFrom.binary (h : StandsFrom unary extendsPostfix (k + 1) ts e) (least : Nat) :
    StandsFrom (fun n => binary n least) extendsBinary (k + 2) ts e := by
  intro n more hn hmore us hus
  obtain ⟨n, rfl⟩ : ∃ m, n = m + 2 := ⟨n - 2, by omega⟩
  obtain ⟨r, hr, hr'⟩ := h (Nat.le_of_succ_le_succ hn) hmore.postfixed us hus
  refine ⟨r, ?_, hr'⟩
  simp only [binary_succ, hr, ok_bind]
  exact operators_of_notNext hmore hr'

theorem StandsFrom.choice (h : StandsFrom (fun n => Parser.binary n 0) extendsBinary k ts e) :
    StandsFrom Parser.choice extendsChoice (k + 1) ts e := by
  intro n more hn hmore us hus
  obtain ⟨n, rfl⟩ : ∃ m, n = m + 1 := ⟨n - 1, by omega⟩
  obtain ⟨r, hr, hr'⟩ := h (Nat.le_of_succ_le_succ hn) hmore.binary us hus
  have hr : Parser.binary n 0 us = .ok (e, r) := hr
  have hquestion : peek r ≠ some (.sign .question) := by
    rw [peek_eq_head?, hr']
    intro ht
    exact absurd (hmore _ ht) (by decide)
  refine ⟨r, ?_, hr'⟩
  rw [choice_succ, hr, ok_bind]
  exact if_neg hquestion

theorem StandsFrom.assignment (h : StandsFrom Parser.choice extendsChoice k ts e) :
    StandsFrom Parser.assignment extendsExpr (k + 1) ts e := by
  intro n more hn hmore us hus
  obtain ⟨n, rfl⟩ : ∃ m, n = m + 1 := ⟨n - 1, by omega⟩
  obtain ⟨r, hr, hr'⟩ := h (Nat.le_of_succ_le_succ hn) hmore.choice us hus
  have hop : (peek r).bind assignOp? = none := bind_peek_of_notNext hmore hr' fun t ht =>
    eq_none_of_isSome (Bool.or_eq_false_iff.mp ht).2
  refine ⟨r, ?_, hr'⟩
  rw [assignment_succ, hr, ok_bind]
  simp only [hop]

/-- The parser of expressions starts with enough depth. -/
theorem StandsFrom.parseExpr (h : StandsFrom Parser.assignment extendsExpr k ts e)
    (hk : k ≤ 12 * ts.length + 12) : Stands Stencil.parseExpr extendsExpr ts e := by
  intro more hmore us hus
  refine h (Nat.le_trans hk ?_) hmore us hus
  have hlength := congrArg List.length hus
  rw [List.length_map, List.length_append] at hlength
  rw [depthBound]
  omega

/-- In front of a token that ends it, an expression may need more depth. -/
theorem StandsFrom.parses (h : StandsFrom Parser.assignment extendsExpr k ts e)
    (hk : k ≤ 12 * ts.length + 24) {t : Token} (ht : extendsExpr t = false) :
    Parses Stencil.parseExpr (ts ++ t :: us) e (t :: us) := by
  intro ms hms
  refine h (Nat.le_trans hk ?_) (notNext_cons ht) ms hms
  have hlength := congrArg List.length hms
  simp only [List.length_map, List.length_append, List.length_cons] at hlength
  rw [depthBound]
  omega

/-- So it is with a postfix form that is no cast. -/
theorem parses_operand (h : parsePostfix ls = .ok (e, [])) (hcast : cast? ls = none) {t : Token}
    (ht : extendsExpr t = false) :
    Parses parseExpr (ls.map Lexeme.token ++ t :: us) e (t :: us) := by
  refine ((standsFrom_unary h hcast).binary 0).choice.assignment.parses ?_ ht
  rw [depthBound, List.length_map]
  omega

/-! ### Calls and assignments -/

/-- A call with one argument. -/
theorem standsFrom_call {name : String} (hliteral : wordLiteral? name = none)
    (harray : small name ≠ "array") (h : StandsFrom assignment extendsExpr k ts e)
    (hstart : ts.head? ≠ some (.sign .parenClose)) (hne : ts ≠ []) :
    StandsFrom unary extendsPostfix (k + 5)
      (.word name :: .sign .parenOpen :: (ts ++ [.sign .parenClose])) (.call name [e]) := by
  intro n more hn hmore us hus
  obtain ⟨n, rfl⟩ : ∃ m, n = m + 5 := ⟨n - 5, by omega⟩
  rw [List.cons_append, List.cons_append, List.append_assoc] at hus
  obtain ⟨a, b, us₁, rfl, h₁⟩ := tokens_cons hus
  obtain ⟨c, d, us₂, rfl, h₂⟩ := tokens_cons h₁
  obtain ⟨us₃, h₃, h₃'⟩ := h (Nat.le_of_add_le_add_right hn) (notNext_cons rfl) us₂ h₂
  obtain ⟨us₄, h₄, h₄'⟩ := expect_tokens "`)`" h₃'
  -- the argument is there, and it is the only one
  have hclose : peek us₂ ≠ some (.sign .parenClose) := by
    obtain ⟨t, ts, rfl⟩ := List.exists_cons_of_ne_nil hne
    rw [peek_eq_head?, h₂]
    exact hstart
  have hcomma : peek us₃ ≠ some (.sign .comma) := by
    rw [peek_eq_head?, h₃']
    simp
  refine ⟨us₄, ?_, h₄'⟩
  have hcast : cast? (⟨.word name, a, b⟩ :: ⟨.sign .parenOpen, c, d⟩ :: us₂) = none := rfl
  have hargs : arguments (n + 2) .parenClose us₂ = .ok ([e], us₃) := by
    rw [arguments_succ, if_neg hclose, commas_succ, h₃, ok_bind]
    exact if_neg hcomma
  have hprimary : primary (n + 3) (⟨.word name, a, b⟩ :: ⟨.sign .parenOpen, c, d⟩ :: us₂) =
      .ok (.call name [e], us₄) := by
    rw [primary_succ]
    simp only [peek_cons, Option.bind_some, atom?, List.tail_cons, hliteral, if_true,
      if_neg harray, hargs, ok_bind, h₄]
  rw [unary_succ, hcast, postfixed_succ, hprimary, ok_bind]
  exact postfixes_of_notNext hmore h₄'

/-- A word in front of a closing parenthesis is no place. -/
theorem isPlace_of_word {n : Nat} {ms r : List Lexeme} {word : String}
    (h : postfixed n ms = .ok (e, r)) (hword : peek ms = some (.word word))
    (hclose : peek ms.tail = some (.sign .parenClose)) : e.isPlace = false := by
  match n, h with
  | 0, h => cases h
  | 1, h => cases h
  | n + 2, h =>
    -- no postfix form starts with the parenthesis
    have hrest : ∀ base : Expr, postfixes (n + 1) base ms.tail = .ok (base, ms.tail) := by
      intro base
      rw [postfixes_succ, hclose]
    rw [postfixed_succ, primary_succ, hword] at h
    simp only [Option.bind_some, atom?, hclose, Option.some.injEq, Token.sign.injEq, reduceCtorEq,
      if_false] at h
    cases hw : wordLiteral? word with
    | some value =>
      rw [hw] at h
      simp only [ok_bind, hrest] at h
      cases h
      rfl
    | none =>
      rw [hw] at h
      simp only [ok_bind, hrest] at h
      cases h
      rfl

/-- An assignment in parentheses. -/
theorem standsFrom_assign {target value : Expr}
    (ht : StandsFrom postfixed extendsPostfix k ts target)
    (hu : StandsFrom unary extendsPostfix (k + 1) ts target) (hplace : target.isPlace = true)
    (hv : StandsFrom assignment extendsExpr l vs value) :
    StandsFrom unary extendsPostfix (max k l + 9)
      (.sign .parenOpen :: (ts ++ .sign .assign :: (vs ++ [.sign .parenClose])))
      (.assign .set target value) := by
  intro n more hn hmore us hus
  obtain ⟨n, rfl⟩ : ∃ m, n = m + 9 := ⟨n - 9, by omega⟩
  simp only [List.cons_append, List.append_assoc, List.nil_append] at hus
  obtain ⟨a, b, us₁, rfl, h₁⟩ := tokens_cons hus
  -- a cast would be a word in parentheses, and a word is no place
  have hcast : cast? (⟨.sign .parenOpen, a, b⟩ :: us₁) = none := by
    obtain ⟨r, hr, -⟩ := ht (n := n + 1 + k) (by omega) (notNext_cons rfl) us₁ h₁
    rw [cast?_eq]
    simp only [peek_cons, List.tail_cons, if_true]
    split
    next w hw =>
      refine if_neg fun hclose => ?_
      rw [isPlace_of_word hr hw hclose] at hplace
      cases hplace
    next => rfl
  have hchoice := ((hu.binary 0).choice) (n := n + 5) (by omega) (notNext_cons rfl) us₁ h₁
  obtain ⟨us₂, h₂, h₂'⟩ := hchoice
  obtain ⟨us₃, h₃, h₃'⟩ := expect_tokens "`=`" h₂'
  obtain ⟨hpeek, rfl⟩ := expect_eq_ok.mp h₃
  obtain ⟨us₄, h₄, h₄'⟩ := hv (n := n + 5) (by omega) (notNext_cons rfl) us₂.tail h₃'
  obtain ⟨us₅, h₅, h₅'⟩ := expect_tokens "`)`" h₄'
  have hassign : assignment (n + 6) us₁ = .ok (.assign .set target value, us₄) := by
    rw [assignment_succ, h₂, ok_bind]
    simp only [hpeek, Option.bind_some, assignOp?, hplace, if_true, h₄, ok_bind]
  refine ⟨us₅, ?_, h₅'⟩
  rw [unary_succ, hcast]
  have hprimary : primary (n + 7) (⟨.sign .parenOpen, a, b⟩ :: us₁) =
      .ok (.assign .set target value, us₅) := by
    rw [primary_succ]
    simp only [peek_cons, Option.bind_some, atom?, List.tail_cons, hassign, ok_bind, h₅]
  simp only [peek_cons, Option.bind_some, prefixed?, postfixed_succ, hprimary, ok_bind]
  exact postfixes_of_notNext hmore h₅'

/-! ### The expressions of loops -/

/-- The assignment that a loop repeats. -/
theorem stands_assign {ms : List Lexeme} {value : Expr} (h : parsePostfix ls = .ok (e, []))
    (hcast : cast? ls = none) (hplace : e.isPlace = true)
    (hv : parseExpr ms = .ok (value, [])) :
    Stands parseExpr extendsExpr (.sign .parenOpen :: (ls.map Lexeme.token ++ .sign .assign ::
      (ms.map Lexeme.token ++ [.sign .parenClose]))) (.assign .set e value) := by
  have hassign := standsFrom_assign (standsFrom_postfixed h) (standsFrom_unary h hcast) hplace
    (standsFrom_assignment hv)
  refine (hassign.binary 0).choice.assignment.parseExpr ?_
  simp only [depthBound, List.length_append, List.length_cons, List.length_map]
  omega

end Stencil.Parser
