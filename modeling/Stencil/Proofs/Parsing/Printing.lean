import Stencil.Proofs.Parsing.Operands

/-!
# Printing expressions

An expression is printed with parentheses around an operand only where the operand binds less
tightly than its place requires.  The levels, from loosest to tightest, are assignments, choices,
the binary operators by precedence, operators before an operand, increments after a place, and the
other postfix forms together with primaries.  The parser takes a printed expression back level by
level: what is printed for a level is parsed at that level and at every looser one.

## Main definitions

* `Expr.level` — how tightly an expression binds.
* `Expr.tokens` — the tokens of a printed expression, and `within`, those of an operand.
* `Expr.Printable` — the expressions that have a spelling.
* `At l ts e` — at the level `l`, the parser takes the tokens for the expression.

## Main results

* `At.of_le` — what is parsed at a level is parsed at the looser ones.
* `Expr.at_level` — a printed expression is parsed at its level.
* `Expr.stands_tokens` — the tokens of an expression stand for it.
-/

namespace Stencil

/-! ### Operators -/

/-- The sign of an operator between two operands. -/
def BinaryOp.sign : BinaryOp → Sign
  | or => .or
  | and => .and
  | equal => .equal
  | notEqual => .notEqual
  | identical => .identical
  | notIdentical => .notIdentical
  | less => .less
  | lessEqual => .lessEqual
  | greater => .greater
  | greaterEqual => .greaterEqual
  | add => .plus
  | subtract => .minus
  | concat => .dot
  | multiply => .times
  | divide => .divide
  | modulo => .percent

/-- The precedence of an operator between two operands, from `||` to `* / %`. -/
def BinaryOp.precedence : BinaryOp → Nat
  | or => 1
  | and => 2
  | equal | notEqual | identical | notIdentical => 3
  | less | lessEqual | greater | greaterEqual => 4
  | concat => 5
  | add | subtract => 6
  | multiply | divide | modulo => 7

/-- The sign of an operator before an operand. -/
def UnaryOp.sign : UnaryOp → Sign
  | not => .not
  | negate => .minus
  | plus => .plus

/-- The sign of an assignment. -/
def AssignOp.sign : AssignOp → Sign
  | set => .assign
  | add => .plusAssign
  | subtract => .minusAssign
  | multiply => .timesAssign
  | divide => .divideAssign
  | concat => .dotAssign

/-- The sign of an increment or a decrement. -/
def stepSign (up : Bool) : Sign := if up then .increment else .decrement

/-! ### Printing -/

/-- How tightly an expression binds: 0 for assignments, 1 for choices, 2 to 8 for the binary
operators, 9 for operators before an operand, 10 for an increment after a place, and 11 for the
other postfix forms and for primaries. -/
def Expr.level : Expr → Nat
  | assign _ _ _ => 0
  | choice _ _ _ | fallback _ _ => 1
  | binary op _ _ => op.precedence + 1
  | unary _ _ => 9
  | step _ _ before => if before then 9 else 10
  | _ => 11

/-- An operand in a place for the level `least` and the tighter ones, in parentheses if it binds
less tightly. -/
def within (least level : Nat) (ts : List Token) : List Token :=
  if least ≤ level then ts else .sign .parenOpen :: (ts ++ [.sign .parenClose])

/-- The token of a literal. -/
def Value.tokens : Value → List Token
  | null => [.word "null"]
  | bool true => [.word "true"]
  | bool false => [.word "false"]
  | int i => [.int i]
  | float x => [.float x]
  | string s => [.string s]
  | list _ | map _ => []

mutual

/-- The tokens of a printed expression. -/
def Expr.tokens : Expr → List Token
  | .literal value => value.tokens
  | .var name => [.var name]
  | .const name => [.word name]
  | .member base name => within 11 base.level base.tokens ++ [.sign .arrow, .word name]
  | .index base key =>
    within 11 base.level base.tokens ++
      .sign .bracketOpen :: (key.tokens ++ [.sign .bracketClose])
  | .append base =>
    within 11 base.level base.tokens ++ [.sign .bracketOpen, .sign .bracketClose]
  | .call name args =>
    .word name :: .sign .parenOpen :: (listTokens args ++ [.sign .parenClose])
  | .method target name args =>
    within 11 target.level target.tokens ++ .sign .arrow :: .word name :: .sign .parenOpen ::
      (listTokens args ++ [.sign .parenClose])
  | .array items => .sign .bracketOpen :: (itemTokens items ++ [.sign .bracketClose])
  | .unary op operand => .sign op.sign :: within 9 operand.level operand.tokens
  | .binary op left right =>
    within (op.precedence + 1) left.level left.tokens ++
      .sign op.sign :: within (op.precedence + 2) right.level right.tokens
  | .assign op target value => target.tokens ++ .sign op.sign :: value.tokens
  | .step target up true => .sign (stepSign up) :: target.tokens
  | .step target up false => target.tokens ++ [.sign (stepSign up)]
  | .choice cond yes no =>
    within 2 cond.level cond.tokens ++ .sign .question :: (yes.tokens ++ .sign .colon ::
      within 1 no.level no.tokens)
  | .fallback cond no =>
    within 2 cond.level cond.tokens ++ .sign .question :: .sign .colon ::
      within 1 no.level no.tokens

/-- The tokens of expressions separated by commas. -/
def listTokens : List Expr → List Token
  | [] => []
  | e :: es => e.tokens ++ moreTokens es

/-- The tokens of the expressions behind the first one. -/
def moreTokens : List Expr → List Token
  | [] => []
  | e :: es => .sign .comma :: (e.tokens ++ moreTokens es)

/-- The tokens of an item of an array literal. -/
def Item.tokens : Item → List Token
  | .plain value => value.tokens
  | .keyed key value => key.tokens ++ .sign .fatArrow :: value.tokens

/-- The tokens of the items of an array literal. -/
def itemTokens : List Item → List Token
  | [] => []
  | item :: items => item.tokens ++ moreItemTokens items

/-- The tokens of the items behind the first one. -/
def moreItemTokens : List Item → List Token
  | [] => []
  | item :: items => .sign .comma :: (item.tokens ++ moreItemTokens items)

end

/-! ### Expressions with a spelling -/

/-- The words that the parser reads in a way of their own. -/
def reservedWords : List String := ["true", "false", "null", "array", "and", "or"]

/-- Whether the word is reserved, in any case, or names a cast. -/
def isReserved (name : String) : Bool :=
  Parser.small name ∈ reservedWords || (Parser.castFunction? name).isSome

/-- A name: a letter or an underscore, and letters, digits and underscores after it. -/
def IsName (w : List Char) : Prop := w ≠ [] ∧ nameAt w = w

/-- A name, or several of them joined by double colons. -/
inductive IsQualified : List Char → Prop where
  /-- A single name. -/
  | name {w : List Char} (h : IsName w) : IsQualified w
  /-- A name in front of the others. -/
  | more {w v : List Char} (h : IsName w) (hv : IsQualified v) : IsQualified (w ++ ':' :: ':' :: v)

/-- The literals that are printed: null, truth values, strings, and integers that are not
negative. -/
def Value.Printable : Value → Prop
  | null | bool _ | string _ => True
  | int i => 0 ≤ i.toInt
  | float _ | list _ | map _ => False

mutual

/-- The expressions that have a spelling. -/
def Expr.Printable : Expr → Prop
  | .literal value => value.Printable
  | .var name => IsName name.toList
  | .const name => IsQualified name.toList ∧ isReserved name = false
  | .member base name => base.Printable ∧ IsQualified name.toList
  | .index base key => base.Printable ∧ key.Printable
  | .append base => base.Printable
  | .call name args => IsQualified name.toList ∧ isReserved name = false ∧ AllPrintable args
  | .method target name args => target.Printable ∧ IsQualified name.toList ∧ AllPrintable args
  | .array items => AllItemsPrintable items
  | .unary _ operand => operand.Printable
  | .binary _ left right => left.Printable ∧ right.Printable
  | .assign _ target value => target.isPlace = true ∧ target.Printable ∧ value.Printable
  | .step target _ _ => target.isPlace = true ∧ target.Printable
  | .choice cond yes no => cond.Printable ∧ yes.Printable ∧ no.Printable
  | .fallback cond no => cond.Printable ∧ no.Printable

/-- All of the expressions have a spelling. -/
def AllPrintable : List Expr → Prop
  | [] => True
  | e :: es => e.Printable ∧ AllPrintable es

/-- The item of an array literal has a spelling. -/
def Item.Printable : Item → Prop
  | .plain value => value.Printable
  | .keyed key value => key.Printable ∧ value.Printable

/-- All of the items have a spelling. -/
def AllItemsPrintable : List Item → Prop
  | [] => True
  | item :: items => item.Printable ∧ AllItemsPrintable items

end

namespace Parser

variable {ts us vs : List Token} {e : Expr} {l n q : Nat} {p : Token → Bool}

theorem binaryOp?_sign (op : BinaryOp) : binaryOp? (.sign op.sign) = some (op, op.precedence) := by
  cases op <;> rfl

theorem assignOp?_sign (op : AssignOp) : assignOp? (.sign op.sign) = some op := by
  cases op <;> rfl

theorem prefixed?_sign (op : UnaryOp) :
    prefixed? (.sign op.sign) = some fun e => some (.unary op e) := by
  cases op <;> rfl

/-! ### Levels of the parser -/

/-- The tokens that go on with operands joined by operators of precedence `q`. -/
def extendsAbove (q : Nat) (t : Token) : Bool :=
  extendsPostfix t || (binaryOp? t).any fun x => decide (q < x.2)

theorem extendsAbove_mono {t : Token} (hq : q ≤ l) (h : extendsAbove q t = false) :
    extendsAbove l t = false := by
  unfold extendsAbove at h ⊢
  rw [Bool.or_eq_false_iff] at h ⊢
  refine ⟨h.1, ?_⟩
  cases hop : binaryOp? t with
  | none => rfl
  | some x =>
    rw [hop, Option.any_some, decide_eq_false_iff_not] at h
    rw [Option.any_some, decide_eq_false_iff_not]
    omega

/-- What goes on with no operator goes on with none of a precedence. -/
theorem NotNext.above (h : NotNext extendsBinary us) : NotNext (extendsAbove q) us :=
  h.mono fun t ht => by
    rw [extendsBinary, Bool.or_eq_false_iff, Option.isSome_eq_false_iff,
      Option.isNone_iff_eq_none] at ht
    rw [extendsAbove, ht.1, ht.2]
    rfl

/-- An expression starts with the tokens, which open no cast. -/
structure Leads (p : Token → Bool) (ts : List Token) : Prop where
  /-- The first token is one that an expression starts with, and no cast is to its type. -/
  starts : ∃ t rest, ts = t :: rest ∧ p t = true ∧ ∀ w, t = .word w → castFunction? w = none
  /-- Whatever follows, the tokens are no cast. -/
  noCast : ∀ ⦃us : List Lexeme⦄ ⦃more⦄, us.map Lexeme.token = ts ++ more → cast? us = none

/-- The tokens are taken for the expression, and postfix forms may follow. -/
def OpensPostfix (ts : List Token) (e : Expr) : Prop :=
  ∀ ⦃n more⦄ ⦃us : List Lexeme⦄, 12 * ts.length ≤ n → NotNext (· == .sign .parenOpen) more →
    us.map Lexeme.token = ts ++ more → ∃ m r, n ≤ m + ts.length ∧ r.map Lexeme.token = more ∧
      postfixed n us = postfixes m e r

/-- The tokens are taken for the expression, and operators of at most the precedence `q` may
follow. -/
def OpensBinary (q : Nat) (ts : List Token) (e : Expr) : Prop :=
  ∀ ⦃n more least⦄ ⦃us : List Lexeme⦄, 12 * ts.length + 2 ≤ n → least ≤ q →
    NotNext (extendsAbove q) more → us.map Lexeme.token = ts ++ more →
      ∃ m r, n ≤ m + ts.length ∧ r.map Lexeme.token = more ∧
        binary n least us = operators m least e r

/-- At the level `l`, the parser takes the tokens for the expression. -/
def At : Nat → List Token → Expr → Prop
  | 0, ts, e => Leads startsExpr ts ∧ StandsFrom assignment extendsExpr (12 * ts.length + 4) ts e
  | 1, ts, e => Leads startsExpr ts ∧ StandsFrom choice extendsExpr (12 * ts.length + 3) ts e
  | 9, ts, e => Leads startsExpr ts ∧ StandsFrom unary extendsPostfix (12 * ts.length + 1) ts e
  | 10, ts, e => Leads startsPrimary ts ∧ StandsFrom postfixed extendsPostfix (12 * ts.length) ts e
  | 11, ts, e => Leads startsPrimary ts ∧ OpensPostfix ts e
  | q + 1, ts, e => Leads startsExpr ts ∧ OpensBinary q ts e

theorem Leads.length_pos (h : Leads p ts) : 0 < ts.length := by
  obtain ⟨t, rest, rfl, -⟩ := h.starts
  exact Nat.succ_pos _

theorem Leads.append (h : Leads p ts) (vs : List Token) : Leads p (ts ++ vs) where
  starts := by
    obtain ⟨t, rest, rfl, ht⟩ := h.starts
    exact ⟨t, rest ++ vs, rfl, ht⟩
  noCast us more hus := by
    rw [List.append_assoc] at hus
    exact h.noCast hus

theorem Leads.expr (h : Leads startsPrimary ts) : Leads startsExpr ts where
  starts := by
    obtain ⟨t, rest, rfl, ht, hw⟩ := h.starts
    exact ⟨t, rest, rfl, by rw [startsExpr, ht, Bool.or_true], hw⟩
  noCast := h.noCast

/-- Only a parenthesis opens a cast. -/
theorem leads_cons {t : Token} (ht : p t = true) (hp : t ≠ .sign .parenOpen)
    (hw : ∀ w, t = .word w → castFunction? w = none) : Leads p (t :: ts) where
  starts := ⟨t, ts, rfl, ht, hw⟩
  noCast us more hus := by
    rw [cast?_eq, peek_eq_head?, hus, List.cons_append, List.head?_cons, if_neg]
    intro h
    exact hp (Option.some.inj h)

theorem leads_sign {s : Sign} (ht : p (.sign s) = true) (hs : s ≠ .parenOpen) :
    Leads p (.sign s :: ts) := by
  refine leads_cons ht ?_ ?_
  · rintro ⟨⟩
    exact hs rfl
  · rintro w ⟨⟩

/-- An expression in parentheses is a cast only if it is a word. -/
theorem Leads.paren (h : Leads startsExpr ts) :
    Leads startsPrimary (.sign .parenOpen :: (ts ++ [.sign .parenClose])) where
  starts := ⟨_, _, rfl, rfl, by rintro w ⟨⟩⟩
  noCast us more hus := by
    obtain ⟨t, rest, rfl, -, hw⟩ := h.starts
    simp only [List.cons_append] at hus
    obtain ⟨a, b, us₁, rfl, h₁⟩ := tokens_cons hus
    obtain ⟨c, d, us₂, rfl, h₂⟩ := tokens_cons h₁
    rw [cast?_eq, peek_cons, List.tail_cons, peek_cons, if_pos rfl]
    split
    next w heq =>
      rw [hw w (Option.some.inj heq), Option.map_none, ite_self]
    next => rfl

/-! ### From a level to the looser ones -/

theorem StandsFrom.mono {α : Type} {f : Nat → List Lexeme → Parse (α × List Lexeme)}
    {p q : Token → Bool} {k k' : Nat} {a : α} (h : StandsFrom f p k ts a) (hk : k ≤ k')
    (hpq : ∀ t, q t = false → p t = false) : StandsFrom f q k' ts a :=
  fun _ _ hn hmore => h (Nat.le_trans hk hn) (hmore.mono hpq)

theorem OpensPostfix.standsFrom (h : OpensPostfix ts e) (hts : 0 < ts.length) :
    StandsFrom postfixed extendsPostfix (12 * ts.length) ts e := by
  intro n more hn hmore us hus
  have hparen : NotNext (· == .sign .parenOpen) more := by
    refine hmore.mono fun t ht => ?_
    rw [beq_eq_false_iff_ne]
    rintro rfl
    cases ht
  obtain ⟨m, r, hm, hr, heq⟩ := h hn hparen hus
  obtain ⟨m, rfl⟩ : ∃ k, m = k + 1 := ⟨m - 1, by omega⟩
  exact ⟨r, by rw [heq, postfixes_of_notNext hmore hr], hr⟩

theorem standsFrom_unary_of_postfixed (hl : Leads startsPrimary ts)
    (h : StandsFrom postfixed extendsPostfix (12 * ts.length) ts e) :
    StandsFrom unary extendsPostfix (12 * ts.length + 1) ts e := by
  intro n more hn hmore us hus
  obtain ⟨n, rfl⟩ : ∃ m, n = m + 1 := ⟨n - 1, by omega⟩
  obtain ⟨r, hr, hr'⟩ := h (Nat.le_of_succ_le_succ hn) hmore us hus
  obtain ⟨t, rest, rfl, ht, -⟩ := hl.starts
  refine ⟨r, ?_, hr'⟩
  have hpeek : peek us = some t := by rw [peek_eq_head?, hus]; rfl
  rw [unary_succ, hpeek, Option.bind_some, prefixed?_of_startsPrimary ht, hl.noCast hus]
  exact hr

theorem notNext_postfix_of_above (h : NotNext (extendsAbove q) us) : NotNext extendsPostfix us :=
  h.mono fun _ ht => (Bool.or_eq_false_iff.mp ht).1

theorem opensBinary_of_unary (hts : 0 < ts.length)
    (h : StandsFrom unary extendsPostfix (12 * ts.length + 1) ts e) (q : Nat) :
    OpensBinary q ts e := by
  intro n more least us hn _ hmore hus
  obtain ⟨n, rfl⟩ : ∃ m, n = m + 1 := ⟨n - 1, by omega⟩
  obtain ⟨r, hr, hr'⟩ := h (Nat.le_of_succ_le_succ hn) (notNext_postfix_of_above hmore) us hus
  exact ⟨n, r, by omega, hr', by rw [binary_succ, hr, ok_bind]⟩

theorem OpensBinary.of_le (h : OpensBinary q ts e) (hl : l ≤ q) : OpensBinary l ts e := by
  intro n more least us hn hleast hmore hus
  exact h hn (Nat.le_trans hleast hl) (hmore.mono fun t ht => extendsAbove_mono hl ht) hus

/-- Operands joined by operators, up to a token that goes on with none of them. -/
theorem OpensBinary.parses {least : Nat} {more : List Token} {us : List Lexeme}
    (h : OpensBinary q ts e) (hn : 12 * ts.length + 2 ≤ n) (hleast : least ≤ q)
    (hmore : NotNext (extendsAbove q) more) (hend : ∀ t op, more.head? = some t →
      binaryOp? t = some op → op.2 < least) (hus : us.map Lexeme.token = ts ++ more) :
    ∃ r, binary n least us = .ok (e, r) ∧ r.map Lexeme.token = more := by
  obtain ⟨m, r, hm, hr, heq⟩ := h hn hleast hmore hus
  obtain ⟨m, rfl⟩ : ∃ k, m = k + 1 := ⟨m - 1, by omega⟩
  refine ⟨r, ?_, hr⟩
  rw [heq, operators_succ]
  cases hop : (peek r).bind binaryOp? with
  | none => rfl
  | some op =>
    obtain ⟨t, ht, hop⟩ := Option.bind_eq_some_iff.mp hop
    rw [peek_eq_head?, hr] at ht
    exact if_pos (hend t op ht hop)

/-- The condition of a choice, or all of it. -/
theorem OpensBinary.standsFrom (h : OpensBinary q ts e) :
    StandsFrom (fun n => binary n 0) extendsBinary (12 * ts.length + 2) ts e := by
  intro n more hn hmore us hus
  refine h.parses hn (Nat.zero_le q) hmore.above ?_ hus
  intro t op ht hop
  have hnot := (Bool.or_eq_false_iff.mp (hmore t ht)).2
  rw [hop] at hnot
  cases hnot

theorem standsFrom_assignment_of_choice
    (h : StandsFrom Parser.choice extendsExpr (12 * ts.length + 3) ts e) :
    StandsFrom Parser.assignment extendsExpr (12 * ts.length + 4) ts e := by
  intro n more hn hmore us hus
  obtain ⟨n, rfl⟩ : ∃ m, n = m + 1 := ⟨n - 1, by omega⟩
  obtain ⟨r, hr, hr'⟩ := h (Nat.le_of_succ_le_succ hn) hmore us hus
  have hop : (peek r).bind assignOp? = none := bind_peek_of_notNext hmore hr' fun t ht =>
    eq_none_of_isSome (Bool.or_eq_false_iff.mp ht).2
  refine ⟨r, ?_, hr'⟩
  rw [assignment_succ, hr, ok_bind]
  simp only [hop]

/-- What is parsed at a level is parsed at the next looser one. -/
theorem At.succ (h : At (l + 1) ts e) (hl : l < 11) : At l ts e := by
  match l, hl, h with
  | 0, _, h => exact ⟨h.1, standsFrom_assignment_of_choice h.2⟩
  | 1, _, h =>
    have hbinary : OpensBinary 1 ts e := h.2
    refine ⟨h.1, StandsFrom.mono hbinary.standsFrom.choice (Nat.le_refl _) fun t ht => ?_⟩
    exact (Bool.or_eq_false_iff.mp ht).1
  | 2, _, h => exact ⟨h.1, OpensBinary.of_le (q := 2) h.2 (by decide)⟩
  | 3, _, h => exact ⟨h.1, OpensBinary.of_le (q := 3) h.2 (by decide)⟩
  | 4, _, h => exact ⟨h.1, OpensBinary.of_le (q := 4) h.2 (by decide)⟩
  | 5, _, h => exact ⟨h.1, OpensBinary.of_le (q := 5) h.2 (by decide)⟩
  | 6, _, h => exact ⟨h.1, OpensBinary.of_le (q := 6) h.2 (by decide)⟩
  | 7, _, h => exact ⟨h.1, OpensBinary.of_le (q := 7) h.2 (by decide)⟩
  | 8, _, h => exact ⟨h.1, opensBinary_of_unary h.1.length_pos h.2 7⟩
  | 9, _, h => exact ⟨h.1.expr, standsFrom_unary_of_postfixed h.1 h.2⟩
  | 10, _, h => exact ⟨h.1, OpensPostfix.standsFrom h.2 h.1.length_pos⟩

/-- What is parsed at a level is parsed at the looser ones. -/
theorem At.of_le {m : Nat} (h : At m ts e) (hm : m ≤ 11) (hl : l ≤ m) : At l ts e := by
  induction m with
  | zero =>
    obtain rfl := Nat.le_zero.mp hl
    exact h
  | succ m ih =>
    rcases Nat.lt_or_eq_of_le hl with hl | rfl
    · exact ih (h.succ hm) (Nat.le_of_succ_le hm) (Nat.le_of_lt_succ hl)
    · exact h

/-! ### Primaries -/

/-- A primary in front of postfix forms. -/
theorem opensPostfix_of_primary (hts : 0 < ts.length)
    (h : StandsFrom primary (· == .sign .parenOpen) (12 * ts.length - 1) ts e) :
    OpensPostfix ts e := by
  intro n more us hn hmore hus
  obtain ⟨n, rfl⟩ : ∃ m, n = m + 1 := ⟨n - 1, by omega⟩
  obtain ⟨r, hr, hr'⟩ := h (Nat.sub_le_of_le_add hn) hmore us hus
  exact ⟨n, r, by omega, hr', by rw [postfixed_succ, hr, ok_bind]⟩

/-- An expression in parentheses. -/
theorem At.paren (h : At 0 ts e) : At 11 (.sign .parenOpen :: (ts ++ [.sign .parenClose])) e := by
  refine ⟨h.1.paren, opensPostfix_of_primary (Nat.succ_pos _) ?_⟩
  intro n more hn _ us hus
  simp only [List.length_cons, List.length_append, List.length_nil] at hn
  obtain ⟨n, rfl⟩ : ∃ m, n = m + 1 := ⟨n - 1, by omega⟩
  rw [List.cons_append, List.append_assoc] at hus
  obtain ⟨a, b, us₁, rfl, h₁⟩ := tokens_cons hus
  obtain ⟨us₂, h₂, h₂'⟩ := h.2 (n := n) (by omega) (notNext_cons rfl) us₁ h₁
  obtain ⟨us₃, h₃, h₃'⟩ := expect_tokens "`)`" h₂'
  refine ⟨us₃, ?_, h₃'⟩
  rw [primary_succ]
  simp only [peek_cons, Option.bind_some, atom?, List.tail_cons, h₂, ok_bind, h₃]

/-- **An operand** in a place for a level is parsed there, whether it needs parentheses or not. -/
theorem At.within {m : Nat} (h : At m ts e) (hm : m ≤ 11) (hl : l ≤ 11) :
    At l (within l m ts) e := by
  unfold Stencil.within
  split
  next hle => exact h.of_le hm hle
  next => exact (h.of_le hm (Nat.zero_le m)).paren.of_le (Nat.le_refl _) hl

/-- A literal or variable that is one token. -/
theorem at_atom {t : Token} (h : atom? t = some e) : At 11 [t] e := by
  have hne : t ≠ .sign .parenOpen := by
    rintro rfl
    cases h
  have hword : ∀ w, t = .word w → castFunction? w = none := by
    rintro w rfl
    cases h
  have hstarts : startsPrimary t = true := by
    cases t with
    | sign s => cases h
    | word w => cases h
    | _ => first | rfl | cases h
  refine ⟨leads_cons hstarts hne hword, opensPostfix_of_primary Nat.one_pos ?_⟩
  intro n more hn _ us hus
  obtain ⟨n, rfl⟩ : ∃ m, n = m + 1 := ⟨n - 1, by simp only [List.length_singleton] at hn; omega⟩
  obtain ⟨a, b, us₁, rfl, h₁⟩ := tokens_cons hus
  refine ⟨us₁, ?_, h₁⟩
  rw [primary_succ, peek_cons, Option.bind_some, h]
  rfl

/-- What a word that is not reserved is not. -/
theorem not_special {name : String} (h : isReserved name = false) :
    wordLiteral? name = none ∧ small name ≠ "array" ∧ castFunction? name = none := by
  rw [isReserved, Bool.or_eq_false_iff, decide_eq_false_iff_not, Option.isSome_eq_false_iff,
    Option.isNone_iff_eq_none] at h
  simp only [reservedWords, List.mem_cons, List.not_mem_nil, or_false, not_or] at h
  refine ⟨?_, h.1.2.2.2.1, h.2⟩
  rw [wordLiteral?, if_neg h.1.1, if_neg h.1.2.1, if_neg h.1.2.2.1]

/-- A word that stands for a literal. -/
theorem at_wordLiteral {name : String} {value : Value} (h : wordLiteral? name = some value)
    (hcast : castFunction? name = none) : At 11 [.word name] (.literal value) := by
  refine ⟨leads_cons rfl (by simp) ?_, opensPostfix_of_primary Nat.one_pos ?_⟩
  · rintro w ⟨⟩
    exact hcast
  · intro n more hn _ us hus
    obtain ⟨n, rfl⟩ : ∃ m, n = m + 1 :=
      ⟨n - 1, by simp only [List.length_singleton] at hn; omega⟩
    obtain ⟨a, b, us₁, rfl, h₁⟩ := tokens_cons hus
    refine ⟨us₁, ?_, h₁⟩
    rw [primary_succ]
    simp only [peek_cons, Option.bind_some, atom?, h, List.tail_cons]

/-- A constant. -/
theorem at_const {name : String} (h : isReserved name = false) :
    At 11 [.word name] (.const name) := by
  obtain ⟨hliteral, -, hcast⟩ := not_special h
  refine ⟨leads_cons rfl (by simp) ?_, opensPostfix_of_primary Nat.one_pos ?_⟩
  · rintro w ⟨⟩
    exact hcast
  · intro n more hn hmore us hus
    obtain ⟨n, rfl⟩ : ∃ m, n = m + 1 :=
      ⟨n - 1, by simp only [List.length_singleton] at hn; omega⟩
    obtain ⟨a, b, us₁, rfl, h₁⟩ := tokens_cons hus
    -- with a parenthesis after it, the constant would be a call
    have hcall : peek us₁ ≠ some (.sign .parenOpen) := by
      rw [peek_eq_head?, h₁]
      intro ht
      exact absurd (hmore _ ht) (by decide)
    refine ⟨us₁, ?_, h₁⟩
    rw [primary_succ]
    simp only [peek_cons, Option.bind_some, atom?, hliteral, List.tail_cons]
    exact if_neg hcall

theorem at_literal {value : Value} (h : value.Printable) :
    At 11 value.tokens (.literal value) := by
  cases value with
  | null => exact at_wordLiteral rfl rfl
  | bool b =>
    cases b with
    | true => exact at_wordLiteral rfl rfl
    | false => exact at_wordLiteral rfl rfl
  | int i => exact at_atom rfl
  | string s => exact at_atom rfl
  | float x => exact absurd h id
  | list vs => exact absurd h id
  | map vs => exact absurd h id

/-! ### Lists -/

/-- No list ends before an expression. -/
theorem Leads.peek_ne (h : Leads startsExpr ts) {us : List Lexeme} {more : List Token}
    (hus : us.map Lexeme.token = ts ++ more) {t : Token} (ht : startsExpr t = false) :
    peek us ≠ some t := by
  obtain ⟨u, rest, rfl, hu, -⟩ := h.starts
  rw [peek_eq_head?, hus, List.cons_append, List.head?_cons]
  rintro ⟨⟩
  rw [ht] at hu
  cases hu

/-- The tokens of expressions separated by commas, up to a token that ends them. -/
def TakesList (ts : List Token) (es : List Expr) : Prop :=
  StandsFrom commas extendsList (12 * ts.length + 5) ts es

/-- The tokens of the arguments of a call, up to the closing parenthesis. -/
def TakesArgs (ts : List Token) (es : List Expr) : Prop :=
  ∀ ⦃n more⦄, 12 * ts.length + 6 ≤ n →
    Parses (arguments n .parenClose) (ts ++ .sign .parenClose :: more) es
      (.sign .parenClose :: more)

/-- The tokens that go on with an item of an array literal. -/
def extendsItem (t : Token) : Bool := extendsExpr t || t == .sign .fatArrow

/-- The tokens of an item of an array literal. -/
def TakesItem (ts : List Token) (item : Item) : Prop :=
  Leads startsExpr ts ∧ StandsFrom (fun n us => assignment n us >>= fun x => itemAfter n x.1 x.2)
    extendsItem (12 * ts.length + 4) ts item

/-- The tokens of the items of an array literal, up to the closing bracket. -/
def TakesItems (ts : List Token) (items : List Item) : Prop :=
  ∀ ⦃n more⦄, 12 * ts.length + 6 ≤ n →
    Parses (arrayItems n .bracketClose) (ts ++ .sign .bracketClose :: more) items
      (.sign .bracketClose :: more)

theorem takesList_one (h : At 0 ts e) : TakesList ts [e] := by
  intro n more hn hmore us hus
  obtain ⟨n, rfl⟩ : ∃ m, n = m + 1 := ⟨n - 1, by omega⟩
  obtain ⟨r, hr, hr'⟩ := h.2 (n := n) (by omega)
    (hmore.mono fun _ ht => (Bool.or_eq_false_iff.mp ht).1) us hus
  have hcomma : peek r ≠ some (.sign .comma) := by
    rw [peek_eq_head?, hr']
    intro ht
    exact absurd (hmore _ ht) (by decide)
  refine ⟨r, ?_, hr'⟩
  rw [commas_succ, hr, ok_bind, if_neg hcomma]

theorem TakesList.cons {es : List Expr} (h : At 0 ts e) (hes : TakesList us es) :
    TakesList (ts ++ .sign .comma :: us) (e :: es) := by
  intro n more hn hmore ls hls
  simp only [List.length_append, List.length_cons] at hn
  obtain ⟨n, rfl⟩ : ∃ m, n = m + 1 := ⟨n - 1, by omega⟩
  rw [List.append_assoc, List.cons_append] at hls
  obtain ⟨r, hr, hr'⟩ := h.2 (n := n) (by omega) (notNext_cons rfl) ls hls
  obtain ⟨r₁, h₁, h₁'⟩ := expect_tokens "`,`" hr'
  obtain ⟨hcomma, rfl⟩ := expect_eq_ok.mp h₁
  obtain ⟨r₂, h₂, h₂'⟩ := hes (n := n) (by omega) hmore r.tail h₁'
  refine ⟨r₂, ?_, h₂'⟩
  rw [commas_succ, hr, ok_bind, if_pos hcomma, h₂, ok_bind]

theorem takesArgs_nil : TakesArgs [] [] := by
  intro n more hn us hus
  obtain ⟨n, rfl⟩ : ∃ m, n = m + 1 := ⟨n - 1, by omega⟩
  have hclose : peek us = some (.sign .parenClose) := by rw [peek_eq_head?, hus]; rfl
  exact ⟨us, by rw [arguments_succ, if_pos hclose], hus⟩

theorem TakesList.args {es : List Expr} (hl : Leads startsExpr ts) (h : TakesList ts es) :
    TakesArgs ts es := by
  intro n more hn us hus
  obtain ⟨n, rfl⟩ : ∃ m, n = m + 1 := ⟨n - 1, by omega⟩
  obtain ⟨r, hr, hr'⟩ := h (n := n) (by omega) (notNext_cons rfl) us hus
  exact ⟨r, by rw [arguments_succ, if_neg (hl.peek_ne hus rfl), hr], hr'⟩

theorem takesItem_plain (h : At 0 ts e) : TakesItem ts (.plain e) := by
  refine ⟨h.1, ?_⟩
  intro n more hn hmore us hus
  obtain ⟨r, hr, hr'⟩ := h.2 hn (hmore.mono fun _ ht => (Bool.or_eq_false_iff.mp ht).1) us hus
  have harrow : peek r ≠ some (.sign .fatArrow) := by
    rw [peek_eq_head?, hr']
    intro ht
    exact absurd (hmore _ ht) (by decide)
  refine ⟨r, ?_, hr'⟩
  show (assignment n us >>= fun x => itemAfter n x.1 x.2) = _
  rw [hr, ok_bind, itemAfter, if_neg harrow]

theorem takesItem_keyed {key value : Expr} (hk : At 0 ts key) (hv : At 0 us value) :
    TakesItem (ts ++ .sign .fatArrow :: us) (.keyed key value) := by
  refine ⟨hk.1.append _, ?_⟩
  intro n more hn hmore ls hls
  simp only [List.length_append, List.length_cons] at hn
  rw [List.append_assoc, List.cons_append] at hls
  obtain ⟨r, hr, hr'⟩ := hk.2 (n := n) (by omega) (notNext_cons rfl) ls hls
  obtain ⟨r₁, h₁, h₁'⟩ := expect_tokens "`=>`" hr'
  obtain ⟨harrow, rfl⟩ := expect_eq_ok.mp h₁
  obtain ⟨r₂, h₂, h₂'⟩ := hv.2 (n := n) (by omega)
    (hmore.mono fun _ ht => (Bool.or_eq_false_iff.mp ht).1) r.tail h₁'
  refine ⟨r₂, ?_, h₂'⟩
  show (assignment n ls >>= fun x => itemAfter n x.1 x.2) = _
  rw [hr, ok_bind, itemAfter, if_pos harrow, h₂, ok_bind]

theorem takesItems_nil : TakesItems [] [] := by
  intro n more hn us hus
  obtain ⟨n, rfl⟩ : ∃ m, n = m + 1 := ⟨n - 1, by omega⟩
  have hclose : peek us = some (.sign .bracketClose) := by rw [peek_eq_head?, hus]; rfl
  exact ⟨us, by rw [arrayItems_succ, if_pos hclose], hus⟩

theorem takesItems_one {item : Item} (h : TakesItem ts item) : TakesItems ts [item] := by
  intro n more hn us hus
  obtain ⟨n, rfl⟩ : ∃ m, n = m + 1 := ⟨n - 1, by omega⟩
  obtain ⟨r, hr, hr'⟩ := h.2 (n := n) (by omega) (notNext_cons rfl) us hus
  obtain ⟨x, hx, hitem⟩ := bind_eq_ok.mp hr
  have hcomma : peek r ≠ some (.sign .comma) := by
    rw [peek_eq_head?, hr']
    simp
  refine ⟨r, ?_, hr'⟩
  rw [arrayItems_succ, if_neg (h.1.peek_ne hus rfl), hx, ok_bind, hitem, ok_bind, if_neg hcomma]

theorem TakesItems.cons {item : Item} {items : List Item} (h : TakesItem ts item)
    (hitems : TakesItems us items) : TakesItems (ts ++ .sign .comma :: us) (item :: items) := by
  intro n more hn ls hls
  simp only [List.length_append, List.length_cons] at hn
  obtain ⟨n, rfl⟩ : ∃ m, n = m + 1 := ⟨n - 1, by omega⟩
  rw [List.append_assoc, List.cons_append] at hls
  obtain ⟨r, hr, hr'⟩ := h.2 (n := n) (by omega) (notNext_cons rfl) ls hls
  obtain ⟨x, hx, hitem⟩ := bind_eq_ok.mp hr
  obtain ⟨r₁, h₁, h₁'⟩ := expect_tokens "`,`" hr'
  obtain ⟨hcomma, rfl⟩ := expect_eq_ok.mp h₁
  obtain ⟨r₂, h₂, h₂'⟩ := hitems (n := n) (by omega) r.tail h₁'
  refine ⟨r₂, ?_, h₂'⟩
  rw [arrayItems_succ, if_neg (h.1.peek_ne hls rfl), hx, ok_bind, hitem, ok_bind, if_pos hcomma, h₂,
    ok_bind]

/-- A call. -/
theorem at_call {name : String} {args : List Expr} (hname : isReserved name = false)
    (h : TakesArgs ts args) :
    At 11 (.word name :: .sign .parenOpen :: (ts ++ [.sign .parenClose])) (.call name args) := by
  obtain ⟨hliteral, harray, hcast⟩ := not_special hname
  refine ⟨leads_cons rfl (by simp) ?_, opensPostfix_of_primary (Nat.succ_pos _) ?_⟩
  · rintro w ⟨⟩
    exact hcast
  · intro n more hn _ us hus
    simp only [List.length_cons, List.length_append, List.length_nil] at hn
    obtain ⟨n, rfl⟩ : ∃ m, n = m + 1 := ⟨n - 1, by omega⟩
    rw [List.cons_append, List.cons_append, List.append_assoc] at hus
    obtain ⟨a, b, us₁, rfl, h₁⟩ := tokens_cons hus
    obtain ⟨c, d, us₂, rfl, h₂⟩ := tokens_cons h₁
    obtain ⟨us₃, h₃, h₃'⟩ := h (n := n) (by omega) us₂ h₂
    obtain ⟨us₄, h₄, h₄'⟩ := expect_tokens "`)`" h₃'
    refine ⟨us₄, ?_, h₄'⟩
    rw [primary_succ]
    simp only [peek_cons, Option.bind_some, atom?, List.tail_cons, hliteral, if_true,
      if_neg harray, h₃, ok_bind, h₄]

/-- An array literal. -/
theorem at_array {items : List Item} (h : TakesItems ts items) :
    At 11 (.sign .bracketOpen :: (ts ++ [.sign .bracketClose])) (.array items) := by
  refine ⟨leads_sign rfl (by decide), opensPostfix_of_primary (Nat.succ_pos _) ?_⟩
  intro n more hn _ us hus
  simp only [List.length_cons, List.length_append, List.length_nil] at hn
  obtain ⟨n, rfl⟩ : ∃ m, n = m + 1 := ⟨n - 1, by omega⟩
  rw [List.cons_append, List.append_assoc] at hus
  obtain ⟨a, b, us₁, rfl, h₁⟩ := tokens_cons hus
  obtain ⟨us₂, h₂, h₂'⟩ := h (n := n) (by omega) us₁ h₁
  obtain ⟨us₃, h₃, h₃'⟩ := expect_tokens "end of array" h₂'
  refine ⟨us₃, ?_, h₃'⟩
  rw [primary_succ]
  simp only [peek_cons, Option.bind_some, atom?, List.tail_cons, h₂, ok_bind, h₃]

/-! ### Postfix forms -/

/-- One more postfix form: with the depth that is left behind the base, the form is read. -/
theorem At.extend {form : List Token} {base : Expr} (h : At 11 ts base)
    (hform : ∀ more, NotNext (· == .sign .parenOpen) (form ++ more)) (hne : form ≠ [])
    (hstep : ∀ ⦃m more⦄ ⦃us : List Lexeme⦄, 12 * form.length ≤ m →
      NotNext (· == .sign .parenOpen) more → us.map Lexeme.token = form ++ more →
        ∃ r, r.map Lexeme.token = more ∧ postfixes (m + 1) base us = postfixes m e r) :
    At 11 (ts ++ form) e := by
  refine ⟨h.1.append form, ?_⟩
  intro n more us hn hmore hus
  have hpos : 0 < form.length := List.length_pos_iff.mpr hne
  have hbase : 0 < ts.length := h.1.length_pos
  rw [List.length_append] at hn ⊢
  rw [List.append_assoc] at hus
  obtain ⟨m, r, hm, hr, heq⟩ := h.2 (n := n) (by omega) (hform more) hus
  obtain ⟨m, rfl⟩ : ∃ k, m = k + 1 := ⟨m - 1, by omega⟩
  obtain ⟨r', hr', heq'⟩ := hstep (m := m) (by omega) hmore hr
  exact ⟨m, r', by omega, hr', heq.trans heq'⟩

theorem At.member {base : Expr} (h : At 11 ts base) (name : String) :
    At 11 (ts ++ [.sign .arrow, .word name]) (.member base name) := by
  refine h.extend (fun _ => notNext_cons rfl) (by simp) ?_
  intro m more us _ hmore hus
  obtain ⟨a, b, us₁, rfl, h₁⟩ := tokens_cons hus
  obtain ⟨c, d, us₂, rfl, h₂⟩ := tokens_cons h₁
  have hcall : peek us₂ ≠ some (.sign .parenOpen) := by
    rw [peek_eq_head?, h₂]
    intro ht
    exact absurd (hmore _ ht) (by decide)
  refine ⟨us₂, h₂, ?_⟩
  rw [postfixes_succ]
  simp only [peek_cons, List.tail_cons]
  exact if_neg hcall

theorem At.append {base : Expr} (h : At 11 ts base) :
    At 11 (ts ++ [.sign .bracketOpen, .sign .bracketClose]) (.append base) := by
  refine h.extend (fun _ => notNext_cons rfl) (by simp) ?_
  intro m more us _ _ hus
  obtain ⟨a, b, us₁, rfl, h₁⟩ := tokens_cons hus
  obtain ⟨c, d, us₂, rfl, h₂⟩ := tokens_cons h₁
  exact ⟨us₂, h₂, by rw [postfixes_succ]; rfl⟩

theorem At.index {base key : Expr} (h : At 11 ts base) (hk : At 0 us key) :
    At 11 (ts ++ .sign .bracketOpen :: (us ++ [.sign .bracketClose])) (.index base key) := by
  refine h.extend (fun _ => notNext_cons rfl) (by simp) ?_
  intro m more ls hm _ hls
  simp only [List.length_cons, List.length_append, List.length_nil] at hm
  rw [List.cons_append, List.append_assoc] at hls
  obtain ⟨a, b, us₁, rfl, h₁⟩ := tokens_cons hls
  obtain ⟨us₂, h₂, h₂'⟩ := hk.2 (n := m) (by omega) (notNext_cons rfl) us₁ h₁
  obtain ⟨us₃, h₃, h₃'⟩ := expect_tokens "`]`" h₂'
  have hclose : peek us₁ ≠ some (.sign .bracketClose) := hk.1.peek_ne h₁ rfl
  refine ⟨us₃, h₃', ?_⟩
  rw [postfixes_succ]
  simp only [peek_cons, List.tail_cons, h₂, ok_bind, h₃]
  exact if_neg hclose

theorem At.method {target : Expr} {args : List Expr} (h : At 11 ts target) (name : String)
    (ha : TakesArgs us args) :
    At 11 (ts ++ .sign .arrow :: .word name :: .sign .parenOpen :: (us ++ [.sign .parenClose]))
      (.method target name args) := by
  refine h.extend (fun _ => notNext_cons rfl) (by simp) ?_
  intro m more ls hm _ hls
  simp only [List.length_cons, List.length_append, List.length_nil] at hm
  rw [List.cons_append, List.cons_append, List.cons_append, List.append_assoc] at hls
  obtain ⟨a, b, us₁, rfl, h₁⟩ := tokens_cons hls
  obtain ⟨c, d, us₂, rfl, h₂⟩ := tokens_cons h₁
  obtain ⟨c', d', us₃, rfl, h₃⟩ := tokens_cons h₂
  obtain ⟨us₄, h₄, h₄'⟩ := ha (n := m) (by omega) us₃ h₃
  obtain ⟨us₅, h₅, h₅'⟩ := expect_tokens "`)`" h₄'
  refine ⟨us₅, h₅', ?_⟩
  rw [postfixes_succ]
  simp only [peek_cons, List.tail_cons, if_true, h₄, ok_bind, h₅]

/-- An increment after a place ends the postfix forms. -/
theorem At.step {target : Expr} (h : At 11 ts target) (hplace : target.isPlace = true) (up : Bool) :
    At 10 (ts ++ [.sign (stepSign up)]) (.step target up false) := by
  refine ⟨h.1.append _, ?_⟩
  intro n more hn _ us hus
  rw [List.length_append, List.length_singleton] at hn
  rw [List.append_assoc] at hus
  obtain ⟨m, r, hm, hr, heq⟩ := h.2 (n := n) (by omega)
    (notNext_cons (by cases up <;> rfl)) hus
  obtain ⟨m, rfl⟩ : ∃ k, m = k + 1 := ⟨m - 1, by omega⟩
  obtain ⟨a, b, r, rfl, hr'⟩ := tokens_cons hr
  refine ⟨r, ?_, hr'⟩
  rw [heq, postfixes_succ]
  cases up with
  | true => exact if_pos hplace
  | false => exact if_pos hplace

/-! ### Operators -/

theorem At.unary (h : At 9 ts e) (op : UnaryOp) : At 9 (.sign op.sign :: ts) (.unary op e) := by
  refine ⟨leads_sign (by cases op <;> rfl) (by cases op <;> decide), ?_⟩
  intro n more hn hmore us hus
  rw [List.length_cons] at hn
  obtain ⟨n, rfl⟩ : ∃ m, n = m + 1 := ⟨n - 1, by omega⟩
  obtain ⟨a, b, us₁, rfl, h₁⟩ := tokens_cons hus
  obtain ⟨r, hr, hr'⟩ := h.2 (n := n) (by omega) hmore us₁ h₁
  refine ⟨r, ?_, hr'⟩
  rw [unary_succ]
  simp only [peek_cons, Option.bind_some, prefixed?_sign, List.tail_cons, hr, ok_bind]

theorem At.stepBefore (h : At 9 ts e) (hplace : e.isPlace = true) (up : Bool) :
    At 9 (.sign (stepSign up) :: ts) (.step e up true) := by
  refine ⟨leads_sign (by cases up <;> rfl) (by cases up <;> decide), ?_⟩
  intro n more hn hmore us hus
  rw [List.length_cons] at hn
  obtain ⟨n, rfl⟩ : ∃ m, n = m + 1 := ⟨n - 1, by omega⟩
  obtain ⟨a, b, us₁, rfl, h₁⟩ := tokens_cons hus
  obtain ⟨r, hr, hr'⟩ := h.2 (n := n) (by omega) hmore us₁ h₁
  have hprefixed : prefixed? (.sign (stepSign up)) =
      some fun e => if e.isPlace then some (.step e up true) else none := by
    cases up <;> rfl
  refine ⟨r, ?_, hr'⟩
  rw [unary_succ]
  simp only [peek_cons, Option.bind_some, hprefixed, List.tail_cons, hr, ok_bind, hplace, if_true]

theorem precedence_bounds (op : BinaryOp) : 1 ≤ op.precedence ∧ op.precedence ≤ 7 := by
  cases op <;> decide

/-- The level of operands joined by operators of a precedence. -/
theorem at_binary_iff (hq : 1 ≤ q ∧ q ≤ 7) :
    At (q + 1) ts e ↔ Leads startsExpr ts ∧ OpensBinary q ts e := by
  match q, hq with
  | 1, _ => exact Iff.rfl
  | 2, _ => exact Iff.rfl
  | 3, _ => exact Iff.rfl
  | 4, _ => exact Iff.rfl
  | 5, _ => exact Iff.rfl
  | 6, _ => exact Iff.rfl
  | 7, _ => exact Iff.rfl

/-- The right operand of an operator, up to an operator that it leaves to the left. -/
theorem At.rightOperand (hq : 1 ≤ q ∧ q ≤ 7) (h : At (q + 2) ts e) (hn : 12 * ts.length + 2 ≤ n)
    {more : List Token} (hmore : NotNext (extendsAbove q) more) {us : List Lexeme}
    (hus : us.map Lexeme.token = ts ++ more) :
    ∃ r, binary n (q + 1) us = .ok (e, r) ∧ r.map Lexeme.token = more := by
  have hend : ∀ t op, more.head? = some t → binaryOp? t = some op → op.2 < q + 1 := by
    intro t op ht hop
    have hnot := (Bool.or_eq_false_iff.mp (hmore t ht)).2
    rw [hop, Option.any_some, decide_eq_false_iff_not] at hnot
    omega
  have hopens : OpensBinary (q + 1) ts e := by
    rcases Nat.lt_or_eq_of_le hq.2 with hlt | rfl
    · exact ((at_binary_iff (q := q + 1) ⟨by omega, by omega⟩).mp h).2
    · exact opensBinary_of_unary h.1.length_pos h.2 8
  exact hopens.parses hn (Nat.le_refl _)
    (hmore.mono fun t ht => extendsAbove_mono (Nat.le_succ q) ht) hend hus

/-- **An operation**: its left operand may be one of the same precedence, which is read first. -/
theorem At.binary {op : BinaryOp} {left right : Expr} (hl : At (op.precedence + 1) ts left)
    (hr : At (op.precedence + 2) us right) :
    At (op.precedence + 1) (ts ++ .sign op.sign :: us) (.binary op left right) := by
  have hq := precedence_bounds op
  obtain ⟨hleads, hopens⟩ := (at_binary_iff hq).mp hl
  refine (at_binary_iff hq).mpr ⟨hleads.append _, ?_⟩
  intro n more least ls hn hleast hmore hls
  rw [List.length_append, List.length_cons] at hn ⊢
  rw [List.append_assoc, List.cons_append] at hls
  have hop : NotNext (extendsAbove op.precedence) (.sign op.sign :: (us ++ more)) := by
    refine notNext_cons ?_
    cases op <;> rfl
  obtain ⟨m, r, hm, hr₁, heq⟩ := hopens (n := n) (by omega) hleast hop hls
  obtain ⟨m, rfl⟩ : ∃ k, m = k + 1 := ⟨m - 1, by omega⟩
  obtain ⟨a, b, r, rfl, hr₂⟩ := tokens_cons hr₁
  obtain ⟨r', hr', hr₃⟩ := hr.rightOperand hq (n := m) (by omega) hmore hr₂
  refine ⟨m, r', by omega, hr₃, ?_⟩
  rw [heq, operators_succ]
  simp only [peek_cons, Option.bind_some, binaryOp?_sign, List.tail_cons, hr', ok_bind]
  exact if_neg (Nat.not_lt.mpr hleast)

/-- The target of an assignment, whose value may be an assignment. -/
theorem At.assign {target value : Expr} (ht : At 2 ts target) (hplace : target.isPlace = true)
    (hv : At 0 us value) (op : AssignOp) :
    At 0 (ts ++ .sign op.sign :: us) (.assign op target value) := by
  refine ⟨ht.1.append _, ?_⟩
  intro n more hn hmore ls hls
  simp only [List.length_append, List.length_cons] at hn
  obtain ⟨n, rfl⟩ : ∃ m, n = m + 1 := ⟨n - 1, by omega⟩
  have hbinary : OpensBinary 1 ts target := ht.2
  have hsign : NotNext extendsChoice (.sign op.sign :: (us ++ more)) :=
    notNext_cons (by cases op <;> rfl)
  rw [List.append_assoc, List.cons_append] at hls
  obtain ⟨r, hr, hr₁⟩ := hbinary.standsFrom.choice (n := n) (by omega) hsign ls hls
  obtain ⟨a, b, r, rfl, hr₂⟩ := tokens_cons hr₁
  obtain ⟨r₁, h₁, h₁'⟩ := hv.2 (n := n) (by omega) hmore r hr₂
  refine ⟨r₁, ?_, h₁'⟩
  rw [assignment_succ, hr, ok_bind]
  simp only [peek_cons, Option.bind_some, assignOp?_sign, hplace, if_true, List.tail_cons, h₁,
    ok_bind]

/-- A choice: its condition binds more tightly, its last part may be a choice. -/
theorem At.choice {cond yes no : Expr} (hc : At 2 ts cond) (hy : At 0 us yes) (hn : At 1 vs no) :
    At 1 (ts ++ .sign .question :: (us ++ .sign .colon :: vs)) (.choice cond yes no) := by
  refine ⟨hc.1.append _, ?_⟩
  intro n more hlen hmore ls hls
  simp only [List.length_append, List.length_cons] at hlen
  obtain ⟨n, rfl⟩ : ∃ m, n = m + 1 := ⟨n - 1, by omega⟩
  have hbinary : OpensBinary 1 ts cond := hc.2
  rw [List.append_assoc, List.cons_append, List.append_assoc, List.cons_append] at hls
  obtain ⟨r, hr, hr₁⟩ := hbinary.standsFrom (n := n) (by omega) (notNext_cons rfl) ls hls
  obtain ⟨a, b, r, rfl, hr₂⟩ := tokens_cons hr₁
  obtain ⟨r₁, h₁, h₁'⟩ := hy.2 (n := n) (by omega) (notNext_cons rfl) r hr₂
  obtain ⟨r₂, h₂, h₂'⟩ := expect_tokens "`:`" h₁'
  obtain ⟨r₃, h₃, h₃'⟩ := (hn.succ (by decide)).2 (n := n) (by omega) hmore r₂ h₂'
  refine ⟨r₃, ?_, h₃'⟩
  have hr : Parser.binary n 0 ls = .ok (cond, _) := hr
  have hcolon : peek r ≠ some (.sign .colon) := hy.1.peek_ne hr₂ rfl
  rw [choice_succ, hr, ok_bind]
  simp only [peek_cons, if_true, List.tail_cons, h₁, ok_bind, h₂, h₃]
  exact if_neg hcolon

/-- A short choice. -/
theorem At.fallback {cond no : Expr} (hc : At 2 ts cond) (hn : At 1 vs no) :
    At 1 (ts ++ .sign .question :: .sign .colon :: vs) (.fallback cond no) := by
  refine ⟨hc.1.append _, ?_⟩
  intro n more hlen hmore ls hls
  simp only [List.length_append, List.length_cons] at hlen
  obtain ⟨n, rfl⟩ : ∃ m, n = m + 1 := ⟨n - 1, by omega⟩
  have hbinary : OpensBinary 1 ts cond := hc.2
  rw [List.append_assoc, List.cons_append, List.cons_append] at hls
  obtain ⟨r, hr, hr₁⟩ := hbinary.standsFrom (n := n) (by omega) (notNext_cons rfl) ls hls
  obtain ⟨a, b, r, rfl, hr₂⟩ := tokens_cons hr₁
  obtain ⟨c, d, r, rfl, hr₃⟩ := tokens_cons hr₂
  obtain ⟨r₁, h₁, h₁'⟩ := (hn.succ (by decide)).2 (n := n) (by omega) hmore r hr₃
  refine ⟨r₁, ?_, h₁'⟩
  have hr : Parser.binary n 0 ls = .ok (cond, _) := hr
  rw [choice_succ, hr, ok_bind]
  simp only [peek_cons, if_true, List.tail_cons, h₁, ok_bind]

end Parser

/-! ### Printed expressions -/

open Stencil.Parser

theorem Expr.level_le (e : Expr) : e.level ≤ 11 := by
  cases e with
  | binary op _ _ =>
    have h := precedence_bounds op
    simp only [level]
    omega
  | step _ _ before =>
    cases before with
    | true => exact Nat.le_of_ble_eq_true rfl
    | false => exact Nat.le_of_ble_eq_true rfl
  | _ => exact Nat.le_of_ble_eq_true rfl

theorem Expr.level_of_isPlace {e : Expr} (h : e.isPlace = true) : e.level = 11 := by
  cases e with
  | var name => rfl
  | member base name => rfl
  | index base key => rfl
  | append base => rfl
  | _ => cases h

theorem Parser.At.operand {e : Expr} {l : Nat} (h : At e.level e.tokens e) (hl : l ≤ 11) :
    At l (Stencil.within l e.level e.tokens) e :=
  h.within e.level_le hl

theorem Parser.At.loosest {e : Expr} (h : At e.level e.tokens e) : At 0 e.tokens e :=
  h.of_le e.level_le (Nat.zero_le _)

mutual

/-- **A printed expression** is parsed at its level. -/
theorem Expr.at_level : (e : Expr) → e.Printable → At e.level e.tokens e
  | .literal _, h => at_literal h
  | .var _, _ => at_atom rfl
  | .const _, h => at_const h.2
  | .member base name, h => ((base.at_level h.1).operand (Nat.le_refl 11)).member name
  | .index base key, h =>
    ((base.at_level h.1).operand (Nat.le_refl 11)).index (key.at_level h.2).loosest
  | .append base, h => ((base.at_level h).operand (Nat.le_refl 11)).append
  | .call _ args, h => at_call h.2.1 (takesArgs_of_printable args h.2.2)
  | .method target name args, h =>
    ((target.at_level h.1).operand (Nat.le_refl 11)).method name
      (takesArgs_of_printable args h.2.2)
  | .array items, h => at_array (takesItems_of_printable items h)
  | .unary op operand, h => ((operand.at_level h).operand (by decide)).unary op
  | .binary op left right, h => by
    have hq := precedence_bounds op
    exact ((left.at_level h.1).operand (by omega)).binary ((right.at_level h.2).operand (by omega))
  | .assign op target value, h => by
    have ht := target.at_level h.2.1
    rw [Expr.level_of_isPlace h.1] at ht
    exact (ht.of_le (Nat.le_refl 11) (by decide)).assign h.1 (value.at_level h.2.2).loosest op
  | .step target up true, h => by
    have ht := target.at_level h.2
    rw [Expr.level_of_isPlace h.1] at ht
    exact (ht.of_le (Nat.le_refl 11) (by decide)).stepBefore h.1 up
  | .step target up false, h => by
    have ht := target.at_level h.2
    rw [Expr.level_of_isPlace h.1] at ht
    exact ht.step h.1 up
  | .choice cond yes no, h =>
    ((cond.at_level h.1).operand (by decide)).choice (yes.at_level h.2.1).loosest
      ((no.at_level h.2.2).operand (by decide))
  | .fallback cond no, h =>
    ((cond.at_level h.1).operand (by decide)).fallback ((no.at_level h.2).operand (by decide))

theorem takesList_of_printable : (es : List Expr) → es ≠ [] → AllPrintable es →
    TakesList (listTokens es) es
  | [], hne, _ => absurd rfl hne
  | [e], _, h => by
    have h := takesList_one (e.at_level h.1).loosest
    rwa [← List.append_nil e.tokens] at h
  | e :: f :: es, _, h =>
    (takesList_of_printable (f :: es) (List.cons_ne_nil f es) h.2).cons (e.at_level h.1).loosest

theorem takesArgs_of_printable : (es : List Expr) → AllPrintable es → TakesArgs (listTokens es) es
  | [], _ => takesArgs_nil
  | e :: es, h =>
    (takesList_of_printable (e :: es) (List.cons_ne_nil e es) h).args
      ((e.at_level h.1).loosest.1.append _)

theorem Item.takes : (item : Item) → item.Printable → TakesItem item.tokens item
  | .plain value, h => takesItem_plain (value.at_level h).loosest
  | .keyed key value, h =>
    takesItem_keyed (key.at_level h.1).loosest (value.at_level h.2).loosest

theorem takesItems_of_printable : (items : List Item) → AllItemsPrintable items →
    TakesItems (itemTokens items) items
  | [], _ => takesItems_nil
  | [item], h => by
    have h := takesItems_one (item.takes h.1)
    rwa [← List.append_nil item.tokens] at h
  | item :: next :: items, h => (takesItems_of_printable (next :: items) h.2).cons (item.takes h.1)

end

/-- The tokens of a printed expression stand for it. -/
theorem Expr.stands_tokens {e : Expr} (h : e.Printable) :
    Stands parseExpr extendsExpr e.tokens e :=
  (e.at_level h).loosest.2.parseExpr (by omega)

/-- A statement that writes a printed expression. -/
theorem gives_echo {e : Expr} (h : e.Printable) {stop : Stop} {us r : List Token} {K : List Stmt}
    (hK : Gives (listUntil stop) 2 us K r) :
    Gives (listUntil stop) 2 (.word "echo" :: (e.tokens ++ .terminator :: us))
      (.echo [e] :: K) r := by
  have hlt : us.length < (Token.word "echo" :: (e.tokens ++ .terminator :: us)).length := by
    simp only [List.length_cons, List.length_append]
    omega
  refine gives_cons [.echo [e]] ⟨Nat.le_of_lt hlt, ?_⟩ (List.cons_ne_nil _ _) ?_ hlt hK
  · intro n hn ls hls
    obtain ⟨k, rfl⟩ : ∃ k, n = k + 1 := ⟨n - 1, by omega⟩
    obtain ⟨a, b, ls₁, rfl, h₁⟩ := tokens_cons hls
    have hlist := takesList_one (e.at_level h).loosest
    have hdepth : 12 * e.tokens.length + 5 ≤ depthBound ls₁ := by
      have hlength := congrArg List.length h₁
      rw [List.length_map, List.length_append] at hlength
      rw [depthBound]
      omega
    obtain ⟨ls₂, h₂, hls₂⟩ := hlist hdepth (notNext_cons rfl) ls₁ h₁
    obtain ⟨c, d, ls₃, rfl, h₃⟩ := tokens_cons hls₂
    have hexprs : parseExprs ls₁ = .ok ([e], _) := h₂
    refine ⟨ls₃, ?_, h₃⟩
    show echoStmt ls₁ = _
    rw [echoStmt, hexprs, ok_bind]
    rfl
  · cases stop <;> rfl

/-- The words with which the statements begin that are no expressions, and the words that go on with
one. -/
def statementWords : List String :=
  ["echo", "print", "if", "foreach", "for", "while", "switch", "break", "continue", "exit", "die",
    "else", "elseif", "case", "default"]

/-- A statement that is a printed expression, which starts with a word of its own. -/
theorem gives_expr {e : Expr} (h : e.Printable) {w : String} {ts : List Token}
    (hts : e.tokens = .word w :: ts) (hw : w ∉ statementWords) {stop : Stop} {us r : List Token}
    {K : List Stmt} (hK : Gives (listUntil stop) 2 us K r) :
    Gives (listUntil stop) 2 (e.tokens ++ .terminator :: us) (.expr e :: K) r := by
  have hlt : us.length < (e.tokens ++ .terminator :: us).length := by
    simp only [List.length_append, List.length_cons]
    omega
  have hne : e.tokens ++ .terminator :: us ≠ [] := by simp
  simp only [statementWords, List.mem_cons, List.not_mem_nil, not_or, or_false] at hw
  refine gives_cons [.expr e] ⟨Nat.le_of_lt hlt, ?_⟩ hne ?_ hlt hK
  · intro n hn ls hls
    obtain ⟨k, rfl⟩ : ∃ k, n = k + 1 := ⟨n - 1, by omega⟩
    obtain ⟨ls₁, h₁, hls₁⟩ := Expr.stands_tokens h (notNext_cons rfl) ls hls
    obtain ⟨c, d, ls₂, rfl, h₂⟩ := tokens_cons hls₁
    rw [hts, List.cons_append] at hls
    obtain ⟨a, b, ls, rfl, -⟩ := tokens_cons hls
    have hstep : statement (k + 1) (⟨.word w, a, b⟩ :: ls) = exprStmt (⟨.word w, a, b⟩ :: ls) := by
      rw [statement]
      simp only [hw, or_self, if_false]
    refine ⟨ls₂, ?_, h₂⟩
    rw [hstep, exprStmt, h₁, ok_bind]
    rfl
  · rw [hts]
    cases stop with
    | atEnd => rfl
    | atBrace => rfl
    | atArm => simp [Stop.holds, hw]

end Stencil
