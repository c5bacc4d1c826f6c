import Stencil.Proofs.Parsing.Step

/-!
# Expressions among other tokens

A parsed expression depends on its own tokens alone.  It is parsed the same way at other places of
a template, with a greater bound on the depth of calls, and in front of other tokens, as long as
the first of those does not go on with it.  What goes on with an expression depends on the level at
which it is parsed: after a postfix form only another postfix form, after an assignment also any
operator.

## Main definitions

* `Continues more us ts` — `us` has the tokens of `ts` and then `more`.
* `extendsPostfix`, …, `extendsList` — the tokens that go on with an expression of a level.
* `Ends p more` — `more` does not start with a token of `p`.
* `Carries p f g` — what `f` parses, `g` parses in front of other tokens.

## Main results

* `steady` — every parsing function carries over to greater bounds.
* `parseExpr_continues`, `parsePostfix_continues`, `parseExprs_continues` — the parsers.
-/

namespace Stencil.Parser

/-! ### Tokens that go on -/

/-- The tokens that go on with a postfix form. -/
def extendsPostfix : Token → Bool
  | .sign .arrow | .sign .bracketOpen | .sign .increment | .sign .decrement
  | .sign .parenOpen => true
  | _ => false

/-- The tokens that go on with operands and operators. -/
def extendsBinary (t : Token) : Bool := extendsPostfix t || (binaryOp? t).isSome

/-- The tokens that go on with an expression: its last part may be an assignment. -/
def extendsExpr (t : Token) : Bool :=
  extendsBinary t || t == .sign .question || (assignOp? t).isSome

/-- The tokens that go on with a list of expressions. -/
def extendsList (t : Token) : Bool := extendsExpr t || t == .sign .comma

/-- The tokens start with none that satisfies `p`. -/
def Ends (p : Token → Bool) (more : List Lexeme) : Prop := ∀ t, peek more = some t → p t = false

theorem Ends.mono {p q : Token → Bool} {more : List Lexeme} (h : Ends q more)
    (hpq : ∀ t, q t = false → p t = false) : Ends p more :=
  fun t ht => hpq t (h t ht)

theorem Ends.expr_of_list {more : List Lexeme} (h : Ends extendsList more) :
    Ends extendsExpr more :=
  h.mono fun _ ht => (Bool.or_eq_false_iff.mp ht).1

theorem Ends.binary_of_expr {more : List Lexeme} (h : Ends extendsExpr more) :
    Ends extendsBinary more :=
  h.mono fun _ ht => (Bool.or_eq_false_iff.mp (Bool.or_eq_false_iff.mp ht).1).1

theorem Ends.postfixed_of_binary {more : List Lexeme} (h : Ends extendsBinary more) :
    Ends extendsPostfix more :=
  h.mono fun _ ht => (Bool.or_eq_false_iff.mp ht).1

/-! ### The same tokens with others after them -/

/-- `us` has the tokens of `ts`, wherever they stand, and then `more`. -/
def Continues (more us ts : List Lexeme) : Prop :=
  ∃ vs, vs.map Lexeme.token = ts.map Lexeme.token ∧ us = vs ++ more

variable {more us ts : List Lexeme}

theorem Continues.eq_of_nil (h : Continues more us []) : us = more := by
  obtain ⟨vs, hvs, rfl⟩ := h
  rw [List.map_nil, List.map_eq_nil_iff] at hvs
  rw [hvs, List.nil_append]

theorem Continues.peek_eq (h : Continues more us ts) (hts : ts ≠ []) : peek us = peek ts := by
  obtain ⟨vs, hvs, rfl⟩ := h
  cases ts with
  | nil => exact absurd rfl hts
  | cons t ts =>
    cases vs with
    | nil => cases hvs
    | cons v vs =>
      rw [List.map_cons, List.map_cons, List.cons.injEq] at hvs
      rw [List.cons_append, peek_cons, peek_cons, hvs.1]

theorem Continues.tail (h : Continues more us ts) (hts : ts ≠ []) :
    Continues more us.tail ts.tail := by
  obtain ⟨vs, hvs, rfl⟩ := h
  cases ts with
  | nil => exact absurd rfl hts
  | cons t ts =>
    cases vs with
    | nil => cases hvs
    | cons v vs =>
      rw [List.map_cons, List.map_cons, List.cons.injEq] at hvs
      exact ⟨vs, hvs.2, rfl⟩

/-- A decision about the next token, in which a token that does not go on counts as none. -/
theorem Continues.decide {p : Token → Bool} {β : Type} (h : Continues more us ts)
    (hmore : ts = [] → Ends p more) (d : Option Token → β)
    (hd : ∀ t, p t = false → d (some t) = d none) : d (peek us) = d (peek ts) := by
  cases ts with
  | cons t ts => rw [h.peek_eq (List.cons_ne_nil t ts)]
  | nil =>
    rw [h.eq_of_nil]
    cases hm : peek more with
    | none => rfl
    | some t => exact hd t (hmore rfl t hm)

/-- A token that the next one is asked for and that goes on. -/
theorem Continues.peek_iff {p : Token → Bool} {t : Token} (h : Continues more us ts)
    (hmore : ts = [] → Ends p more) (ht : p t = true) :
    peek us = some t ↔ peek ts = some t := by
  cases ts with
  | cons u ts => rw [h.peek_eq (List.cons_ne_nil u ts)]
  | nil =>
    rw [h.eq_of_nil]
    constructor
    · intro hm
      rw [hmore rfl t hm] at ht
      cases ht
    · intro hm
      cases hm

theorem Continues.peek_some {t : Token} (h : Continues more us ts) (ht : peek ts = some t) :
    peek us = some t := by
  rw [h.peek_eq (ne_nil_of_peek ht), ht]

theorem ne_nil_of_shorter {r : List Lexeme} (h : r.length < ts.length) : ts ≠ [] := by
  rintro rfl
  exact absurd h (Nat.not_lt_zero _)

theorem eq_nil_of_shorter {r : List Lexeme} (hts : ts = []) (h : r.length ≤ ts.length) :
    r = [] := by
  rw [hts] at h
  exact List.eq_nil_of_length_eq_zero (Nat.le_zero.mp h)

theorem expect_of_peek {token : Token} {expected : String} (h : peek ts = some token) :
    expect token expected ts = .ok ts.tail :=
  expect_eq_ok.mpr ⟨h, rfl⟩

theorem cast?_eq (ts : List Lexeme) :
    cast? ts =
      if peek ts = some (.sign .parenOpen) then
        match peek ts.tail with
        | some (.word name) =>
          if peek ts.tail.tail = some (.sign .parenClose) then
            (castFunction? name).map fun function => (function, ts.tail.tail.tail)
          else none
        | _ => none
      else none := by
  rcases ts with _ | ⟨⟨t, _, _⟩, ts⟩
  · rfl
  · cases t with
    | sign s =>
      cases s with
      | parenOpen =>
        rcases ts with _ | ⟨⟨t, _, _⟩, ts⟩
        · rfl
        · cases t with
          | word name =>
            rcases ts with _ | ⟨⟨t, _, _⟩, ts⟩
            · rfl
            · cases t with
              | sign s => cases s <;> rfl
              | _ => rfl
          | _ => rfl
      | _ => rfl
    | _ => rfl

/-- A cast stays a cast. -/
theorem Continues.cast?_some {function : String} {rest : List Lexeme} (h : Continues more us ts)
    (hcast : cast? ts = some (function, rest)) :
    ∃ rest', cast? us = some (function, rest') ∧ Continues more rest' rest := by
  rw [cast?_eq] at hcast ⊢
  split at hcast
  next hopen =>
    have h₁ := h.tail (ne_nil_of_peek hopen)
    rw [if_pos (h.peek_some hopen)]
    split at hcast
    next name hword =>
      have h₂ := h₁.tail (ne_nil_of_peek hword)
      rw [h₁.peek_some hword]
      split at hcast
      next hclose =>
        obtain ⟨g, hg, hcast⟩ := Option.map_eq_some_iff.mp hcast
        obtain ⟨rfl, rfl⟩ := Prod.mk.inj hcast
        refine ⟨us.tail.tail.tail, ?_, h₂.tail (ne_nil_of_peek hclose)⟩
        simp only [if_pos (h₂.peek_some hclose), hg, Option.map_some]
      next => cases hcast
    next => cases hcast
  next => cases hcast

/-- An expression in parentheses takes both of them and a token between them. -/
theorem length_of_postfixed_paren {n : Nat} {e : Expr} {ls r : List Lexeme}
    (h : Parser.postfixed n ls = .ok (e, r)) (hopen : peek ls = some (.sign .parenOpen)) :
    r.length + 3 ≤ ls.length := by
  match n, h with
  | 0, h => cases h
  | 1, h => cases h
  | n + 2, h =>
    rw [Parser.postfixed_succ, bind_eq_ok] at h
    obtain ⟨⟨base, ms⟩, hx, hy⟩ := h
    have hr := (shrinks (n + 1)).postfixes hy
    rw [Parser.primary_succ, hopen] at hx
    simp only [Option.bind_some, atom?, bind_eq_ok, expect_eq_ok] at hx
    obtain ⟨⟨inner, vs⟩, hz, _, ⟨hp, rfl⟩, hm⟩ := hx
    obtain ⟨-, rfl⟩ := ok_eq_ok.mp hm
    have hlt := (shrinks n).assignment hz
    have hvs := length_of_peek hp
    have hls := length_of_peek hopen
    simp only [] at hr hlt hvs
    omega

/-- Three tokens tell whether there is a cast. -/
theorem cast?_eq_none_of_peek {us ts : List Lexeme} (h : cast? ts = none)
    (h₁ : peek us = peek ts) (h₂ : peek us.tail = peek ts.tail)
    (h₃ : peek us.tail.tail = peek ts.tail.tail) : cast? us = none := by
  rw [cast?_eq] at h ⊢
  rw [h₁, h₂, h₃]
  split at h
  next hopen =>
    rw [if_pos hopen]
    split
    next name hname =>
      rw [hname] at h
      simp only [] at h
      split
      next hclose =>
        rw [if_pos hclose, Option.map_eq_none_iff] at h
        rw [h, Option.map_none]
      next => rfl
    next => rfl
  next hopen => rw [if_neg hopen]

/-- What is no cast is none in front of other tokens. -/
theorem Continues.cast?_none {n : Nat} {e : Expr} {r : List Lexeme} (h : Continues more us ts)
    (hcast : cast? ts = none) (hp : postfixed n ts = .ok (e, r)) : cast? us = none := by
  have hne := ne_nil_of_shorter ((shrinks n).postfixed hp)
  by_cases hopen : peek ts = some (.sign .parenOpen)
  · -- the parentheses hold an expression, so the three tokens are all there
    have hlen := length_of_postfixed_paren hp hopen
    have hne₁ : ts.tail ≠ [] := by
      rw [Ne, ← List.length_eq_zero_iff, List.length_tail]
      omega
    have hne₂ : ts.tail.tail ≠ [] := by
      rw [Ne, ← List.length_eq_zero_iff, List.length_tail, List.length_tail]
      omega
    have h₁ := h.tail hne
    exact cast?_eq_none_of_peek hcast (h.peek_eq hne) (h₁.peek_eq hne₁)
      ((h₁.tail hne₁).peek_eq hne₂)
  · rw [cast?_eq, h.peek_eq hne, if_neg hopen]

/-- What `f` parses, `g` parses in front of other tokens that do not go on with it. -/
def Carries (more : List Lexeme) (p : Token → Bool) {α : Type}
    (f g : List Lexeme → Parse (α × List Lexeme)) : Prop :=
  ∀ {ts us a r}, f ts = .ok (a, r) → Continues more us ts → (r = [] → Ends p more) →
    ∃ r', g us = .ok (a, r') ∧ Continues more r' r

/-- What is parsed up to a closing token, is parsed up to it in front of any other tokens. -/
theorem Carries.closed {p : Token → Bool} {α : Type} {f g : List Lexeme → Parse (α × List Lexeme)}
    (h : Carries more p f g) {a : α} {r : List Lexeme} {token : Token} (hf : f ts = .ok (a, r))
    (hr : peek r = some token) (hc : Continues more us ts) :
    ∃ r', g us = .ok (a, r') ∧ peek r' = some token ∧ Continues more r'.tail r.tail := by
  have hne := ne_nil_of_peek hr
  obtain ⟨r', hg, hc'⟩ := h hf hc fun hnil => absurd hnil hne
  exact ⟨r', hg, hc'.peek_some hr, hc'.tail hne⟩

/-! ### One depth after the other -/

/-- Every function of depth `n` carries over to greater depths.  After the arguments of a call and
the items of an array a closing sign has to follow, so no other tokens fit. -/
structure Steady (more : List Lexeme) (n : Nat) : Prop where
  assignment : ∀ {m}, n ≤ m → Carries more extendsExpr (assignment n) (assignment m)
  choice : ∀ {m}, n ≤ m → Carries more extendsExpr (choice n) (choice m)
  binary : ∀ {m least}, n ≤ m → Carries more extendsBinary (binary n least) (binary m least)
  operators : ∀ {m least left}, n ≤ m →
    Carries more extendsBinary (operators n least left) (operators m least left)
  unary : ∀ {m}, n ≤ m → Carries more extendsPostfix (unary n) (unary m)
  postfixed : ∀ {m}, n ≤ m → Carries more extendsPostfix (postfixed n) (postfixed m)
  postfixes : ∀ {m base}, n ≤ m →
    Carries more extendsPostfix (postfixes n base) (postfixes m base)
  primary : ∀ {m}, n ≤ m → Carries more extendsPostfix (primary n) (primary m)
  arguments : ∀ {m close}, n ≤ m →
    Carries more (fun _ => true) (arguments n close) (arguments m close)
  commas : ∀ {m}, n ≤ m → Carries more extendsList (commas n) (commas m)
  arrayItems : ∀ {m close}, n ≤ m →
    Carries more (fun _ => true) (arrayItems n close) (arrayItems m close)

theorem steady_zero (more : List Lexeme) : Steady more 0 := by
  constructor <;> intros <;> intro <;> intros <;> contradiction

namespace Steady

variable {n m : Nat}

theorem assignment_succ (hn : Steady more n) (hm : n ≤ m) :
    Carries more extendsExpr (Parser.assignment (n + 1)) (Parser.assignment (m + 1)) := by
  intro ts us e r h hc hend
  rw [Parser.assignment_succ, bind_eq_ok] at h
  obtain ⟨⟨target, ts₁⟩, hx, h⟩ := h
  simp only [] at h
  cases hop : (peek ts₁).bind assignOp? with
  | none =>
    rw [hop] at h
    obtain ⟨rfl, rfl⟩ := ok_eq_ok.mp h
    obtain ⟨us₁, hx', hc₁⟩ := hn.choice hm hx hc hend
    -- no operator follows, neither here nor at the start of the other tokens
    have hop' := hc₁.decide hend (·.bind assignOp?) fun t ht => by
      simpa using (Bool.or_eq_false_iff.mp ht).2
    refine ⟨us₁, ?_, hc₁⟩
    rw [Parser.assignment_succ, hx', ok_bind]
    simp only [hop', hop]
  | some op =>
    rw [hop] at h
    obtain ⟨t, ht, -⟩ := Option.bind_eq_some_iff.mp hop
    have hne := ne_nil_of_peek ht
    obtain ⟨us₁, hx', hc₁⟩ := hn.choice hm hx hc fun hr => absurd hr hne
    simp only [] at h
    split at h
    next hplace =>
      rw [bind_eq_ok] at h
      obtain ⟨⟨value, ts₂⟩, hy, h⟩ := h
      obtain ⟨rfl, rfl⟩ := ok_eq_ok.mp h
      obtain ⟨us₂, hy', hc₂⟩ := hn.assignment hm hy (hc₁.tail hne) hend
      refine ⟨us₂, ?_, hc₂⟩
      rw [Parser.assignment_succ, hx', ok_bind]
      simp only [hc₁.peek_eq hne, hop, if_pos hplace, hy', ok_bind]
    next => cases h

theorem choice_succ (hn : Steady more n) (hm : n ≤ m) :
    Carries more extendsExpr (Parser.choice (n + 1)) (Parser.choice (m + 1)) := by
  intro ts us e r h hc hend
  rw [Parser.choice_succ, bind_eq_ok] at h
  obtain ⟨⟨cond, ts₁⟩, hx, h⟩ := h
  simp only [] at h
  split at h
  next hq =>
    have hne := ne_nil_of_peek hq
    obtain ⟨us₁, hx', hc₁⟩ := hn.binary hm hx hc fun hr => absurd hr hne
    have hc₂ := hc₁.tail hne
    split at h
    next hcolon =>
      rw [bind_eq_ok] at h
      obtain ⟨⟨no, ts₂⟩, hy, h⟩ := h
      obtain ⟨rfl, rfl⟩ := ok_eq_ok.mp h
      obtain ⟨us₂, hy', hc₃⟩ := hn.assignment hm hy (hc₂.tail (ne_nil_of_peek hcolon)) hend
      refine ⟨us₂, ?_, hc₃⟩
      rw [Parser.choice_succ, hx', ok_bind]
      simp only [hc₁.peek_some hq, hc₂.peek_some hcolon, if_true, hy', ok_bind]
    next hcolon =>
      simp only [bind_eq_ok, expect_eq_ok] at h
      obtain ⟨⟨yes, ts₂⟩, hy, _, ⟨hp, rfl⟩, ⟨no, ts₃⟩, hz, h⟩ := h
      obtain ⟨rfl, rfl⟩ := ok_eq_ok.mp h
      -- a colon has to follow the first branch, so its end is no end of the tokens
      have hne₂ := ne_nil_of_shorter ((shrinks n).assignment hy)
      obtain ⟨us₂, hy', hp', hc₃⟩ := Carries.closed (hn.assignment hm) hy hp hc₂
      obtain ⟨us₃, hz', hc₄⟩ := hn.assignment hm hz hc₃ hend
      refine ⟨us₃, ?_, hc₄⟩
      rw [Parser.choice_succ, hx', ok_bind]
      simp only [hc₁.peek_some hq, if_true, hc₂.peek_eq hne₂, if_neg hcolon, hy', ok_bind,
        expect_of_peek hp', hz']
  next hq =>
    obtain ⟨rfl, rfl⟩ := ok_eq_ok.mp h
    obtain ⟨us₁, hx', hc₁⟩ := hn.binary hm hx hc fun hr => (hend hr).binary_of_expr
    -- the other tokens start with no question mark
    refine ⟨us₁, ?_, hc₁⟩
    rw [Parser.choice_succ, hx', ok_bind]
    simp only [hc₁.peek_iff hend (t := .sign .question) rfl, if_neg hq]

theorem binary_succ (hn : Steady more n) (hm : n ≤ m) {least : Nat} :
    Carries more extendsBinary (Parser.binary (n + 1) least) (Parser.binary (m + 1) least) := by
  intro ts us e r h hc hend
  rw [Parser.binary_succ, bind_eq_ok] at h
  obtain ⟨⟨left, ts₁⟩, hx, h⟩ := h
  -- the operand ends the tokens only when no operator follows it
  obtain ⟨us₁, hx', hc₁⟩ := hn.unary hm hx hc fun hr =>
    (hend (eq_nil_of_shorter hr ((shrinks n).operators h))).postfixed_of_binary
  obtain ⟨us₂, h', hc₂⟩ := hn.operators hm h hc₁ hend
  refine ⟨us₂, ?_, hc₂⟩
  rw [Parser.binary_succ, hx', ok_bind]
  exact h'

theorem operators_succ (hn : Steady more n) (hm : n ≤ m) {least : Nat} {left : Expr} :
    Carries more extendsBinary (Parser.operators (n + 1) least left)
      (Parser.operators (m + 1) least left) := by
  intro ts us e r h hc hend
  rw [Parser.operators_succ] at h ⊢
  cases hop : (peek ts).bind binaryOp? with
  | none =>
    rw [hop] at h
    obtain ⟨rfl, rfl⟩ := ok_eq_ok.mp h
    have hop' := hc.decide hend (·.bind binaryOp?) fun t ht => by
      simpa using (Bool.or_eq_false_iff.mp ht).2
    refine ⟨us, ?_, hc⟩
    simp only [hop', hop]
  | some op =>
    obtain ⟨t, ht, -⟩ := Option.bind_eq_some_iff.mp hop
    have hne := ne_nil_of_peek ht
    rw [hop] at h
    rw [hc.peek_eq hne, hop]
    simp only [] at h ⊢
    split at h
    next hlow =>
      obtain ⟨rfl, rfl⟩ := ok_eq_ok.mp h
      exact ⟨us, by rw [if_pos hlow], hc⟩
    next hlow =>
      rw [bind_eq_ok] at h
      obtain ⟨⟨right, ts₁⟩, hx, h⟩ := h
      obtain ⟨us₁, hx', hc₁⟩ := hn.binary hm hx (hc.tail hne) fun hr =>
        hend (eq_nil_of_shorter hr ((shrinks n).operators h))
      obtain ⟨us₂, h', hc₂⟩ := hn.operators hm h hc₁ hend
      refine ⟨us₂, ?_, hc₂⟩
      rw [if_neg hlow, hx', ok_bind]
      exact h'

theorem unary_succ (hn : Steady more n) (hm : n ≤ m) :
    Carries more extendsPostfix (Parser.unary (n + 1)) (Parser.unary (m + 1)) := by
  intro ts us e r h hc hend
  have hne := ne_nil_of_shorter ((shrinks _).unary h)
  rw [Parser.unary_succ] at h ⊢
  rw [hc.peek_eq hne]
  cases hb : (peek ts).bind prefixed? with
  | some build =>
    rw [hb] at h
    simp only [] at h ⊢
    rw [bind_eq_ok] at h
    obtain ⟨⟨operand, ts₁⟩, hx, h⟩ := h
    simp only [] at h
    split at h
    next e' he =>
      obtain ⟨rfl, rfl⟩ := ok_eq_ok.mp h
      obtain ⟨us₁, hx', hc₁⟩ := hn.unary hm hx (hc.tail hne) hend
      refine ⟨us₁, ?_, hc₁⟩
      rw [hx', ok_bind]
      simp only [he]
    next => cases h
  | none =>
    rw [hb] at h
    simp only [] at h ⊢
    cases hcast : cast? ts with
    | some x =>
      obtain ⟨function, ts₁⟩ := x
      rw [hcast] at h
      obtain ⟨us₁, hcast', hc₁⟩ := hc.cast?_some hcast
      rw [hcast']
      simp only [] at h ⊢
      rw [bind_eq_ok] at h
      obtain ⟨⟨operand, ts₂⟩, hx, h⟩ := h
      obtain ⟨rfl, rfl⟩ := ok_eq_ok.mp h
      obtain ⟨us₂, hx', hc₂⟩ := hn.unary hm hx hc₁ hend
      exact ⟨us₂, by rw [hx', ok_bind], hc₂⟩
    | none =>
      rw [hcast] at h
      simp only [] at h
      -- other tokens make no cast of what is none
      rw [hc.cast?_none hcast h]
      exact hn.postfixed hm h hc hend

theorem postfixed_succ (hn : Steady more n) (hm : n ≤ m) :
    Carries more extendsPostfix (Parser.postfixed (n + 1)) (Parser.postfixed (m + 1)) := by
  intro ts us e r h hc hend
  rw [Parser.postfixed_succ, bind_eq_ok] at h
  obtain ⟨⟨base, ts₁⟩, hx, h⟩ := h
  obtain ⟨us₁, hx', hc₁⟩ := hn.primary hm hx hc fun hr =>
    hend (eq_nil_of_shorter hr ((shrinks n).postfixes h))
  obtain ⟨us₂, h', hc₂⟩ := hn.postfixes hm h hc₁ hend
  refine ⟨us₂, ?_, hc₂⟩
  rw [Parser.postfixed_succ, hx', ok_bind]
  exact h'

theorem postfixes_succ (hn : Steady more n) (hm : n ≤ m) {base : Expr} :
    Carries more extendsPostfix (Parser.postfixes (n + 1) base)
      (Parser.postfixes (m + 1) base) := by
  intro ts us e r h hc hend
  by_cases hts : ts = []
  · -- nothing is left, and no other token goes on
    subst hts
    obtain ⟨rfl, rfl⟩ := ok_eq_ok.mp h
    refine ⟨us, ?_, hc⟩
    rw [Parser.postfixes_succ]
    have hp := hc.eq_of_nil ▸ hend rfl
    split
    next ht => cases hp _ ht
    next ht => cases hp _ ht
    next ht => cases hp _ ht
    next ht => cases hp _ ht
    next => rfl
  rw [Parser.postfixes_succ] at h ⊢
  rw [hc.peek_eq hts]
  have hc₁ := hc.tail hts
  revert h
  split
  · intro h
    revert h
    split
    next name hword =>
      intro h
      have hne₁ := ne_nil_of_peek hword
      have hc₂ := hc₁.tail hne₁
      rw [hc₁.peek_some hword]
      simp only []
      split at h
      next hparen =>
        simp only [bind_eq_ok, expect_eq_ok] at h
        obtain ⟨⟨args, ts₁⟩, hx, _, ⟨hp, rfl⟩, h⟩ := h
        obtain ⟨us₁, hx', hp', hc₃⟩ :=
          Carries.closed (hn.arguments hm) hx hp (hc₂.tail (ne_nil_of_peek hparen))
        obtain ⟨us₂, h', hc₄⟩ := hn.postfixes hm h hc₃ hend
        refine ⟨us₂, ?_, hc₄⟩
        rw [if_pos (hc₂.peek_some hparen), hx', ok_bind, expect_of_peek hp', ok_bind]
        exact h'
      next hparen =>
        have hparen' := hc₂.peek_iff (t := .sign .parenOpen)
          (fun hr => hend (eq_nil_of_shorter hr ((shrinks n).postfixes h))) rfl
        rw [if_neg fun hp => hparen (hparen'.mp hp)]
        exact hn.postfixes hm h hc₂ hend
    next => intro h; cases h
  · intro h
    split at h
    next hclose =>
      rw [if_pos (hc₁.peek_some hclose)]
      exact hn.postfixes hm h (hc₁.tail (ne_nil_of_peek hclose)) hend
    next hclose =>
      simp only [bind_eq_ok, expect_eq_ok] at h
      obtain ⟨⟨key, ts₁⟩, hx, _, ⟨hp, rfl⟩, h⟩ := h
      have hne := ne_nil_of_shorter ((shrinks n).assignment hx)
      obtain ⟨us₁, hx', hp', hc₂⟩ := Carries.closed (hn.assignment hm) hx hp hc₁
      obtain ⟨us₂, h', hc₃⟩ := hn.postfixes hm h hc₂ hend
      refine ⟨us₂, ?_, hc₃⟩
      rw [hc₁.peek_eq hne, if_neg hclose, hx', ok_bind, expect_of_peek hp', ok_bind]
      exact h'
  · intro h
    split at h
    next hplace =>
      obtain ⟨rfl, rfl⟩ := ok_eq_ok.mp h
      exact ⟨us.tail, by rw [if_pos hplace], hc₁⟩
    next hplace =>
      obtain ⟨rfl, rfl⟩ := ok_eq_ok.mp h
      exact ⟨us, by rw [if_neg hplace], hc⟩
  · intro h
    split at h
    next hplace =>
      obtain ⟨rfl, rfl⟩ := ok_eq_ok.mp h
      exact ⟨us.tail, by rw [if_pos hplace], hc₁⟩
    next hplace =>
      obtain ⟨rfl, rfl⟩ := ok_eq_ok.mp h
      exact ⟨us, by rw [if_neg hplace], hc⟩
  · intro h
    obtain ⟨rfl, rfl⟩ := ok_eq_ok.mp h
    exact ⟨us, rfl, hc⟩

theorem primary_succ (hn : Steady more n) (hm : n ≤ m) :
    Carries more extendsPostfix (Parser.primary (n + 1)) (Parser.primary (m + 1)) := by
  intro ts us e r h hc hend
  have hne := ne_nil_of_shorter ((shrinks _).primary h)
  have hc₁ := hc.tail hne
  rw [Parser.primary_succ] at h ⊢
  rw [hc.peek_eq hne]
  cases hatom : (peek ts).bind atom? with
  | some e' =>
    rw [hatom] at h
    obtain ⟨rfl, rfl⟩ := ok_eq_ok.mp h
    exact ⟨us.tail, rfl, hc₁⟩
  | none =>
    rw [hatom] at h
    simp only [] at h ⊢
    -- only an opening sign or a word is left
    revert h
    split
    · intro h
      simp only [bind_eq_ok, expect_eq_ok] at h
      obtain ⟨⟨items, ts₁⟩, hx, _, ⟨hp, rfl⟩, h⟩ := h
      obtain ⟨rfl, rfl⟩ := ok_eq_ok.mp h
      obtain ⟨us₁, hx', hp', hc₂⟩ := Carries.closed (hn.arrayItems hm) hx hp hc₁
      exact ⟨us₁.tail, by rw [hx', ok_bind, expect_of_peek hp', ok_bind], hc₂⟩
    · intro h
      simp only [bind_eq_ok, expect_eq_ok] at h
      obtain ⟨⟨inner, ts₁⟩, hx, _, ⟨hp, rfl⟩, h⟩ := h
      obtain ⟨rfl, rfl⟩ := ok_eq_ok.mp h
      obtain ⟨us₁, hx', hp', hc₂⟩ := Carries.closed (hn.assignment hm) hx hp hc₁
      exact ⟨us₁.tail, by rw [hx', ok_bind, expect_of_peek hp', ok_bind], hc₂⟩
    · next name hword =>
      intro h
      cases hlit : wordLiteral? name with
      | some value =>
        rw [hlit] at h
        obtain ⟨rfl, rfl⟩ := ok_eq_ok.mp h
        exact ⟨us.tail, rfl, hc₁⟩
      | none =>
        rw [hlit] at h
        simp only [] at h ⊢
        split at h
        next hparen =>
          have hc₂ := hc₁.tail (ne_nil_of_peek hparen)
          rw [if_pos (hc₁.peek_some hparen)]
          split at h
          next harray =>
            rw [if_pos harray]
            simp only [bind_eq_ok, expect_eq_ok] at h
            obtain ⟨⟨items, ts₁⟩, hx, _, ⟨hp, rfl⟩, h⟩ := h
            obtain ⟨rfl, rfl⟩ := ok_eq_ok.mp h
            obtain ⟨us₁, hx', hp', hc₃⟩ := Carries.closed (hn.arrayItems hm) hx hp hc₂
            exact ⟨us₁.tail, by rw [hx', ok_bind, expect_of_peek hp', ok_bind], hc₃⟩
          next harray =>
            rw [if_neg harray]
            simp only [bind_eq_ok, expect_eq_ok] at h
            obtain ⟨⟨args, ts₁⟩, hx, _, ⟨hp, rfl⟩, h⟩ := h
            obtain ⟨rfl, rfl⟩ := ok_eq_ok.mp h
            obtain ⟨us₁, hx', hp', hc₃⟩ := Carries.closed (hn.arguments hm) hx hp hc₂
            exact ⟨us₁.tail, by rw [hx', ok_bind, expect_of_peek hp', ok_bind], hc₃⟩
        next hparen =>
          obtain ⟨rfl, rfl⟩ := ok_eq_ok.mp h
          -- a word in front of a parenthesis would be a call
          have hparen' := hc₁.peek_iff (t := .sign .parenOpen) hend rfl
          exact ⟨us.tail, by rw [if_neg fun hp => hparen (hparen'.mp hp)], hc₁⟩
    · intro h
      cases h

theorem arguments_succ (hn : Steady more n) (hm : n ≤ m) {close : Sign} :
    Carries more (fun _ => true) (Parser.arguments (n + 1) close)
      (Parser.arguments (m + 1) close) := by
  intro ts us es r h hc hend
  rw [Parser.arguments_succ] at h ⊢
  split at h
  next hclose =>
    obtain ⟨rfl, rfl⟩ := ok_eq_ok.mp h
    exact ⟨us, by rw [if_pos (hc.peek_some hclose)], hc⟩
  next hclose =>
    have hne := ne_nil_of_shorter ((shrinks n).commas h)
    rw [hc.peek_eq hne, if_neg hclose]
    exact hn.commas hm h hc fun hr => (hend hr).mono fun _ ht => by cases ht

theorem commas_succ (hn : Steady more n) (hm : n ≤ m) :
    Carries more extendsList (Parser.commas (n + 1)) (Parser.commas (m + 1)) := by
  intro ts us es r h hc hend
  rw [Parser.commas_succ, bind_eq_ok] at h
  obtain ⟨⟨first, ts₁⟩, hx, h⟩ := h
  simp only [] at h
  split at h
  next hcomma =>
    have hne := ne_nil_of_peek hcomma
    rw [bind_eq_ok] at h
    obtain ⟨⟨rest, ts₂⟩, hy, h⟩ := h
    obtain ⟨rfl, rfl⟩ := ok_eq_ok.mp h
    obtain ⟨us₁, hx', hc₁⟩ := hn.assignment hm hx hc fun hr => absurd hr hne
    obtain ⟨us₂, hy', hc₂⟩ := hn.commas hm hy (hc₁.tail hne) hend
    refine ⟨us₂, ?_, hc₂⟩
    rw [Parser.commas_succ, hx', ok_bind]
    simp only [if_pos (hc₁.peek_some hcomma), hy', ok_bind]
  next hcomma =>
    obtain ⟨rfl, rfl⟩ := ok_eq_ok.mp h
    obtain ⟨us₁, hx', hc₁⟩ := hn.assignment hm hx hc fun hr => (hend hr).expr_of_list
    have hcomma' := hc₁.peek_iff (t := .sign .comma) hend rfl
    refine ⟨us₁, ?_, hc₁⟩
    rw [Parser.commas_succ, hx', ok_bind]
    simp only [if_neg fun hp => hcomma (hcomma'.mp hp)]

theorem itemAfter (hn : Steady more n) (hm : n ≤ m) {first : Expr} :
    Carries more (fun _ => true) (Parser.itemAfter n first) (Parser.itemAfter m first) := by
  intro ts us item r h hc hend
  rw [Parser.itemAfter] at h ⊢
  split at h
  next harrow =>
    rw [bind_eq_ok] at h
    obtain ⟨⟨value, ts₁⟩, hx, h⟩ := h
    obtain ⟨rfl, rfl⟩ := ok_eq_ok.mp h
    obtain ⟨us₁, hx', hc₁⟩ := hn.assignment hm hx (hc.tail (ne_nil_of_peek harrow))
      fun hr => (hend hr).mono fun _ ht => by cases ht
    exact ⟨us₁, by rw [if_pos (hc.peek_some harrow), hx', ok_bind], hc₁⟩
  next harrow =>
    obtain ⟨rfl, rfl⟩ := ok_eq_ok.mp h
    -- the other tokens do not start with an arrow, or the item would have a key
    have harrow' := hc.peek_iff (t := .sign .fatArrow) hend rfl
    exact ⟨us, by rw [if_neg fun hp => harrow (harrow'.mp hp)], hc⟩

theorem arrayItems_succ (hn : Steady more n) (hm : n ≤ m) {close : Sign} :
    Carries more (fun _ => true) (Parser.arrayItems (n + 1) close)
      (Parser.arrayItems (m + 1) close) := by
  intro ts us items r h hc hend
  rw [Parser.arrayItems_succ] at h ⊢
  split at h
  next hclose =>
    obtain ⟨rfl, rfl⟩ := ok_eq_ok.mp h
    exact ⟨us, by rw [if_pos (hc.peek_some hclose)], hc⟩
  next hclose =>
    simp only [bind_eq_ok] at h
    obtain ⟨⟨first, ts₁⟩, hx, ⟨item, ts₂⟩, hy, h⟩ := h
    have hne := ne_nil_of_shorter ((shrinks n).assignment hx)
    have hle := (shrinks n).itemAfter hy
    simp only [] at h
    rw [hc.peek_eq hne, if_neg hclose]
    split at h
    next hcomma =>
      have hne₂ := ne_nil_of_peek hcomma
      rw [bind_eq_ok] at h
      obtain ⟨⟨rest, ts₃⟩, hz, h⟩ := h
      obtain ⟨rfl, rfl⟩ := ok_eq_ok.mp h
      obtain ⟨us₁, hx', hc₁⟩ := hn.assignment hm hx hc fun hr =>
        absurd (eq_nil_of_shorter hr hle) hne₂
      obtain ⟨us₂, hy', hp', hc₂⟩ := Carries.closed (hn.itemAfter hm) hy hcomma hc₁
      obtain ⟨us₃, hz', hc₃⟩ := hn.arrayItems hm hz hc₂ hend
      refine ⟨us₃, ?_, hc₃⟩
      rw [hx', ok_bind, hy', ok_bind]
      simp only [if_pos hp', hz', ok_bind]
    next hcomma =>
      obtain ⟨rfl, rfl⟩ := ok_eq_ok.mp h
      obtain ⟨us₁, hx', hc₁⟩ := hn.assignment hm hx hc fun hr =>
        (hend (eq_nil_of_shorter hr hle)).mono fun _ ht => by cases ht
      obtain ⟨us₂, hy', hc₂⟩ := hn.itemAfter hm hy hc₁ hend
      -- the same for a comma and the next item
      have hcomma' := hc₂.peek_iff (t := .sign .comma) hend rfl
      refine ⟨us₂, ?_, hc₂⟩
      rw [hx', ok_bind, hy', ok_bind]
      simp only [if_neg fun hp => hcomma (hcomma'.mp hp)]

end Steady

/-- **Parsing carries over**: more depth, other places and other tokens after an expression change
nothing about it. -/
theorem steady (more : List Lexeme) (n : Nat) : Steady more n := by
  induction n with
  | zero => exact steady_zero more
  | succ n ih =>
    -- the greater depth is a successor too
    have below : ∀ {m}, n + 1 ≤ m → ∃ k, m = k + 1 ∧ n ≤ k := fun {m} hm =>
      ⟨m - 1, by omega, by omega⟩
    constructor
    · intro m hm
      obtain ⟨k, rfl, hk⟩ := below hm
      exact ih.assignment_succ hk
    · intro m hm
      obtain ⟨k, rfl, hk⟩ := below hm
      exact ih.choice_succ hk
    · intro m _ hm
      obtain ⟨k, rfl, hk⟩ := below hm
      exact ih.binary_succ hk
    · intro m _ _ hm
      obtain ⟨k, rfl, hk⟩ := below hm
      exact ih.operators_succ hk
    · intro m hm
      obtain ⟨k, rfl, hk⟩ := below hm
      exact ih.unary_succ hk
    · intro m hm
      obtain ⟨k, rfl, hk⟩ := below hm
      exact ih.postfixed_succ hk
    · intro m _ hm
      obtain ⟨k, rfl, hk⟩ := below hm
      exact ih.postfixes_succ hk
    · intro m hm
      obtain ⟨k, rfl, hk⟩ := below hm
      exact ih.primary_succ hk
    · intro m _ hm
      obtain ⟨k, rfl, hk⟩ := below hm
      exact ih.arguments_succ hk
    · intro m hm
      obtain ⟨k, rfl, hk⟩ := below hm
      exact ih.commas_succ hk
    · intro m _ hm
      obtain ⟨k, rfl, hk⟩ := below hm
      exact ih.arrayItems_succ hk

theorem Continues.depthBound_le (h : Continues more us ts) : depthBound ts ≤ depthBound us := by
  obtain ⟨vs, hvs, rfl⟩ := h
  have hlen := congrArg List.length hvs
  rw [List.length_map, List.length_map] at hlen
  rw [depthBound, depthBound, List.length_append, hlen]
  omega

/-- An expression is the same in front of tokens that do not go on with it. -/
theorem parseExpr_continues {e : Expr} {r : List Lexeme} (h : parseExpr ts = .ok (e, r))
    (hc : Continues more us ts) (hend : r = [] → Ends extendsExpr more) :
    ∃ r', parseExpr us = .ok (e, r') ∧ Continues more r' r :=
  (steady more _).assignment hc.depthBound_le h hc hend

/-- So is a postfix form. -/
theorem parsePostfix_continues {e : Expr} {r : List Lexeme} (h : parsePostfix ts = .ok (e, r))
    (hc : Continues more us ts) (hend : r = [] → Ends extendsPostfix more) :
    ∃ r', parsePostfix us = .ok (e, r') ∧ Continues more r' r :=
  (steady more _).postfixed hc.depthBound_le h hc hend

/-- So is a list of expressions. -/
theorem parseExprs_continues {es : List Expr} {r : List Lexeme} (h : parseExprs ts = .ok (es, r))
    (hc : Continues more us ts) (hend : r = [] → Ends extendsList more) :
    ∃ r', parseExprs us = .ok (es, r') ∧ Continues more r' r :=
  (steady more _).commas hc.depthBound_le h hc hend

end Stencil.Parser
