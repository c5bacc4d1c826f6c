import Stencil.Proofs.Parsing.Printing

/-!
# Code as an operand

Code of an author becomes the left operand of an operator as it is, without parentheses around it.
That is right when the code by itself is parsed at the precedence of the operator: then it is parsed
in the same way in front of the operator, which goes on with all of it and not with its last part
alone.

## Main definitions

* `Joins q k ts e` — from depth `k` on, the tokens are taken for the expression, in front of an
  operator of at most the precedence `q` as well.

## Main results

* `joins_of_binary` — what is parsed at a precedence is an operand there.
* `Joins.standsFrom`, `Joins.operation` — the operand by itself, and with an operator behind it.
* `stands_guard` — the guard that a collection is there and has entries.
-/

namespace Stencil.Parser

variable {more us ts ls : List Lexeme} {vs ws : List Token} {left right e : Expr}
variable {n m q l k : Nat}

theorem Ends.postfixed_of_above (h : Ends (extendsAbove q) more) : Ends extendsPostfix more :=
  h.mono fun _ ht => (Bool.or_eq_false_iff.mp ht).1

/-- An operator that does not go on binds less tightly. -/
theorem Ends.not_lt_of_above {t : Token} {op : BinaryOp × Nat} (h : Ends (extendsAbove q) more)
    (ht : peek more = some t) (hop : binaryOp? t = some op) : ¬ q < op.2 := by
  have hnot := (Bool.or_eq_false_iff.mp (h t ht)).2
  rwa [hop, Option.any_some, decide_eq_false_iff_not] at hnot

/-! ### Operands in front of looser operators -/

/-- Operands joined by tighter operators are the same in front of a looser one. -/
theorem carries_above (more : List Lexeme) (n : Nat) : ∀ {m q : Nat}, n ≤ m →
    Carries more (extendsAbove q) (binary n (q + 1)) (binary m (q + 1)) ∧
      ∀ left, Carries more (extendsAbove q) (operators n (q + 1) left)
        (operators m (q + 1) left) := by
  induction n with
  | zero =>
    intro m q _
    constructor <;> intros <;> intro <;> intros <;> contradiction
  | succ n ih =>
    intro m q hm
    obtain ⟨m, rfl⟩ : ∃ k, m = k + 1 := ⟨m - 1, by omega⟩
    have hm : n ≤ m := Nat.le_of_succ_le_succ hm
    refine ⟨?binary, ?operators⟩
    case binary =>
      intro ts us e r h hc hend
      rw [binary_succ, bind_eq_ok] at h
      obtain ⟨⟨left, ts₁⟩, hx, h⟩ := h
      obtain ⟨us₁, hx', hc₁⟩ := (steady more n).unary hm hx hc fun hr =>
        (hend (eq_nil_of_shorter hr ((shrinks n).operators h))).postfixed_of_above
      obtain ⟨us₂, h', hc₂⟩ := (ih hm).2 left h hc₁ hend
      refine ⟨us₂, ?_, hc₂⟩
      rw [binary_succ, hx', ok_bind]
      exact h'
    case operators =>
      intro left ts us e r h hc hend
      rw [operators_succ] at h ⊢
      by_cases hts : ts = []
      · -- an operator that comes next is a looser one
        subst hts
        obtain ⟨rfl, rfl⟩ := ok_eq_ok.mp h
        rw [hc.eq_of_nil]
        cases hop : (peek more).bind binaryOp? with
        | none => exact ⟨more, rfl, hc.eq_of_nil ▸ hc⟩
        | some op =>
          obtain ⟨t, ht, hop⟩ := Option.bind_eq_some_iff.mp hop
          have hlow := (hend rfl).not_lt_of_above ht hop
          exact ⟨more, if_pos (by omega), hc.eq_of_nil ▸ hc⟩
      rw [hc.peek_eq hts]
      cases hop : (peek ts).bind binaryOp? with
      | none =>
        rw [hop] at h
        obtain ⟨rfl, rfl⟩ := ok_eq_ok.mp h
        exact ⟨us, rfl, hc⟩
      | some op =>
        rw [hop] at h
        simp only [] at h ⊢
        split at h
        next hlow =>
          obtain ⟨rfl, rfl⟩ := ok_eq_ok.mp h
          exact ⟨us, if_pos hlow, hc⟩
        next hlow =>
          obtain ⟨⟨right, ts₁⟩, hx, h⟩ := bind_eq_ok.mp h
          obtain ⟨us₁, hx', hc₁⟩ := (ih hm).1 hx (hc.tail hts) fun hr =>
            (hend (eq_nil_of_shorter hr ((shrinks n).operators h))).mono fun _ ht =>
              extendsAbove_mono (by omega) ht
          obtain ⟨us₂, h', hc₂⟩ := (ih hm).2 _ h hc₁ hend
          refine ⟨us₂, ?_, hc₂⟩
          rw [if_neg hlow, hx', ok_bind]
          exact h'

/-- Behind all operators of at least a precedence, looser ones go on with the whole operation. -/
theorem operators_reach {least : Nat} (hend : Ends (extendsAbove q) more) (hleast : least ≤ q) :
    ∀ {n m : Nat} {left : Expr} {ts us : List Lexeme}, n ≤ m →
      operators n q left ts = .ok (e, []) → Continues more us ts →
        ∃ j, m ≤ j + n ∧ operators m least left us = operators j least e more := by
  intro n
  induction n with
  | zero =>
    intro _ _ _ _ _ h
    cases h
  | succ n ih =>
    intro m left ts us hm h hc
    rw [operators_succ] at h
    cases hop : (peek ts).bind binaryOp? with
    | none =>
      rw [hop] at h
      obtain ⟨rfl, rfl⟩ := ok_eq_ok.mp h
      exact ⟨m, Nat.le_add_right m _, by rw [hc.eq_of_nil]⟩
    | some op =>
      obtain ⟨t, ht, -⟩ := Option.bind_eq_some_iff.mp hop
      have hne := ne_nil_of_peek ht
      rw [hop] at h
      simp only [] at h
      split at h
      next => exact absurd (ok_eq_ok.mp h).2 hne
      next hlow =>
        obtain ⟨m, rfl⟩ : ∃ k, m = k + 1 := ⟨m - 1, by omega⟩
        have hm : n ≤ m := Nat.le_of_succ_le_succ hm
        obtain ⟨⟨right, ts₁⟩, hx, h⟩ := bind_eq_ok.mp h
        obtain ⟨us₁, hx', hc₁⟩ := (carries_above more n hm).1 hx (hc.tail hne) fun _ =>
          hend.mono fun _ ht => extendsAbove_mono (by omega) ht
        obtain ⟨j, hj, heq⟩ := ih hm h hc₁
        refine ⟨j, by omega, ?_⟩
        rw [operators_succ, hc.peek_eq hne, hop, ← heq]
        simp only [if_neg (show ¬ op.2 < least by omega), hx', ok_bind]

/-- From depth `k` on, the tokens are taken for the expression, in front of anything that goes on
with no operator above the precedence `q`. -/
def Joins (q k : Nat) (ts : List Token) (e : Expr) : Prop :=
  ∀ ⦃n more least⦄ ⦃us : List Lexeme⦄, k ≤ n → least ≤ q → NotNext (extendsAbove q) more →
    us.map Lexeme.token = ts ++ more → ∃ j r, n ≤ j + k ∧ r.map Lexeme.token = more ∧
      binary n least us = operators j least e r

/-- **What is parsed at a precedence** is an operand there. -/
theorem joins_of_binary (h : binary (depthBound ls) q ls = .ok (e, [])) :
    Joins q (depthBound ls) (ls.map Lexeme.token) e := by
  intro n more least us hn hleast hmore hus
  obtain ⟨rest, hc, hrest⟩ := Continues.of_tokens hus
  have hend := hmore.ends hrest
  rw [depthBound] at h hn ⊢
  rw [binary_succ, bind_eq_ok] at h
  obtain ⟨⟨left, ts₁⟩, hx, h⟩ := h
  obtain ⟨n, rfl⟩ : ∃ k, n = k + 1 := ⟨n - 1, by omega⟩
  have hn : 12 * ls.length + 11 ≤ n := Nat.le_of_succ_le_succ hn
  obtain ⟨us₁, hx', hc₁⟩ := (steady rest _).unary hn hx hc fun _ => hend.postfixed_of_above
  obtain ⟨j, hj, heq⟩ := operators_reach hend hleast hn h hc₁
  refine ⟨j, rest, by omega, hrest, ?_⟩
  rw [binary_succ, hx', ok_bind, ← heq]

/-- So is an operand without operators. -/
theorem joins_of_unary (h : StandsFrom unary extendsPostfix k vs e) : Joins q (k + 1) vs e := by
  intro n more least us hn _ hmore hus
  obtain ⟨n, rfl⟩ : ∃ m, n = m + 1 := ⟨n - 1, by omega⟩
  obtain ⟨r, hr, hr'⟩ := h (Nat.le_of_succ_le_succ hn) (notNext_postfix_of_above hmore) us hus
  exact ⟨n, r, by omega, hr', by rw [binary_succ, hr, ok_bind]⟩

namespace Joins

/-- The operand by itself. -/
theorem standsFrom (h : Joins q k vs e) :
    StandsFrom (fun n => binary n 0) extendsBinary (k + 1) vs e := by
  intro n more hn hmore us hus
  obtain ⟨j, r, hj, hr, heq⟩ := h (Nat.le_of_succ_le hn) (Nat.zero_le q) hmore.above hus
  obtain ⟨j, rfl⟩ : ∃ i, j = i + 1 := ⟨j - 1, by omega⟩
  exact ⟨r, heq.trans (operators_of_notNext hmore hr), hr⟩

/-- The operand with an operator and a tighter operand behind it. -/
theorem operation (op : BinaryOp) (hl : Joins op.precedence k vs left)
    (hr : StandsFrom (fun n => binary n (op.precedence + 1)) extendsBinary l ws right) :
    StandsFrom (fun n => binary n 0) extendsBinary (k + l + 2) (vs ++ .sign op.sign :: ws)
      (.binary op left right) := by
  intro n more hn hmore us hus
  rw [List.append_assoc, List.cons_append] at hus
  have hop : NotNext (extendsAbove op.precedence) (.sign op.sign :: (ws ++ more)) :=
    notNext_cons (by cases op <;> rfl)
  obtain ⟨j, r, hj, hr₁, heq⟩ := hl (n := n) (by omega) (Nat.zero_le _) hop hus
  obtain ⟨j, rfl⟩ : ∃ i, j = i + 2 := ⟨j - 2, by omega⟩
  obtain ⟨a, b, r, rfl, hr₂⟩ := tokens_cons hr₁
  obtain ⟨r', h', hr'⟩ := hr (n := j + 1) (by omega) hmore r hr₂
  refine ⟨r', ?_, hr'⟩
  show binary n 0 us = _
  have h' : binary (j + 1) (op.precedence + 1) r = .ok (right, r') := h'
  rw [heq, operators_succ]
  simp only [peek_cons, Option.bind_some, binaryOp?_sign, List.tail_cons, Nat.not_lt_zero, if_false,
    h', ok_bind]
  exact operators_of_notNext hmore hr'

end Joins

/-! ### Guards -/

/-- The guard that a collection is there and has entries: both operands are the collection, one of
them as an argument. -/
theorem stands_guard (h : Joins 2 k vs e) (hk : k ≤ 12 * vs.length + 14)
    (hstart : ∃ t, vs.head? = some t ∧ startsExpr t = true) :
    Stands parseExpr extendsExpr (vs ++ .sign .and :: .word "count" ::
        .sign .parenOpen :: (vs ++ [.sign .parenClose]))
      (.binary .and e (.call "count" [e])) := by
  obtain ⟨t, ht, hstart⟩ := hstart
  have hne : vs ≠ [] := by
    rintro rfl
    cases ht
  have hclose : vs.head? ≠ some (.sign .parenClose) := by
    rw [ht]
    rintro ⟨⟩
    exact absurd hstart (by decide)
  have hcall := standsFrom_call (by decide) (by decide : small "count" ≠ "array")
    h.standsFrom.choice.assignment hclose hne
  have hand := Joins.operation .and h (hcall.binary 3)
  refine hand.choice.assignment.parseExpr ?_
  simp only [List.length_append, List.length_cons]
  omega

/-- The guard for a collection that is a postfix form. -/
theorem stands_guard_of_postfixed (h : parsePostfix ls = .ok (e, [])) (hcast : cast? ls = none) :
    Stands parseExpr extendsExpr (ls.map Lexeme.token ++ .sign .and :: .word "count" ::
        .sign .parenOpen :: (ls.map Lexeme.token ++ [.sign .parenClose]))
      (.binary .and e (.call "count" [e])) := by
  obtain ⟨t, ht, hs⟩ := starts_of_postfixed h
  rw [peek_eq_head?] at ht
  refine stands_guard (joins_of_unary (standsFrom_unary h hcast)) (by simp [depthBound]) ⟨t, ht, ?_⟩
  rw [startsExpr, hs, Bool.or_true]

theorem starts_of_binary {r : List Lexeme} (h : binary n q ls = .ok (e, r)) :
    ∃ t, (ls.map Lexeme.token).head? = some t ∧ startsExpr t = true := by
  cases n with
  | zero => cases h
  | succ n =>
    rw [binary_succ, bind_eq_ok] at h
    obtain ⟨x, hx, -⟩ := h
    rw [← peek_eq_head?]
    exact starts_of_unary hx

end Stencil.Parser
