import Stencil.Proofs.Parsing.Statements

/-!
# Programs at other places

A list of statements is parsed the same way wherever its tokens stand in a template, and with any
greater bound on the depth of calls.  So text in front of a template that parses changes nothing
about the statements of the template.

## Main definitions

* `Same us ts` — the same tokens, at other places.
* `Repeats y x` — the outcome `y` is a success with the tree of `x`, if that is one.
* `Repeated n` — every parser of statements of depth `n` repeats itself with greater depths.

## Main results

* `repeated` — all of them do.
* `parses_statements` — the statements of a template, wherever its tokens stand.
-/

namespace Stencil.Parser

variable {α β : Type} {ts us : List Lexeme}

/-! ### The same tokens -/

/-- The same tokens, wherever they stand. -/
abbrev Same (us ts : List Lexeme) : Prop := us.map Lexeme.token = ts.map Lexeme.token

theorem Same.continues (h : Same us ts) : Continues [] us ts :=
  ⟨us, h, (List.append_nil us).symm⟩

theorem Continues.same (h : Continues [] us ts) : Same us ts := by
  obtain ⟨vs, hvs, rfl⟩ := h
  rwa [List.append_nil]

theorem Same.peek_eq (h : Same us ts) : peek us = peek ts := by
  rw [peek_eq_head?, h, ← peek_eq_head?]

theorem Same.tail (h : Same us ts) : Same us.tail ts.tail := by
  rw [Same, List.map_tail, h, List.map_tail]

theorem Same.nil (h : Same us []) : us = [] := List.map_eq_nil_iff.mp h

theorem Same.cons {t : Lexeme} (h : Same us (t :: ts)) :
    ∃ a b vs, us = ⟨t.token, a, b⟩ :: vs ∧ Same vs ts := tokens_cons h

theorem ends_nil (p : Token → Bool) : Ends p [] := fun t ht => by cases ht

/-! ### The same outcomes -/

/-- If `x` is a success, `y` is one with the same tree, and with the same tokens after it. -/
def Repeats (y x : Parse (α × List Lexeme)) : Prop :=
  ∀ ⦃a r⦄, x = .ok (a, r) → ∃ r', y = .ok (a, r') ∧ Same r' r

namespace Repeats

variable {x y : Parse (α × List Lexeme)}

theorem ok (a : α) (h : Same us ts) : Repeats (.ok (a, us)) (.ok (a, ts)) := by
  rintro _ _ ⟨⟩
  exact ⟨us, rfl, h⟩

theorem refuse (expected : String) : Repeats y (refuse ts expected) := fun _ _ h => by cases h

theorem bind {F G : α × List Lexeme → Parse (β × List Lexeme)} (h : Repeats y x)
    (hFG : ∀ a r r', Same r' r → Repeats (G (a, r')) (F (a, r))) :
    Repeats (y >>= G) (x >>= F) := by
  intro b s hs
  obtain ⟨⟨a, r⟩, hx, hs⟩ := bind_eq_ok.mp hs
  obtain ⟨r', hy, hr⟩ := h hx
  rw [hy, ok_bind]
  exact hFG a r r' hr hs

theorem expect {F G : List Lexeme → Parse (β × List Lexeme)} {token : Token} {expected : String}
    (h : Same us ts) (hFG : ∀ {vs ws}, Same ws vs → Repeats (G ws) (F vs)) :
    Repeats (expect token expected us >>= G) (expect token expected ts >>= F) := by
  intro b s hs
  obtain ⟨_, hx, hs⟩ := bind_eq_ok.mp hs
  obtain ⟨hpeek, rfl⟩ := expect_eq_ok.mp hx
  rw [expect_of_peek (h.peek_eq.trans hpeek), ok_bind]
  exact hFG h.tail hs

theorem terminated {F G : List Lexeme → Parse (β × List Lexeme)} (h : Same us ts)
    (hFG : ∀ {vs ws}, Same ws vs → Repeats (G ws) (F vs)) :
    Repeats (terminated us >>= G) (terminated ts >>= F) := by
  rcases ts with _ | ⟨⟨t, a, b⟩, ts⟩
  · obtain rfl := h.nil
    exact hFG h
  · obtain ⟨a', b', us, rfl, hus⟩ := h.cons
    cases t with
    | terminator => exact hFG hus
    | _ =>
      intro _ _ hs
      cases hs

theorem ite {c : Prop} [Decidable c] {x' y' : Parse (α × List Lexeme)} (h : Repeats y x)
    (h' : Repeats y' x') : Repeats (if c then y else y') (if c then x else x') := by
  split
  · exact h
  · exact h'

end Repeats

/-! ### Parts of statements -/

theorem repeats_parseExpr (h : Same us ts) : Repeats (parseExpr us) (parseExpr ts) := by
  intro e r he
  obtain ⟨r', hr, hc⟩ := parseExpr_continues he h.continues fun _ => ends_nil _
  exact ⟨r', hr, hc.same⟩

theorem repeats_parsePostfix (h : Same us ts) : Repeats (parsePostfix us) (parsePostfix ts) := by
  intro e r he
  obtain ⟨r', hr, hc⟩ := parsePostfix_continues he h.continues fun _ => ends_nil _
  exact ⟨r', hr, hc.same⟩

theorem repeats_parseExprs (h : Same us ts) : Repeats (parseExprs us) (parseExprs ts) := by
  intro es r he
  obtain ⟨r', hr, hc⟩ := parseExprs_continues he h.continues fun _ => ends_nil _
  exact ⟨r', hr, hc.same⟩

theorem repeats_condition (h : Same us ts) : Repeats (condition us) (condition ts) :=
  .expect h fun h => (repeats_parseExpr h).bind fun e _ _ h => .expect h fun h => .ok e h

theorem repeats_binding (h : Same us ts) : Repeats (binding us) (binding ts) :=
  (repeats_parsePostfix h).bind fun e _ _ h => .ite (.ok e h) (.refuse _)

theorem repeats_exprsBefore (close : Token) (h : Same us ts) :
    Repeats (exprsBefore close us) (exprsBefore close ts) := by
  rw [exprsBefore, exprsBefore, h.peek_eq]
  exact .ite (.ok [] h) (repeats_parseExprs h)

theorem repeats_echoStmt (h : Same us ts) : Repeats (echoStmt us) (echoStmt ts) :=
  (repeats_parseExprs h).bind fun es _ _ h => .terminated h fun h => .ok [Stmt.echo es] h

theorem repeats_exprStmt (h : Same us ts) : Repeats (exprStmt us) (exprStmt ts) :=
  (repeats_parseExpr h).bind fun e _ _ h => .terminated h fun h => .ok [Stmt.expr e] h

theorem repeats_jumpStmt (stmt : Stmt) (h : Same us ts) :
    Repeats (jumpStmt stmt us) (jumpStmt stmt ts) := by
  rcases ts with _ | ⟨⟨t, a, b⟩, ts⟩
  · obtain rfl := h.nil
    exact .terminated h fun h => .ok [stmt] h
  · obtain ⟨a', b', us, rfl, hus⟩ := h.cons
    cases t with
    | int _ => exact .terminated hus fun h => .ok [stmt] h
    | _ => exact .terminated h fun h => .ok [stmt] h

theorem repeats_exitStmt (h : Same us ts) : Repeats (exitStmt us) (exitStmt ts) := by
  have hend : ∀ {us ts : List Lexeme}, Same us ts →
      Repeats (terminated us >>= fun us => .ok ([Stmt.exit], us))
        (terminated ts >>= fun ts => .ok ([Stmt.exit], ts)) :=
    fun h => .terminated h fun h => .ok [Stmt.exit] h
  rcases ts with _ | ⟨⟨t, a, b⟩, ts⟩
  · obtain rfl := h.nil
    exact hend h
  · obtain ⟨a', b', us, rfl, hus⟩ := h.cons
    cases t with
    | sign s =>
      cases s with
      | parenOpen => exact .expect hus hend
      | _ => exact hend h
    | _ => exact hend h

theorem repeats_foreachHead (h : Same us ts) : Repeats (foreachHead us) (foreachHead ts) := by
  refine .expect h fun h => (repeats_parseExpr h).bind fun subject _ _ h => .expect h fun h =>
    (repeats_binding h).bind fun first ts us h => ?_
  have hend : ∀ {us ts : List Lexeme} (key : Option Expr) (value : Expr), Same us ts →
      Repeats (expect (.sign .parenClose) "`)`" us >>= fun us => .ok ((subject, key, value), us))
        (expect (.sign .parenClose) "`)`" ts >>= fun ts => .ok ((subject, key, value), ts)) :=
    fun key value h => .expect h fun h => .ok (subject, key, value) h
  rcases ts with _ | ⟨⟨t, a, b⟩, ts⟩
  · obtain rfl := h.nil
    exact hend none first h
  · obtain ⟨a', b', us, rfl, hus⟩ := h.cons
    cases t with
    | sign s =>
      cases s with
      | fatArrow => exact (repeats_binding hus).bind fun value _ _ h => hend (some first) value h
      | _ => exact hend none first h
    | _ => exact hend none first h

theorem repeats_forHead (h : Same us ts) : Repeats (forHead us) (forHead ts) :=
  .expect h fun h => (repeats_exprsBefore _ h).bind fun init _ _ h => .expect h fun h =>
    (repeats_exprsBefore _ h).bind fun conds _ _ h => .expect h fun h =>
      (repeats_exprsBefore _ h).bind fun step _ _ h => .expect h fun h =>
        .ok (init, conds.getLast?, step) h

theorem repeats_armLabel (word : String) (h : Same us ts) :
    Repeats (armLabel word us) (armLabel word ts) := by
  rw [armLabel, armLabel]
  refine .ite ?_ ((repeats_parseExpr h).bind fun label ts us h => ?_)
  -- the sign behind the label is the same for both kinds of labels
  all_goals
    rcases ts with _ | ⟨⟨t, a, b⟩, ts⟩
    · exact .refuse _
    · obtain ⟨a', b', us, rfl, hus⟩ := h.cons
      cases t with
      | terminator => exact .ok _ hus
      | sign s =>
        cases s with
        | colon => exact .ok _ hus
        | _ => exact .refuse _
      | _ => exact .refuse _

/-! ### One depth after the other -/

/-- Every parser of depth `n` repeats itself with greater depths. -/
structure Repeated (n : Nat) : Prop where
  statements : ∀ {m stop ts us}, n ≤ m → Same us ts →
    Repeats (statements m stop us) (statements n stop ts)
  block : ∀ {m ts us}, n ≤ m → Same us ts → Repeats (block m us) (block n ts)
  statement : ∀ {m ts us}, n ≤ m → Same us ts → Repeats (statement m us) (statement n ts)
  branches : ∀ {m ts us}, n ≤ m → Same us ts → Repeats (branches m us) (branches n ts)
  arms : ∀ {m ts us}, n ≤ m → Same us ts → Repeats (arms m us) (arms n ts)

theorem repeated_zero : Repeated 0 := by
  constructor <;> intros <;> exact .refuse _

namespace Repeated

variable {n m : Nat}

theorem statements_succ (hn : Repeated n) (hm : n ≤ m) {stop : Stop} (h : Same us ts) :
    Repeats (Parser.statements (m + 1) stop us) (Parser.statements (n + 1) stop ts) := by
  rw [Parser.statements.eq_def, Parser.statements.eq_def n.succ]
  dsimp only
  rw [h.peek_eq]
  refine .ite (.ok [] h) ?_
  rcases ts with _ | ⟨t, ts⟩
  · exact .refuse _
  · obtain ⟨a, b, us, rfl, hus⟩ := h.cons
    exact (hn.statement hm h).bind fun first _ _ h =>
      (hn.statements hm h).bind fun rest _ _ h => .ok (first ++ rest) h

theorem block_succ (hn : Repeated n) (hm : n ≤ m) (h : Same us ts) :
    Repeats (Parser.block (m + 1) us) (Parser.block (n + 1) ts) := by
  rw [Parser.block, Parser.block]
  exact .expect h fun h => (hn.statements hm h).bind fun body _ _ h =>
    .expect h fun h => .ok body h

theorem statement_succ (hn : Repeated n) (hm : n ≤ m) (h : Same us ts) :
    Repeats (Parser.statement (m + 1) us) (Parser.statement (n + 1) ts) := by
  rcases ts with _ | ⟨⟨t, a, b⟩, ts⟩
  · obtain rfl := h.nil
    exact repeats_exprStmt h
  · obtain ⟨a', b', us, rfl, hus⟩ := h.cons
    cases t with
    | text s => exact .ok [Stmt.text s] hus
    | terminator => exact .ok [] hus
    | sign s =>
      cases s with
      | braceOpen => exact hn.block hm h
      | _ => exact repeats_exprStmt h
    | word word =>
      rw [Parser.statement, Parser.statement]
      refine .ite (repeats_echoStmt hus) (.ite ?_ (.ite ?_ (.ite ?_ (.ite ?_ (.ite ?_
        (.ite (repeats_jumpStmt .breakOut hus) (.ite (repeats_jumpStmt .continueOn hus)
          (.ite (repeats_exitStmt hus) (.ite (.refuse _) (repeats_exprStmt h))))))))))
      · exact (repeats_condition hus).bind fun cond _ _ h => (hn.statement hm h).bind
          fun body _ _ h => (hn.branches hm h).bind fun more _ _ h =>
            .ok [Stmt.cond (.mk cond body :: more.1) more.2] h
      · exact (repeats_foreachHead hus).bind fun head _ _ h => (hn.statement hm h).bind
          fun body _ _ h => .ok [Stmt.foreach head.1 head.2.1 head.2.2 body] h
      · exact (repeats_forHead hus).bind fun head _ _ h => (hn.statement hm h).bind
          fun body _ _ h => .ok [Stmt.forLoop head.1 head.2.1 head.2.2 body] h
      · exact (repeats_condition hus).bind fun cond _ _ h => (hn.statement hm h).bind
          fun body _ _ h => .ok [Stmt.whileLoop cond body] h
      · exact (repeats_condition hus).bind fun subject _ _ h => .expect h fun h =>
          (hn.arms hm h).bind fun arms _ _ h => .ok [Stmt.switch subject arms] h
    | _ => exact repeats_exprStmt h

theorem branches_succ (hn : Repeated n) (hm : n ≤ m) (h : Same us ts) :
    Repeats (Parser.branches (m + 1) us) (Parser.branches (n + 1) ts) := by
  -- a branch under a condition, and the ones behind it
  have hbranch : ∀ {us ts : List Lexeme}, Same us ts → Repeats
      (condition us >>= fun c => Parser.statement m c.2 >>= fun b => Parser.branches m b.2 >>=
        fun more => .ok ((Branch.mk c.1 b.1 :: more.1.1, more.1.2), more.2))
      (condition ts >>= fun c => Parser.statement n c.2 >>= fun b => Parser.branches n b.2 >>=
        fun more => .ok ((Branch.mk c.1 b.1 :: more.1.1, more.1.2), more.2)) :=
    fun h => (repeats_condition h).bind fun cond _ _ h => (hn.statement hm h).bind
      fun body _ _ h => (hn.branches hm h).bind fun more _ _ h =>
        .ok (.mk cond body :: more.1, more.2) h
  rcases ts with _ | ⟨⟨t, a, b⟩, ts⟩
  · obtain rfl := h.nil
    exact .ok ([], none) h
  · obtain ⟨a', b', us, rfl, hus⟩ := h.cons
    cases t with
    | word word =>
      rw [Parser.branches, Parser.branches, hus.peek_eq]
      refine .ite (hbranch hus) (.ite (.ite (hbranch hus.tail) ?_) (.ok ([], none) h))
      exact (hn.statement hm hus).bind fun body _ _ h => .ok ([], some body) h
    | _ => exact .ok ([], none) h

theorem arms_succ (hn : Repeated n) (hm : n ≤ m) (h : Same us ts) :
    Repeats (Parser.arms (m + 1) us) (Parser.arms (n + 1) ts) := by
  rcases ts with _ | ⟨⟨t, a, b⟩, ts⟩
  · exact .refuse _
  · obtain ⟨a', b', us, rfl, hus⟩ := h.cons
    cases t with
    | terminator =>
      rw [Parser.arms, Parser.arms]
      exact hn.arms hm hus
    | text s =>
      rw [Parser.arms, Parser.arms]
      exact .ite (hn.arms hm hus) (.refuse _)
    | sign s =>
      cases s with
      | braceClose => exact .ok [] hus
      | _ => exact .refuse _
    | word word =>
      rw [Parser.arms, Parser.arms]
      refine .ite ?_ (.refuse _)
      exact (repeats_armLabel word hus).bind fun label _ _ h => (hn.statements hm h).bind
        fun body _ _ h => (hn.arms hm h).bind fun more _ _ h => .ok (.mk label body :: more) h
    | _ => exact .refuse _

end Repeated

/-- **Parsers of statements repeat themselves** at other places and with greater depths. -/
theorem repeated (n : Nat) : Repeated n := by
  induction n with
  | zero => exact repeated_zero
  | succ n ih =>
    -- the greater depth is a successor too
    have below : ∀ {m}, n + 1 ≤ m → ∃ k, m = k + 1 ∧ n ≤ k := fun {m} hm =>
      ⟨m - 1, by omega, by omega⟩
    constructor
    · intro m _ _ _ hm
      obtain ⟨k, rfl, hk⟩ := below hm
      exact ih.statements_succ hk
    · intro m _ _ hm
      obtain ⟨k, rfl, hk⟩ := below hm
      exact ih.block_succ hk
    · intro m _ _ hm
      obtain ⟨k, rfl, hk⟩ := below hm
      exact ih.statement_succ hk
    · intro m _ _ hm
      obtain ⟨k, rfl, hk⟩ := below hm
      exact ih.branches_succ hk
    · intro m _ _ hm
      obtain ⟨k, rfl, hk⟩ := below hm
      exact ih.arms_succ hk

/-- The statements of a template, wherever its tokens stand, with enough depth. -/
theorem parses_statements {body : List Stmt} (h : parseStatements ts = .ok body) :
    ∃ r, ∀ {n}, depthBound ts ≤ n →
      Parses (statements n .atEnd) (ts.map Lexeme.token) body r := by
  rw [parseStatements] at h
  split at h
  next K rs hK =>
    cases h
    exact ⟨rs.map Lexeme.token, fun hn us hus => (repeated _).statements hn hus hK⟩
  next => cases h

end Stencil.Parser
