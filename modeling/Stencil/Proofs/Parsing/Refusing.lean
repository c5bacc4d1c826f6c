import Stencil.Proofs.Parsing.Step

/-!
# What a parser refuses

A parser goes through the tokens that it is given.  What it leaves are tokens of these, and when it
refuses a token, it is one of these as well: no function makes up a token.  The functions are put
together from a few steps, and every step stays within the tokens.

## Main definitions

* `Within ls x` — the outcome `x` is about the tokens `ls` only.
* `Stays n`, `StaysStmt n` — the functions of depth `n` stay within the tokens they are given.

## Main results

* `Within.bind`, `Within.expect` — steps one after the other.
* `stays`, `staysStmt` — all functions stay within their tokens.
* `mem_of_parseStatements` — a token that is refused is one of the template.
-/

namespace Stencil.Parser

variable {α β : Type} {n : Nat} {ls ts : List Lexeme}

/-- What is left is within the tokens `ls`, and so is a token that is refused. -/
structure Within (ls : List Lexeme) (x : Parse (α × List Lexeme)) : Prop where
  ok : ∀ {a r}, x = .ok (a, r) → r ⊆ ls
  error : ∀ {u l}, x = .error u → u.token = some l → l ∈ ls

theorem tail_subset (h : ts ⊆ ls) : ts.tail ⊆ ls := fun _ hl => h (List.mem_of_mem_tail hl)

theorem subset_of_cons {l : Lexeme} (h : l :: ts ⊆ ls) : ts ⊆ ls := (List.cons_subset.mp h).2

/-! ### Steps -/

namespace Within

variable {x : Parse (α × List Lexeme)}

theorem intro {a : α} (h : ts ⊆ ls) : Within ls (.ok (a, ts)) where
  ok hx := by
    cases hx
    exact h
  error hx := by cases hx

theorem refuse {expected : String} (h : ts ⊆ ls) :
    Within ls (Parser.refuse ts expected : Parse (α × List Lexeme)) where
  ok hx := by cases hx
  error hx ht := by
    cases hx
    exact h (List.mem_of_mem_head? ht)

/-- A second step goes on with what the first one leaves. -/
theorem bind {f : α × List Lexeme → Parse (β × List Lexeme)} (hx : Within ls x)
    (hf : ∀ a r, r ⊆ ls → Within ls (f (a, r))) : Within ls (x >>= f) := by
  cases x with
  | ok y => exact hf y.1 y.2 (hx.ok rfl)
  | error u =>
    constructor
    case ok => exact fun h => nomatch h
    case error =>
      rintro _ _ ⟨⟩
      exact hx.error rfl

/-- A token that has to come next. -/
theorem expect {token : Token} {expected : String}
    {f : List Lexeme → Parse (β × List Lexeme)} (h : ts ⊆ ls)
    (hf : ∀ us, us ⊆ ls → Within ls (f us)) :
    Within ls (Parser.expect token expected ts >>= f) := by
  rw [Parser.expect]
  split
  · exact hf _ (tail_subset h)
  · exact refuse h

/-- The end of a statement. -/
theorem terminated {f : List Lexeme → Parse (β × List Lexeme)} (h : ts ⊆ ls)
    (hf : ∀ us, us ⊆ ls → Within ls (f us)) : Within ls (Parser.terminated ts >>= f) := by
  unfold Parser.terminated
  split
  · exact hf _ h
  · exact hf _ (subset_of_cons h)
  · exact refuse h

end Within

/-! ### Expressions -/

/-- The functions of depth `n` stay within the tokens that they are given. -/
structure Stays (n : Nat) : Prop where
  assignment : ∀ {ls ts}, ts ⊆ ls → Within ls (assignment n ts)
  choice : ∀ {ls ts}, ts ⊆ ls → Within ls (choice n ts)
  binary : ∀ {ls ts} least, ts ⊆ ls → Within ls (binary n least ts)
  operators : ∀ {ls ts} least left, ts ⊆ ls → Within ls (operators n least left ts)
  unary : ∀ {ls ts}, ts ⊆ ls → Within ls (unary n ts)
  postfixed : ∀ {ls ts}, ts ⊆ ls → Within ls (postfixed n ts)
  postfixes : ∀ {ls ts} base, ts ⊆ ls → Within ls (postfixes n base ts)
  primary : ∀ {ls ts}, ts ⊆ ls → Within ls (primary n ts)
  arguments : ∀ {ls ts} close, ts ⊆ ls → Within ls (arguments n close ts)
  commas : ∀ {ls ts}, ts ⊆ ls → Within ls (commas n ts)
  arrayItems : ∀ {ls ts} close, ts ⊆ ls → Within ls (arrayItems n close ts)

theorem stays_zero : Stays 0 := by
  constructor <;> intros <;> exact .refuse ‹_›

namespace Stays

theorem assignment_succ (hn : Stays n) (h : ts ⊆ ls) : Within ls (Parser.assignment (n + 1) ts) := by
  rw [Parser.assignment_succ]
  refine (hn.choice h).bind fun target r hr => ?_
  split
  · exact .intro hr
  · split
    · exact (hn.assignment (tail_subset hr)).bind fun _ _ => .intro
    · exact .refuse hr

theorem choice_succ (hn : Stays n) (h : ts ⊆ ls) : Within ls (Parser.choice (n + 1) ts) := by
  rw [Parser.choice_succ]
  refine (hn.binary 0 h).bind fun cond r hr => ?_
  split
  · split
    · exact (hn.assignment (tail_subset (tail_subset hr))).bind fun _ _ => .intro
    · refine (hn.assignment (tail_subset hr)).bind fun yes r hr => .expect hr fun us hus => ?_
      exact (hn.assignment hus).bind fun _ _ => .intro
  · exact .intro hr

theorem binary_succ (hn : Stays n) (least : Nat) (h : ts ⊆ ls) :
    Within ls (Parser.binary (n + 1) least ts) := by
  rw [Parser.binary_succ]
  exact (hn.unary h).bind fun left _ => hn.operators least left

theorem operators_succ (hn : Stays n) (least : Nat) (left : Expr) (h : ts ⊆ ls) :
    Within ls (Parser.operators (n + 1) least left ts) := by
  rw [Parser.operators_succ]
  split
  · exact .intro h
  · split
    · exact .intro h
    · exact (hn.binary _ (tail_subset h)).bind fun _ _ => hn.operators least _

theorem unary_succ (hn : Stays n) (h : ts ⊆ ls) : Within ls (Parser.unary (n + 1) ts) := by
  rw [Parser.unary_succ]
  split
  · refine (hn.unary (tail_subset h)).bind fun operand r hr => ?_
    split
    · exact .intro hr
    · exact .refuse hr
  · split
    next hcast =>
      unfold cast? at hcast
      split at hcast
      next =>
        obtain ⟨_, -, hcast⟩ := Option.map_eq_some_iff.mp hcast
        obtain ⟨-, rfl⟩ := Prod.mk.inj hcast
        have hrest := subset_of_cons (subset_of_cons (subset_of_cons h))
        exact (hn.unary hrest).bind fun _ _ => .intro
      next => cases hcast
    next => exact hn.postfixed h

theorem postfixed_succ (hn : Stays n) (h : ts ⊆ ls) : Within ls (Parser.postfixed (n + 1) ts) := by
  rw [Parser.postfixed_succ]
  exact (hn.primary h).bind fun base _ => hn.postfixes base

theorem postfixes_succ (hn : Stays n) (base : Expr) (h : ts ⊆ ls) :
    Within ls (Parser.postfixes (n + 1) base ts) := by
  have h₁ := tail_subset h
  have h₂ := tail_subset h₁
  rw [Parser.postfixes_succ]
  split
  · split
    · split
      · refine (hn.arguments .parenClose (tail_subset h₂)).bind fun args r hr => ?_
        exact .expect hr fun us => hn.postfixes _
      · exact hn.postfixes _ h₂
    · exact .refuse h₁
  · split
    · exact hn.postfixes _ h₂
    · exact (hn.assignment h₁).bind fun key r hr => .expect hr fun us => hn.postfixes _
  · split
    · exact .intro h₁
    · exact .intro h
  · split
    · exact .intro h₁
    · exact .intro h
  · exact .intro h

theorem primary_succ (hn : Stays n) (h : ts ⊆ ls) : Within ls (Parser.primary (n + 1) ts) := by
  have h₁ := tail_subset h
  have h₂ := tail_subset h₁
  rw [Parser.primary_succ]
  split
  · exact .intro h₁
  split
  · exact (hn.arrayItems .bracketClose h₁).bind fun _ r hr => .expect hr fun _ => .intro
  · exact (hn.assignment h₁).bind fun _ r hr => .expect hr fun _ => .intro
  · split
    · exact .intro h₁
    · split
      · split
        · exact (hn.arrayItems .parenClose h₂).bind fun _ r hr => .expect hr fun _ => .intro
        · exact (hn.arguments .parenClose h₂).bind fun _ r hr => .expect hr fun _ => .intro
      · exact .intro h₁
  · exact .refuse h

theorem arguments_succ (hn : Stays n) (close : Sign) (h : ts ⊆ ls) :
    Within ls (Parser.arguments (n + 1) close ts) := by
  rw [Parser.arguments_succ]
  split
  · exact .intro h
  · exact hn.commas h

theorem commas_succ (hn : Stays n) (h : ts ⊆ ls) : Within ls (Parser.commas (n + 1) ts) := by
  rw [Parser.commas_succ]
  refine (hn.assignment h).bind fun first r hr => ?_
  split
  · exact (hn.commas (tail_subset hr)).bind fun _ _ => .intro
  · exact .intro hr

theorem itemAfter (hn : Stays n) (first : Expr) (h : ts ⊆ ls) :
    Within ls (Parser.itemAfter n first ts) := by
  rw [Parser.itemAfter]
  split
  · exact (hn.assignment (tail_subset h)).bind fun _ _ => .intro
  · exact .intro h

theorem arrayItems_succ (hn : Stays n) (close : Sign) (h : ts ⊆ ls) :
    Within ls (Parser.arrayItems (n + 1) close ts) := by
  rw [Parser.arrayItems_succ]
  split
  · exact .intro h
  · refine (hn.assignment h).bind fun first r hr => (hn.itemAfter first hr).bind fun item r hr => ?_
    split
    · exact (hn.arrayItems close (tail_subset hr)).bind fun _ _ => .intro
    · exact .intro hr

end Stays

/-- The functions for expressions stay within their tokens. -/
theorem stays (n : Nat) : Stays n := by
  induction n with
  | zero => exact stays_zero
  | succ n ih =>
    exact
      { assignment := ih.assignment_succ
        choice := ih.choice_succ
        binary := ih.binary_succ
        operators := ih.operators_succ
        unary := ih.unary_succ
        postfixed := ih.postfixed_succ
        postfixes := ih.postfixes_succ
        primary := ih.primary_succ
        arguments := ih.arguments_succ
        commas := ih.commas_succ
        arrayItems := ih.arrayItems_succ }

theorem within_parseExpr (h : ts ⊆ ls) : Within ls (parseExpr ts) := (stays _).assignment h

theorem within_parsePostfix (h : ts ⊆ ls) : Within ls (parsePostfix ts) := (stays _).postfixed h

theorem within_parseExprs (h : ts ⊆ ls) : Within ls (parseExprs ts) := (stays _).commas h

/-! ### Parts of statements -/

theorem within_condition (h : ts ⊆ ls) : Within ls (condition ts) :=
  .expect h fun _ hus => (within_parseExpr hus).bind fun _ _ hr => .expect hr fun _ => .intro

theorem within_binding (h : ts ⊆ ls) : Within ls (binding ts) := by
  refine (within_parsePostfix h).bind fun target r hr => ?_
  dsimp only
  split
  · exact .intro hr
  · exact .refuse hr

theorem within_exprsBefore (close : Token) (h : ts ⊆ ls) : Within ls (exprsBefore close ts) := by
  rw [exprsBefore]
  split
  · exact .intro h
  · exact within_parseExprs h

theorem within_echoStmt (h : ts ⊆ ls) : Within ls (echoStmt ts) :=
  (within_parseExprs h).bind fun _ _ hr => .terminated hr fun _ => .intro

theorem within_exprStmt (h : ts ⊆ ls) : Within ls (exprStmt ts) :=
  (within_parseExpr h).bind fun _ _ hr => .terminated hr fun _ => .intro

theorem within_jumpStmt (stmt : Stmt) (h : ts ⊆ ls) : Within ls (jumpStmt stmt ts) := by
  unfold jumpStmt
  dsimp only
  split
  · exact .terminated (subset_of_cons h) fun _ => .intro
  · exact .terminated h fun _ => .intro

theorem within_exitStmt (h : ts ⊆ ls) : Within ls (exitStmt ts) := by
  unfold exitStmt
  split
  · exact .expect (subset_of_cons h) fun _ hus => .terminated hus fun _ => .intro
  · exact .terminated h fun _ => .intro

theorem within_foreachHead (h : ts ⊆ ls) : Within ls (foreachHead ts) := by
  refine .expect h fun _ h => (within_parseExpr h).bind fun _ _ h => .expect h fun _ h =>
    (within_binding h).bind fun _ _ h => ?_
  dsimp only
  split
  · refine (within_binding (subset_of_cons h)).bind fun _ _ h => ?_
    exact .expect h fun _ => .intro
  · exact .expect h fun _ => .intro

theorem within_forHead (h : ts ⊆ ls) : Within ls (forHead ts) :=
  .expect h fun _ h => (within_exprsBefore _ h).bind fun _ _ h => .expect h fun _ h =>
    (within_exprsBefore _ h).bind fun _ _ h => .expect h fun _ h =>
      (within_exprsBefore _ h).bind fun _ _ h => .expect h fun _ => .intro

theorem within_armLabel (word : String) (h : ts ⊆ ls) : Within ls (armLabel word ts) := by
  rw [armLabel]
  split
  · simp only [ok_bind]
    split
    · exact .intro (subset_of_cons h)
    · exact .intro (subset_of_cons h)
    · exact .refuse h
  · refine (within_parseExpr h).bind fun label us hus => ?_
    simp only [ok_bind]
    split
    · exact .intro (subset_of_cons hus)
    · exact .intro (subset_of_cons hus)
    · exact .refuse hus

/-! ### Statements -/

/-- The functions for statements of depth `n` stay within the tokens that they are given. -/
structure StaysStmt (n : Nat) : Prop where
  statements : ∀ {ls ts} stop, ts ⊆ ls → Within ls (statements n stop ts)
  block : ∀ {ls ts}, ts ⊆ ls → Within ls (block n ts)
  statement : ∀ {ls ts}, ts ⊆ ls → Within ls (statement n ts)
  branches : ∀ {ls ts}, ts ⊆ ls → Within ls (branches n ts)
  arms : ∀ {ls ts}, ts ⊆ ls → Within ls (arms n ts)

theorem staysStmt_zero : StaysStmt 0 := by
  constructor <;> intros <;> exact .refuse ‹_›

namespace StaysStmt

theorem statements_succ (hn : StaysStmt n) (stop : Stop) (h : ts ⊆ ls) :
    Within ls (Parser.statements (n + 1) stop ts) := by
  rw [statements.eq_def]
  dsimp only
  split
  · exact .intro h
  · split
    · exact .refuse h
    · exact (hn.statement h).bind fun _ _ hr => (hn.statements stop hr).bind fun _ _ => .intro

theorem block_succ (hn : StaysStmt n) (h : ts ⊆ ls) : Within ls (Parser.block (n + 1) ts) := by
  rw [Parser.block]
  exact .expect h fun _ hus => (hn.statements _ hus).bind fun _ _ hr => .expect hr fun _ => .intro

/-- A head and a body. -/
theorem head_body (hn : StaysStmt n) {x : Parse (α × List Lexeme)} (hx : Within ls x)
    (build : α → List Stmt → List Stmt) :
    Within ls (x >>= fun y => Parser.statement n y.2 >>= fun z => .ok (build y.1 z.1, z.2)) :=
  hx.bind fun _ _ hr => (hn.statement hr).bind fun _ _ => .intro

theorem word_succ (hn : StaysStmt n) (word : String) (a b : Nat)
    (h : ⟨.word word, a, b⟩ :: ts ⊆ ls) :
    Within ls (Parser.statement (n + 1) (⟨.word word, a, b⟩ :: ts)) := by
  have hrest := subset_of_cons h
  rw [Parser.statement]
  split
  · exact within_echoStmt hrest
  split
  · refine (within_condition hrest).bind fun _ _ hr => (hn.statement hr).bind fun _ _ hr => ?_
    exact (hn.branches hr).bind fun _ _ => .intro
  split
  · exact hn.head_body (within_foreachHead hrest) fun x body => [.foreach x.1 x.2.1 x.2.2 body]
  split
  · exact hn.head_body (within_forHead hrest) fun x body => [.forLoop x.1 x.2.1 x.2.2 body]
  split
  · exact hn.head_body (within_condition hrest) fun cond body => [.whileLoop cond body]
  split
  · refine (within_condition hrest).bind fun _ _ hr => .expect hr fun _ hus => ?_
    exact (hn.arms hus).bind fun _ _ => .intro
  split
  · exact within_jumpStmt _ hrest
  split
  · exact within_jumpStmt _ hrest
  split
  · exact within_exitStmt hrest
  split
  · exact .refuse h
  · exact within_exprStmt h

theorem statement_succ (hn : StaysStmt n) (h : ts ⊆ ls) :
    Within ls (Parser.statement (n + 1) ts) := by
  rcases ts with _ | ⟨⟨t, a, b⟩, ts⟩
  · exact within_exprStmt h
  · cases t with
    | text s => exact .intro (subset_of_cons h)
    | terminator => exact .intro (subset_of_cons h)
    | word word => exact hn.word_succ word a b h
    | sign s =>
      cases s with
      | braceOpen => exact hn.block h
      | _ => exact within_exprStmt h
    | _ => exact within_exprStmt h

theorem branches_succ (hn : StaysStmt n) (h : ts ⊆ ls) :
    Within ls (Parser.branches (n + 1) ts) := by
  unfold Parser.branches
  split
  next rest =>
    have hrest := subset_of_cons h
    split
    · exact (within_condition hrest).bind fun _ _ hr => (hn.statement hr).bind fun _ _ hr =>
        (hn.branches hr).bind fun _ _ => .intro
    split
    · split
      · exact (within_condition (tail_subset hrest)).bind fun _ _ hr =>
          (hn.statement hr).bind fun _ _ hr => (hn.branches hr).bind fun _ _ => .intro
      · exact (hn.statement hrest).bind fun _ _ => .intro
    · exact .intro h
  next => exact .intro h

theorem arms_succ (hn : StaysStmt n) (h : ts ⊆ ls) : Within ls (Parser.arms (n + 1) ts) := by
  unfold Parser.arms
  split
  · exact hn.arms (subset_of_cons h)
  · split
    · exact hn.arms (subset_of_cons h)
    · exact .refuse h
  · exact .intro (subset_of_cons h)
  · split
    · refine (within_armLabel _ (subset_of_cons h)).bind fun _ _ hr => ?_
      exact (hn.statements _ hr).bind fun _ _ hr => (hn.arms hr).bind fun _ _ => .intro
    · exact .refuse h
  · exact .refuse h

end StaysStmt

/-- The functions for statements stay within their tokens. -/
theorem staysStmt (n : Nat) : StaysStmt n := by
  induction n with
  | zero => exact staysStmt_zero
  | succ n ih =>
    exact
      { statements := ih.statements_succ
        block := ih.block_succ
        statement := ih.statement_succ
        branches := ih.branches_succ
        arms := ih.arms_succ }

/-- **A token that is refused is one of the template.** -/
theorem mem_of_parseStatements {u : Unexpected} {l : Lexeme} (h : parseStatements ts = .error u)
    (hl : u.token = some l) : l ∈ ts := by
  rw [parseStatements] at h
  split at h
  · cases h
  next u' hbody =>
    cases h
    exact ((staysStmt _).statements .atEnd (List.Subset.refl ts)).error hbody hl

end Stencil.Parser
