import Stencil.Proofs.Parsing.Steady
import Stencil.Script.Parser.Stmt

/-!
# Statements token by token

A parser is described by what it makes of tokens, wherever these stand.  Expressions come with the
tokens that go on with them; statements come with a bound on the depth of calls that grows with the
number of tokens.  A statement whose body is a block needs only its head: the block may hold any
statements, read from any tokens.

## Main definitions

* `Parses f us a r` — the parser makes `a` of the tokens `us` and leaves the tokens `r`.
* `Gives f k us a r` — so does a parser with enough depth.
* `Stands f p ts a` — the tokens `ts` stand for `a` in front of tokens that do not go on with it.
* `IsHead ts wrap` — the tokens `ts` in front of a block stand for the statements that `wrap` makes
  of its body.

## Main results

* `gives_cons` — a statement in front of others.
* `gives_cond`, `gives_branches_elseif`, `gives_branches_else` — an `if` with its branches.
* `isHead_cond`, `isHead_while`, `isHead_for`, `isHead_foreach` — the heads.
-/

namespace Stencil.Parser

variable {α β : Type} {us vs r ts : List Token}

/-! ### Parsers and tokens -/

/-- Of the tokens `us` the parser makes `a`, and it leaves the tokens `r`. -/
def Parses (f : List Lexeme → Parse (α × List Lexeme)) (us : List Token) (a : α)
    (r : List Token) : Prop :=
  ∀ ls, ls.map Lexeme.token = us → ∃ rs, f ls = .ok (a, rs) ∧ rs.map Lexeme.token = r

/-- So does the parser when its depth is four times the number of tokens, and `k` more. -/
structure Gives (f : Nat → List Lexeme → Parse (α × List Lexeme)) (k : Nat) (us : List Token)
    (a : α) (r : List Token) : Prop where
  le : r.length ≤ us.length
  parses : ∀ {n}, 4 * us.length + k ≤ n → Parses (f n) us a r

/-- The first of the tokens does not satisfy `p`. -/
def NotNext (p : Token → Bool) (us : List Token) : Prop := ∀ t, us.head? = some t → p t = false

/-- The tokens `ts` stand for `a`, unless a token after them goes on with it. -/
def Stands (f : List Lexeme → Parse (α × List Lexeme)) (p : Token → Bool) (ts : List Token)
    (a : α) : Prop :=
  ∀ ⦃more⦄, NotNext p more → Parses f (ts ++ more) a more

theorem peek_eq_head? (ls : List Lexeme) : peek ls = (ls.map Lexeme.token).head? := by
  rw [peek, List.head?_map]

theorem notNext_cons {p : Token → Bool} {t : Token} (h : p t = false) : NotNext p (t :: us) := by
  rintro _ ⟨⟩
  exact h

theorem expect_tokens {t : Token} (expected : String) {ls : List Lexeme}
    (h : ls.map Lexeme.token = t :: us) :
    ∃ rs, expect t expected ls = .ok rs ∧ rs.map Lexeme.token = us := by
  refine ⟨ls.tail, expect_of_peek ?_, ?_⟩
  · rw [peek_eq_head?, h, List.head?_cons]
  · rw [List.map_tail, h, List.tail_cons]

theorem tokens_cons {t : Token} {ls : List Lexeme} (h : ls.map Lexeme.token = t :: us) :
    ∃ a b rest, ls = ⟨t, a, b⟩ :: rest ∧ rest.map Lexeme.token = us := by
  obtain ⟨l, rest, rfl, rfl, hrest⟩ := List.map_eq_cons_iff.mp h
  exact ⟨l.start, l.stop, rest, rfl, hrest⟩

/-- The tokens of a parser that is steady stand for what it makes of them. -/
theorem Continues.of_tokens {ls ts' : List Lexeme} {more : List Token}
    (h : ls.map Lexeme.token = ts'.map Lexeme.token ++ more) :
    ∃ rest, Continues rest ls ts' ∧ rest.map Lexeme.token = more := by
  obtain ⟨vs, rest, rfl, hvs, hrest⟩ := List.map_eq_append_iff.mp h
  exact ⟨rest, ⟨vs, hvs, rfl⟩, hrest⟩

theorem NotNext.ends {p : Token → Bool} {rest : List Lexeme} {more : List Token}
    (h : NotNext p more) (hrest : rest.map Lexeme.token = more) : Ends p rest := by
  intro t ht
  rw [peek_eq_head?, hrest] at ht
  exact h t ht

variable {ls : List Lexeme}

theorem stands_parseExpr {e : Expr} (h : parseExpr ls = .ok (e, [])) :
    Stands parseExpr extendsExpr (ls.map Lexeme.token) e := by
  intro more hmore us hus
  obtain ⟨rest, hc, hrest⟩ := Continues.of_tokens hus
  obtain ⟨r, hr, hc⟩ := parseExpr_continues h hc fun _ => hmore.ends hrest
  exact ⟨r, hr, by rw [hc.eq_of_nil, hrest]⟩

theorem stands_parsePostfix {e : Expr} (h : parsePostfix ls = .ok (e, [])) :
    Stands parsePostfix extendsPostfix (ls.map Lexeme.token) e := by
  intro more hmore us hus
  obtain ⟨rest, hc, hrest⟩ := Continues.of_tokens hus
  obtain ⟨r, hr, hc⟩ := parsePostfix_continues h hc fun _ => hmore.ends hrest
  exact ⟨r, hr, by rw [hc.eq_of_nil, hrest]⟩

theorem stands_parseExprs {es : List Expr} (h : parseExprs ls = .ok (es, [])) :
    Stands parseExprs extendsList (ls.map Lexeme.token) es := by
  intro more hmore us hus
  obtain ⟨rest, hc, hrest⟩ := Continues.of_tokens hus
  obtain ⟨r, hr, hc⟩ := parseExprs_continues h hc fun _ => hmore.ends hrest
  exact ⟨r, hr, by rw [hc.eq_of_nil, hrest]⟩

/-! ### Parts of heads -/

/-- An expression in parentheses. -/
theorem parses_condition {e : Expr} (h : Stands parseExpr extendsExpr ts e) :
    Parses condition (.sign .parenOpen :: (ts ++ .sign .parenClose :: us)) e us := by
  intro ls hls
  obtain ⟨ls₁, h₁, hls₁⟩ := expect_tokens "`(`" hls
  obtain ⟨ls₂, h₂, hls₂⟩ := h (notNext_cons rfl) ls₁ hls₁
  obtain ⟨ls₃, h₃, hls₃⟩ := expect_tokens "`)`" hls₂
  refine ⟨ls₃, ?_, hls₃⟩
  rw [condition, h₁, ok_bind, h₂, ok_bind]
  simp only [h₃, ok_bind]

/-- Expressions up to a token that ends them. -/
theorem parses_exprsBefore {es : List Expr} {close : Token} (hclose : extendsList close = false)
    (h : (ts = [] ∧ es = []) ∨
      (ts.head? ≠ some close ∧ ts ≠ [] ∧ Stands parseExprs extendsList ts es)) :
    Parses (exprsBefore close) (ts ++ close :: us) es (close :: us) := by
  intro ls hls
  rw [exprsBefore, peek_eq_head?, hls]
  obtain ⟨rfl, rfl⟩ | ⟨hne, hts, h⟩ := h
  · exact ⟨ls, if_pos rfl, hls⟩
  · obtain ⟨t, ts, rfl⟩ := List.exists_cons_of_ne_nil hts
    rw [List.cons_append, List.head?_cons, if_neg (by simpa using hne)]
    exact h (notNext_cons hclose) ls hls

theorem parses_forHead {init conds step : List Token} {es fs gs : List Expr}
    (hi : Parses (exprsBefore .terminator) (init ++ .terminator :: (conds ++ .terminator ::
      (step ++ .sign .parenClose :: us))) es (.terminator :: (conds ++ .terminator ::
      (step ++ .sign .parenClose :: us))))
    (hc : Parses (exprsBefore .terminator) (conds ++ .terminator ::
      (step ++ .sign .parenClose :: us)) fs (.terminator :: (step ++ .sign .parenClose :: us)))
    (hs : Parses (exprsBefore (.sign .parenClose)) (step ++ .sign .parenClose :: us) gs
      (.sign .parenClose :: us)) :
    Parses forHead (.sign .parenOpen :: (init ++ .terminator :: (conds ++ .terminator ::
      (step ++ .sign .parenClose :: us)))) (es, fs.getLast?, gs) us := by
  intro ls hls
  obtain ⟨ls₁, h₁, hls₁⟩ := expect_tokens "`(`" hls
  obtain ⟨ls₂, h₂, hls₂⟩ := hi ls₁ hls₁
  obtain ⟨ls₃, h₃, hls₃⟩ := expect_tokens "`;`" hls₂
  obtain ⟨ls₄, h₄, hls₄⟩ := hc ls₃ hls₃
  obtain ⟨ls₅, h₅, hls₅⟩ := expect_tokens "`;`" hls₄
  obtain ⟨ls₆, h₆, hls₆⟩ := hs ls₅ hls₅
  obtain ⟨ls₇, h₇, hls₇⟩ := expect_tokens "`)`" hls₆
  refine ⟨ls₇, ?_, hls₇⟩
  rw [forHead, h₁, ok_bind, h₂, ok_bind]
  simp only [h₃, h₄, h₅, h₆, h₇, ok_bind]

/-- A place that a loop binds. -/
theorem stands_binding {e : Expr} (h : Stands parsePostfix extendsPostfix ts e)
    (hplace : e.isPlace = true) : Stands binding extendsPostfix ts e := by
  intro more hmore ls hls
  obtain ⟨rs, hrs, hrs'⟩ := h hmore ls hls
  refine ⟨rs, ?_, hrs'⟩
  rw [binding, hrs, ok_bind]
  exact if_pos hplace

theorem parses_foreachHead {subject value : Expr}
    (hs : ∀ {us}, Parses parseExpr (ts ++ .word "as" :: us) subject (.word "as" :: us))
    (hv : Stands binding extendsPostfix vs value) :
    Parses foreachHead (.sign .parenOpen :: (ts ++ .word "as" :: (vs ++ .sign .parenClose :: us)))
      (subject, none, value) us := by
  intro ls hls
  obtain ⟨ls₁, h₁, hls₁⟩ := expect_tokens "`(`" hls
  obtain ⟨ls₂, h₂, hls₂⟩ := hs ls₁ hls₁
  obtain ⟨ls₃, h₃, hls₃⟩ := expect_tokens "`as`" hls₂
  obtain ⟨ls₄, h₄, hls₄⟩ := hv (notNext_cons rfl) ls₃ hls₃
  obtain ⟨a, b, ls₅, rfl, hls₅⟩ := tokens_cons hls₄
  refine ⟨ls₅, ?_, hls₅⟩
  rw [foreachHead, h₁, ok_bind, h₂, ok_bind]
  simp only [h₃, h₄, ok_bind]
  rfl

theorem parses_foreachHead_key {subject key value : Expr} {ks : List Token}
    (hs : ∀ {us}, Parses parseExpr (ts ++ .word "as" :: us) subject (.word "as" :: us))
    (hk : Stands binding extendsPostfix ks key)
    (hv : Stands binding extendsPostfix vs value) :
    Parses foreachHead (.sign .parenOpen :: (ts ++ .word "as" :: (ks ++ .sign .fatArrow ::
      (vs ++ .sign .parenClose :: us)))) (subject, some key, value) us := by
  intro ls hls
  obtain ⟨ls₁, h₁, hls₁⟩ := expect_tokens "`(`" hls
  obtain ⟨ls₂, h₂, hls₂⟩ := hs ls₁ hls₁
  obtain ⟨ls₃, h₃, hls₃⟩ := expect_tokens "`as`" hls₂
  obtain ⟨ls₄, h₄, hls₄⟩ := hk (notNext_cons rfl) ls₃ hls₃
  obtain ⟨a, b, ls₅, rfl, hls₅⟩ := tokens_cons hls₄
  obtain ⟨ls₆, h₆, hls₆⟩ := hv (notNext_cons rfl) ls₅ hls₅
  obtain ⟨ls₇, h₇, hls₇⟩ := expect_tokens "`)`" hls₆
  refine ⟨ls₇, ?_, hls₇⟩
  rw [foreachHead, h₁, ok_bind, h₂, ok_bind]
  simp only [h₃, h₄, h₆, h₇, ok_bind]

/-! ### Lists of statements -/

/-- Statements up to the token at which the list stops. -/
abbrev listUntil (stop : Stop) (n : Nat) : List Lexeme → Parse (List Stmt × List Lexeme) :=
  statements n stop

theorem gives_stop {stop : Stop} (h : stop.holds us.head? = true) :
    Gives (listUntil stop) 2 us [] us where
  le := Nat.le_refl _
  parses {n} hn ls hls := by
    obtain ⟨k, rfl⟩ : ∃ k, n = k + 1 := ⟨n - 1, by omega⟩
    refine ⟨ls, ?_, hls⟩
    have hpeek : stop.holds (peek ls) = true := by rw [peek_eq_head?, hls, h]
    show statements (k + 1) stop ls = _
    rw [statements.eq_def]
    exact if_pos hpeek

/-- A statement in front of others, at one depth. -/
theorem parses_cons {stop : Stop} {n : Nat} {ss K : List Stmt} (h : Parses (statement n) us ss vs)
    (hus : us ≠ []) (hstop : stop.holds us.head? = false)
    (hK : Parses (listUntil stop n) vs K r) : Parses (listUntil stop (n + 1)) us (ss ++ K) r := by
  intro ls hls
  obtain ⟨ls₁, h₁, hls₁⟩ := h ls hls
  obtain ⟨ls₂, h₂, hls₂⟩ := hK ls₁ hls₁
  refine ⟨ls₂, ?_, hls₂⟩
  obtain ⟨l, ls, rfl⟩ : ∃ l ls', ls = l :: ls' := by
    refine List.exists_cons_of_ne_nil ?_
    rintro rfl
    exact hus hls.symm
  have hpeek : stop.holds (peek (l :: ls)) = false := by rw [peek_eq_head?, hls, hstop]
  show statements (n + 1) stop (l :: ls) = _
  rw [statements.eq_def]
  simp only [hpeek, Bool.false_eq_true, if_false, h₁, h₂, ok_bind]

/-- A statement in front of others. -/
theorem gives_cons {stop : Stop} {K : List Stmt} (ss : List Stmt) (h : Gives statement 1 us ss vs)
    (hus : us ≠ []) (hstop : stop.holds us.head? = false) (hlt : vs.length < us.length)
    (hK : Gives (listUntil stop) 2 vs K r) : Gives (listUntil stop) 2 us (ss ++ K) r where
  le := Nat.le_trans hK.le (Nat.le_of_lt hlt)
  parses {n} hn := by
    obtain ⟨k, rfl⟩ : ∃ k, n = k + 1 := ⟨n - 1, by omega⟩
    exact parses_cons (h.parses (by omega)) hus hstop (hK.parses (by omega))

/-- Text between islands. -/
theorem gives_text {stop : Stop} {s : String} {K : List Stmt}
    (hK : Gives (listUntil stop) 2 us K r) :
    Gives (listUntil stop) 2 (.text s :: us) (.text s :: K) r := by
  refine gives_cons [.text s] ⟨Nat.le_succ _, ?_⟩ (List.cons_ne_nil _ _) ?_
    (Nat.lt_succ_self _) hK
  · intro n hn ls hls
    obtain ⟨k, rfl⟩ : ∃ k, n = k + 1 := ⟨n - 1, by omega⟩
    obtain ⟨a, b, rest, rfl, hrest⟩ := tokens_cons hls
    exact ⟨rest, rfl, hrest⟩
  · cases stop <;> rfl

/-- The end of an island is no statement. -/
theorem gives_terminator {stop : Stop} {K : List Stmt} (hK : Gives (listUntil stop) 2 us K r) :
    Gives (listUntil stop) 2 (.terminator :: us) K r := by
  refine gives_cons [] ⟨Nat.le_succ _, ?_⟩ (List.cons_ne_nil _ _) ?_
    (Nat.lt_succ_self _) hK
  · intro n hn ls hls
    obtain ⟨k, rfl⟩ : ∃ k, n = k + 1 := ⟨n - 1, by omega⟩
    obtain ⟨a, b, rest, rfl, hrest⟩ := tokens_cons hls
    exact ⟨rest, rfl, hrest⟩
  · cases stop <;> rfl

/-- Leaving a loop. -/
theorem gives_break {stop : Stop} {K : List Stmt} (hK : Gives (listUntil stop) 2 us K r) :
    Gives (listUntil stop) 2 (.word "break" :: .terminator :: us) (.breakOut :: K) r := by
  have hle : us.length < (Token.word "break" :: .terminator :: us).length :=
    Nat.lt_succ_of_lt (Nat.lt_succ_self _)
  refine gives_cons [.breakOut] ⟨Nat.le_of_lt hle, ?_⟩ (List.cons_ne_nil _ _) ?_ hle hK
  · intro n hn ls hls
    obtain ⟨k, rfl⟩ : ∃ k, n = k + 1 := ⟨n - 1, by omega⟩
    obtain ⟨a, b, rest, rfl, hrest⟩ := tokens_cons hls
    obtain ⟨c, d, rest', rfl, hrest'⟩ := tokens_cons hrest
    exact ⟨rest', rfl, hrest'⟩
  · cases stop <;> rfl

/-! ### Blocks and their heads -/

/-- A block holds the statements up to its closing brace. -/
theorem gives_block {B : List Stmt}
    (h : Gives (listUntil .atBrace) 2 us B (.sign .braceClose :: r)) :
    Gives block 0 (.sign .braceOpen :: us) B r where
  le := Nat.le_trans (Nat.le_succ _) (Nat.le_trans h.le (Nat.le_succ _))
  parses {n} hn ls hls := by
    rw [List.length_cons] at hn
    obtain ⟨k, rfl⟩ : ∃ k, n = k + 1 := ⟨n - 1, by omega⟩
    obtain ⟨ls₁, h₁, hls₁⟩ := expect_tokens "`\x7b`" hls
    obtain ⟨ls₂, h₂, hls₂⟩ := h.parses (n := k) (by omega) ls₁ hls₁
    obtain ⟨ls₃, h₃, hls₃⟩ := expect_tokens "`\x7d`" hls₂
    refine ⟨ls₃, ?_, hls₃⟩
    rw [block, h₁, ok_bind]
    simp only [h₂, h₃, ok_bind]

/-- The tokens are a block, whose statements take its place. -/
structure GivesBody (us : List Token) (B : List Stmt) (r : List Token) : Prop where
  opens : us.head? = some (.sign .braceOpen)
  block : Gives block 0 us B r

theorem GivesBody.statement {B : List Stmt} (h : GivesBody us B r) : Gives statement 1 us B r where
  le := h.block.le
  parses {n} hn ls hls := by
    obtain ⟨k, rfl⟩ : ∃ k, n = k + 1 := ⟨n - 1, by omega⟩
    obtain ⟨t, us, rfl⟩ : ∃ t us', us = t :: us' := by
      cases us with
      | nil => cases h.opens
      | cons t us => exact ⟨t, us, rfl⟩
    cases h.opens
    obtain ⟨a, b, rest, rfl, hrest⟩ := tokens_cons hls
    exact h.block.parses (by omega) _ hls

/-- No word comes first, so an `if` has no more branches. -/
def isWordToken : Token → Bool
  | .word _ => true
  | _ => false

theorem gives_branches_nil (h : NotNext isWordToken us) : Gives branches 1 us ([], none) us where
  le := Nat.le_refl _
  parses {n} hn ls hls := by
    obtain ⟨k, rfl⟩ : ∃ k, n = k + 1 := ⟨n - 1, by omega⟩
    refine ⟨ls, ?_, hls⟩
    rw [branches]
    rintro word a b rest rfl
    have hword := h (.word word) (by rw [← hls]; rfl)
    cases hword

/-- A branch under a condition. -/
theorem gives_branches_elseif {e : Expr} {B : List Stmt} {bs : List Branch}
    {o : Option (List Stmt)} (hc : Stands parseExpr extendsExpr ts e)
    (hb : Gives statement 1 us B vs) (hm : Gives branches 1 vs (bs, o) r) :
    Gives branches 1 (.word "elseif" :: .sign .parenOpen :: (ts ++ .sign .parenClose :: us))
      (.mk e B :: bs, o) r where
  le := by
    have h₁ := hm.le
    have h₂ := hb.le
    simp only [List.length_cons, List.length_append]
    omega
  parses {n} hn ls hls := by
    have hle := hb.le
    simp only [List.length_cons, List.length_append] at hn
    obtain ⟨k, rfl⟩ : ∃ k, n = k + 1 := ⟨n - 1, by omega⟩
    obtain ⟨a, b, rest, rfl, hrest⟩ := tokens_cons hls
    obtain ⟨ls₁, h₁, hls₁⟩ := parses_condition hc rest hrest
    obtain ⟨ls₂, h₂, hls₂⟩ := hb.parses (n := k) (by omega) ls₁ hls₁
    obtain ⟨ls₃, h₃, hls₃⟩ := hm.parses (n := k) (by omega) ls₂ hls₂
    refine ⟨ls₃, ?_, hls₃⟩
    have hstep : branches (k + 1) (⟨.word "elseif", a, b⟩ :: rest) = (do
        let c ← condition rest
        let s ← statement k c.2
        let m ← branches k s.2
        .ok ((.mk c.1 s.1 :: m.1.1, m.1.2), m.2)) := by
      rw [branches]
      rfl
    rw [hstep, h₁, ok_bind]
    simp only [h₂, h₃, ok_bind]

/-- The last branch. -/
theorem gives_branches_else {B : List Stmt} (hb : GivesBody us B r) :
    Gives branches 1 (.word "else" :: us) ([], some B) r where
  le := Nat.le_succ_of_le hb.block.le
  parses {n} hn ls hls := by
    rw [List.length_cons] at hn
    obtain ⟨k, rfl⟩ : ∃ k, n = k + 1 := ⟨n - 1, by omega⟩
    obtain ⟨a, b, rest, rfl, hrest⟩ := tokens_cons hls
    obtain ⟨ls₁, h₁, hls₁⟩ := hb.statement.parses (n := k) (by omega) rest hrest
    refine ⟨ls₁, ?_, hls₁⟩
    have hif : peek rest ≠ some (.word "if") := by
      rw [peek_eq_head?, hrest, hb.opens]
      simp
    have hstep : branches (k + 1) (⟨.word "else", a, b⟩ :: rest) = (do
        let s ← statement k rest
        .ok (([], some s.1), s.2)) := by
      rw [branches]
      exact if_neg hif
    rw [hstep, h₁, ok_bind]

/-- An `if` with its branches. -/
theorem gives_cond {e : Expr} {B : List Stmt} {bs : List Branch} {o : Option (List Stmt)}
    (hc : Stands parseExpr extendsExpr ts e) (hb : Gives statement 1 us B vs)
    (hm : Gives branches 1 vs (bs, o) r) :
    Gives statement 1 (.word "if" :: .sign .parenOpen :: (ts ++ .sign .parenClose :: us))
      [.cond (.mk e B :: bs) o] r where
  le := by
    have h₁ := hm.le
    have h₂ := hb.le
    simp only [List.length_cons, List.length_append]
    omega
  parses {n} hn ls hls := by
    have hle := hb.le
    simp only [List.length_cons, List.length_append] at hn
    obtain ⟨k, rfl⟩ : ∃ k, n = k + 1 := ⟨n - 1, by omega⟩
    obtain ⟨a, b, rest, rfl, hrest⟩ := tokens_cons hls
    obtain ⟨ls₁, h₁, hls₁⟩ := parses_condition hc rest hrest
    obtain ⟨ls₂, h₂, hls₂⟩ := hb.parses (n := k) (by omega) ls₁ hls₁
    obtain ⟨ls₃, h₃, hls₃⟩ := hm.parses (n := k) (by omega) ls₂ hls₂
    refine ⟨ls₃, ?_, hls₃⟩
    have hstep : statement (k + 1) (⟨.word "if", a, b⟩ :: rest) = (do
        let c ← condition rest
        let s ← statement k c.2
        let m ← branches k s.2
        .ok ([.cond (.mk c.1 s.1 :: m.1.1) m.1.2], m.2)) := by
      rw [statement]
      rfl
    rw [hstep, h₁, ok_bind]
    simp only [h₂, h₃, ok_bind]

/-- The tokens `ts` in front of a block stand for the statement that `wrap` makes of its body, when
no word follows the block. -/
structure IsHead (ts : List Token) (wrap : List Stmt → Stmt) : Prop where
  /-- No list of statements stops there. -/
  goesOn : ∀ stop : Stop, stop.holds ts.head? = false
  /-- The block becomes the body. -/
  gives : ∀ {us B r}, GivesBody us B r → NotNext isWordToken r →
    Gives statement 1 (ts ++ us) [wrap B] r

theorem isHead_cond {e : Expr} (hc : Stands parseExpr extendsExpr ts e) :
    IsHead (.word "if" :: .sign .parenOpen :: (ts ++ [.sign .parenClose]))
      fun B => .cond [.mk e B] none where
  goesOn stop := by cases stop <;> rfl
  gives {us B r} hb hr := by
    have h := gives_cond hc hb.statement (gives_branches_nil hr)
    simpa using h

/-- A head under a condition. -/
theorem IsHead.guarded {e : Expr} {wrap : List Stmt → Stmt} (h : IsHead vs wrap)
    (hc : Stands parseExpr extendsExpr ts e) :
    IsHead (.word "if" :: .sign .parenOpen :: (ts ++ .sign .parenClose :: vs))
      fun B => .cond [.mk e [wrap B]] none where
  goesOn stop := by cases stop <;> rfl
  gives {us B r} hb hr := by
    have h := gives_cond hc (h.gives hb hr) (gives_branches_nil hr)
    simpa using h

/-- A statement that is a word, what one parser makes of the tokens up to a block, and the block. -/
theorem gives_of_word {word : String} {B : List Stmt}
    (head : List Lexeme → Parse (α × List Lexeme)) (wrap : α → List Stmt → Stmt)
    (hstep : ∀ k a b rest, statement (k + 1) (⟨.word word, a, b⟩ :: rest) = (do
      let (x, ts) ← head rest
      let (body, ts) ← statement k ts
      .ok ([wrap x body], ts))) {x : α}
    (h : Parses head (ts ++ us) x us) (hb : GivesBody us B r) :
    Gives statement 1 (.word word :: (ts ++ us)) [wrap x B] r where
  le := by
    have := hb.block.le
    simp only [List.length_cons, List.length_append]
    omega
  parses {n} hn ls hls := by
    simp only [List.length_cons, List.length_append] at hn
    obtain ⟨k, rfl⟩ : ∃ k, n = k + 1 := ⟨n - 1, by omega⟩
    obtain ⟨a, b, rest, rfl, hrest⟩ := tokens_cons hls
    obtain ⟨ls₁, h₁, hls₁⟩ := h rest hrest
    obtain ⟨ls₂, h₂, hls₂⟩ := hb.statement.parses (n := k) (by omega) ls₁ hls₁
    refine ⟨ls₂, ?_, hls₂⟩
    rw [hstep, h₁, ok_bind]
    simp only [h₂, ok_bind]

/-- The head of such a statement. -/
theorem isHead_of_word {word : String} (head : List Lexeme → Parse (α × List Lexeme))
    (wrap : α → List Stmt → Stmt)
    (hstep : ∀ k a b rest, statement (k + 1) (⟨.word word, a, b⟩ :: rest) = (do
      let (x, ts) ← head rest
      let (body, ts) ← statement k ts
      .ok ([wrap x body], ts)))
    (hword : ∀ stop : Stop, stop.holds (some (.word word)) = false) {x : α}
    (h : ∀ {us}, Parses head (ts ++ us) x us) : IsHead (.word word :: ts) (wrap x) :=
  ⟨hword, fun hb _ => gives_of_word head wrap hstep h hb⟩

theorem isHead_while {e : Expr} (hc : Stands parseExpr extendsExpr ts e) :
    IsHead (.word "while" :: .sign .parenOpen :: (ts ++ [.sign .parenClose])) (.whileLoop e) := by
  refine isHead_of_word condition .whileLoop (fun k a b rest => ?_)
    (fun stop => by cases stop <;> rfl) ?_
  · rw [statement]
    rfl
  · intro us
    have h : Parses condition _ e us := parses_condition hc
    simpa using h

theorem isHead_for {es gs : List Expr} {c : Option Expr}
    (h : ∀ {us}, Parses forHead (ts ++ us) (es, c, gs) us) :
    IsHead (.word "for" :: ts) (.forLoop es c gs) := by
  refine isHead_of_word forHead (fun x => .forLoop x.1 x.2.1 x.2.2)
    (fun k a b rest => ?_) (fun stop => by cases stop <;> rfl) h
  rw [statement]
  rfl

theorem statement_foreach (n a b : Nat) (ls : List Lexeme) :
    statement (n + 1) (⟨.word "foreach", a, b⟩ :: ls) = (do
      let (x, ts) ← foreachHead ls
      let (body, ts) ← statement n ts
      .ok ([.foreach x.1 x.2.1 x.2.2 body], ts)) := by
  rw [statement]
  rfl

theorem isHead_foreach {subject value : Expr} {key : Option Expr}
    (h : ∀ {us}, Parses foreachHead (ts ++ us) (subject, key, value) us) :
    IsHead (.word "foreach" :: ts) (.foreach subject key value) :=
  isHead_of_word foreachHead (fun x => .foreach x.1 x.2.1 x.2.2) statement_foreach
    (fun stop => by cases stop <;> rfl) h

end Stencil.Parser
