import Stencil.Proofs.Parsing.Lookahead

/-!
# Heads of loops over entries

The text of a loop over entries may be given in two parts, its collection and its binding.  What the
head of the loop is, is then told by the loop with an empty body alone: when the parser takes it for
one loop without statements, the head ends at the last parenthesis, and it is the same in front of
any other body.

## Main definitions

* `IdlesTo ls r` — up to the rest, the tokens are no statements at all.
* `emptyBlock` — the tokens of an empty body at the end of a template.

## Main results

* `idles` — without statements, only such tokens are taken.
* `parses_foreachHead_of_loop` — the head of a loop, in front of any body.
* `subject_eq` — its collection is what stands in front of `as`.
-/

namespace Stencil.Parser

/-! ### Statements that give nothing -/

/-- The tokens that can be no statement at all. -/
def isIdle : Token → Bool
  | .terminator | .sign .braceOpen | .sign .braceClose => true
  | _ => false

/-- The tokens up to the rest are idle. -/
def IdlesTo (ls r : List Lexeme) : Prop :=
  ∃ pre, ls = pre ++ r ∧ ∀ l ∈ pre, isIdle l.token = true

theorem IdlesTo.refl (ls : List Lexeme) : IdlesTo ls ls := ⟨[], rfl, by simp⟩

theorem IdlesTo.trans {ls ms r : List Lexeme} (h : IdlesTo ls ms) (h' : IdlesTo ms r) :
    IdlesTo ls r := by
  obtain ⟨pre, rfl, hpre⟩ := h
  obtain ⟨pre', rfl, hpre'⟩ := h'
  refine ⟨pre ++ pre', (List.append_assoc _ _ _).symm, fun l hl => ?_⟩
  exact (List.mem_append.mp hl).elim (hpre l) (hpre' l)

theorem IdlesTo.tail {ls : List Lexeme} {t : Token} (h : peek ls = some t)
    (ht : isIdle t = true) : IdlesTo ls ls.tail := by
  cases ls with
  | nil => cases h
  | cons l ls =>
    cases h
    exact ⟨[l], rfl, by simpa using ht⟩

/-- Of depth `n`, the parsers that give no statement take idle tokens only. -/
structure Idles (n : Nat) : Prop where
  statement : ∀ {ls r}, statement n ls = .ok ([], r) → IdlesTo ls r
  statements : ∀ {stop ls r}, statements n stop ls = .ok ([], r) → IdlesTo ls r
  block : ∀ {ls r}, block n ls = .ok ([], r) → IdlesTo ls r

/-- The outcome is no success without statements. -/
def GivesSome (x : Parse (List Stmt × List Lexeme)) : Prop := ∀ r, x ≠ .ok ([], r)

namespace GivesSome

theorem ok (s : Stmt) (ls : List Lexeme) : GivesSome (.ok ([s], ls)) := fun _ h => by cases h

theorem refuse (ls : List Lexeme) (expected : String) : GivesSome (Parser.refuse ls expected) :=
  fun _ h => by cases h

theorem bind {α : Type} {x : Parse α} {f : α → Parse (List Stmt × List Lexeme)}
    (h : ∀ a, GivesSome (f a)) : GivesSome (x >>= f) := by
  intro r hr
  obtain ⟨a, -, ha⟩ := bind_eq_ok.mp hr
  exact h a r ha

theorem ite {c : Prop} [Decidable c] {x y : Parse (List Stmt × List Lexeme)} (hx : GivesSome x)
    (hy : GivesSome y) : GivesSome (if c then x else y) := by
  split
  · exact hx
  · exact hy

end GivesSome

theorem givesSome_exitStmt (ls : List Lexeme) : GivesSome (exitStmt ls) := by
  unfold exitStmt
  split
  · exact .bind fun _ => .bind fun _ => .ok _ _
  · exact .bind fun _ => .bind fun _ => .ok _ _

/-- A word begins a statement. -/
theorem givesSome_word (n : Nat) (word : String) (a b : Nat) (ls : List Lexeme) :
    GivesSome (statement (n + 1) (⟨.word word, a, b⟩ :: ls)) := by
  rw [statement]
  refine .ite (.bind fun _ => .bind fun _ => .ok _ _) ?_
  refine .ite (.bind fun _ => .bind fun _ => .bind fun _ => .ok _ _) ?_
  refine .ite (.bind fun _ => .bind fun _ => .ok _ _) ?_
  refine .ite (.bind fun _ => .bind fun _ => .ok _ _) ?_
  refine .ite (.bind fun _ => .bind fun _ => .ok _ _) ?_
  refine .ite (.bind fun _ => .bind fun _ => .bind fun _ => .ok _ _) ?_
  refine .ite (.bind fun _ => .ok _ _) ?_
  refine .ite (.bind fun _ => .ok _ _) ?_
  refine .ite (givesSome_exitStmt ls) ?_
  exact .ite (.refuse _ _) (.bind fun _ => .bind fun _ => .ok _ _)

theorem givesSome_exprStmt (ls : List Lexeme) : GivesSome (exprStmt ls) :=
  .bind fun _ => .bind fun _ => .ok _ _

/-- A statement that gives nothing is a terminator or a block. -/
theorem statement_eq_nil {n : Nat} {ls r : List Lexeme} (h : statement (n + 1) ls = .ok ([], r)) :
    (peek ls = some .terminator ∧ r = ls.tail) ∨ block n ls = .ok ([], r) := by
  rcases ls with _ | ⟨⟨t, a, b⟩, ls⟩
  · exact absurd h (givesSome_exprStmt [] r)
  · cases t with
    | text s => cases h
    | terminator =>
      cases h
      exact .inl ⟨rfl, rfl⟩
    | word word => exact absurd h (givesSome_word n word a b ls r)
    | sign s =>
      cases s with
      | braceOpen => exact .inr h
      | _ => exact absurd h (givesSome_exprStmt _ r)
    | _ => exact absurd h (givesSome_exprStmt _ r)

theorem idles (n : Nat) : Idles n := by
  induction n with
  | zero => constructor <;> intros <;> contradiction
  | succ n ih =>
    constructor
    · intro ls r h
      obtain ⟨hpeek, rfl⟩ | h := statement_eq_nil h
      · exact .tail hpeek rfl
      · exact ih.block h
    · intro stop ls r h
      rw [statements.eq_def] at h
      simp only [] at h
      split at h
      · cases h
        exact .refl ls
      · split at h
        · cases h
        · obtain ⟨⟨first, ms⟩, h₁, h⟩ := bind_eq_ok.mp h
          obtain ⟨⟨rest, ms'⟩, h₂, h⟩ := bind_eq_ok.mp h
          obtain ⟨hnil, rfl⟩ := ok_eq_ok.mp h
          obtain ⟨rfl, rfl⟩ := List.append_eq_nil_iff.mp hnil
          exact (ih.statement h₁).trans (ih.statements h₂)
    · intro ls r h
      rw [block] at h
      obtain ⟨ms, h₁, h⟩ := bind_eq_ok.mp h
      obtain ⟨hopen, rfl⟩ := expect_eq_ok.mp h₁
      obtain ⟨⟨body, ms⟩, h₂, h⟩ := bind_eq_ok.mp h
      obtain ⟨ms', h₃, h⟩ := bind_eq_ok.mp h
      obtain ⟨hclose, rfl⟩ := expect_eq_ok.mp h₃
      obtain ⟨rfl, rfl⟩ := ok_eq_ok.mp h
      exact (IdlesTo.tail hopen rfl).trans ((ih.statements h₂).trans (.tail hclose rfl))

/-! ### A loop by itself -/

/-- The statements of a template take all tokens. -/
theorem eq_nil_of_statements_atEnd {n : Nat} {ls r : List Lexeme} {K : List Stmt}
    (h : statements n .atEnd ls = .ok (K, r)) : r = [] := by
  induction n generalizing ls K with
  | zero => cases h
  | succ n ih =>
    rw [statements.eq_def] at h
    simp only [] at h
    split at h
    next hstop =>
      obtain ⟨-, rfl⟩ := ok_eq_ok.mp h
      cases ls with
      | nil => rfl
      | cons l ls => cases hstop
    next =>
      split at h
      · cases h
      · obtain ⟨x, -, h⟩ := bind_eq_ok.mp h
        obtain ⟨y, hy, h⟩ := bind_eq_ok.mp h
        obtain ⟨-, rfl⟩ := ok_eq_ok.mp h
        exact ih hy

/-- The last place of a member splits a list in one way only. -/
theorem append_cons_inj_of_last {α : Type} {a : α} {xs ys xs' ys' : List α} (h : a ∉ ys)
    (h' : a ∉ ys') (heq : xs ++ a :: ys = xs' ++ a :: ys') : xs = xs' ∧ ys = ys' := by
  rcases List.append_eq_append_iff.mp heq with ⟨zs, rfl, hzs⟩ | ⟨zs, rfl, hzs⟩
  all_goals cases zs with
    | nil => simpa [eq_comm] using hzs
    | cons z zs =>
      obtain ⟨-, rfl⟩ := List.cons_eq_cons.mp hzs
      simp at h h'

/-- The tokens of an empty block at the end of a template. -/
def emptyBlock : List Token := [.sign .braceOpen, .sign .braceClose, .terminator]

/-- **A loop without statements** has the same head in front of any block. -/
theorem parses_foreachHead_of_loop {ls : List Lexeme} {vs us : List Token} {s v : Expr}
    {k : Option Expr} (h : parseStatements ls = .ok [.foreach s k v []])
    (hls : ls.map Lexeme.token = .word "foreach" :: (vs ++ .sign .parenClose :: emptyBlock))
    (hus : emptyBlock.length ≤ us.length) :
    Parses foreachHead (vs ++ .sign .parenClose :: us) (s, k, v) us := by
  obtain ⟨a, b, ls, rfl, htokens⟩ := tokens_cons hls
  -- the word begins the loop, and behind its head nothing but idle tokens are left
  obtain ⟨ls₁, hhead, hidle⟩ : ∃ ls₁, foreachHead ls = .ok ((s, k, v), ls₁) ∧ IdlesTo ls₁ [] := by
    rw [parseStatements, depthBound, List.length_cons] at h
    split at h
    next body r hbody =>
      cases h
      rw [statements.eq_def] at hbody
      simp only [Stop.holds, peek_cons, Option.isNone_some, Bool.false_eq_true, if_false] at hbody
      obtain ⟨⟨first, ms⟩, h₁, hbody⟩ := bind_eq_ok.mp hbody
      obtain ⟨⟨rest, ms'⟩, h₂, hbody⟩ := bind_eq_ok.mp hbody
      obtain ⟨hstmts, rfl⟩ := ok_eq_ok.mp hbody
      rw [statement_foreach] at h₁
      obtain ⟨⟨⟨s', k', v'⟩, ls₁⟩, hhead, h₁⟩ := bind_eq_ok.mp h₁
      obtain ⟨⟨body, ms₁⟩, hbody', h₁⟩ := bind_eq_ok.mp h₁
      obtain ⟨rfl, rfl⟩ := ok_eq_ok.mp h₁
      cases hstmts
      have hend := eq_nil_of_statements_atEnd h₂
      refine ⟨ls₁, hhead, ?_⟩
      rw [← hend]
      exact ((idles _).statement hbody').trans ((idles _).statements h₂)
    next => cases h
  rw [foreachHead_eq, bind_eq_ok] at hhead
  obtain ⟨⟨x, w⟩, hparts, hclose⟩ := hhead
  obtain ⟨r, hr, hclose⟩ := bind_eq_ok.mp hclose
  obtain ⟨hpeek, rfl⟩ := expect_eq_ok.mp hr
  obtain ⟨rfl, rfl⟩ := ok_eq_ok.mp hclose
  obtain ⟨pre, rfl, hpre⟩ := foresees_loopParts hparts
  obtain ⟨w₀, w, rfl⟩ := List.exists_cons_of_ne_nil (ne_nil_of_peek hpeek)
  have hw₀ : w₀.token = .sign .parenClose := Option.some.inj hpeek
  -- so the parenthesis behind the head is the last one
  have hidle' : Token.sign .parenClose ∉ w.map Lexeme.token := by
    obtain ⟨skipped, hskipped, hall⟩ := hidle
    rw [List.append_nil] at hskipped
    intro hmem
    obtain ⟨l, hl, hl'⟩ := List.mem_map.mp hmem
    have hidle := hall l (hskipped ▸ hl)
    rw [hl'] at hidle
    cases hidle
  rw [List.map_append, List.map_cons, hw₀] at htokens
  obtain ⟨rfl, hw⟩ := append_cons_inj_of_last hidle' (by decide) htokens
  have hlen := congrArg List.length hw
  rw [List.length_map] at hlen
  have hsame : (Token.sign .parenClose :: us).head? = ((w₀ :: w).map Lexeme.token).head? := by
    rw [List.map_cons, hw₀, List.head?_cons, List.head?_cons]
  intro ms hms
  obtain ⟨ms₁, hms₁, hrest⟩ := hpre hsame (by simp only [List.length_cons]; omega) ms hms
  obtain ⟨a, b, ms₁, rfl, hrest'⟩ := tokens_cons hrest
  exact ⟨ms₁, by rw [foreachHead_eq, hms₁, ok_bind]; rfl, hrest'⟩

/-- The collection of a loop is the expression in front of its binding. -/
theorem subject_eq {ts us r : List Token} {s v e : Expr} {k : Option Expr}
    (h : Parses foreachHead (.sign .parenOpen :: (ts ++ .word "as" :: us)) (s, k, v) r)
    (he : Parses parseExpr (ts ++ .word "as" :: us) e (.word "as" :: us)) : s = e := by
  -- any lexemes with these tokens will do
  obtain ⟨ls, hls⟩ : ∃ ls : List Lexeme, ls.map Lexeme.token = ts ++ .word "as" :: us :=
    ⟨(ts ++ .word "as" :: us).map (⟨·, 0, 0⟩), by rw [List.map_map]; exact List.map_id _⟩
  obtain ⟨rs, hrs, -⟩ := h (⟨.sign .parenOpen, 0, 0⟩ :: ls) (by rw [List.map_cons, hls])
  obtain ⟨ms, hms, -⟩ := he ls hls
  rw [foreachHead_eq, loopParts, expect_of_peek rfl, ok_bind, List.tail_cons, hms, ok_bind] at hrs
  obtain ⟨x, hx, hrs⟩ := bind_eq_ok.mp hrs
  obtain ⟨_, -, hx⟩ := bind_eq_ok.mp hx
  obtain ⟨y, -, hx⟩ := bind_eq_ok.mp hx
  obtain ⟨_, -, hrs⟩ := bind_eq_ok.mp hrs
  obtain ⟨hparts, -⟩ := ok_eq_ok.mp hrs
  have hsubject : x.1.1 = e := by
    split at hx
    · obtain ⟨z, -, hx⟩ := bind_eq_ok.mp hx
      exact (congrArg (·.1) (ok_eq_ok.mp hx).1).symm
    · exact (congrArg (·.1) (ok_eq_ok.mp hx).1).symm
  rw [← hsubject, hparts]

end Stencil.Parser
