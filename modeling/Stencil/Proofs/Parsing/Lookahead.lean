import Stencil.Proofs.Parsing.Statements

/-!
# One token ahead

Behind the tokens that it consumes, a parser of expressions looks at one token and no farther.  So
what it makes of them stays, wherever they stand, when the tokens behind them are exchanged for
others that start with the same one.

The parsers are put together from a few parts, and every part looks one token ahead: a result, a
refusal, a decision about the next token, the step over it, and two parsers in sequence.

## Main definitions

* `Foresees f` — the parser looks one token ahead.
* `Ahead n` — the functions of depth `n` do.

## Main results

* `Foresees.seq`, `Foresees.decide`, `Foresees.tail` — the parts.
* `ahead` — all functions look one token ahead.
* `foresees_parseExpr`, `foresees_parsePostfix` — the parsers.
-/

namespace Stencil.Parser

variable {α β γ : Type} {f : List Lexeme → Parse (α × List Lexeme)}

/-- What the parser makes of the tokens that it consumes depends on those behind them only by the
first one.  Fewer of them give it less depth. -/
def Foresees (f : List Lexeme → Parse (α × List Lexeme)) : Prop :=
  ∀ ⦃ls a r⦄, f ls = .ok (a, r) → ∃ pre, ls = pre ++ r ∧
    ∀ ⦃us⦄, us.head? = (r.map Lexeme.token).head? → r.length ≤ us.length →
      Parses f (pre.map Lexeme.token ++ us) a us

namespace Foresees

theorem congr {g : List Lexeme → Parse (α × List Lexeme)} (h : Foresees g)
    (heq : ∀ ts, f ts = g ts) : Foresees f := by
  rwa [show f = g from funext heq]

theorem ok (a : α) : Foresees fun ts => .ok (a, ts) := by
  rintro ls _ _ ⟨⟩
  exact ⟨[], rfl, fun us _ _ ms hms => ⟨ms, rfl, hms⟩⟩

theorem refuse (expected : String) :
    Foresees fun ts => (Parser.refuse ts expected : Parse (α × _)) :=
  fun _ _ _ h => by cases h

/-- The tokens behind the first parser are exchanged together with those that the second one
consumes. -/
theorem bind {G : α × List Lexeme → Parse (β × List Lexeme)} (hf : Foresees f)
    (hG : ∀ a, Foresees fun ts => G (a, ts)) : Foresees fun ts => f ts >>= G := by
  intro ls b r h
  obtain ⟨⟨a, ms⟩, hx, hy⟩ := bind_eq_ok.mp h
  obtain ⟨pre, rfl, hpre⟩ := hf hx
  obtain ⟨pre', rfl, hpre'⟩ := hG a hy
  refine ⟨pre ++ pre', (List.append_assoc _ _ _).symm, fun us hhead hlen => ?_⟩
  rw [List.map_append, List.append_assoc]
  intro vs hvs
  have hhead' : (pre'.map Lexeme.token ++ us).head? = ((pre' ++ r).map Lexeme.token).head? := by
    rw [List.map_append, List.head?_append, List.head?_append, hhead]
  obtain ⟨vs₁, h₁, hvs₁⟩ := hpre hhead' (by simpa using hlen) vs hvs
  obtain ⟨vs₂, h₂, hvs₂⟩ := hpre' hhead hlen vs₁ hvs₁
  refine ⟨vs₂, ?_, hvs₂⟩
  show f vs >>= G = _
  rw [h₁, ok_bind]
  exact h₂

theorem seq {g : α → List Lexeme → Parse (β × List Lexeme)} (hf : Foresees f)
    (hg : ∀ a, Foresees (g a)) : Foresees fun ts => f ts >>= fun x => g x.1 x.2 :=
  hf.bind hg

theorem map (hf : Foresees f) (g : α → β) : Foresees fun ts => f ts >>= fun x => .ok (g x.1, x.2) :=
  hf.seq fun a => .ok (g a)

/-- A decision about the next token. -/
theorem decide (h : ∀ o, ∃ g, Foresees g ∧ ∀ ts, peek ts = o → f ts = g ts) : Foresees f := by
  intro ls a r hf
  obtain ⟨g, hg, hfg⟩ := h (peek ls)
  rw [hfg ls rfl] at hf
  obtain ⟨pre, rfl, hpre⟩ := hg hf
  refine ⟨pre, rfl, fun us hhead hlen vs hvs => ?_⟩
  have hpeek : peek vs = peek (pre ++ r) := by
    rw [peek_eq_head?, peek_eq_head?, hvs, List.map_append, List.head?_append, List.head?_append,
      hhead]
  rw [hfg vs hpeek]
  exact hpre hhead hlen vs hvs

/-- The step over the next token. -/
theorem tail (h : Foresees f) : Foresees fun ts => f ts.tail := by
  intro ls a r hf
  obtain ⟨pre, hpre, hrest⟩ := h hf
  cases ls with
  | nil =>
    obtain ⟨rfl, rfl⟩ := List.append_eq_nil_iff.mp hpre.symm
    refine ⟨[], rfl, fun us hhead hlen vs hvs => ?_⟩
    obtain rfl := List.head?_eq_none_iff.mp hhead
    obtain rfl := List.map_eq_nil_iff.mp hvs
    exact hrest rfl (Nat.le_refl _) [] rfl
  | cons l ls =>
    refine ⟨l :: pre, congrArg (l :: ·) hpre, fun us hhead hlen vs hvs => ?_⟩
    obtain ⟨_, _, vs, rfl, hvs'⟩ := tokens_cons hvs
    exact hrest hhead hlen vs hvs'

/-- A token that has to come next. -/
theorem expect (token : Token) (expected : String) (h : Foresees f) :
    Foresees fun ts => Parser.expect token expected ts >>= f := by
  refine decide fun o => ?_
  by_cases ho : o = some token
  · exact ⟨_, h.tail, fun ts hts => by rw [expect_of_peek (hts.trans ho), ok_bind]⟩
  · refine ⟨_, refuse expected, fun ts hts => ?_⟩
    rw [Parser.expect, if_neg (hts ▸ ho)]
    rfl

end Foresees

/-! ### Expressions -/

/-- The functions of depth `n` look one token ahead. -/
structure Ahead (n : Nat) : Prop where
  assignment : Foresees (assignment n)
  choice : Foresees (choice n)
  binary : ∀ least, Foresees (binary n least)
  operators : ∀ least left, Foresees (operators n least left)
  unary : Foresees (unary n)
  postfixed : Foresees (postfixed n)
  postfixes : ∀ base, Foresees (postfixes n base)
  primary : Foresees (primary n)
  arguments : ∀ close, Foresees (arguments n close)
  commas : Foresees (commas n)
  arrayItems : ∀ close, Foresees (arrayItems n close)

theorem ahead_zero : Ahead 0 := by
  constructor <;> intros <;> intro <;> intros <;> contradiction

namespace Ahead

variable {n : Nat}

theorem assignment_succ (hn : Ahead n) : Foresees (Parser.assignment (n + 1)) := by
  refine .congr (hn.choice.bind fun target => .decide fun o => ?_) (Parser.assignment_succ n)
  cases hop : o.bind assignOp? with
  | none => exact ⟨_, .ok target, fun ts hts => by simp only [hts, hop]⟩
  | some op =>
    by_cases hplace : target.isPlace = true
    · exact ⟨_, (hn.assignment.map (Expr.assign op target)).tail, fun ts hts => by
        simp only [hts, hop, if_pos hplace]⟩
    · exact ⟨_, .refuse "an operator (left side is not assignable)", fun ts hts => by
        simp only [hts, hop, if_neg hplace]⟩

theorem choice_succ (hn : Ahead n) : Foresees (Parser.choice (n + 1)) := by
  -- behind the question mark, the next token tells a short choice from a full one
  have hrest (cond : Expr) : Foresees fun ts =>
      if peek ts = some (.sign .colon) then
        Parser.assignment n ts.tail >>= fun y => .ok (Expr.fallback cond y.1, y.2)
      else
        Parser.assignment n ts >>= fun y => Parser.expect (.sign .colon) "`:`" y.2 >>= fun ts =>
          Parser.assignment n ts >>= fun z => .ok (Expr.choice cond y.1 z.1, z.2) := by
    refine .decide fun o => ?_
    by_cases ho : o = some (.sign .colon)
    · exact ⟨_, (hn.assignment.map (Expr.fallback cond)).tail,
        fun ts hts => if_pos (hts.trans ho)⟩
    · exact ⟨_, hn.assignment.seq fun yes =>
        .expect (.sign .colon) "`:`" (hn.assignment.map (Expr.choice cond yes)),
        fun ts hts => if_neg (hts ▸ ho)⟩
  refine .congr ((hn.binary 0).bind fun cond => .decide fun o => ?_) (Parser.choice_succ n)
  by_cases ho : o = some (.sign .question)
  · exact ⟨_, (hrest cond).tail, fun ts hts => if_pos (hts.trans ho)⟩
  · exact ⟨_, .ok cond, fun ts hts => if_neg (hts ▸ ho)⟩

theorem binary_succ (hn : Ahead n) (least : Nat) : Foresees (Parser.binary (n + 1) least) :=
  .congr (hn.unary.seq (hn.operators least)) (Parser.binary_succ n least)

theorem operators_succ (hn : Ahead n) (least : Nat) (left : Expr) :
    Foresees (Parser.operators (n + 1) least left) := by
  refine .congr (.decide fun o => ?_) (Parser.operators_succ n least left)
  cases hop : o.bind binaryOp? with
  | none => exact ⟨_, .ok left, fun ts hts => by simp only [hts, hop]⟩
  | some op =>
    by_cases hlow : op.2 < least
    · exact ⟨_, .ok left, fun ts hts => by simp only [hts, hop, if_pos hlow]⟩
    · exact ⟨_, ((hn.binary (op.2 + 1)).seq fun right =>
        hn.operators least (.binary op.1 left right)).tail,
        fun ts hts => by simp only [hts, hop, if_neg hlow]⟩

/-- What is no cast is none in front of other tokens. -/
theorem cast?_exchange {e : Expr} {pre r vs : List Lexeme} {us : List Token}
    (hcast : cast? (pre ++ r) = none) (hp : Parser.postfixed n (pre ++ r) = .ok (e, r))
    (hvs : vs.map Lexeme.token = pre.map Lexeme.token ++ us) : cast? vs = none := by
  by_cases hopen : peek (pre ++ r) = some (.sign .parenOpen)
  · have hlen := length_of_postfixed_paren hp hopen
    rw [List.length_append] at hlen
    match pre, hlen with
    | [], hlen => exact absurd hlen (by simp)
    | [_], hlen => exact absurd hlen (by simp [Nat.add_comm])
    | [_, _], hlen => exact absurd hlen (by simp [Nat.add_comm])
    | a :: b :: c :: pre, _ =>
      refine cast?_eq_none_of_peek hcast ?_ ?_ ?_
      · rw [peek_eq_head?, hvs]
        rfl
      · rw [peek_eq_head?, List.map_tail, hvs]
        rfl
      · rw [peek_eq_head?, List.map_tail, List.map_tail, hvs]
        rfl
  · have hne : pre ≠ [] := by
      rintro rfl
      exact absurd ((shrinks n).postfixed hp) (Nat.lt_irrefl _)
    obtain ⟨a, pre, rfl⟩ := List.exists_cons_of_ne_nil hne
    obtain ⟨_, _, vs, rfl, -⟩ := tokens_cons hvs
    rw [cast?_eq]
    exact if_neg hopen

theorem unary_succ (hn : Ahead n) : Foresees (Parser.unary (n + 1)) := by
  -- a cast is three tokens, and what is no cast stays none
  have hoperand : Foresees fun ts => (cast? ts).elim (Parser.postfixed n ts) fun y =>
      Parser.unary n y.2 >>= fun x => .ok (Expr.call y.1 [x.1], x.2) := by
    intro ls e r h
    cases hcast : cast? ls with
    | some x =>
      obtain ⟨function, rest⟩ := x
      simp only [hcast, Option.elim_some] at h
      obtain ⟨pre, rfl, hpre⟩ := hn.unary.map (fun e => Expr.call function [e]) h
      unfold cast? at hcast
      split at hcast
      next name _ _ _ _ rest =>
        obtain ⟨_, hname, hcast⟩ := Option.map_eq_some_iff.mp hcast
        obtain ⟨rfl, rfl⟩ := Prod.mk.inj hcast
        refine ⟨_ :: _ :: _ :: pre, rfl, fun us hhead hlen vs hvs => ?_⟩
        obtain ⟨_, _, vs₁, rfl, h₁⟩ := tokens_cons hvs
        obtain ⟨_, _, vs₂, rfl, h₂⟩ := tokens_cons h₁
        obtain ⟨_, _, vs₃, rfl, h₃⟩ := tokens_cons h₂
        simp only [cast?, hname, Option.map_some, Option.elim_some]
        exact hpre hhead hlen vs₃ h₃
      next => cases hcast
    | none =>
      simp only [hcast, Option.elim_none] at h
      obtain ⟨pre, rfl, hpre⟩ := hn.postfixed h
      refine ⟨pre, rfl, fun us hhead hlen vs hvs => ?_⟩
      simp only [cast?_exchange hcast h hvs, Option.elim_none]
      exact hpre hhead hlen vs hvs
  refine .congr (.decide fun o => ?_) (Parser.unary_succ n)
  cases hop : o.bind prefixed? with
  | some build =>
    have hbuilt : Foresees fun ts => Parser.unary n ts >>= fun x =>
        (build x.1).elim (Parser.refuse x.2 "a variable after `++`/`--`") fun e => .ok (e, x.2) := by
      refine hn.unary.bind fun operand => ?_
      cases hbuild : build operand with
      | some e =>
        refine .congr (.ok e) fun ts => ?_
        simp only [hbuild, Option.elim_some]
      | none =>
        refine .congr (.refuse "a variable after `++`/`--`") fun ts => ?_
        simp only [hbuild, Option.elim_none]
    refine ⟨_, hbuilt.tail, fun ts hts => ?_⟩
    simp only [hts, hop]
    congr 1
    funext x
    cases build x.1 <;> rfl
  | none =>
    refine ⟨_, hoperand, fun ts hts => ?_⟩
    simp only [hts, hop]
    cases cast? ts <;> rfl

theorem postfixed_succ (hn : Ahead n) : Foresees (Parser.postfixed (n + 1)) :=
  .congr (hn.primary.seq hn.postfixes) (Parser.postfixed_succ n)

theorem postfixes_succ (hn : Ahead n) (base : Expr) :
    Foresees (Parser.postfixes (n + 1) base) := by
  -- behind a member's name, the next token tells a call from a member
  have hname (name : String) : Foresees fun ts =>
      if peek ts = some (.sign .parenOpen) then
        Parser.arguments n .parenClose ts.tail >>= fun x =>
          Parser.expect (.sign .parenClose) "`)`" x.2 >>= fun ts =>
            Parser.postfixes n (.method base name x.1) ts
      else Parser.postfixes n (.member base name) ts := by
    refine .decide fun o => ?_
    by_cases ho : o = some (.sign .parenOpen)
    · exact ⟨_, ((hn.arguments .parenClose).seq fun args =>
        .expect (.sign .parenClose) "`)`" (hn.postfixes (.method base name args))).tail,
        fun ts hts => if_pos (hts.trans ho)⟩
    · exact ⟨_, hn.postfixes (.member base name), fun ts hts => if_neg (hts ▸ ho)⟩
  have harrow : Foresees fun ts => Parser.postfixes (n + 1) base (⟨.sign .arrow, 0, 0⟩ :: ts) := by
    refine .decide fun o => ?_
    by_cases ho : ∃ name, o = some (.word name)
    · obtain ⟨name, rfl⟩ := ho
      refine ⟨_, (hname name).tail, fun ts hts => ?_⟩
      simp only [Parser.postfixes_succ, peek_cons, List.tail_cons, hts]
      rfl
    · refine ⟨_, .refuse "a member name", fun ts hts => ?_⟩
      simp only [Parser.postfixes_succ, peek_cons, List.tail_cons]
      split
      next name hword => exact absurd ⟨name, hts.symm.trans hword⟩ ho
      next => rfl
  have hbracket : Foresees fun ts =>
      if peek ts = some (.sign .bracketClose) then Parser.postfixes n (.append base) ts.tail
      else Parser.assignment n ts >>= fun x =>
        Parser.expect (.sign .bracketClose) "`]`" x.2 >>= fun ts =>
          Parser.postfixes n (.index base x.1) ts := by
    refine .decide fun o => ?_
    by_cases ho : o = some (.sign .bracketClose)
    · exact ⟨_, (hn.postfixes (.append base)).tail, fun ts hts => if_pos (hts.trans ho)⟩
    · exact ⟨_, hn.assignment.seq fun key =>
        .expect (.sign .bracketClose) "`]`" (hn.postfixes (.index base key)),
        fun ts hts => if_neg (hts ▸ ho)⟩
  have hstep (up : Bool) : ∃ g, Foresees g ∧ ∀ ts : List Lexeme,
      (if base.isPlace then .ok (.step base up false, ts.tail) else .ok (base, ts)) = g ts := by
    by_cases hplace : base.isPlace = true
    · exact ⟨_, (Foresees.ok (Expr.step base up false)).tail, fun ts => if_pos hplace⟩
    · exact ⟨_, .ok base, fun ts => if_neg hplace⟩
  refine .congr (.decide fun o => ?_) (Parser.postfixes_succ n base)
  by_cases h₁ : o = some (.sign .arrow)
  · refine ⟨_, harrow.tail, fun ts hts => ?_⟩
    simp only [hts, h₁, Parser.postfixes_succ, peek_cons, List.tail_cons]
    rfl
  by_cases h₂ : o = some (.sign .bracketOpen)
  · exact ⟨_, hbracket.tail, fun ts hts => by simp only [hts, h₂]⟩
  by_cases h₃ : o = some (.sign .increment)
  · obtain ⟨g, hg, heq⟩ := hstep true
    exact ⟨g, hg, fun ts hts => by simp only [hts, h₃, heq]⟩
  by_cases h₄ : o = some (.sign .decrement)
  · obtain ⟨g, hg, heq⟩ := hstep false
    exact ⟨g, hg, fun ts hts => by simp only [hts, h₄, heq]⟩
  refine ⟨_, .ok base, fun ts hts => ?_⟩
  split <;> simp_all

theorem primary_succ (hn : Ahead n) : Foresees (Parser.primary (n + 1)) := by
  -- behind a word, the next token tells a call or an array from a constant
  have hword (name : String) : Foresees fun ts =>
      if peek ts = some (.sign .parenOpen) then
        if small name = "array" then
          Parser.arrayItems n .parenClose ts.tail >>= fun x =>
            Parser.expect (.sign .parenClose) "end of array" x.2 >>= fun ts =>
              .ok (Expr.array x.1, ts)
        else
          Parser.arguments n .parenClose ts.tail >>= fun x =>
            Parser.expect (.sign .parenClose) "`)`" x.2 >>= fun ts => .ok (Expr.call name x.1, ts)
      else .ok (Expr.const name, ts) := by
    refine .decide fun o => ?_
    by_cases ho : o = some (.sign .parenOpen)
    · by_cases harray : small name = "array"
      · exact ⟨_, ((hn.arrayItems .parenClose).seq fun items =>
          .expect (.sign .parenClose) "end of array" (.ok (Expr.array items))).tail,
          fun ts hts => by rw [if_pos (hts.trans ho), if_pos harray]⟩
      · exact ⟨_, ((hn.arguments .parenClose).seq fun args =>
          .expect (.sign .parenClose) "`)`" (.ok (Expr.call name args))).tail,
          fun ts hts => by rw [if_pos (hts.trans ho), if_neg harray]⟩
    · exact ⟨_, .ok (Expr.const name), fun ts hts => if_neg (hts ▸ ho)⟩
  refine .congr (.decide fun o => ?_) (Parser.primary_succ n)
  cases hatom : o.bind atom? with
  | some e => exact ⟨_, (Foresees.ok e).tail, fun ts hts => by simp only [hts, hatom]⟩
  | none =>
    by_cases h₁ : o = some (.sign .bracketOpen)
    · exact ⟨_, ((hn.arrayItems .bracketClose).seq fun items =>
        .expect (.sign .bracketClose) "end of array" (.ok (Expr.array items))).tail,
        fun ts hts => by simp only [hts, h₁]; rfl⟩
    by_cases h₂ : o = some (.sign .parenOpen)
    · exact ⟨_, (hn.assignment.seq fun inner =>
        .expect (.sign .parenClose) "`)`" (.ok inner)).tail,
        fun ts hts => by simp only [hts, h₂]; rfl⟩
    by_cases h₃ : ∃ name, o = some (.word name)
    · obtain ⟨name, rfl⟩ := h₃
      cases hliteral : wordLiteral? name with
      | some value => exact ⟨_, (Foresees.ok (Expr.literal value)).tail, fun ts hts => by
          simp only [hts, hatom, hliteral]⟩
      | none => exact ⟨_, (hword name).tail, fun ts hts => by
          simp only [hts, hatom, hliteral]⟩
    refine ⟨_, .refuse "an expression", fun ts hts => ?_⟩
    simp only [hts, hatom]
    split <;> simp_all

theorem arguments_succ (hn : Ahead n) (close : Sign) :
    Foresees (Parser.arguments (n + 1) close) := by
  refine .congr (.decide fun o => ?_) (Parser.arguments_succ n close)
  by_cases ho : o = some (.sign close)
  · exact ⟨_, .ok [], fun ts hts => if_pos (hts.trans ho)⟩
  · exact ⟨_, hn.commas, fun ts hts => if_neg (hts ▸ ho)⟩

theorem commas_succ (hn : Ahead n) : Foresees (Parser.commas (n + 1)) := by
  refine .congr (hn.assignment.bind fun first => .decide fun o => ?_) (Parser.commas_succ n)
  by_cases ho : o = some (.sign .comma)
  · exact ⟨_, (hn.commas.map (first :: ·)).tail, fun ts hts => if_pos (hts.trans ho)⟩
  · exact ⟨_, .ok [first], fun ts hts => if_neg (hts ▸ ho)⟩

theorem itemAfter (hn : Ahead n) (first : Expr) : Foresees (Parser.itemAfter n first) := by
  refine .decide fun o => ?_
  by_cases ho : o = some (.sign .fatArrow)
  · exact ⟨_, (hn.assignment.map (Item.keyed first)).tail, fun ts hts => by
      rw [Parser.itemAfter, if_pos (hts.trans ho)]⟩
  · exact ⟨_, .ok (Item.plain first), fun ts hts => by rw [Parser.itemAfter, if_neg (hts ▸ ho)]⟩

theorem arrayItems_succ (hn : Ahead n) (close : Sign) :
    Foresees (Parser.arrayItems (n + 1) close) := by
  refine .congr (.decide fun o => ?_) (Parser.arrayItems_succ n close)
  by_cases ho : o = some (.sign close)
  · exact ⟨_, .ok [], fun ts hts => if_pos (hts.trans ho)⟩
  refine ⟨_, hn.assignment.seq fun first => (hn.itemAfter first).seq fun item =>
    .decide (f := fun ts => if peek ts = some (.sign .comma) then
      Parser.arrayItems n close ts.tail >>= fun z => .ok (item :: z.1, z.2)
      else .ok ([item], ts)) fun o => ?_, fun ts hts => if_neg (hts ▸ ho)⟩
  by_cases ho : o = some (.sign .comma)
  · exact ⟨_, ((hn.arrayItems close).map (item :: ·)).tail, fun ts hts => if_pos (hts.trans ho)⟩
  · exact ⟨_, .ok [item], fun ts hts => if_neg (hts ▸ ho)⟩

end Ahead

/-- All functions look one token ahead. -/
theorem ahead (n : Nat) : Ahead n := by
  induction n with
  | zero => exact ahead_zero
  | succ n ih =>
    exact
      { assignment := ih.assignment_succ
        choice := ih.choice_succ
        binary := ih.binary_succ
        operators := ih.operators_succ
        unary := ih.unary_succ
        postfixed := ih.postfixed_succ
        postfixes := ih.postfixes_succ
        primary := ih.primary_succ
        arguments := ih.arguments_succ
        commas := ih.commas_succ
        arrayItems := ih.arrayItems_succ }

/-! ### The parsers -/

/-- A parser that starts with more depth the more tokens there are. -/
theorem Foresees.of_depth {F : Nat → List Lexeme → Parse (α × List Lexeme)} {p : Token → Bool}
    (h : ∀ n, Foresees (F n)) (hmore : ∀ {n m}, n ≤ m → Carries [] p (F n) (F m)) :
    Foresees fun ts => F (depthBound ts) ts := by
  intro ls a r hf
  obtain ⟨pre, rfl, hpre⟩ := h _ hf
  refine ⟨pre, rfl, fun us hhead hlen vs hvs => ?_⟩
  obtain ⟨ms, h₁, hms⟩ := hpre hhead hlen vs hvs
  have hdepth : depthBound (pre ++ r) ≤ depthBound vs := by
    have hlength := congrArg List.length hvs
    simp only [List.length_map, List.length_append] at hlength
    simp only [depthBound, List.length_append]
    omega
  obtain ⟨ms', h₂, hc⟩ := hmore hdepth h₁ ⟨vs, rfl, (List.append_nil vs).symm⟩
    fun _ t ht => by cases ht
  obtain ⟨_, hsame, rfl⟩ := hc
  exact ⟨_, h₂, by rw [List.append_nil, hsame, hms]⟩

theorem foresees_parseExpr : Foresees parseExpr :=
  .of_depth (fun n => (ahead n).assignment) fun h => (steady [] _).assignment h

theorem foresees_parsePostfix : Foresees parsePostfix :=
  .of_depth (fun n => (ahead n).postfixed) fun h => (steady [] _).postfixed h

theorem foresees_binding : Foresees binding :=
  foresees_parsePostfix.bind fun target => by
    by_cases hplace : target.isPlace = true
    · exact .congr (.ok target) fun ts => if_pos hplace
    · exact .congr (.refuse "a variable") fun ts => if_neg hplace

/-- The head of a loop over entries up to its closing parenthesis. -/
def loopParts (ts : List Lexeme) : Parse ((Expr × Option Expr × Expr) × List Lexeme) :=
  expect (.sign .parenOpen) "`(`" ts >>= fun ts =>
    parseExpr ts >>= fun x => expect (.word "as") "`as`" x.2 >>= fun ts =>
      binding ts >>= fun y =>
        if peek y.2 = some (.sign .fatArrow) then
          binding y.2.tail >>= fun z => .ok ((x.1, some y.1, z.1), z.2)
        else .ok ((x.1, none, y.1), y.2)

theorem foreachHead_eq (ts : List Lexeme) : foreachHead ts = loopParts ts >>= fun x =>
    expect (.sign .parenClose) "`)`" x.2 >>= fun ts => .ok (x.1, ts) := by
  rw [foreachHead, loopParts, bind_assoc]
  congr 1
  funext ts₁
  rw [bind_assoc]
  congr 1
  funext x
  obtain ⟨subject, ts₂⟩ := x
  simp only [bind_assoc]
  congr 1
  funext ts₃
  congr 1
  funext y
  obtain ⟨first, ts₄⟩ := y
  rcases ts₄ with _ | ⟨⟨t, _, _⟩, ts₅⟩
  · rfl
  · cases t with
    | sign s =>
      cases s with
      | fatArrow =>
        simp only [peek_cons, if_true, List.tail_cons]
        cases binding ts₅ <;> rfl
      | _ => rfl
    | _ => rfl

theorem foresees_loopParts : Foresees loopParts := by
  have hentry (subject first : Expr) : Foresees fun ts =>
      if peek ts = some (.sign .fatArrow) then
        binding ts.tail >>= fun z => .ok ((subject, some first, z.1), z.2)
      else .ok ((subject, none, first), ts) := by
    refine .decide fun o => ?_
    by_cases ho : o = some (.sign .fatArrow)
    · exact ⟨_, (foresees_binding.map fun value => (subject, some first, value)).tail,
        fun ts hts => if_pos (hts.trans ho)⟩
    · exact ⟨_, .ok (subject, none, first), fun ts hts => if_neg (hts ▸ ho)⟩
  exact .expect (.sign .parenOpen) "`(`" (foresees_parseExpr.seq fun subject =>
    .expect (.word "as") "`as`" (foresees_binding.seq (hentry subject)))

end Stencil.Parser
