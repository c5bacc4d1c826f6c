import Stencil.Proofs.Parsing.Steady

/-!
# Literals are not read

A parser of expressions takes a string literal as one token and never asks what it holds.  So it
goes the same way over tokens that differ there only: where it finds an expression in the ones, it
finds one in the others, and what it leaves differs there only.  All that it decides about an
expression is whether this is a place, and a literal is none.

The parsers are followed in pairs, one for each list of tokens, and part by part: two results, a
refusal, a decision that comes out alike, the step over a token, and two parsers in sequence.

## Main definitions

* `Token.erased`, `SameForm` — tokens without what string literals hold.
* `Alike R f g` — where `f` parses, `g` parses tokens of the same form, and the results are related.
* `Unread n` — the functions of depth `n` do not read what string literals hold.

## Main results

* `Alike.bind`, `Alike.decide`, `Alike.tail` — the parts.
* `unread` — no function reads what string literals hold.
* `exists_parseExpr_of_sameForm` — expressions are found alike.
-/

namespace Stencil

/-- The token without what a string literal holds. -/
def Token.erased : Token → Token
  | .string _ => .string ""
  | t => t

theorem Token.erased_eq_iff {t u : Token} (hu : ∀ s, u ≠ .string s) : t.erased = u ↔ t = u := by
  cases t with
  | string s =>
    constructor
    · intro h
      exact absurd h.symm (hu "")
    · intro h
      exact absurd h.symm (hu s)
  | _ => rfl

namespace Parser

variable {α β γ δ ε : Type} {ts us : List Lexeme}

/-! ### Tokens of the same form -/

/-- The tokens are the same, except for what string literals hold. -/
def SameForm (ts us : List Lexeme) : Prop :=
  ts.map (fun l => l.token.erased) = us.map fun l => l.token.erased

theorem peek_of_erased {t : Token} (ht : ∀ s, t ≠ .string s) :
    (peek ts).map Token.erased = some t ↔ peek ts = some t := by
  rw [Option.map_eq_some_iff]
  constructor
  · rintro ⟨u, hu, he⟩
    rwa [(Token.erased_eq_iff ht).mp he] at hu
  · intro hp
    exact ⟨t, hp, (Token.erased_eq_iff ht).mpr rfl⟩

/-- A table with one entry for all string literals. -/
theorem bind_of_erased {o : Option Token} {F : Token → Option γ}
    (h : (peek ts).map Token.erased = o) (hF : ∀ t, F t.erased = F t) :
    (peek ts).bind F = o.bind F := by
  rw [← h]
  cases peek ts with
  | none => rfl
  | some t => exact (hF t).symm

namespace SameForm

theorem length_eq (h : SameForm ts us) : ts.length = us.length := by
  simpa using congrArg List.length h

theorem peek_erased (h : SameForm ts us) :
    (peek ts).map Token.erased = (peek us).map Token.erased := by
  have hhead := congrArg List.head? h
  simpa [peek, List.head?_map, Option.map_map, Function.comp_def] using hhead

theorem tail (h : SameForm ts us) : SameForm ts.tail us.tail := by
  have htail := congrArg List.tail h
  simpa [SameForm, List.map_tail] using htail

/-- A token that is no string literal stands in both places or in none. -/
theorem peek_iff (h : SameForm ts us) {t : Token} (ht : ∀ s, t ≠ .string s) :
    peek ts = some t ↔ peek us = some t := by
  rw [← peek_of_erased ht, ← peek_of_erased ht, h.peek_erased]

theorem peek_sign (h : SameForm ts us) (s : Sign) :
    peek ts = some (.sign s) ↔ peek us = some (.sign s) :=
  h.peek_iff (by simp)

theorem bind_eq (h : SameForm ts us) {F : Token → Option γ} (hF : ∀ t, F t.erased = F t) :
    (peek ts).bind F = (peek us).bind F := by
  rw [bind_of_erased h.peek_erased hF, bind_of_erased rfl hF]

end SameForm

/-! ### The parts of parsers -/

/-- Where the first parser makes something of tokens, the second one makes something of tokens of
the same form.  The results are related, and tokens of the same form are left. -/
def Alike (R : α → β → Prop) (f : List Lexeme → Parse (α × List Lexeme))
    (g : List Lexeme → Parse (β × List Lexeme)) : Prop :=
  ∀ ⦃ts us⦄, SameForm ts us → ∀ ⦃a r⦄, f ts = .ok (a, r) →
    ∃ b s, g us = .ok (b, s) ∧ R a b ∧ SameForm r s

namespace Alike

variable {R : α → β → Prop} {S : γ → δ → Prop} {f f' : List Lexeme → Parse (α × List Lexeme)}
  {g g' : List Lexeme → Parse (β × List Lexeme)}

theorem congr (h : Alike R f' g') (hf : ∀ ts, f ts = f' ts) (hg : ∀ ts, g ts = g' ts) :
    Alike R f g := by
  rwa [show f = f' from funext hf, show g = g' from funext hg]

theorem ok {a : α} {b : β} (h : R a b) : Alike R (fun ts => .ok (a, ts)) fun ts => .ok (b, ts) := by
  rintro ts us hts _ _ ⟨⟩
  exact ⟨b, us, rfl, h, hts⟩

theorem refuse (expected : String) :
    Alike R (fun ts => (Parser.refuse ts expected : Parse (α × _)))
      fun ts => (Parser.refuse ts expected : Parse (β × _)) :=
  fun _ _ _ _ _ h => by cases h

theorem bind {F : α × List Lexeme → Parse (γ × List Lexeme)}
    {G : β × List Lexeme → Parse (δ × List Lexeme)} (h : Alike R f g)
    (hrest : ∀ a b, R a b → Alike S (fun ts => F (a, ts)) fun ts => G (b, ts)) :
    Alike S (fun ts => f ts >>= F) fun ts => g ts >>= G := by
  intro ts us hts c r hparse
  obtain ⟨⟨a, ts₁⟩, hf, hF⟩ := bind_eq_ok.mp hparse
  obtain ⟨b, us₁, hg, hab, hts₁⟩ := h hts hf
  obtain ⟨d, s, hG, hcd, hr⟩ := hrest a b hab hts₁ hF
  exact ⟨d, s, bind_eq_ok.mpr ⟨(b, us₁), hg, hG⟩, hcd, hr⟩

theorem seq {F : α → List Lexeme → Parse (γ × List Lexeme)}
    {G : β → List Lexeme → Parse (δ × List Lexeme)} (h : Alike R f g)
    (hrest : ∀ a b, R a b → Alike S (F a) (G b)) :
    Alike S (fun ts => f ts >>= fun x => F x.1 x.2) fun ts => g ts >>= fun x => G x.1 x.2 :=
  h.bind hrest

theorem map {F : α → γ} {G : β → δ} (h : Alike R f g) (hS : ∀ a b, R a b → S (F a) (G b)) :
    Alike S (fun ts => f ts >>= fun x => .ok (F x.1, x.2))
      fun ts => g ts >>= fun x => .ok (G x.1, x.2) :=
  h.bind fun a b hab => .ok (hS a b hab)

theorem tail (h : Alike R f g) : Alike R (fun ts => f ts.tail) fun ts => g ts.tail :=
  fun _ _ hts _ _ hparse => h hts.tail hparse

/-- A decision that is the same for tokens of the same form. -/
theorem decide (k : List Lexeme → ε) (hk : ∀ ⦃ts us⦄, SameForm ts us → k ts = k us)
    (h : ∀ o, ∃ f' g', Alike R f' g' ∧ ∀ ts, k ts = o → f ts = f' ts ∧ g ts = g' ts) :
    Alike R f g := by
  intro ts us hts a r hparse
  obtain ⟨f', g', hfg, heq⟩ := h (k ts)
  rw [(heq ts rfl).1] at hparse
  rw [(heq us (hk hts).symm).2]
  exact hfg hts hparse

/-- A decision about the next sign. -/
theorem ite (s : Sign) (h : Alike R f g) (h' : Alike R f' g') :
    Alike R (fun ts => if peek ts = some (.sign s) then f ts else f' ts)
      fun ts => if peek ts = some (.sign s) then g ts else g' ts := by
  intro ts us hts a r hparse
  simp only [hts.peek_sign s] at hparse ⊢
  split
  next hpeek =>
    rw [if_pos hpeek] at hparse
    exact h hts hparse
  next hpeek =>
    rw [if_neg hpeek] at hparse
    exact h' hts hparse

/-- A sign that has to come next. -/
theorem expect (s : Sign) (expected : String) (h : Alike R f g) :
    Alike R (fun ts => Parser.expect (.sign s) expected ts >>= f)
      fun ts => Parser.expect (.sign s) expected ts >>= g := by
  intro ts us hts a r hparse
  obtain ⟨_, hexpect, hf⟩ := bind_eq_ok.mp hparse
  obtain ⟨hpeek, rfl⟩ := expect_eq_ok.mp hexpect
  obtain ⟨b, r', hg, hab, hr⟩ := h hts.tail hf
  exact ⟨b, r', bind_eq_ok.mpr ⟨_, expect_of_peek ((hts.peek_sign s).mp hpeek), hg⟩, hab, hr⟩

end Alike

/-! ### Expressions -/

/-- Both expressions are places, or none is. -/
structure SamePlace (a b : Expr) : Prop where
  isPlace_eq : a.isPlace = b.isPlace

/-- Any two results. -/
abbrev Any (_ : α) (_ : β) : Prop := True

/-- The functions of depth `n` do not read what string literals hold. -/
structure Unread (n : Nat) : Prop where
  assignment : Alike SamePlace (assignment n) (assignment n)
  choice : Alike SamePlace (choice n) (choice n)
  binary : ∀ least, Alike SamePlace (binary n least) (binary n least)
  operators : ∀ least a b, SamePlace a b →
    Alike SamePlace (operators n least a) (operators n least b)
  unary : Alike SamePlace (unary n) (unary n)
  postfixed : Alike SamePlace (postfixed n) (postfixed n)
  postfixes : ∀ a b, SamePlace a b → Alike SamePlace (postfixes n a) (postfixes n b)
  primary : Alike SamePlace (primary n) (primary n)
  arguments : ∀ close, Alike Any (arguments n close) (arguments n close)
  commas : Alike Any (commas n) (commas n)
  arrayItems : ∀ close, Alike Any (arrayItems n close) (arrayItems n close)

theorem unread_zero : Unread 0 := by
  constructor <;> intros <;> intro <;> intros <;> contradiction

namespace Unread

variable {n : Nat} {a b : Expr}

theorem assignment_succ (hn : Unread n) :
    Alike SamePlace (Parser.assignment (n + 1)) (Parser.assignment (n + 1)) := by
  refine .congr (hn.choice.bind fun a b hab => ?_) (Parser.assignment_succ n)
    (Parser.assignment_succ n)
  refine .decide (fun ts => (peek ts).bind assignOp?)
    (fun ts us hts => hts.bind_eq fun t => by cases t <;> rfl) fun o => ?_
  cases o with
  | none => exact ⟨_, _, .ok hab, fun ts hts => by simp only [hts, and_self]⟩
  | some op =>
    by_cases hplace : a.isPlace = true
    · have hplace' : b.isPlace = true := hab.isPlace_eq.symm.trans hplace
      exact ⟨_, _, (hn.assignment.map (S := SamePlace) (F := Expr.assign op a)
        (G := Expr.assign op b) fun _ _ _ => ⟨rfl⟩).tail, fun ts hts => by
        simp only [hts, if_pos hplace, if_pos hplace', and_self]⟩
    · have hplace' : ¬ b.isPlace = true := fun h => hplace (hab.isPlace_eq.trans h)
      exact ⟨_, _, .refuse "an operator (left side is not assignable)", fun ts hts => by
        simp only [hts, if_neg hplace, if_neg hplace', and_self]⟩

theorem choice_succ (hn : Unread n) :
    Alike SamePlace (Parser.choice (n + 1)) (Parser.choice (n + 1)) := by
  -- behind the question mark, a colon tells a short choice from a full one
  have hrest (a b : Expr) : Alike SamePlace
      (fun ts => if peek ts = some (.sign .colon) then
          Parser.assignment n ts.tail >>= fun y => .ok (Expr.fallback a y.1, y.2)
        else Parser.assignment n ts >>= fun y =>
          Parser.expect (.sign .colon) "`:`" y.2 >>= fun ts =>
            Parser.assignment n ts >>= fun z => .ok (Expr.choice a y.1 z.1, z.2))
      fun ts => if peek ts = some (.sign .colon) then
          Parser.assignment n ts.tail >>= fun y => .ok (Expr.fallback b y.1, y.2)
        else Parser.assignment n ts >>= fun y =>
          Parser.expect (.sign .colon) "`:`" y.2 >>= fun ts => Parser.assignment n ts >>= fun z => .ok (Expr.choice b y.1 z.1, z.2) :=
    .ite .colon (hn.assignment.map fun _ _ _ => ⟨rfl⟩).tail
      (hn.assignment.seq fun c d _ => .expect .colon "`:`"
        (hn.assignment.map (F := Expr.choice a c) (G := Expr.choice b d) fun _ _ _ => ⟨rfl⟩))
  exact .congr ((hn.binary 0).bind fun a b hab => .ite .question (hrest a b).tail (.ok hab))
    (Parser.choice_succ n) (Parser.choice_succ n)

theorem binary_succ (hn : Unread n) (least : Nat) :
    Alike SamePlace (Parser.binary (n + 1) least) (Parser.binary (n + 1) least) :=
  .congr (hn.unary.bind (hn.operators least)) (Parser.binary_succ n least)
    (Parser.binary_succ n least)

theorem operators_succ (hn : Unread n) (least : Nat) (hab : SamePlace a b) :
    Alike SamePlace (Parser.operators (n + 1) least a) (Parser.operators (n + 1) least b) := by
  refine .congr (.decide (fun ts => (peek ts).bind binaryOp?)
    (fun ts us hts => hts.bind_eq fun t => by cases t <;> rfl) fun o => ?_)
    (Parser.operators_succ n least a) (Parser.operators_succ n least b)
  cases o with
  | none => exact ⟨_, _, .ok hab, fun ts hts => by simp only [hts, and_self]⟩
  | some op =>
    by_cases hlow : op.2 < least
    · exact ⟨_, _, .ok hab, fun ts hts => by simp only [hts, if_pos hlow, and_self]⟩
    · exact ⟨_, _, ((hn.binary (op.2 + 1)).seq fun c d _ =>
        hn.operators least (.binary op.1 a c) (.binary op.1 b d) ⟨rfl⟩).tail,
        fun ts hts => by simp only [hts, if_neg hlow, and_self]⟩

/-- A sign in front of an operand makes the same of both. -/
theorem prefixed?_alike {t : Token} {build : Expr → Option Expr} (ht : prefixed? t = some build)
    (hab : SamePlace a b) : (build a = none ∧ build b = none) ∨
      ∃ x y, build a = some x ∧ build b = some y ∧ SamePlace x y := by
  have hstep (up : Bool) :
      ((if a.isPlace then some (.step a up true) else none : Option Expr) = none ∧
        (if b.isPlace then some (.step b up true) else none : Option Expr) = none) ∨
      ∃ x y, (if a.isPlace then some (.step a up true) else none : Option Expr) = some x ∧
        (if b.isPlace then some (.step b up true) else none : Option Expr) = some y ∧
        SamePlace x y := by
    by_cases hplace : a.isPlace = true
    · have hplace' : b.isPlace = true := hab.isPlace_eq.symm.trans hplace
      exact .inr ⟨_, _, if_pos hplace, if_pos hplace', ⟨rfl⟩⟩
    · have hplace' : ¬ b.isPlace = true := fun h => hplace (hab.isPlace_eq.trans h)
      exact .inl ⟨if_neg hplace, if_neg hplace'⟩
  unfold prefixed? at ht
  split at ht <;> cases ht
  · exact .inr ⟨_, _, rfl, rfl, ⟨rfl⟩⟩
  · exact .inr ⟨_, _, rfl, rfl, ⟨rfl⟩⟩
  · exact .inr ⟨_, _, rfl, rfl, ⟨rfl⟩⟩
  · exact hstep true
  · exact hstep false

/-- A literal or a variable stands in both places. -/
theorem atom?_alike (h : SameForm ts us) {x : Expr} (hx : (peek ts).bind atom? = some x) :
    ∃ y, (peek us).bind atom? = some y ∧ SamePlace x y := by
  have hkind (ls : List Lexeme) : ((peek ls).bind atom?).map Expr.isPlace =
      ((peek ls).map Token.erased).bind fun t => (atom? t).map Expr.isPlace := by
    cases peek ls with
    | none => rfl
    | some t => cases t <;> rfl
  have hsame := hkind ts
  rw [h.peek_erased, ← hkind us, hx, Option.map_some, eq_comm, Option.map_eq_some_iff] at hsame
  obtain ⟨y, hy, hplace⟩ := hsame
  exact ⟨y, hy, ⟨hplace.symm⟩⟩

/-- A cast is the same word in both. -/
theorem cast?_of_sameForm (h : SameForm ts us) :
    (cast? ts = none ∧ cast? us = none) ∨ ∃ function r s, cast? ts = some (function, r) ∧
      cast? us = some (function, s) ∧ SameForm r s := by
  rw [cast?_eq, cast?_eq]
  simp only [h.peek_sign .parenOpen, h.tail.tail.peek_sign .parenClose]
  by_cases hopen : peek us = some (.sign .parenOpen)
  · by_cases hword : ∃ name, peek us.tail = some (.word name)
    · obtain ⟨name, hname⟩ := hword
      have hname' : peek ts.tail = some (.word name) := (h.tail.peek_iff (by simp)).mpr hname
      by_cases hclose : peek us.tail.tail = some (.sign .parenClose)
      · cases hcast : castFunction? name with
        | none =>
          left
          simp only [hname, hname', hcast, Option.map_none, ite_self, and_self]
        | some function =>
          right
          refine ⟨function, _, _, ?_, ?_, h.tail.tail.tail⟩
          · simp only [hopen, hname', hclose, if_true, hcast, Option.map_some]
          · simp only [hopen, hname, hclose, if_true, hcast, Option.map_some]
      · left
        simp only [hname, hname', hclose, if_false, ite_self, and_self]
    · have hword' : ¬ ∃ name, peek ts.tail = some (.word name) := fun ⟨name, hname⟩ =>
        hword ⟨name, (h.tail.peek_iff (by simp)).mp hname⟩
      left
      constructor
      · rw [if_pos hopen]
        split
        next name hname => exact absurd ⟨name, hname⟩ hword'
        next => rfl
      · rw [if_pos hopen]
        split
        next name hname => exact absurd ⟨name, hname⟩ hword
        next => rfl
  · left
    simp only [if_neg hopen, and_self]

theorem unary_succ (hn : Unread n) :
    Alike SamePlace (Parser.unary (n + 1)) (Parser.unary (n + 1)) := by
  have hoperand : Alike SamePlace
      (fun ts => (cast? ts).elim (Parser.postfixed n ts) fun y =>
        Parser.unary n y.2 >>= fun x => .ok (Expr.call y.1 [x.1], x.2))
      fun ts => (cast? ts).elim (Parser.postfixed n ts) fun y =>
        Parser.unary n y.2 >>= fun x => .ok (Expr.call y.1 [x.1], x.2) := by
    intro ts us hts e r hparse
    dsimp only at hparse ⊢
    rcases cast?_of_sameForm hts with ⟨hnone, hnone'⟩ | ⟨function, r, s, hcast, hcast', hrs⟩
    · rw [hnone] at hparse
      rw [hnone']
      exact hn.postfixed hts hparse
    · rw [hcast] at hparse
      rw [hcast']
      exact hn.unary.map (F := fun e => Expr.call function [e])
        (G := fun e => Expr.call function [e]) (fun _ _ _ => ⟨rfl⟩) hrs hparse
  refine .congr (.decide (fun ts => (peek ts).map Token.erased)
    (fun ts us hts => hts.peek_erased) fun o => ?_) (Parser.unary_succ n) (Parser.unary_succ n)
  have hbind {ts : List Lexeme} (hts : (peek ts).map Token.erased = o) :
      (peek ts).bind prefixed? = o.bind prefixed? :=
    bind_of_erased hts fun t => by cases t <;> rfl
  cases hop : o.bind prefixed? with
  | none =>
    refine ⟨_, _, hoperand, fun ts hts => ?_⟩
    simp only [hbind hts, hop, and_self]
    cases cast? ts <;> rfl
  | some build =>
    obtain ⟨t, -, ht⟩ := Option.bind_eq_some_iff.mp hop
    have hbuilt : Alike SamePlace
        (fun ts => Parser.unary n ts >>= fun x =>
          (build x.1).elim (refuse x.2 "a variable after `++`/`--`") fun e => .ok (e, x.2))
        fun ts => Parser.unary n ts >>= fun x =>
          (build x.1).elim (refuse x.2 "a variable after `++`/`--`") fun e => .ok (e, x.2) := by
      refine hn.unary.bind fun a b hab => ?_
      rcases prefixed?_alike ht hab with ⟨ha, hb⟩ | ⟨x, y, hx, hy, hxy⟩
      · refine .congr (.refuse "a variable after `++`/`--`") (fun ts => ?_) fun ts => ?_
        · rw [ha, Option.elim_none]
        · rw [hb, Option.elim_none]
      · refine .congr (.ok hxy) (fun ts => ?_) fun ts => ?_
        · rw [hx, Option.elim_some]
        · rw [hy, Option.elim_some]
    refine ⟨_, _, hbuilt.tail, fun ts hts => ?_⟩
    simp only [hbind hts, hop, and_self]
    congr 1
    funext x
    cases build x.1 <;> rfl

theorem postfixed_succ (hn : Unread n) :
    Alike SamePlace (Parser.postfixed (n + 1)) (Parser.postfixed (n + 1)) :=
  .congr (hn.primary.bind hn.postfixes) (Parser.postfixed_succ n) (Parser.postfixed_succ n)

theorem postfixes_succ (hn : Unread n) (hab : SamePlace a b) :
    Alike SamePlace (Parser.postfixes (n + 1) a) (Parser.postfixes (n + 1) b) := by
  -- behind a member's name, a parenthesis tells a call from a member
  have hname (name : String) : Alike SamePlace
      (fun ts => if peek ts = some (.sign .parenOpen) then
          Parser.arguments n .parenClose ts.tail >>= fun x =>
            Parser.expect (.sign .parenClose) "`)`" x.2 >>= fun ts =>
              Parser.postfixes n (.method a name x.1) ts
        else Parser.postfixes n (.member a name) ts)
      fun ts => if peek ts = some (.sign .parenOpen) then
          Parser.arguments n .parenClose ts.tail >>= fun x =>
            Parser.expect (.sign .parenClose) "`)`" x.2 >>= fun ts =>
              Parser.postfixes n (.method b name x.1) ts
        else Parser.postfixes n (.member b name) ts :=
    .ite .parenOpen
      ((hn.arguments .parenClose).seq fun args args' _ => .expect .parenClose "`)`"
        (hn.postfixes (.method a name args) (.method b name args') ⟨rfl⟩)).tail
      (hn.postfixes _ _ ⟨rfl⟩)
  have hmember : Alike SamePlace
      (fun ts => Parser.postfixes (n + 1) a (⟨.sign .arrow, 0, 0⟩ :: ts))
      fun ts => Parser.postfixes (n + 1) b (⟨.sign .arrow, 0, 0⟩ :: ts) := by
    refine .decide (fun ts => (peek ts).map Token.erased) (fun ts us hts => hts.peek_erased)
      fun o => ?_
    by_cases ho : ∃ name, o = some (.word name)
    · obtain ⟨name, rfl⟩ := ho
      refine ⟨_, _, (hname name).tail, fun ts hts => ?_⟩
      have hword := (peek_of_erased (by simp)).mp hts
      simp only [Parser.postfixes_succ, peek_cons, List.tail_cons, hword]
      exact ⟨rfl, rfl⟩
    · have hno {ts : List Lexeme} (hts : (peek ts).map Token.erased = o) (name : String) :
          peek ts ≠ some (.word name) := fun hword =>
        ho ⟨name, hts.symm.trans ((peek_of_erased (by simp)).mpr hword)⟩
      refine ⟨_, _, .refuse "a member name", fun ts hts => ?_⟩
      simp only [Parser.postfixes_succ, peek_cons, List.tail_cons]
      constructor
      all_goals
        split
        next name hword => exact absurd hword (hno hts name)
        next => rfl
  have hbracket : Alike SamePlace
      (fun ts => if peek ts = some (.sign .bracketClose) then Parser.postfixes n (.append a) ts.tail
        else Parser.assignment n ts >>= fun x =>
          Parser.expect (.sign .bracketClose) "`]`" x.2 >>= fun ts =>
            Parser.postfixes n (.index a x.1) ts)
      fun ts => if peek ts = some (.sign .bracketClose) then Parser.postfixes n (.append b) ts.tail
        else Parser.assignment n ts >>= fun x =>
          Parser.expect (.sign .bracketClose) "`]`" x.2 >>= fun ts =>
            Parser.postfixes n (.index b x.1) ts :=
    .ite .bracketClose (hn.postfixes (.append a) (.append b) ⟨rfl⟩).tail
      (hn.assignment.seq fun key key' _ => .expect .bracketClose "`]`"
        (hn.postfixes (.index a key) (.index b key') ⟨rfl⟩))
  have hstep (up : Bool) : ∃ f g, Alike SamePlace f g ∧ ∀ ts : List Lexeme,
      (if a.isPlace then .ok (.step a up false, ts.tail) else .ok (a, ts)) = f ts ∧
        (if b.isPlace then .ok (.step b up false, ts.tail) else .ok (b, ts)) = g ts := by
    by_cases hplace : a.isPlace = true
    · have hplace' : b.isPlace = true := hab.isPlace_eq.symm.trans hplace
      exact ⟨_, _, (Alike.ok (R := SamePlace) (a := .step a up false) (b := .step b up false)
        ⟨rfl⟩).tail, fun ts => ⟨if_pos hplace, if_pos hplace'⟩⟩
    · have hplace' : ¬ b.isPlace = true := fun h => hplace (hab.isPlace_eq.trans h)
      exact ⟨_, _, .ok hab, fun ts => ⟨if_neg hplace, if_neg hplace'⟩⟩
  refine .congr (.decide (fun ts => (peek ts).map Token.erased)
    (fun ts us hts => hts.peek_erased) fun o => ?_) (Parser.postfixes_succ n a)
    (Parser.postfixes_succ n b)
  have hsign {s : Sign} {ts : List Lexeme} (hts : (peek ts).map Token.erased = o) :
      peek ts = some (.sign s) ↔ o = some (.sign s) := by
    rw [← hts, peek_of_erased (by simp)]
  by_cases h₁ : o = some (.sign .arrow)
  · refine ⟨_, _, hmember.tail, fun ts hts => ?_⟩
    simp only [(hsign hts).mpr h₁, Parser.postfixes_succ, peek_cons, List.tail_cons]
    exact ⟨rfl, rfl⟩
  by_cases h₂ : o = some (.sign .bracketOpen)
  · exact ⟨_, _, hbracket.tail, fun ts hts => by simp only [(hsign hts).mpr h₂, and_self]⟩
  by_cases h₃ : o = some (.sign .increment)
  · obtain ⟨f, g, hfg, heq⟩ := hstep true
    exact ⟨f, g, hfg, fun ts hts => by simp only [(hsign hts).mpr h₃, heq ts, and_self]⟩
  by_cases h₄ : o = some (.sign .decrement)
  · obtain ⟨f, g, hfg, heq⟩ := hstep false
    exact ⟨f, g, hfg, fun ts hts => by simp only [(hsign hts).mpr h₄, heq ts, and_self]⟩
  refine ⟨_, _, .ok hab, fun ts hts => ?_⟩
  rw [← hsign hts] at h₁ h₂ h₃ h₄
  constructor
  all_goals
    split <;> first | rfl | contradiction

theorem primary_succ (hn : Unread n) :
    Alike SamePlace (Parser.primary (n + 1)) (Parser.primary (n + 1)) := by
  -- a literal or a variable, whatever the literal holds
  have hatoms : Alike SamePlace
      (fun ts => ((peek ts).bind atom?).elim (refuse ts "an expression")
        fun e => .ok (e, ts.tail))
      fun ts => ((peek ts).bind atom?).elim (refuse ts "an expression")
        fun e => .ok (e, ts.tail) := by
    intro ts us hts e r hparse
    dsimp only at hparse ⊢
    cases hatom : (peek ts).bind atom? with
    | none =>
      rw [hatom] at hparse
      cases hparse
    | some x =>
      rw [hatom] at hparse
      cases hparse
      obtain ⟨y, hy, hxy⟩ := atom?_alike hts hatom
      exact ⟨y, us.tail, by rw [hy, Option.elim_some], hxy, hts.tail⟩
  -- behind a word, a parenthesis tells a call or an array from a constant
  have hword (name : String) : Alike SamePlace
      (fun ts => if peek ts = some (.sign .parenOpen) then
          if small name = "array" then
            Parser.arrayItems n .parenClose ts.tail >>= fun x =>
              Parser.expect (.sign .parenClose) "end of array" x.2 >>= fun ts =>
                .ok (Expr.array x.1, ts)
          else
            Parser.arguments n .parenClose ts.tail >>= fun x =>
              Parser.expect (.sign .parenClose) "`)`" x.2 >>= fun ts => .ok (Expr.call name x.1, ts)
        else .ok (Expr.const name, ts))
      fun ts => if peek ts = some (.sign .parenOpen) then
          if small name = "array" then
            Parser.arrayItems n .parenClose ts.tail >>= fun x =>
              Parser.expect (.sign .parenClose) "end of array" x.2 >>= fun ts =>
                .ok (Expr.array x.1, ts)
          else
            Parser.arguments n .parenClose ts.tail >>= fun x =>
              Parser.expect (.sign .parenClose) "`)`" x.2 >>= fun ts => .ok (Expr.call name x.1, ts)
        else .ok (Expr.const name, ts) := by
    refine .ite .parenOpen ?_ (.ok ⟨rfl⟩)
    by_cases harray : small name = "array"
    · simp only [if_pos harray]
      exact ((hn.arrayItems .parenClose).seq fun _ _ _ =>
        .expect .parenClose "end of array" (.ok ⟨rfl⟩)).tail
    · simp only [if_neg harray]
      exact ((hn.arguments .parenClose).seq fun _ _ _ =>
        .expect .parenClose "`)`" (.ok ⟨rfl⟩)).tail
  refine .congr (.decide (fun ts => (peek ts).map Token.erased)
    (fun ts us hts => hts.peek_erased) fun o => ?_) (Parser.primary_succ n) (Parser.primary_succ n)
  have hpeek {t : Token} (ht : ∀ s, t ≠ .string s) {ts : List Lexeme}
      (hts : (peek ts).map Token.erased = o) : peek ts = some t ↔ o = some t := by
    rw [← hts, peek_of_erased ht]
  have hatom {ts : List Lexeme} (hts : (peek ts).map Token.erased = o) :
      ((peek ts).bind atom?).isSome = (o.bind atom?).isSome := by
    rw [← hts]
    cases peek ts with
    | none => rfl
    | some t => cases t <;> rfl
  by_cases hsome : (o.bind atom?).isSome = true
  · refine ⟨_, _, hatoms, fun ts hts => ?_⟩
    obtain ⟨e, he⟩ := Option.isSome_iff_exists.mp ((hatom hts).trans hsome)
    simp only [he, Option.elim_some, and_self]
  have hnone {ts : List Lexeme} (hts : (peek ts).map Token.erased = o) :
      (peek ts).bind atom? = none :=
    Option.not_isSome_iff_eq_none.mp fun h => hsome ((hatom hts).symm.trans h)
  by_cases h₁ : o = some (.sign .bracketOpen)
  · refine ⟨_, _, ((hn.arrayItems .bracketClose).seq fun items items' _ =>
      .expect .bracketClose "end of array"
        (.ok (R := SamePlace) (a := .array items) (b := .array items') ⟨rfl⟩)).tail,
      fun ts hts => ?_⟩
    simp only [(hpeek (by simp) hts).mpr h₁]
    exact ⟨rfl, rfl⟩
  by_cases h₂ : o = some (.sign .parenOpen)
  · refine ⟨_, _, (hn.assignment.seq fun _ _ hab => .expect .parenClose "`)`" (.ok hab)).tail,
      fun ts hts => ?_⟩
    simp only [(hpeek (by simp) hts).mpr h₂]
    exact ⟨rfl, rfl⟩
  by_cases h₃ : ∃ name, o = some (.word name)
  · obtain ⟨name, hname⟩ := h₃
    cases hliteral : wordLiteral? name with
    | some value =>
      refine ⟨_, _, (Alike.ok (R := SamePlace) (a := .literal value) ⟨rfl⟩).tail, fun ts hts => ?_⟩
      simp only [(hpeek (by simp) hts).mpr hname, Option.bind_some, atom?, hliteral, and_self]
    | none =>
      refine ⟨_, _, (hword name).tail, fun ts hts => ?_⟩
      simp only [(hpeek (by simp) hts).mpr hname, Option.bind_some, atom?, hliteral, and_self]
  refine ⟨_, _, .refuse "an expression", fun ts hts => ?_⟩
  simp only [hnone hts, and_self]
  split
  next hopen => exact absurd ((hpeek (by simp) hts).mp hopen) h₁
  next hopen => exact absurd ((hpeek (by simp) hts).mp hopen) h₂
  next name hname => exact absurd ⟨name, (hpeek (by simp) hts).mp hname⟩ h₃
  next => rfl

theorem arguments_succ (hn : Unread n) (close : Sign) :
    Alike Any (Parser.arguments (n + 1) close) (Parser.arguments (n + 1) close) :=
  .congr (.ite close (.ok trivial) hn.commas) (Parser.arguments_succ n close)
    (Parser.arguments_succ n close)

theorem commas_succ (hn : Unread n) :
    Alike Any (Parser.commas (n + 1)) (Parser.commas (n + 1)) := by
  refine .congr (hn.assignment.bind fun a b _ => ?_) (Parser.commas_succ n) (Parser.commas_succ n)
  exact .ite .comma (hn.commas.map (F := (a :: ·)) (G := (b :: ·)) fun _ _ _ => trivial).tail
    (.ok (a := [a]) (b := [b]) trivial)

theorem itemAfter (hn : Unread n) (a b : Expr) :
    Alike Any (Parser.itemAfter n a) (Parser.itemAfter n b) :=
  .ite .fatArrow (hn.assignment.map fun _ _ _ => trivial).tail (.ok trivial)

theorem arrayItems_succ (hn : Unread n) (close : Sign) :
    Alike Any (Parser.arrayItems (n + 1) close) (Parser.arrayItems (n + 1) close) := by
  refine .congr (.ite close (.ok trivial) ?_) (Parser.arrayItems_succ n close)
    (Parser.arrayItems_succ n close)
  refine hn.assignment.bind fun a b _ => (hn.itemAfter a b).bind fun x y _ => ?_
  exact .ite .comma
    ((hn.arrayItems close).map (F := (x :: ·)) (G := (y :: ·)) fun _ _ _ => trivial).tail
    (.ok (a := [x]) (b := [y]) trivial)

end Unread

/-- **No function reads what string literals hold.** -/
theorem unread (n : Nat) : Unread n := by
  induction n with
  | zero => exact unread_zero
  | succ n ih =>
    exact
      { assignment := ih.assignment_succ
        choice := ih.choice_succ
        binary := ih.binary_succ
        operators := fun least _ _ => ih.operators_succ least
        unary := ih.unary_succ
        postfixed := ih.postfixed_succ
        postfixes := fun _ _ => ih.postfixes_succ
        primary := ih.primary_succ
        arguments := ih.arguments_succ
        commas := ih.commas_succ
        arrayItems := ih.arrayItems_succ }

/-- Where tokens are an expression, tokens of the same form are one. -/
theorem exists_parseExpr_of_sameForm (h : SameForm ts us) {e : Expr}
    (he : parseExpr ts = .ok (e, [])) : ∃ e', parseExpr us = .ok (e', []) := by
  rw [parseExpr] at he
  obtain ⟨e', s, hparse, -, hs⟩ := (unread _).assignment h he
  have hnil : s = [] := List.eq_nil_of_length_eq_zero hs.length_eq.symm
  refine ⟨e', ?_⟩
  rw [parseExpr, ← hnil, depthBound, ← h.length_eq]
  exact hparse

end Parser

end Stencil
