import Stencil.Script.Parser.Stmt

/-!
# Steps of the expression parser

Each parsing function looks at the next one, two or three tokens and goes on with the tokens after
them.  The equations here say so in terms of `peek`, so that a proof can follow a function without
taking the list of tokens apart.  A function that finds an expression consumes at least one token;
one that goes on after an expression consumes none or more.

## Main definitions

* `Shrinks n` — what the functions of depth `n` consume.

## Main results

* `bind_eq_ok` — a parsing step that succeeds, taken apart.
* `shrinks` — every function consumes what it should.
-/

namespace Stencil.Parser

/-- A sequence of parsing steps succeeds exactly when every step does. -/
theorem bind_eq_ok {α β : Type} {x : Parse α} {f : α → Parse β} {b : β} :
    x >>= f = .ok b ↔ ∃ a, x = .ok a ∧ f a = .ok b := by
  cases x with
  | error e =>
    constructor
    · intro h
      cases h
    · rintro ⟨_, h, _⟩
      cases h
  | ok a =>
    constructor
    · intro h
      exact ⟨a, rfl, h⟩
    · rintro ⟨_, h, hf⟩
      cases h
      exact hf

theorem ok_eq_ok {α : Type} {a b : α} {ts us : List Lexeme} :
    (Except.ok (a, ts) : Parse (α × List Lexeme)) = .ok (b, us) ↔ a = b ∧ ts = us := by
  rw [Except.ok.injEq, Prod.mk.injEq]

theorem ok_bind {α β : Type} (a : α) (f : α → Parse β) : (Except.ok a : Parse α) >>= f = f a := rfl

@[simp] theorem peek_cons (t : Lexeme) (ts : List Lexeme) : peek (t :: ts) = some t.token := rfl

theorem ne_nil_of_peek {ts : List Lexeme} {t : Token} (h : peek ts = some t) : ts ≠ [] := by
  rintro rfl
  cases h

theorem expect_eq_ok {token : Token} {expected : String} {ts rest : List Lexeme} :
    expect token expected ts = .ok rest ↔ peek ts = some token ∧ rest = ts.tail := by
  rw [expect]
  split
  · next h => simp [h, eq_comm]
  · next h => simp [refuse, h]

/-! ### Equations -/

theorem assignment_succ (n : Nat) (ts : List Lexeme) :
    assignment (n + 1) ts = choice n ts >>= fun x =>
      match (peek x.2).bind assignOp? with
      | none => .ok (x.1, x.2)
      | some op =>
        if x.1.isPlace then
          assignment n x.2.tail >>= fun y => .ok (.assign op x.1 y.1, y.2)
        else refuse x.2 "an operator (left side is not assignable)" := rfl

theorem choice_succ (n : Nat) (ts : List Lexeme) :
    choice (n + 1) ts = binary n 0 ts >>= fun x =>
      if peek x.2 = some (.sign .question) then
        if peek x.2.tail = some (.sign .colon) then
          assignment n x.2.tail.tail >>= fun y => .ok (.fallback x.1 y.1, y.2)
        else
          assignment n x.2.tail >>= fun y =>
            expect (.sign .colon) "`:`" y.2 >>= fun ts =>
              assignment n ts >>= fun z => .ok (.choice x.1 y.1 z.1, z.2)
      else .ok (x.1, x.2) := by
  rw [choice]
  congr 1
  funext ⟨cond, us⟩
  rcases us with _ | ⟨⟨t, _, _⟩, us⟩
  · rfl
  · cases t with
    | sign s =>
      cases s with
      | question =>
        rcases us with _ | ⟨⟨t, _, _⟩, us⟩
        · rfl
        · cases t with
          | sign s => cases s <;> rfl
          | _ => rfl
      | _ => rfl
    | _ => rfl

theorem binary_succ (n least : Nat) (ts : List Lexeme) :
    binary (n + 1) least ts = unary n ts >>= fun x => operators n least x.1 x.2 := rfl

theorem operators_succ (n least : Nat) (left : Expr) (ts : List Lexeme) :
    operators (n + 1) least left ts =
      match (peek ts).bind binaryOp? with
      | none => .ok (left, ts)
      | some (op, level) =>
        if level < least then .ok (left, ts)
        else binary n (level + 1) ts.tail >>= fun x =>
          operators n least (.binary op left x.1) x.2 := rfl

/-- The tree that a sign before an operand makes of it, when it is an operator. -/
def prefixed? : Token → Option (Expr → Option Expr)
  | .sign .not => some fun e => some (.unary .not e)
  | .sign .minus => some fun e => some (.unary .negate e)
  | .sign .plus => some fun e => some (.unary .plus e)
  | .sign .increment => some fun e => if e.isPlace then some (.step e true true) else none
  | .sign .decrement => some fun e => if e.isPlace then some (.step e false true) else none
  | _ => none

theorem unary_succ (n : Nat) (ts : List Lexeme) :
    unary (n + 1) ts =
      match (peek ts).bind prefixed? with
      | some build => unary n ts.tail >>= fun x =>
        match build x.1 with
        | some e => .ok (e, x.2)
        | none => refuse x.2 "a variable after `++`/`--`"
      | none =>
        match cast? ts with
        | some (function, ts) => unary n ts >>= fun x => .ok (.call function [x.1], x.2)
        | none => postfixed n ts := by
  have hstep : ∀ (up : Bool) (us : List Lexeme),
      (unary n us >>= fun x =>
        if x.1.isPlace then .ok (.step x.1 up true, x.2)
        else refuse x.2 "a variable after `++`/`--`") =
      unary n us >>= fun x =>
        match (if x.1.isPlace then some (.step x.1 up true) else none : Option Expr) with
        | some e => .ok (e, x.2)
        | none => refuse x.2 "a variable after `++`/`--`" := by
    intro up us
    congr 1
    funext x
    split <;> rfl
  rcases ts with _ | ⟨⟨t, _, _⟩, ts⟩
  · rfl
  · cases t with
    | sign s =>
      cases s with
      | increment => exact hstep true ts
      | decrement => exact hstep false ts
      | _ => rfl
    | _ => rfl

theorem postfixed_succ (n : Nat) (ts : List Lexeme) :
    postfixed (n + 1) ts = primary n ts >>= fun x => postfixes n x.1 x.2 := rfl

theorem postfixes_succ (n : Nat) (base : Expr) (ts : List Lexeme) :
    postfixes (n + 1) base ts =
      match peek ts with
      | some (.sign .arrow) =>
        match peek ts.tail with
        | some (.word name) =>
          if peek ts.tail.tail = some (.sign .parenOpen) then
            arguments n .parenClose ts.tail.tail.tail >>= fun x =>
              expect (.sign .parenClose) "`)`" x.2 >>= fun ts =>
                postfixes n (.method base name x.1) ts
          else postfixes n (.member base name) ts.tail.tail
        | _ => refuse ts.tail "a member name"
      | some (.sign .bracketOpen) =>
        if peek ts.tail = some (.sign .bracketClose) then
          postfixes n (.append base) ts.tail.tail
        else
          assignment n ts.tail >>= fun x =>
            expect (.sign .bracketClose) "`]`" x.2 >>= fun ts => postfixes n (.index base x.1) ts
      | some (.sign .increment) =>
        if base.isPlace then .ok (.step base true false, ts.tail) else .ok (base, ts)
      | some (.sign .decrement) =>
        if base.isPlace then .ok (.step base false false, ts.tail) else .ok (base, ts)
      | _ => .ok (base, ts) := by
  rcases ts with _ | ⟨⟨t, _, _⟩, ts⟩
  · rfl
  · cases t with
    | sign s =>
      cases s with
      | arrow =>
        rcases ts with _ | ⟨⟨t, _, _⟩, ts⟩
        · rfl
        · cases t with
          | word name =>
            rcases ts with _ | ⟨⟨t, _, _⟩, ts⟩
            · rfl
            · cases t with
              | sign s => cases s <;> rfl
              | _ => rfl
          | _ => rfl
      | bracketOpen =>
        rcases ts with _ | ⟨⟨t, _, _⟩, ts⟩
        · rfl
        · cases t with
          | sign s => cases s <;> rfl
          | _ => rfl
      | _ => rfl
    | _ => rfl

/-- The literal or variable that a token is by itself. -/
def atom? : Token → Option Expr
  | .int i => some (.literal (.int i))
  | .float x => some (.literal (.float x))
  | .string s => some (.literal (.string s))
  | .var name => some (.var name)
  | _ => none

theorem primary_succ (n : Nat) (ts : List Lexeme) :
    primary (n + 1) ts =
      match (peek ts).bind atom? with
      | some e => .ok (e, ts.tail)
      | none =>
        match peek ts with
        | some (.sign .bracketOpen) =>
          arrayItems n .bracketClose ts.tail >>= fun x =>
            expect (.sign .bracketClose) "end of array" x.2 >>= fun ts => .ok (.array x.1, ts)
        | some (.sign .parenOpen) =>
          assignment n ts.tail >>= fun x =>
            expect (.sign .parenClose) "`)`" x.2 >>= fun ts => .ok (x.1, ts)
        | some (.word name) =>
          match wordLiteral? name with
          | some value => .ok (.literal value, ts.tail)
          | none =>
            if peek ts.tail = some (.sign .parenOpen) then
              if small name = "array" then
                arrayItems n .parenClose ts.tail.tail >>= fun x =>
                  expect (.sign .parenClose) "end of array" x.2 >>= fun ts => .ok (.array x.1, ts)
              else
                arguments n .parenClose ts.tail.tail >>= fun x =>
                  expect (.sign .parenClose) "`)`" x.2 >>= fun ts => .ok (.call name x.1, ts)
            else .ok (.const name, ts.tail)
        | _ => refuse ts "an expression" := by
  rcases ts with _ | ⟨⟨t, _, _⟩, ts⟩
  · rfl
  · cases t with
    | sign s => cases s <;> rfl
    | word name =>
      rcases ts with _ | ⟨⟨t, _, _⟩, ts⟩
      · rfl
      · cases t with
        | sign s => cases s <;> rfl
        | _ => rfl
    | _ => rfl

theorem arguments_succ (n : Nat) (close : Sign) (ts : List Lexeme) :
    arguments (n + 1) close ts =
      if peek ts = some (.sign close) then .ok ([], ts) else commas n ts := rfl

theorem commas_succ (n : Nat) (ts : List Lexeme) :
    commas (n + 1) ts = assignment n ts >>= fun x =>
      if peek x.2 = some (.sign .comma) then
        commas n x.2.tail >>= fun y => .ok (x.1 :: y.1, y.2)
      else .ok ([x.1], x.2) := by
  rw [commas]
  congr 1
  funext ⟨first, us⟩
  rcases us with _ | ⟨⟨t, _, _⟩, us⟩
  · rfl
  · cases t with
    | sign s => cases s <;> rfl
    | _ => rfl

/-- The item of an array literal that starts with the given expression. -/
def itemAfter (n : Nat) (first : Expr) (ts : List Lexeme) : Parse (Item × List Lexeme) :=
  if peek ts = some (.sign .fatArrow) then
    assignment n ts.tail >>= fun x => .ok (.keyed first x.1, x.2)
  else .ok (.plain first, ts)

/-- What stands behind a comma. -/
theorem match_comma {β : Type} (ts : List Lexeme) (f : List Lexeme → β) (b : β) :
    (match ts with
      | ⟨.sign .comma, _, _⟩ :: us => f us
      | _ => b) = if peek ts = some (.sign .comma) then f ts.tail else b := by
  rcases ts with _ | ⟨⟨t, _, _⟩, us⟩
  · rfl
  · cases t with
    | sign s => cases s <;> rfl
    | _ => rfl

theorem arrayItems_succ (n : Nat) (close : Sign) (ts : List Lexeme) :
    arrayItems (n + 1) close ts =
      if peek ts = some (.sign close) then .ok ([], ts)
      else assignment n ts >>= fun x =>
        itemAfter n x.1 x.2 >>= fun y =>
          if peek y.2 = some (.sign .comma) then
            arrayItems n close y.2.tail >>= fun z => .ok (y.1 :: z.1, z.2)
          else .ok ([y.1], y.2) := by
  rw [arrayItems]
  split
  · rfl
  · congr 1
    funext ⟨first, us⟩
    rcases us with _ | ⟨⟨t, i, j⟩, us⟩
    · rfl
    · cases t with
      | sign s =>
        cases s with
        | fatArrow =>
          simp only [itemAfter, peek_cons, if_true, List.tail_cons]
          cases assignment n us with
          | error e => rfl
          | ok x => exact match_comma x.2 _ _
        | _ => rfl
      | _ => rfl

/-! ### Consumption -/

/-- What the functions of depth `n` consume when they succeed. -/
structure Shrinks (n : Nat) : Prop where
  assignment : ∀ {ts e r}, assignment n ts = .ok (e, r) → r.length < ts.length
  choice : ∀ {ts e r}, choice n ts = .ok (e, r) → r.length < ts.length
  binary : ∀ {least ts e r}, binary n least ts = .ok (e, r) → r.length < ts.length
  operators : ∀ {least left ts e r}, operators n least left ts = .ok (e, r) → r.length ≤ ts.length
  unary : ∀ {ts e r}, unary n ts = .ok (e, r) → r.length < ts.length
  postfixed : ∀ {ts e r}, postfixed n ts = .ok (e, r) → r.length < ts.length
  postfixes : ∀ {base ts e r}, postfixes n base ts = .ok (e, r) → r.length ≤ ts.length
  primary : ∀ {ts e r}, primary n ts = .ok (e, r) → r.length < ts.length
  arguments : ∀ {close ts es r}, arguments n close ts = .ok (es, r) → r.length ≤ ts.length
  commas : ∀ {ts es r}, commas n ts = .ok (es, r) → r.length < ts.length
  arrayItems : ∀ {close ts items r}, arrayItems n close ts = .ok (items, r) → r.length ≤ ts.length

theorem shrinks_zero : Shrinks 0 := by
  constructor <;> intros <;> contradiction

theorem length_of_peek {ts : List Lexeme} {t : Token} (h : peek ts = some t) :
    ts.length = ts.tail.length + 1 := by
  cases ts with
  | nil => cases h
  | cons u ts => rfl

theorem length_of_cast? {ts rest : List Lexeme} {function : String}
    (h : cast? ts = some (function, rest)) : ts.length = rest.length + 3 := by
  unfold cast? at h
  split at h
  · obtain ⟨_, -, h⟩ := Option.map_eq_some_iff.mp h
    cases h
    rfl
  · cases h

namespace Shrinks

variable {n : Nat}

theorem itemAfter (hn : Shrinks n) {first : Expr} {item : Item} {ts r : List Lexeme}
    (h : Parser.itemAfter n first ts = .ok (item, r)) : r.length ≤ ts.length := by
  rw [Parser.itemAfter] at h
  split at h
  · rw [bind_eq_ok] at h
    obtain ⟨⟨value, us⟩, hx, h⟩ := h
    have hus := hn.assignment hx
    obtain ⟨-, rfl⟩ := ok_eq_ok.mp h
    simp only [List.length_tail] at hus ⊢
    omega
  · cases h
    exact Nat.le_refl _

theorem assignment_succ (hn : Shrinks n) {ts r : List Lexeme} {e : Expr}
    (h : Parser.assignment (n + 1) ts = .ok (e, r)) : r.length < ts.length := by
  rw [Parser.assignment_succ, bind_eq_ok] at h
  obtain ⟨⟨target, us⟩, hx, h⟩ := h
  have hus := hn.choice hx
  cases hop : (peek us).bind assignOp? with
  | none =>
    rw [hop] at h
    cases h
    exact hus
  | some op =>
    rw [hop] at h
    simp only [] at h
    split at h
    · simp only [bind_eq_ok] at h
      obtain ⟨⟨value, vs⟩, hy, h⟩ := h
      have hvs := hn.assignment hy
      obtain ⟨-, rfl⟩ := ok_eq_ok.mp h
      simp only [List.length_tail] at hvs ⊢
      omega
    · cases h

theorem choice_succ (hn : Shrinks n) {ts r : List Lexeme} {e : Expr}
    (h : Parser.choice (n + 1) ts = .ok (e, r)) : r.length < ts.length := by
  rw [Parser.choice_succ, bind_eq_ok] at h
  obtain ⟨⟨cond, us⟩, hx, h⟩ := h
  have hus := hn.binary hx
  simp only [] at h
  split at h
  · split at h
    · rw [bind_eq_ok] at h
      obtain ⟨⟨no, vs⟩, hy, h⟩ := h
      have hvs := hn.assignment hy
      obtain ⟨-, rfl⟩ := ok_eq_ok.mp h
      simp only [List.length_tail] at hvs ⊢
      omega
    · rw [bind_eq_ok] at h
      obtain ⟨⟨yes, vs⟩, hy, h⟩ := h
      have hvs := hn.assignment hy
      simp only [bind_eq_ok, expect_eq_ok] at h
      obtain ⟨_, ⟨-, rfl⟩, ⟨no, ws⟩, hz, h⟩ := h
      have hws := hn.assignment hz
      obtain ⟨-, rfl⟩ := ok_eq_ok.mp h
      simp only [List.length_tail] at hvs hws ⊢
      omega
  · cases h
    exact hus

theorem binary_succ (hn : Shrinks n) {least : Nat} {ts r : List Lexeme} {e : Expr}
    (h : Parser.binary (n + 1) least ts = .ok (e, r)) : r.length < ts.length := by
  rw [Parser.binary_succ, bind_eq_ok] at h
  obtain ⟨⟨left, us⟩, hx, h⟩ := h
  exact Nat.lt_of_le_of_lt (hn.operators h) (hn.unary hx)

theorem operators_succ (hn : Shrinks n) {least : Nat} {left e : Expr} {ts r : List Lexeme}
    (h : Parser.operators (n + 1) least left ts = .ok (e, r)) : r.length ≤ ts.length := by
  rw [Parser.operators_succ] at h
  split at h
  · cases h
    exact Nat.le_refl _
  · split at h
    · cases h
      exact Nat.le_refl _
    · rw [bind_eq_ok] at h
      obtain ⟨⟨right, us⟩, hx, h⟩ := h
      have hus := hn.binary hx
      have hr := hn.operators h
      simp only [List.length_tail] at hus hr
      omega

theorem unary_succ (hn : Shrinks n) {ts r : List Lexeme} {e : Expr}
    (h : Parser.unary (n + 1) ts = .ok (e, r)) : r.length < ts.length := by
  rw [Parser.unary_succ] at h
  split at h
  · rw [bind_eq_ok] at h
    obtain ⟨⟨operand, us⟩, hx, h⟩ := h
    have hus := hn.unary hx
    simp only [] at h
    split at h
    · obtain ⟨-, rfl⟩ := ok_eq_ok.mp h
      rw [List.length_tail] at hus
      omega
    · cases h
  · split at h
    · next function us hcast =>
      rw [bind_eq_ok] at h
      obtain ⟨⟨operand, vs⟩, hx, h⟩ := h
      have hvs := hn.unary hx
      have hlen := length_of_cast? hcast
      obtain ⟨-, rfl⟩ := ok_eq_ok.mp h
      simp only []
      omega
    · exact hn.postfixed h

theorem postfixed_succ (hn : Shrinks n) {ts r : List Lexeme} {e : Expr}
    (h : Parser.postfixed (n + 1) ts = .ok (e, r)) : r.length < ts.length := by
  rw [Parser.postfixed_succ, bind_eq_ok] at h
  obtain ⟨⟨base, us⟩, hx, h⟩ := h
  exact Nat.lt_of_le_of_lt (hn.postfixes h) (hn.primary hx)

theorem postfixes_succ (hn : Shrinks n) {base e : Expr} {ts r : List Lexeme}
    (h : Parser.postfixes (n + 1) base ts = .ok (e, r)) : r.length ≤ ts.length := by
  rw [Parser.postfixes_succ] at h
  split at h
  · split at h
    · split at h
      · simp only [bind_eq_ok, expect_eq_ok] at h
        obtain ⟨⟨args, us⟩, hx, _, ⟨-, rfl⟩, h⟩ := h
        have hus := hn.arguments hx
        have hr := hn.postfixes h
        simp only [List.length_tail] at hus hr
        omega
      · have hr := hn.postfixes h
        simp only [List.length_tail] at hr
        omega
    · cases h
  · split at h
    · have hr := hn.postfixes h
      simp only [List.length_tail] at hr
      omega
    · simp only [bind_eq_ok, expect_eq_ok] at h
      obtain ⟨⟨key, us⟩, hx, _, ⟨-, rfl⟩, h⟩ := h
      have hus := hn.assignment hx
      have hr := hn.postfixes h
      simp only [List.length_tail] at hus hr
      omega
  · split at h <;> cases h <;> simp
  · split at h <;> cases h <;> simp
  · cases h
    exact Nat.le_refl _

theorem primary_succ (hn : Shrinks n) {ts r : List Lexeme} {e : Expr}
    (h : Parser.primary (n + 1) ts = .ok (e, r)) : r.length < ts.length := by
  rw [Parser.primary_succ] at h
  split at h
  · next hatom =>
    cases h
    obtain ⟨t, ht, -⟩ := Option.bind_eq_some_iff.mp hatom
    have := length_of_peek ht
    omega
  · split at h
    · next ht =>
      have hlen := length_of_peek ht
      simp only [bind_eq_ok, expect_eq_ok] at h
      obtain ⟨⟨items, us⟩, hx, _, ⟨-, rfl⟩, h⟩ := h
      have hus := hn.arrayItems hx
      cases h
      simp only [List.length_tail] at hus hlen ⊢
      omega
    · next ht =>
      have hlen := length_of_peek ht
      simp only [bind_eq_ok, expect_eq_ok] at h
      obtain ⟨⟨inner, us⟩, hx, _, ⟨-, rfl⟩, h⟩ := h
      have hus := hn.assignment hx
      cases h
      simp only [List.length_tail] at hus hlen ⊢
      omega
    · next ht =>
      have hlen := length_of_peek ht
      split at h
      · cases h
        omega
      · split at h
        · split at h
          · simp only [bind_eq_ok, expect_eq_ok] at h
            obtain ⟨⟨items, us⟩, hx, _, ⟨-, rfl⟩, h⟩ := h
            have hus := hn.arrayItems hx
            cases h
            simp only [List.length_tail] at hus hlen ⊢
            omega
          · simp only [bind_eq_ok, expect_eq_ok] at h
            obtain ⟨⟨args, us⟩, hx, _, ⟨-, rfl⟩, h⟩ := h
            have hus := hn.arguments hx
            cases h
            simp only [List.length_tail] at hus hlen ⊢
            omega
        · cases h
          omega
    · cases h

theorem arguments_succ (hn : Shrinks n) {close : Sign} {ts r : List Lexeme} {es : List Expr}
    (h : Parser.arguments (n + 1) close ts = .ok (es, r)) : r.length ≤ ts.length := by
  rw [Parser.arguments_succ] at h
  split at h
  · cases h
    exact Nat.le_refl _
  · exact Nat.le_of_lt (hn.commas h)

theorem commas_succ (hn : Shrinks n) {ts r : List Lexeme} {es : List Expr}
    (h : Parser.commas (n + 1) ts = .ok (es, r)) : r.length < ts.length := by
  rw [Parser.commas_succ, bind_eq_ok] at h
  obtain ⟨⟨first, us⟩, hx, h⟩ := h
  have hus := hn.assignment hx
  simp only [] at h
  split at h
  · rw [bind_eq_ok] at h
    obtain ⟨⟨rest, vs⟩, hy, h⟩ := h
    have hvs := hn.commas hy
    obtain ⟨-, rfl⟩ := ok_eq_ok.mp h
    simp only [List.length_tail] at hvs ⊢
    omega
  · cases h
    exact hus

theorem arrayItems_succ (hn : Shrinks n) {close : Sign} {ts r : List Lexeme} {items : List Item}
    (h : Parser.arrayItems (n + 1) close ts = .ok (items, r)) : r.length ≤ ts.length := by
  rw [Parser.arrayItems_succ] at h
  split at h
  · cases h
    exact Nat.le_refl _
  · simp only [bind_eq_ok] at h
    obtain ⟨⟨first, us⟩, hx, ⟨item, vs⟩, hy, h⟩ := h
    have hus := hn.assignment hx
    have hvs : vs.length ≤ us.length := hn.itemAfter hy
    simp only [] at h
    split at h
    · rw [bind_eq_ok] at h
      obtain ⟨⟨rest, ws⟩, hz, h⟩ := h
      have hws := hn.arrayItems hz
      obtain ⟨-, rfl⟩ := ok_eq_ok.mp h
      simp only [List.length_tail] at hws ⊢
      omega
    · cases h
      omega

end Shrinks

theorem shrinks_succ {n : Nat} (hn : Shrinks n) : Shrinks (n + 1) where
  assignment := hn.assignment_succ
  choice := hn.choice_succ
  binary := hn.binary_succ
  operators := hn.operators_succ
  unary := hn.unary_succ
  postfixed := hn.postfixed_succ
  postfixes := hn.postfixes_succ
  primary := hn.primary_succ
  arguments := hn.arguments_succ
  commas := hn.commas_succ
  arrayItems := hn.arrayItems_succ

/-- An expression has at least one token. -/
theorem shrinks (n : Nat) : Shrinks n := by
  induction n with
  | zero => exact shrinks_zero
  | succ n ih => exact shrinks_succ ih

/-! ### The first token -/

/-- The tokens that a primary can start with. -/
def startsPrimary : Token → Bool
  | .sign .bracketOpen | .sign .parenOpen | .word _ => true
  | t => (atom? t).isSome

/-- The tokens that an expression can start with. -/
def startsExpr (t : Token) : Bool := (prefixed? t).isSome || startsPrimary t

/-- No primary starts with an operator. -/
theorem prefixed?_of_startsPrimary {t : Token} (h : startsPrimary t = true) :
    prefixed? t = none := by
  cases t with
  | sign s => cases s <;> first | rfl | cases h
  | _ => rfl

theorem starts_of_primary {n : Nat} {ts r : List Lexeme} {e : Expr}
    (h : primary n ts = .ok (e, r)) : ∃ t, peek ts = some t ∧ startsPrimary t = true := by
  cases n with
  | zero => cases h
  | succ n =>
    rw [primary_succ] at h
    cases hp : peek ts with
    | none =>
      rw [hp] at h
      cases h
    | some t =>
      refine ⟨t, rfl, ?_⟩
      rw [hp] at h
      cases t with
      | sign s => cases s <;> first | rfl | cases h
      | text s => cases h
      | terminator => cases h
      | _ => rfl

theorem starts_of_postfixed {n : Nat} {ts r : List Lexeme} {e : Expr}
    (h : postfixed n ts = .ok (e, r)) : ∃ t, peek ts = some t ∧ startsPrimary t = true := by
  cases n with
  | zero => cases h
  | succ n =>
    rw [postfixed_succ, bind_eq_ok] at h
    obtain ⟨x, hx, -⟩ := h
    exact starts_of_primary hx

theorem starts_of_unary {n : Nat} {ts r : List Lexeme} {e : Expr} (h : unary n ts = .ok (e, r)) :
    ∃ t, peek ts = some t ∧ startsExpr t = true := by
  cases n with
  | zero => cases h
  | succ n =>
    rw [unary_succ] at h
    cases hb : (peek ts).bind prefixed? with
    | some build =>
      obtain ⟨t, ht, hp⟩ := Option.bind_eq_some_iff.mp hb
      exact ⟨t, ht, by rw [startsExpr, hp]; rfl⟩
    | none =>
      rw [hb] at h
      cases hc : cast? ts with
      | some x =>
        -- a cast starts with a parenthesis
        match ts, hc with
        | ⟨.sign .parenOpen, _, _⟩ :: ts, _ => exact ⟨_, rfl, rfl⟩
      | none =>
        rw [hc] at h
        obtain ⟨t, ht, hs⟩ := starts_of_postfixed h
        exact ⟨t, ht, by rw [startsExpr, hs, Bool.or_true]⟩

/-- An expression starts with a token of its own. -/
theorem starts_of_assignment {n : Nat} {ts r : List Lexeme} {e : Expr}
    (h : assignment n ts = .ok (e, r)) : ∃ t, peek ts = some t ∧ startsExpr t = true := by
  match n, h with
  | 0, h => cases h
  | 1, h => cases h
  | 2, h => cases h
  | n + 3, h =>
    rw [assignment_succ, bind_eq_ok] at h
    obtain ⟨x, hx, -⟩ := h
    rw [choice_succ, bind_eq_ok] at hx
    obtain ⟨y, hy, -⟩ := hx
    rw [binary_succ, bind_eq_ok] at hy
    obtain ⟨z, hz, -⟩ := hy
    exact starts_of_unary hz

end Stencil.Parser
