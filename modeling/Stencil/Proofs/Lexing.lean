import Mathlib.Data.List.Find
import Mathlib.Data.List.TakeWhile
import Stencil.Markup.Island
import Stencil.Proofs.Parsing.Step
import Stencil.Script.Binding

/-!
# Tokens of code in islands

The tokens of a piece of code do not depend on the code around it, as long as what follows is set
apart: a blank, a bracket or brace, a comma or a semicolon belongs to no token that begins before
it.  Comments and the end of the island are the exceptions, so code is taken without them.

## Main definitions

* `Reads mode cs us` — the text has the tokens, wherever it starts.
* `isApart`, `Apart` — what may follow a piece of code without touching its last token.
* `uninterrupted` — code without comments and without the end of an island, string literals aside.
* `isBreak`, `Breaks` — what may follow it without going on with a name or a numeral.
* `Stops` — what may follow it without going on with any token but a sign.
* `Steps code ts` — the code is read by steps over its own characters.
* `Spells code ts` — the code has the tokens in front of anything that is set apart.
* `SpellsFirm`, `SpellsAnywhere` — in front of anything that breaks off names, and in front of
  anything at all, these tokens are read first.

## Main results

* `Reads.steps`, `Reads.split` — code that is read in front of one such text spells tokens.
* `Spells.append`, `Spells.own`, `SpellsFirm.anywhere` — code put together of parts.
* `Spells.reads_island` — an island of code that spells tokens.
* `Steps.trim` — the outer blanks of code do not count.
-/

namespace Stencil

open Text

/-- What a computation tells about the members of a list. -/
theorem forall_mem_of_all {α : Type} {p : α → Prop} [DecidablePred p] {l : List α}
    (h : (l.all fun x => decide (p x)) = true) : ∀ x ∈ l, p x :=
  fun x hx => of_decide_eq_true (List.all_eq_true.mp h x hx)

namespace Lexer

/-! ### Reading tokens -/

/-- In the mode, the text has the tokens, wherever it starts. -/
def Reads (mode : Mode) (cs : List Char) (us : List Token) : Prop :=
  ∀ pos, ∃ ls, lexFrom mode 0 pos cs = .ok ls ∧ ls.map Lexeme.token = us

variable {mode : Mode} {c : Char} {cs rest code : List Char} {us vs ts : List Token} {s : Step}

theorem Reads.unique (h : Reads mode cs us) (h' : Reads mode cs vs) : us = vs := by
  obtain ⟨ls, hls, rfl⟩ := h 0
  obtain ⟨ls', hls', rfl⟩ := h' 0
  rw [hls] at hls'
  cases hls'
  rfl

theorem reads_nil : Reads .text [] [] := fun _ => ⟨[], rfl, rfl⟩

/-- The rest of a step is read where it ends. -/
theorem lexFrom_skip (mode : Mode) (k pos : Nat) (cs : List Char) :
    lexFrom mode k pos cs = lexFrom mode 0 (pos + byteSize (cs.take k)) (cs.drop k) := by
  induction cs generalizing k pos with
  | nil => cases k <;> simp [lexFrom]
  | cons c cs ih =>
    cases k with
    | zero => simp
    | succ k =>
      rw [lexFrom, ih]
      simp [Nat.add_assoc]

theorem lexFrom_of_step (hs : step mode c cs = .ok s) (pos : Nat) :
    lexFrom mode 0 pos (c :: cs) =
      match lexFrom s.mode (s.width - 1) (pos + c.utf8Size) cs with
      | .error e => .error e
      | .ok rest =>
        match s.token with
        | none => .ok rest
        | some token =>
          .ok ({ token, start := pos, stop := pos + byteSize ((c :: cs).take s.width) } ::
            rest) := by
  rw [lexFrom]
  split
  next heq =>
    rw [hs] at heq
    cases heq
  next heq =>
    rw [hs] at heq
    cases heq
    rfl

/-- A place is read by its step. -/
theorem Reads.of_step (hs : step mode c cs = .ok s)
    (h : Reads s.mode (cs.drop (s.width - 1)) us) :
    Reads mode (c :: cs) (s.token.toList ++ us) := by
  intro pos
  obtain ⟨ls, hls, rfl⟩ := h (pos + c.utf8Size + byteSize (cs.take (s.width - 1)))
  rw [lexFrom_of_step hs, lexFrom_skip, hls]
  cases s.token with
  | none => exact ⟨ls, rfl, rfl⟩
  | some token => exact ⟨_, rfl, rfl⟩

/-- The tokens do not depend on the place. -/
theorem reads_of_lexFrom {pos : Nat} {ls : List Lexeme} (h : lexFrom mode 0 pos cs = .ok ls) :
    Reads mode cs (ls.map Lexeme.token) := by
  -- the reader may stand inside of a token, with any number of characters to skip
  suffices hk : ∀ cs mode k pos ls, lexFrom mode k pos cs = .ok ls →
      ∀ pos', ∃ ls', lexFrom mode k pos' cs = .ok ls' ∧
        ls'.map Lexeme.token = ls.map Lexeme.token from hk cs mode 0 pos ls h
  intro cs
  induction cs with
  | nil =>
    intro mode k pos ls h pos'
    cases mode with
    | text => exact ⟨ls, h, rfl⟩
    | code => cases h
  | cons c cs ih =>
    intro mode k pos ls h pos'
    cases k with
    | succ k => exact ih mode k _ ls h _
    | zero =>
      cases hs : step mode c cs with
      | error e =>
        rw [lexFrom, hs] at h
        cases h
      | ok s =>
        rw [lexFrom_of_step hs] at h ⊢
        cases hr : lexFrom s.mode (s.width - 1) (pos + c.utf8Size) cs with
        | error e =>
          rw [hr] at h
          cases h
        | ok rest =>
          obtain ⟨rest', hr', heq⟩ := ih _ _ _ _ hr (pos' + c.utf8Size)
          rw [hr] at h
          rw [hr']
          cases ht : s.token with
          | none =>
            rw [ht] at h
            cases h
            exact ⟨rest', rfl, heq⟩
          | some token =>
            rw [ht] at h
            cases h
            exact ⟨_, rfl, by rw [List.map_cons, List.map_cons, heq]⟩

/-- What is read starts with a step. -/
theorem Reads.step_of (h : Reads mode (c :: cs) us) : ∃ s ws, step mode c cs = .ok s ∧
    us = s.token.toList ++ ws ∧ Reads s.mode (cs.drop (s.width - 1)) ws := by
  obtain ⟨ls, hls, -⟩ := h 0
  cases hs : step mode c cs with
  | error e =>
    rw [lexFrom, hs] at hls
    cases hls
  | ok s =>
    rw [lexFrom_of_step hs, lexFrom_skip] at hls
    cases hr : lexFrom s.mode 0 (0 + c.utf8Size + byteSize (cs.take (s.width - 1)))
        (cs.drop (s.width - 1)) with
    | error e =>
      rw [hr] at hls
      cases hls
    | ok rest =>
      have hws := reads_of_lexFrom hr
      exact ⟨s, _, rfl, h.unique (Reads.of_step hs hws), hws⟩

/-- A step tells what is read from what is read after it. -/
theorem Reads.iff_of_step (hs : step mode c cs = .ok s) :
    Reads mode (c :: cs) us ↔
      ∃ ws, us = s.token.toList ++ ws ∧ Reads s.mode (cs.drop (s.width - 1)) ws := by
  constructor
  · intro h
    obtain ⟨s', ws, hs', rfl, hw⟩ := h.step_of
    rw [hs] at hs'
    cases hs'
    exact ⟨ws, rfl, hw⟩
  · rintro ⟨ws, rfl, hw⟩
    exact Reads.of_step hs hw

/-! ### What is set apart -/

/-- The characters that belong to no token that begins before them. -/
def isApart (c : Char) : Bool :=
  isBlank c || c ∈ ['(', ')', '\x7b', '\x7d', ';', ',']

/-- The text is empty or starts with a character that is set apart. -/
def Apart (rest : List Char) : Prop := ∀ d, rest.head? = some d → isApart d = true

theorem apart_cons {d : Char} (h : isApart d = true) : Apart (d :: rest) := by
  intro e he
  cases he
  exact h

theorem isApart_of_isBlank {d : Char} (h : isBlank d = true) : isApart d = true := by
  rw [isApart, h, Bool.true_or]

/-- The characters that belong to no name and no numeral that begins before them, nor to a sign that
begins with another character. -/
def isBreak (c : Char) : Bool := isApart c || c == '&'

/-- The text is empty, or it breaks off names and numerals: by its first character, or by a colon
with nothing to qualify. -/
def Breaks (rest : List Char) : Prop :=
  ∀ d, rest.head? = some d → isBreak d = true ∨ (d = ':' ∧ Apart rest.tail)

/-- The characters that a text can start with when it breaks off names. -/
def startsBreak (c : Char) : Bool := isBreak c || c == ':'

theorem isBreak_of_isApart {d : Char} (h : isApart d = true) : isBreak d = true := by
  rw [isBreak, h, Bool.true_or]

theorem Apart.breaks (h : Apart rest) : Breaks rest :=
  fun d hd => .inl (isBreak_of_isApart (h d hd))

theorem breaks_cons {d : Char} (h : isBreak d = true) : Breaks (d :: rest) := by
  rintro _ ⟨⟩
  exact .inl h

theorem breaks_colon (h : Apart rest) : Breaks (':' :: rest) := by
  rintro _ ⟨⟩
  exact .inr ⟨rfl, h⟩

theorem Breaks.head (h : Breaks rest) : ∀ d, rest.head? = some d → startsBreak d = true := by
  intro d hd
  rw [startsBreak, Bool.or_eq_true, beq_iff_eq]
  exact (h d hd).imp_right And.left

/-- The characters that a text can start with when no token but a sign goes on in it. -/
def startsStop (c : Char) : Bool := startsBreak c || c ∈ ['=', '\x27', '\x22']

/-- The text is empty, or no token that begins before it goes on in it, signs aside. -/
def Stops (rest : List Char) : Prop :=
  ∀ d, rest.head? = some d → startsStop d = true ∧ (d = ':' → Apart rest.tail)

theorem Stops.head (h : Stops rest) : ∀ d, rest.head? = some d → startsStop d = true :=
  fun d hd => (h d hd).1

theorem Stops.head_ne {d : Char} {ds : List Char} (h : Stops (d :: ds)) {e : Char}
    (he : startsStop e = false) : d ≠ e := by
  rintro rfl
  rw [h.head d rfl] at he
  cases he

theorem stops_cons {d : Char} (h : startsStop d = true) (hd : d ≠ ':') : Stops (d :: rest) := by
  rintro _ ⟨⟩
  exact ⟨h, fun he => absurd he hd⟩

theorem Breaks.stops (h : Breaks rest) : Stops rest := by
  intro d hd
  refine ⟨by rw [startsStop, h.head d hd, Bool.true_or], ?_⟩
  rintro rfl
  exact ((h ':' hd).resolve_left (by decide)).2

/-- No name goes on with a character that is set apart. -/
theorem isNamePart_of_isApart {d : Char} (h : isApart d = true) : isNamePart d = false := by
  rw [isApart, Bool.or_eq_true, decide_eq_true_iff] at h
  rcases h with h | h
  · rw [Bool.eq_false_iff]
    intro hn
    simp only [isBlank, isNamePart, isAsciiAlnum, isAsciiLetter, isAsciiDigit, Bool.or_eq_true,
      Bool.and_eq_true, decide_eq_true_eq, beq_iff_eq] at h hn
    rcases hn with hn | rfl
    · omega
    · exact absurd h (by decide)
  · simp only [List.mem_cons, List.not_mem_nil, or_false] at h
    rcases h with rfl | rfl | rfl | rfl | rfl | rfl <;> decide

theorem not_isBlank_of_isNamePart {d : Char} (h : isNamePart d = true) : isBlank d = false := by
  refine Bool.eq_false_iff.mpr fun hb => ?_
  rw [isNamePart_of_isApart (isApart_of_isBlank hb)] at h
  cases h

theorem startsBreak_of_isApart {d : Char} (h : isApart d = true) : startsBreak d = true := by
  rw [startsBreak, isBreak_of_isApart h, Bool.true_or]

theorem isNamePart_of_startsBreak {d : Char} (h : startsBreak d = true) :
    isNamePart d = false := by
  rw [startsBreak, isBreak, Bool.or_eq_true, Bool.or_eq_true, beq_iff_eq, beq_iff_eq] at h
  rcases h with (h | rfl) | rfl
  · exact isNamePart_of_isApart h
  · decide
  · decide

theorem isNamePart_of_startsStop {d : Char} (h : startsStop d = true) : isNamePart d = false := by
  rw [startsStop, Bool.or_eq_true, decide_eq_true_iff] at h
  rcases h with h | h
  · exact isNamePart_of_startsBreak h
  · simp only [List.mem_cons, List.not_mem_nil, or_false] at h
    rcases h with rfl | rfl | rfl <;> decide

theorem isNameStart_of_startsStop {d : Char} (h : startsStop d = true) :
    isNameStart d = false := by
  have hn := isNamePart_of_startsStop h
  simp only [isNamePart, isAsciiAlnum, Bool.or_eq_false_iff] at hn
  rw [isNameStart, hn.1.1, hn.2, Bool.or_self]

theorem startsStop_of_isApart {d : Char} (h : isApart d = true) : startsStop d = true := by
  rw [startsStop, startsBreak_of_isApart h, Bool.true_or]

theorem isNameStart_of_isApart {d : Char} (h : isApart d = true) : isNameStart d = false :=
  isNameStart_of_startsStop (startsStop_of_isApart h)

theorem isAsciiDigit_of_startsStop {d : Char} (h : startsStop d = true) :
    isAsciiDigit d = false := by
  have hn := isNamePart_of_startsStop h
  simp only [isNamePart, isAsciiAlnum, Bool.or_eq_false_iff] at hn
  exact hn.1.2

theorem isAsciiDigit_of_isApart {d : Char} (h : isApart d = true) : isAsciiDigit d = false :=
  isAsciiDigit_of_startsStop (startsStop_of_isApart h)

theorem Breaks.head_ne {d : Char} {ds : List Char} (h : Breaks (d :: ds)) {e : Char}
    (he : startsBreak e = false) : d ≠ e := by
  rintro rfl
  rw [h.head d rfl] at he
  cases he

variable {p a : List Char}

theorem startsWith_cons (x : Char) (p : List Char) (c : Char) (cs : List Char) :
    startsWith (x :: p) (c :: cs) = (decide (x = c) && startsWith p cs) := by
  by_cases h : x = c <;> simp [startsWith, dropStart?, h]

/-- A phrase does not reach into a text that starts with none of its characters. -/
theorem startsWith_append_of_apart {q : Char → Bool} (hp : ∀ x ∈ p, q x = false)
    (hr : ∀ d, rest.head? = some d → q d = true) : startsWith p (a ++ rest) = startsWith p a := by
  induction p generalizing a with
  | nil => rfl
  | cons x p ih =>
    cases a with
    | nil =>
      cases rest with
      | nil => rfl
      | cons d ds =>
        have hx : x ≠ d := by
          rintro rfl
          have hx := hp x List.mem_cons_self
          rw [hr x rfl] at hx
          cases hx
        rw [List.nil_append, startsWith_cons, decide_eq_false hx, Bool.false_and]
        rfl
    | cons c a =>
      rw [List.cons_append, startsWith_cons, startsWith_cons,
        ih fun y hy => hp y (List.mem_cons_of_mem x hy)]

/-- Nor does a phrase that begins before it. -/
theorem startsWith_cons_append {q : Char → Bool} (hp : ∀ x ∈ p.tail, q x = false)
    (hr : ∀ d, rest.head? = some d → q d = true) :
    startsWith p (c :: a ++ rest) = startsWith p (c :: a) := by
  cases p with
  | nil => rfl
  | cons x p =>
    have hp' : ∀ y ∈ p, q y = false := hp
    rw [List.cons_append, startsWith_cons, startsWith_cons, startsWith_append_of_apart hp' hr]

theorem takeWhile_append_of_stops {q : Char → Bool}
    (hq : ∀ d, startsStop d = true → q d = false) (hr : Stops rest) :
    (a ++ rest).takeWhile q = a.takeWhile q := by
  induction a with
  | nil =>
    cases rest with
    | nil => rfl
    | cons d ds => simp [hq d (hr.head d rfl)]
  | cons c a ih => simp only [List.cons_append, List.takeWhile_cons, ih]

theorem nameAt_append (hr : Stops rest) : nameAt (a ++ rest) = nameAt a := by
  cases a with
  | nil =>
    cases rest with
    | nil => rfl
    | cons d ds => simp [nameAt, isNameStart_of_startsStop (hr.head d rfl)]
  | cons c a =>
    rw [List.cons_append, nameAt, nameAt,
      takeWhile_append_of_stops (fun d => isNamePart_of_startsStop) hr]

theorem qualifierWidth_of_ne {d : Char} (h : ¬ (c = ':' ∧ d = ':')) :
    qualifierWidth (c :: d :: cs) = 0 := by
  unfold qualifierWidth
  split
  next heq => exact absurd ⟨(List.cons.inj heq).1, (List.cons.inj (List.cons.inj heq).2).1⟩ h
  next heq => exact absurd ⟨(List.cons.inj heq).1, (List.cons.inj (List.cons.inj heq).2).1⟩ h
  next => rfl

theorem qualifierWidth_singleton (c : Char) : qualifierWidth [c] = 0 := by
  simp [qualifierWidth]

theorem qualifierWidth_colons (hcs : cs.head? ≠ some '$') :
    qualifierWidth (':' :: ':' :: cs) =
      if nameAt cs = [] then 0 else 2 + (nameAt cs).length := by
  cases cs with
  | nil => rfl
  | cons c cs => simp_all [qualifierWidth]

/-- Colons qualify nothing that is set apart. -/
theorem qualifierWidth_apart (h : Apart cs) : qualifierWidth (':' :: ':' :: cs) = 0 := by
  have hdollar : cs.head? ≠ some '$' := fun he => absurd (h _ he) (by decide)
  have hname : nameAt cs = [] := by
    cases cs with
    | nil => rfl
    | cons d ds => simp [nameAt, isNameStart_of_isApart (h d rfl)]
  rw [qualifierWidth_colons hdollar, if_pos hname]

theorem qualifierWidth_append (hr : Stops rest) :
    qualifierWidth (c :: a ++ rest) = qualifierWidth (c :: a) := by
  match a with
  | [] =>
    rw [qualifierWidth_singleton]
    cases rest with
    | nil => exact qualifierWidth_singleton c
    | cons d ds =>
      by_cases h : c = ':' ∧ d = ':'
      · obtain ⟨rfl, rfl⟩ := h
        exact qualifierWidth_apart ((hr ':' rfl).2 rfl)
      · exact qualifierWidth_of_ne h
  | d :: a =>
    by_cases h : c = ':' ∧ d = ':'
    · obtain ⟨rfl, rfl⟩ := h
      match a with
      | '$' :: a =>
        simp only [List.cons_append, qualifierWidth, nameAt_append hr]
      | [] =>
        have hne : rest.head? ≠ some '$' := by
          intro he
          exact absurd (hr.head _ he) (by decide)
        rw [List.cons_append, List.cons_append, List.nil_append, qualifierWidth_colons hne,
          qualifierWidth_colons (by simp), ← List.nil_append rest, nameAt_append hr]
      | e :: a =>
        -- the colons qualify a variable or a constant, by what follows them
        by_cases he : e = '$'
        · subst he
          simp only [List.cons_append, qualifierWidth, nameAt_append hr]
        · rw [List.cons_append, List.cons_append, qualifierWidth_colons (by simpa using he),
            qualifierWidth_colons (by simpa using he), nameAt_append hr]
    · rw [List.cons_append, List.cons_append, qualifierWidth_of_ne h, qualifierWidth_of_ne h]

theorem length_nameAt_le (cs : List Char) : (nameAt cs).length ≤ cs.length := by
  cases cs with
  | nil => exact Nat.le_refl 0
  | cons c cs =>
    rw [nameAt]
    split
    · exact Nat.succ_le_succ (List.takeWhile_sublist _).length_le
    · exact Nat.zero_le _

theorem qualifierWidth_le (cs : List Char) : qualifierWidth cs ≤ cs.length := by
  unfold qualifierWidth
  split
  next cs =>
    have h := length_nameAt_le cs
    split <;> simp only [List.length_cons] <;> omega
  next cs _ =>
    have h := length_nameAt_le cs
    split <;> simp only [List.length_cons] <;> omega
  next => exact Nat.zero_le _

theorem wordWidth_append {skip : Nat} (hs : skip ≤ a.length) (hr : Stops rest) :
    wordWidth skip (a ++ rest) = wordWidth skip a := by
  induction a generalizing skip with
  | nil =>
    obtain rfl := Nat.le_zero.mp hs
    cases rest with
    | nil => rfl
    | cons d ds =>
      have hd := hr.head d rfl
      have hq : qualifierWidth (d :: ds) = 0 := by
        cases ds with
        | nil => exact qualifierWidth_singleton d
        | cons e ds =>
          refine qualifierWidth_of_ne ?_
          rintro ⟨rfl, rfl⟩
          have he := (hr ':' rfl).2 rfl ':' rfl
          cases he
      have hb : d ≠ '\\' := hr.head_ne (by decide)
      simp [wordWidth, isNamePart_of_startsStop hd, hb, hq]
  | cons c a ih =>
    cases skip with
    | succ skip =>
      rw [List.cons_append, wordWidth, wordWidth, ih (Nat.le_of_succ_le_succ hs)]
    | zero =>
      have hq := qualifierWidth_append (c := c) (a := a) hr
      have hle := qualifierWidth_le (c :: a)
      rw [List.cons_append] at hq
      rw [List.cons_append, wordWidth, wordWidth, hq, ih (Nat.zero_le _)]
      -- a qualifier is in the first text, so its width is what is skipped there
      cases hk : qualifierWidth (c :: a) with
      | zero => rfl
      | succ k =>
        rw [hk] at hle
        simp only [ih (Nat.le_of_succ_le_succ hle)]

theorem wordWidth_le {skip : Nat} (hs : skip ≤ a.length) : wordWidth skip a ≤ a.length := by
  induction a generalizing skip with
  | nil =>
    obtain rfl := Nat.le_zero.mp hs
    exact Nat.le_refl 0
  | cons c a ih =>
    cases skip with
    | succ skip =>
      have h := ih (Nat.le_of_succ_le_succ hs)
      rw [wordWidth, List.length_cons]
      omega
    | zero =>
      have hle := qualifierWidth_le (c :: a)
      have h := ih (Nat.zero_le a.length)
      rw [wordWidth, List.length_cons]
      split
      · omega
      · split
        next => omega
        next k hk =>
          rw [hk] at hle
          have h := ih (Nat.le_of_succ_le_succ hle)
          omega

theorem dropWhile_append_of_stops {q : Char → Bool}
    (hq : ∀ d, startsStop d = true → q d = false) (hr : Stops rest) :
    (a ++ rest).dropWhile q = a.dropWhile q ++ rest := by
  induction a with
  | nil =>
    cases rest with
    | nil => rfl
    | cons d ds => simp [hq d (hr.head d rfl)]
  | cons c a ih =>
    rw [List.cons_append, List.dropWhile_cons, List.dropWhile_cons, ih]
    split <;> rfl

theorem numeral_append (hr : Stops rest) : numeral (a ++ rest) = numeral a := by
  have hd : ∀ d, startsStop d = true → isAsciiDigit d = false :=
    fun d => isAsciiDigit_of_startsStop
  rw [numeral, numeral, takeWhile_append_of_stops hd hr, dropWhile_append_of_stops hd hr]
  cases a.dropWhile isAsciiDigit with
  | nil =>
    rw [List.nil_append]
    split
    next ds => exact absurd rfl (hr.head_ne (e := '.') (by decide))
    next => rfl
  | cons e b =>
    by_cases he : e = '.'
    · subst he
      simp only [List.cons_append, takeWhile_append_of_stops hd hr]
    · rw [List.cons_append]
      split
      next heq => exact absurd (List.cons.inj heq).1 he
      next =>
        split
        next heq => exact absurd (List.cons.inj heq).1 he
        next => rfl

theorem numeralStep_append (hr : Stops rest) : numeralStep (a ++ rest) = numeralStep a := by
  rw [numeralStep, numeralStep, numeral_append hr]

/-- No sign goes on with a character that is set apart. -/
theorem isApart_signs : ∀ x ∈ signs, ∀ d ∈ x.1.tail, isApart d = false := by
  have h : ∀ x ∈ signs, (x.1.tail.all fun d => decide (isApart d = false)) = true :=
    forall_mem_of_all (by decide)
  exact fun x hx => forall_mem_of_all (h x hx)

/-- One sign goes on with a character that breaks off names, and it has no other character. -/
theorem startsBreak_signs :
    ∀ x ∈ signs, x.1 = ['&', '&'] ∨ ∀ d ∈ x.1.tail, startsBreak d = false := by
  have h : ∀ x ∈ signs, (decide (x.1 = ['&', '&']) ||
      x.1.tail.all fun d => decide (startsBreak d = false)) = true :=
    forall_mem_of_all (by decide)
  intro x hx
  have h := h x hx
  rw [Bool.or_eq_true, decide_eq_true_iff] at h
  exact h.imp_right forall_mem_of_all

theorem signStep_append (hr : Breaks rest) (ha : c = '&' → a = [] → Apart rest) :
    signStep c (a ++ rest) = signStep c a := by
  have h : signs.find? (fun x => startsWith x.1 (c :: (a ++ rest))) =
      signs.find? (fun x => startsWith x.1 (c :: a)) := by
    refine List.find?_congr fun x hx => ?_
    by_cases hsmall : c = '&' ∧ a = []
    · exact startsWith_cons_append (isApart_signs x hx) (ha hsmall.1 hsmall.2)
    rcases startsBreak_signs x hx with hx | hx
    · -- the two characters of the sign are both in the code, or the first one is another
      rw [hx, startsWith_cons, startsWith_cons]
      by_cases hc : '&' = c
      · cases a with
        | nil => exact absurd ⟨hc.symm, rfl⟩ hsmall
        | cons d a => rw [List.cons_append, startsWith_cons, startsWith_cons]; rfl
      · rw [decide_eq_false hc, Bool.false_and, Bool.false_and]
    · exact startsWith_cons_append hx hr.head
  rw [signStep, signStep, h]

/-! ### String literals -/

variable {quote : Char} {x : List Char × Nat}

/-- A literal without its closing quote has no end. -/
theorem readQuoted_of_notMem (h : quote ∉ cs) : readQuoted quote cs = none := by
  fun_induction readQuoted quote cs with
  | case1 => rfl
  | case2 => simp at h
  | case3 => rfl
  | case4 => simp at h
  | case5 d cs _ ih =>
    rw [ih fun hq => h (List.mem_cons_of_mem _ (List.mem_cons_of_mem d hq))]
    rfl
  | case6 c d cs _ _ ih =>
    rw [ih fun hq => h (List.mem_cons_of_mem c hq)]
    rfl

/-- The end of a literal stays where it is. -/
theorem readQuoted_append (h : readQuoted quote a = some x) (rest : List Char) :
    readQuoted quote (a ++ rest) = some x := by
  fun_induction readQuoted quote a generalizing x with
  | case1 => cases h
  | case2 => cases rest <;> simpa [readQuoted] using h
  | case3 => cases h
  | case4 => simpa [readQuoted] using h
  | case5 d cs hne ih =>
    obtain ⟨y, hy, rfl⟩ := Option.map_eq_some_iff.mp h
    rw [List.cons_append, List.cons_append, readQuoted, if_neg hne, if_pos rfl, ih hy]
    rfl
  | case6 c d cs hne hc ih =>
    obtain ⟨y, hy, rfl⟩ := Option.map_eq_some_iff.mp h
    have ih := ih hy
    rw [List.cons_append] at ih
    rw [List.cons_append, List.cons_append, readQuoted, if_neg hne, if_neg hc, ih]
    rfl

/-- What has no quote does not end a literal. -/
theorem readQuoted_of_append (h : readQuoted quote (a ++ rest) = some x) (hq : quote ∉ rest) :
    readQuoted quote a = some x := by
  fun_induction readQuoted quote a generalizing x with
  | case1 =>
    rw [List.nil_append, readQuoted_of_notMem hq] at h
    cases h
  | case2 => cases rest <;> simpa [readQuoted] using h
  | case3 c hne =>
    cases rest with
    | nil => simp [readQuoted, hne] at h
    | cons d ds =>
      -- the escaped character is the first one of what follows
      have hds : quote ∉ ds := fun hd => hq (List.mem_cons_of_mem d hd)
      rw [List.singleton_append, readQuoted, if_neg hne, readQuoted_of_notMem hq,
        readQuoted_of_notMem hds] at h
      split at h <;> cases h
  | case4 => simpa [readQuoted] using h
  | case5 d cs hne ih =>
    rw [List.cons_append, List.cons_append, readQuoted, if_neg hne, if_pos rfl] at h
    obtain ⟨y, hy, rfl⟩ := Option.map_eq_some_iff.mp h
    rw [ih hy]
    rfl
  | case6 c d cs hne hc ih =>
    rw [List.cons_append, List.cons_append, readQuoted, if_neg hne, if_neg hc] at h
    obtain ⟨y, hy, rfl⟩ := Option.map_eq_some_iff.mp h
    rw [ih hy]
    rfl

theorem readQuoted_le (h : readQuoted quote a = some x) : x.2 ≤ a.length := by
  fun_induction readQuoted quote a generalizing x with
  | case1 => cases h
  | case2 => cases h; exact Nat.le_refl 1
  | case3 => cases h
  | case4 => cases h; exact Nat.succ_le_succ (Nat.zero_le _)
  | case5 d cs _ ih =>
    obtain ⟨y, hy, rfl⟩ := Option.map_eq_some_iff.mp h
    have := ih hy
    simp only [List.length_cons]
    omega
  | case6 c d cs _ _ ih =>
    obtain ⟨y, hy, rfl⟩ := Option.map_eq_some_iff.mp h
    have := ih hy
    simp only [List.length_cons] at this ⊢
    omega

/-- Behind the closing quote a reader is outside of literals again. -/
theorem foldl_next_of_readQuoted (h : readQuoted quote a = some x) (hq : quote ≠ '\\') :
    (a.take x.2).foldl Quoting.next (.quoted quote) = .code := by
  fun_induction readQuoted quote a generalizing x with
  | case1 => cases h
  | case2 => cases h; simp [Quoting.next, hq]
  | case3 => cases h
  | case4 => cases h; simp [Quoting.next, hq]
  | case5 d cs _ ih =>
    obtain ⟨y, hy, rfl⟩ := Option.map_eq_some_iff.mp h
    simpa [Quoting.next] using ih hy
  | case6 c d cs hne hc ih =>
    obtain ⟨y, hy, rfl⟩ := Option.map_eq_some_iff.mp h
    simpa [Quoting.next, hne, hc] using ih hy

/-! ### Code without comments -/

/-- What ends code or hides it: the closing tag and the signs that open comments. -/
def interruptions : List (List Char) := [closeTag, ['#'], ['/', '/'], ['/', '*']]

/-- Whether the code goes on at a place outside of literals. -/
def goesOn (cs : List Char) : Bool := interruptions.all fun p => ! startsWith p cs

/-- No place outside of literals has a comment or the end of the island. -/
def uninterrupted : Quoting → List Char → Bool
  | _, [] => true
  | mode, c :: cs => (mode != .code || goesOn (c :: cs)) && uninterrupted (mode.next c) cs

theorem uninterrupted_cons {mode : Quoting} :
    uninterrupted mode (c :: cs) = true ↔
      (mode = .code → goesOn (c :: cs) = true) ∧ uninterrupted (mode.next c) cs = true := by
  rw [uninterrupted, Bool.and_eq_true, Bool.or_eq_true, bne_iff_ne, ← imp_iff_not_or]

theorem uninterrupted_drop {mode : Quoting} (h : uninterrupted mode a = true) (n : Nat) :
    uninterrupted ((a.take n).foldl Quoting.next mode) (a.drop n) = true := by
  induction a generalizing mode n with
  | nil => simp [uninterrupted]
  | cons c a ih =>
    cases n with
    | zero => exact h
    | succ n => exact ih (uninterrupted_cons.mp h).2 n

theorem startsStop_interruptions :
    ∀ p ∈ interruptions, ∀ d ∈ p.tail, startsStop d = false := by
  have h : ∀ p ∈ interruptions, (p.tail.all fun d => decide (startsStop d = false)) = true :=
    forall_mem_of_all (by decide)
  exact fun p hp => forall_mem_of_all (h p hp)

theorem goesOn_append (hr : Stops rest) : goesOn (c :: a ++ rest) = goesOn (c :: a) := by
  rw [goesOn, goesOn, Bool.eq_iff_iff, List.all_eq_true, List.all_eq_true]
  refine forall₂_congr fun p hp => ?_
  rw [startsWith_cons_append (startsStop_interruptions p hp) hr.head]

theorem startsWith_of_goesOn (h : goesOn cs = true) {p : List Char} (hp : p ∈ interruptions) :
    startsWith p cs = false := by
  rw [goesOn, List.all_eq_true] at h
  simpa using h p hp

/-- Only three characters can interrupt the code. -/
theorem goesOn_of_notMem (hc : c ∉ ['?', '#', '/']) (cs : List Char) : goesOn (c :: cs) = true := by
  have hfirst : ∀ p ∈ interruptions, ∃ x q, p = x :: q ∧ x ∈ ['?', '#', '/'] := by
    intro p hp
    simp only [interruptions, closeTag, List.mem_cons, List.not_mem_nil, or_false] at hp
    rcases hp with rfl | rfl | rfl | rfl <;> exact ⟨_, _, rfl, by decide⟩
  rw [goesOn, List.all_eq_true]
  intro p hp
  obtain ⟨x, q, rfl, hx⟩ := hfirst p hp
  have hne : x ≠ c := fun he => hc (he ▸ hx)
  rw [startsWith_cons, decide_eq_false hne, Bool.false_and]
  rfl

/-- Where code goes on, only a blank gives no token. -/
theorem triviaWidth_of_goesOn (h : goesOn (c :: cs) = true) :
    triviaWidth (c :: cs) = if isBlank c then 1 else 0 := by
  have h₁ := startsWith_of_goesOn h (p := ['#']) (by decide)
  have h₂ := startsWith_of_goesOn h (p := ['/', '/']) (by decide)
  have h₃ := startsWith_of_goesOn h (p := ['/', '*']) (by decide)
  have hc : c ≠ '#' := by
    rintro rfl
    simp [startsWith, dropStart?] at h₁
  simp [triviaWidth, hc, h₂, h₃]

/-- The step at a place where the code goes on. -/
theorem codeStep_of_goesOn (h : goesOn (c :: cs) = true) :
    codeStep c cs =
      if isBlank c then .ok { token := none, width := 1, mode := .code }
      else if c = '$' then
        match nameAt cs with
        | [] => .error { found := "`$`", expected := "a variable name" }
        | name => emit (.var (String.ofList name)) (1 + name.length)
      else if isAsciiDigit c then numeralStep (c :: cs)
      else if c = '\x27' || c = '\x22' then
        match readQuoted c cs with
        | some (content, n) => emit (.string (String.ofList content)) (1 + n)
        | none => .error { found := "unterminated string", expected := "a closing quote" }
      else if isNameStart c || c = '\\' then
        let width := wordWidth 0 (c :: cs)
        emit (.word (String.ofList ((c :: cs).take width))) width
      else signStep c cs := by
  have ht := triviaWidth_of_goesOn h
  have hclose := startsWith_of_goesOn h (p := closeTag) (by decide)
  unfold codeStep
  by_cases hb : isBlank c = true
  · rw [if_pos hb] at ht ⊢
    rw [ht]
  · rw [if_neg hb] at ht ⊢
    rw [ht]
    cases nameAt cs <;> cases readQuoted c cs <;> simp only [hclose, Bool.false_eq_true, if_false]

/-- A character that is no quote. -/
def isBare (c : Char) : Bool := c ≠ '\x27' && c ≠ '\x22'

/-- A step is the same in front of what no token goes on in, unless it is a literal or a sign. -/
theorem codeStep_append_of_stops (h : goesOn (c :: a) = true) (hr : Stops rest)
    (hsign : signStep c (a ++ rest) = signStep c a)
    (hq : isBare c = false → readQuoted c (a ++ rest) = readQuoted c a) :
    codeStep c (a ++ rest) = codeStep c a := by
  have h' : goesOn (c :: (a ++ rest)) = true := (goesOn_append hr).trans h
  have hw : wordWidth 0 (c :: (a ++ rest)) = wordWidth 0 (c :: a) :=
    wordWidth_append (a := c :: a) (Nat.zero_le _) hr
  have hle : wordWidth 0 (c :: a) ≤ (c :: a).length := wordWidth_le (Nat.zero_le _)
  have htake : (c :: (a ++ rest)).take (wordWidth 0 (c :: a)) =
      (c :: a).take (wordWidth 0 (c :: a)) := by
    rw [← List.cons_append, List.take_append_of_le_length hle]
  have hnum : numeralStep (c :: (a ++ rest)) = numeralStep (c :: a) :=
    numeralStep_append (a := c :: a) hr
  rw [codeStep_of_goesOn h', codeStep_of_goesOn h]
  -- only a quote looks farther than the first character of the rest
  by_cases hb : isBare c = true
  · have hne : (decide (c = '\x27') || decide (c = '\x22')) = false := by
      rw [isBare, Bool.and_eq_true, decide_eq_true_iff, decide_eq_true_iff] at hb
      rw [decide_eq_false hb.1, decide_eq_false hb.2, Bool.or_self]
    simp only [nameAt_append hr, hnum, hne, hw, htake, hsign, Bool.false_eq_true, if_false]
  · rw [Bool.not_eq_true] at hb
    simp only [nameAt_append hr, hnum, hq hb, hw, htake, hsign]

/-- A step is the same in front of what breaks off names, unless it is a literal or a sign that only
ends there. -/
theorem codeStep_append (h : goesOn (c :: a) = true) (hr : Breaks rest)
    (ha : c = '&' → a = [] → Apart rest)
    (hq : isBare c = false → readQuoted c (a ++ rest) = readQuoted c a) :
    codeStep c (a ++ rest) = codeStep c a :=
  codeStep_append_of_stops h hr.stops (signStep_append hr ha) hq

/-- A literal that is read ends in the code. -/
theorem readQuoted_of_codeStep (hs : codeStep c a = .ok s) (hg : goesOn (c :: a) = true)
    (hb : isBare c = false) : ∃ x, readQuoted c a = some x := by
  cases hq : readQuoted c a with
  | some x => exact ⟨x, rfl⟩
  | none =>
    rw [isBare, Bool.and_eq_false_iff, decide_eq_false_iff_not, decide_eq_false_iff_not, not_not,
      not_not] at hb
    rw [codeStep_of_goesOn hg, hq] at hs
    rcases hb with rfl | rfl
    · cases hs
    · cases hs

/-- A step over code is the same in front of whatever breaks off names. -/
theorem codeStep_append_of_ok (hs : codeStep c a = .ok s) (hg : goesOn (c :: a) = true)
    (hr : Breaks rest) : codeStep c (a ++ rest) = .ok s := by
  have hsmall : c = '&' → a = [] → Apart rest := by
    rintro rfl rfl
    cases hs
  rw [codeStep_append hg hr hsmall, hs]
  intro hb
  obtain ⟨x, hx⟩ := readQuoted_of_codeStep hs hg hb
  rw [hx]
  exact readQuoted_append hx rest

/-! ### What a step covers -/

theorem isBare_of_isNamePart {d : Char} (h : isNamePart d = true) : isBare d = true := by
  rw [isBare, Bool.and_eq_true, decide_eq_true_iff, decide_eq_true_iff]
  constructor <;> (rintro rfl; exact absurd h (by decide))

theorem isBare_of_isBlank {d : Char} (h : isBlank d = true) : isBare d = true := by
  rw [isBare, Bool.and_eq_true, decide_eq_true_iff, decide_eq_true_iff]
  constructor <;> (rintro rfl; exact absurd h (by decide))

/-- Characters that are no quotes do not lead into a literal. -/
theorem foldl_next_of_bare (h : ∀ d ∈ a, isBare d = true) :
    a.foldl Quoting.next .code = .code := by
  induction a with
  | nil => rfl
  | cons c a ih =>
    have hc := h c List.mem_cons_self
    rw [isBare, Bool.and_eq_true, decide_eq_true_iff, decide_eq_true_iff] at hc
    have hnext : Quoting.code.next c = .code := if_neg (not_or.mpr hc)
    rw [List.foldl_cons, hnext]
    exact ih fun d hd => h d (List.mem_cons_of_mem c hd)

theorem isNamePart_of_isNameStart {d : Char} (h : isNameStart d = true) : isNamePart d = true := by
  rw [isNameStart, Bool.or_eq_true] at h
  rw [isNamePart, isAsciiAlnum]
  rcases h with h | h <;> simp [h]

theorem isBare_nameAt : ∀ d ∈ nameAt cs, isBare d = true := by
  intro d hd
  cases cs with
  | nil => cases hd
  | cons c cs =>
    rw [nameAt] at hd
    split at hd
    next hc =>
      rcases List.mem_cons.mp hd with rfl | hd
      · exact isBare_of_isNamePart (isNamePart_of_isNameStart hc)
      · exact isBare_of_isNamePart (List.mem_takeWhile_imp hd)
    next => cases hd

theorem prefix_nameAt (cs : List Char) : nameAt cs <+: cs := by
  cases cs with
  | nil => exact List.prefix_rfl
  | cons c cs =>
    rw [nameAt]
    split
    · exact List.cons_prefix_cons.mpr ⟨rfl, List.takeWhile_prefix isNamePart⟩
    · exact List.nil_prefix

theorem isBare_qualifier : ∀ d ∈ cs.take (qualifierWidth cs), isBare d = true := by
  unfold qualifierWidth
  split
  next rest =>
    split
    · simp
    · rw [Nat.add_comm, List.take_succ_cons, List.take_succ_cons, List.take_succ_cons,
        ← List.prefix_iff_eq_take.mp (prefix_nameAt rest)]
      intro d hd
      simp only [List.mem_cons] at hd
      rcases hd with rfl | rfl | rfl | hd
      · decide
      · decide
      · decide
      · exact isBare_nameAt d hd
  next rest _ =>
    split
    · simp
    · rw [Nat.add_comm, List.take_succ_cons, List.take_succ_cons,
        ← List.prefix_iff_eq_take.mp (prefix_nameAt rest)]
      intro d hd
      simp only [List.mem_cons] at hd
      rcases hd with rfl | rfl | hd
      · decide
      · decide
      · exact isBare_nameAt d hd
  next => simp

theorem isBare_word {skip : Nat} (hs : ∀ d ∈ a.take skip, isBare d = true) :
    ∀ d ∈ a.take (wordWidth skip a), isBare d = true := by
  induction a generalizing skip with
  | nil => simp
  | cons c a ih =>
    cases skip with
    | succ skip =>
      rw [wordWidth, Nat.add_comm, List.take_succ_cons]
      intro d hd
      rcases List.mem_cons.mp hd with rfl | hd
      · exact hs d List.mem_cons_self
      · exact ih (fun e he => hs e (List.mem_cons_of_mem c he)) d hd
    | zero =>
      rw [wordWidth]
      split
      next hc =>
        rw [Nat.add_comm, List.take_succ_cons]
        intro d hd
        rcases List.mem_cons.mp hd with rfl | hd
        · rw [Bool.or_eq_true, decide_eq_true_iff] at hc
          rcases hc with hc | rfl
          · exact isBare_of_isNamePart hc
          · decide
        · exact ih (fun e he => by simp at he) d hd
      next =>
        -- the word goes on with a qualifier, which is skipped
        have hq : ∀ d ∈ (c :: a).take (qualifierWidth (c :: a)), isBare d = true :=
          isBare_qualifier
        split
        next => simp
        next k hk =>
          rw [hk, List.take_succ_cons] at hq
          rw [Nat.add_comm, List.take_succ_cons]
          intro d hd
          rcases List.mem_cons.mp hd with rfl | hd
          · exact hq d List.mem_cons_self
          · exact ih (fun e he => hq e (List.mem_cons_of_mem c he)) d hd

theorem prefix_numeral (cs : List Char) : numeral cs <+: cs := by
  have h := List.takeWhile_append_dropWhile (p := isAsciiDigit) (l := cs)
  rw [numeral]
  split
  next rest heq =>
    simp only []
    split
    · exact List.takeWhile_prefix isAsciiDigit
    · refine ⟨rest.dropWhile isAsciiDigit, ?_⟩
      rw [List.append_assoc, List.cons_append, List.takeWhile_append_dropWhile, ← heq, h]
  next => exact List.takeWhile_prefix isAsciiDigit

theorem isBare_of_isAsciiDigit {d : Char} (h : isAsciiDigit d = true) : isBare d = true :=
  isBare_of_isNamePart (by simp [isNamePart, isAsciiAlnum, h])

theorem isBare_numeral : ∀ d ∈ numeral cs, isBare d = true := by
  intro d hd
  rw [numeral] at hd
  split at hd
  next rest heq =>
    simp only [] at hd
    split at hd
    · exact isBare_of_isAsciiDigit (List.mem_takeWhile_imp hd)
    · rcases List.mem_append.mp hd with hd | hd
      · exact isBare_of_isAsciiDigit (List.mem_takeWhile_imp hd)
      · rcases List.mem_cons.mp hd with rfl | hd
        · decide
        · exact isBare_of_isAsciiDigit (List.mem_takeWhile_imp hd)
  next => exact isBare_of_isAsciiDigit (List.mem_takeWhile_imp hd)

theorem isBare_signs : ∀ x ∈ signs, x.1 ≠ [] ∧ ∀ d ∈ x.1, isBare d = true := by
  have h : ∀ x ∈ signs, x.1 ≠ [] ∧ x.1.all isBare = true := forall_mem_of_all (by decide)
  exact fun x hx => ⟨(h x hx).1, List.all_eq_true.mp (h x hx).2⟩

/-- A step in code covers at least its first character and at most the code, and it ends outside
of literals. -/
structure Covers (code : List Char) (s : Step) : Prop where
  pos : 0 < s.width
  le : s.width ≤ code.length
  mode : s.mode = .code
  outside : (code.take s.width).foldl Quoting.next .code = .code

theorem covers_of_prefix {token : Option Token} (h : p <+: code) (hp : p ≠ [])
    (hb : ∀ d ∈ p, isBare d = true) :
    Covers code { token, width := p.length, mode := .code } where
  pos := List.length_pos_iff.mpr hp
  le := h.length_le
  mode := rfl
  outside := by
    rw [← List.prefix_iff_eq_take.mp h]
    exact foldl_next_of_bare hb

theorem covers_signStep (h : signStep c a = .ok s) : Covers (c :: a) s := by
  rw [signStep] at h
  split at h
  next hc =>
    cases h
    exact covers_of_prefix (p := [c]) ⟨a, rfl⟩ (by simp) (by simp [hc, isBare])
  next =>
    split at h
    next spelling sign hf =>
      cases h
      obtain ⟨hne, hb⟩ := isBare_signs _ (List.mem_of_find?_eq_some hf)
      have hp := List.find?_some hf
      exact covers_of_prefix (startsWith_iff.mp hp) hne hb
    next => cases h

theorem covers_numeralStep (h : numeralStep (c :: a) = .ok s) (hc : isAsciiDigit c = true) :
    Covers (c :: a) s := by
  have hne : numeral (c :: a) ≠ [] := by
    rw [numeral, List.takeWhile_cons_of_pos hc]
    split
    · simp only []
      split <;> simp
    · simp
  rw [numeralStep] at h
  split at h
  next token _ =>
    cases h
    exact covers_of_prefix (prefix_numeral _) hne fun d => isBare_numeral d
  next => cases h

theorem covers_codeStep (h : codeStep c a = .ok s) (hg : goesOn (c :: a) = true) :
    Covers (c :: a) s := by
  rw [codeStep_of_goesOn hg] at h
  split at h
  next hc =>
    cases h
    exact covers_of_prefix (p := [c]) ⟨a, rfl⟩ (by simp) (by simpa using isBare_of_isBlank hc)
  split at h
  next hc =>
    split at h
    next => cases h
    next name hname =>
      cases h
      have hp : c :: nameAt a <+: c :: a := List.cons_prefix_cons.mpr ⟨rfl, prefix_nameAt a⟩
      rw [Nat.add_comm]
      refine covers_of_prefix hp (by simp) fun d hd => ?_
      rcases List.mem_cons.mp hd with rfl | hd
      · rw [hc]
        decide
      · exact isBare_nameAt d hd
  split at h
  next hc => exact covers_numeralStep h hc
  split at h
  next hc =>
    rw [Bool.or_eq_true, decide_eq_true_iff, decide_eq_true_iff] at hc
    split at h
    next content n hq =>
      cases h
      have hle : n ≤ a.length := readQuoted_le hq
      have hne : c ≠ '\\' := by rcases hc with rfl | rfl <;> decide
      -- the literal leads into itself and, with its closing quote, out of itself
      have hopen : Quoting.code.next c = .quoted c := if_pos hc
      refine ⟨Nat.lt_add_right n Nat.one_pos, ?_, rfl, ?_⟩
      · rw [List.length_cons, Nat.add_comm]
        exact Nat.succ_le_succ hle
      · rw [Nat.add_comm, List.take_succ_cons, List.foldl_cons, hopen]
        exact foldl_next_of_readQuoted hq hne
    next => cases h
  split at h
  next hc =>
    cases h
    have hb : ∀ d ∈ (c :: a).take (wordWidth 0 (c :: a)), isBare d = true :=
      isBare_word (by simp)
    refine ⟨?_, wordWidth_le (Nat.zero_le _), rfl, foldl_next_of_bare hb⟩
    rw [Bool.or_eq_true, decide_eq_true_iff] at hc
    have hw : (isNamePart c || decide (c = '\\')) = true := by
      rcases hc with hc | rfl
      · rw [isNamePart_of_isNameStart hc, Bool.true_or]
      · decide
    simp only [wordWidth, if_pos hw]
    omega
  exact covers_signStep h

/-! ### Spelling tokens -/

/-- The code has the tokens in front of anything that is set apart. -/
def Spells (code : List Char) (ts : List Token) : Prop :=
  ∀ ⦃rest us⦄, Apart rest → Reads .code rest us → Reads .code (code ++ rest) (ts ++ us)

/-- In front of the rest, the tokens of the code are read first. -/
def ReadsFirst (code : List Char) (ts : List Token) (rest : List Char) : Prop :=
  ∀ ⦃vs⦄, Reads .code (code ++ rest) vs ↔ ∃ us, vs = ts ++ us ∧ Reads .code rest us

/-- The tokens of the code are read first in front of whatever breaks off names. -/
def SpellsFirm (code : List Char) (ts : List Token) : Prop :=
  ∀ ⦃rest⦄, Breaks rest → ReadsFirst code ts rest

/-- The tokens of the code are read first, whatever follows it. -/
def SpellsAnywhere (code : List Char) (ts : List Token) : Prop := ∀ rest, ReadsFirst code ts rest

theorem readsFirst_nil : ReadsFirst [] [] rest := fun _ => by simp

theorem ReadsFirst.append {b : List Char} (h : ReadsFirst a ts (b ++ rest))
    (h' : ReadsFirst b us rest) : ReadsFirst (a ++ b) (ts ++ us) rest := by
  intro vs
  rw [List.append_assoc, h]
  constructor
  · rintro ⟨ws, rfl, hws⟩
    obtain ⟨us', rfl, hus'⟩ := h'.mp hws
    exact ⟨us', (List.append_assoc _ _ _).symm, hus'⟩
  · rintro ⟨us', rfl, hus'⟩
    exact ⟨us ++ us', List.append_assoc _ _ _, h'.mpr ⟨us', rfl, hus'⟩⟩

/-- The tokens of a step over the beginning of the code. -/
theorem readsFirst_of_step (hs : step .code c (a ++ rest) = .ok s) (hm : s.mode = .code)
    (hw : s.width = a.length + 1) : ReadsFirst (c :: a) s.token.toList rest := by
  intro vs
  rw [List.cons_append, Reads.iff_of_step hs, hm, hw, Nat.add_sub_cancel, List.drop_left]

theorem SpellsFirm.spells (h : SpellsFirm code ts) : Spells code ts :=
  fun _ us hr hus => (h hr.breaks).mpr ⟨us, rfl, hus⟩

theorem SpellsAnywhere.reads (h : SpellsAnywhere code ts) (hr : Reads .code rest us) :
    Reads .code (code ++ rest) (ts ++ us) := (h rest).mpr ⟨us, rfl, hr⟩

theorem SpellsAnywhere.spells (h : SpellsAnywhere code ts) : Spells code ts :=
  fun _ _ _ hus => h.reads hus

theorem goesOn_of_append (h : goesOn (a ++ rest) = true) : goesOn a = true := by
  rw [goesOn, List.all_eq_true] at h ⊢
  intro p hp
  have hp := h p hp
  rw [Bool.not_eq_true', Bool.eq_false_iff, Ne, startsWith_iff] at hp ⊢
  exact fun hpre => hp (hpre.trans (List.prefix_append a rest))

theorem uninterrupted_of_append {mode : Quoting} (h : uninterrupted mode (a ++ rest) = true) :
    uninterrupted mode a = true := by
  induction a generalizing mode with
  | nil => rfl
  | cons c a ih =>
    rw [List.cons_append, uninterrupted_cons] at h
    exact uninterrupted_cons.mpr ⟨fun hm => goesOn_of_append (a := c :: a) (h.1 hm), ih h.2⟩

theorem uninterrupted_behind {mode : Quoting} (h : uninterrupted mode (a ++ rest) = true) :
    uninterrupted (a.foldl Quoting.next mode) rest = true := by
  have hdrop := uninterrupted_drop h a.length
  rwa [List.take_left, List.drop_left] at hdrop

/-- A step in front of what is set apart and ends no literal is a step over the code. -/
theorem codeStep_of_append {tail : List Char} (hs : codeStep c (a ++ tail) = .ok s)
    (hg : goesOn (c :: a) = true) (ht : Apart tail) (hb : ∀ d ∈ tail, isBare d = true) :
    codeStep c a = .ok s := by
  rw [codeStep_append hg ht.breaks fun _ _ => ht] at hs
  · exact hs
  · -- a literal that ends at all ends in the code, as no quote follows it
    intro hq
    have hnot : c ∉ tail := by
      intro hmem
      rw [hb c hmem] at hq
      cases hq
    cases hx : readQuoted c (a ++ tail) with
    | some x => exact (readQuoted_of_append hx hnot).symm
    | none =>
      cases hy : readQuoted c a with
      | none => rfl
      | some y =>
        rw [readQuoted_append hy] at hx
        cases hx

/-- The code is read by steps over its own characters, and the tokens are those of the steps. -/
inductive Steps : List Char → List Token → Prop where
  /-- There is nothing to read. -/
  | nil : Steps [] []
  /-- A step, and the steps behind it. -/
  | cons {c : Char} {a : List Char} {s : Step} {ts : List Token} (hgoes : goesOn (c :: a) = true)
    (hstep : codeStep c a = .ok s) (h : Steps (a.drop (s.width - 1)) ts) :
    Steps (c :: a) (s.token.toList ++ ts)

/-- What is left behind a step. -/
theorem Covers.drop_eq (h : Covers (c :: a) s) : (c :: a).drop s.width = a.drop (s.width - 1) := by
  obtain ⟨k, hk⟩ := Nat.exists_eq_succ_of_ne_zero (Nat.ne_of_gt h.pos)
  rw [hk]
  rfl

theorem Covers.le_length (h : Covers (c :: a) s) : s.width - 1 ≤ a.length := by
  have hle := h.le
  rw [List.length_cons] at hle
  omega

/-- Steps over whole literals end outside of them. -/
theorem Steps.outside (h : Steps code ts) : code.foldl Quoting.next .code = .code := by
  induction h with
  | nil => rfl
  | @cons c a s ts hgoes hstep _ ih =>
    have hcov := covers_codeStep hstep hgoes
    rw [← List.take_append_drop s.width (c :: a), List.foldl_append, hcov.outside, hcov.drop_eq, ih]

/-- The steps are the same in front of a text in which none of them goes on. -/
theorem Steps.readsFirst (h : Steps code ts)
    (hstay : ∀ ⦃c a s⦄, c :: a <:+ code → goesOn (c :: a) = true → codeStep c a = .ok s →
      codeStep c (a ++ rest) = .ok s) : ReadsFirst code ts rest := by
  induction h with
  | nil => exact readsFirst_nil
  | @cons c a s ts hgoes hstep _ ih =>
    have hcov := covers_codeStep hstep hgoes
    have hs : step .code c (a ++ rest) = .ok s := hstay List.suffix_rfl hgoes hstep
    have hsuffix : a.drop (s.width - 1) <:+ c :: a :=
      (List.drop_suffix _ _).trans (List.suffix_cons c a)
    -- the step reads the beginning of the code
    have hbegin : ReadsFirst ((c :: a).take s.width) s.token.toList
        (a.drop (s.width - 1) ++ rest) := by
      intro vs
      rw [← List.append_assoc, ← hcov.drop_eq, List.take_append_drop, List.cons_append,
        Reads.iff_of_step hs, hcov.mode, List.drop_append_of_le_length hcov.le_length, hcov.drop_eq]
    have hall := hbegin.append (ih fun d b t hb => hstay (hb.trans hsuffix))
    rwa [← hcov.drop_eq, List.take_append_drop] at hall

/-- Steps are the same in front of whatever breaks off names. -/
theorem Steps.firm (h : Steps code ts) : SpellsFirm code ts :=
  fun _ hr => h.readsFirst fun _ _ _ _ hg hs => codeStep_append_of_ok hs hg hr

/-- Code in front of a text is read by steps of its own when none of them goes on there.  The places
at which steps start are outside of literals just as the code as a whole is. -/
theorem Reads.steps {tail : List Char} (h : Reads .code (code ++ tail) vs)
    (hc : uninterrupted .code code = true)
    (hstay : ∀ ⦃c a s⦄, c :: a <:+ code →
      (c :: a).foldl Quoting.next .code = code.foldl Quoting.next .code →
      goesOn (c :: a) = true → codeStep c (a ++ tail) = .ok s → codeStep c a = .ok s) :
    ∃ ts us, vs = ts ++ us ∧ Reads .code tail us ∧ Steps code ts := by
  -- a step covers several characters, so the induction is on the length of the code
  induction hn : code.length using Nat.strong_induction_on generalizing code vs with
  | _ n ih =>
    cases code with
    | nil => exact ⟨[], vs, rfl, h, .nil⟩
    | cons c a =>
      rw [List.cons_append] at h
      obtain ⟨s, ws, hs, rfl, hw⟩ := h.step_of
      have hg : goesOn (c :: a) = true := (uninterrupted_cons.mp hc).1 rfl
      have hs : codeStep c a = .ok s := hstay List.suffix_rfl rfl hg hs
      have hcov := covers_codeStep hs hg
      have hout : (a.drop (s.width - 1)).foldl Quoting.next .code =
          (c :: a).foldl Quoting.next .code := by
        rw [← List.take_append_drop s.width (c :: a), List.foldl_append, hcov.outside, hcov.drop_eq]
      have hsuffix : a.drop (s.width - 1) <:+ c :: a :=
        (List.drop_suffix _ _).trans (List.suffix_cons c a)
      have hc' := uninterrupted_drop hc s.width
      rw [hcov.outside, hcov.drop_eq] at hc'
      rw [hcov.mode, List.drop_append_of_le_length hcov.le_length] at hw
      obtain ⟨ts, us, rfl, hu, hsteps⟩ := ih _ (by
        rw [← hn, List.length_drop, List.length_cons]
        omega) hw hc' (fun d b t hb ho => hstay (hb.trans hsuffix) (ho.trans hout)) rfl
      exact ⟨s.token.toList ++ ts, us, (List.append_assoc _ _ _).symm, hu, .cons hg hs hsteps⟩

/-- **Code is read on its own**: its tokens are those that it has in front of a text that is set
apart and ends no literal. -/
theorem Reads.split {tail : List Char} (h : Reads .code (code ++ tail) vs) (ht : Apart tail)
    (hb : ∀ d ∈ tail, isBare d = true) (hc : uninterrupted .code code = true) :
    ∃ ts us, vs = ts ++ us ∧ Reads .code tail us ∧ Steps code ts :=
  h.steps hc fun _ _ _ _ _ hg hs => codeStep_of_append hs hg ht hb

theorem Spells.nil : Spells [] [] := fun _ _ _ hr => hr

/-- Code behind code, from which it is set apart. -/
theorem Spells.append {b : List Char} (h : Spells a ts) (h' : Spells b us) (hb : Apart b)
    (hne : b ≠ []) : Spells (a ++ b) (ts ++ us) := by
  intro rest ws hr hws
  obtain ⟨c, b, rfl⟩ := List.exists_cons_of_ne_nil hne
  rw [List.append_assoc, List.append_assoc]
  exact h (apart_cons (hb c rfl)) (h' hr hws)

/-- Code that is one token. -/
theorem spellsFirm_of_step {t : Token}
    (hs : codeStep c a = .ok { token := some t, width := a.length + 1, mode := .code })
    (hg : goesOn (c :: a) = true) : SpellsFirm (c :: a) [t] :=
  fun _ hr => readsFirst_of_step (codeStep_append_of_ok hs hg hr) rfl rfl

theorem spells_of_step {t : Token}
    (hs : codeStep c a = .ok { token := some t, width := a.length + 1, mode := .code })
    (hg : goesOn (c :: a) = true) : Spells (c :: a) [t] :=
  (spellsFirm_of_step hs hg).spells

theorem SpellsAnywhere.append {b : List Char} (h : SpellsAnywhere a ts)
    (h' : SpellsAnywhere b us) : SpellsAnywhere (a ++ b) (ts ++ us) :=
  fun rest => (h (b ++ rest)).append (h' rest)

/-- Code in front of what breaks off names. -/
theorem SpellsFirm.anywhere {b : List Char} (h : SpellsFirm a ts) (h' : SpellsAnywhere b us)
    (hb : b.head?.any isBreak = true) : SpellsAnywhere (a ++ b) (ts ++ us) := by
  intro rest
  cases b with
  | nil => cases hb
  | cons c b => exact (h (breaks_cons hb)).append (h' rest)

/-- The token that a character is, whatever follows it. -/
def ownToken? : Char → Option Token
  | '(' => some (.sign .parenOpen)
  | ')' => some (.sign .parenClose)
  | '\x7b' => some (.sign .braceOpen)
  | '\x7d' => some (.sign .braceClose)
  | ',' => some (.sign .comma)
  | ';' => some .terminator
  | _ => none

theorem spellsAnywhere_own {t : Token} (h : ownToken? c = some t) : SpellsAnywhere [c] [t] := by
  intro rest
  have hs : step .code c rest = .ok { token := some t, width := 1, mode := .code } := by
    unfold ownToken? at h
    split at h <;> cases h <;> rfl
  exact readsFirst_of_step (a := []) hs rfl rfl

theorem Reads.own {t : Token} (h : ownToken? c = some t) (hr : Reads .code rest us) :
    Reads .code (c :: rest) (t :: us) := (spellsAnywhere_own h).reads hr

theorem isApart_of_ownToken? {t : Token} (h : ownToken? c = some t) : isApart c = true := by
  unfold ownToken? at h
  split at h <;> cases h <;> rfl

theorem Spells.own {b : List Char} {t : Token} (ht : ownToken? c = some t) (h : Spells b us) :
    Spells (c :: b) (t :: us) :=
  fun _ _ hr hws => (h hr hws).own ht

/-- Code in front of a character that is a token. -/
theorem Spells.append_own {b : List Char} {t : Token} (h : Spells a ts)
    (ht : ownToken? c = some t) (h' : Spells b us) :
    Spells (a ++ c :: b) (ts ++ t :: us) :=
  h.append (h'.own ht) (apart_cons (isApart_of_ownToken? ht)) (List.cons_ne_nil c b)

/-! ### Islands -/

theorem codeStep_of_isBlank (h : isBlank c = true) :
    codeStep c cs = .ok { token := none, width := 1, mode := .code } := by
  have ht : triviaWidth (c :: cs) = 1 := by rw [triviaWidth, if_pos h]
  unfold codeStep
  rw [ht]

/-- A blank gives no token. -/
theorem reads_blank (h : isBlank c = true) : Reads .code (c :: cs) us ↔ Reads .code cs us := by
  have hs : step .code c cs = .ok { token := none, width := 1, mode := .code } :=
    codeStep_of_isBlank h
  rw [Reads.iff_of_step hs]
  simp

theorem spellsAnywhere_blank (h : isBlank c = true) : SpellsAnywhere [c] [] := by
  intro rest vs
  rw [List.singleton_append, reads_blank h]
  simp

theorem reads_blanks (h : ∀ d ∈ a, isBlank d = true) :
    Reads .code (a ++ cs) us ↔ Reads .code cs us := by
  induction a with
  | nil => rfl
  | cons c a ih =>
    rw [List.cons_append, reads_blank (h c List.mem_cons_self)]
    exact ih fun d hd => h d (List.mem_cons_of_mem c hd)

theorem Spells.blank {b : List Char} (hc : isBlank c = true) (h : Spells b us) :
    Spells (c :: b) us :=
  fun _ _ hr hws => (reads_blank hc).mpr (h hr hws)

/-- Code in front of a blank. -/
theorem Spells.append_blank {b : List Char} (h : Spells a ts) (hc : isBlank c = true)
    (h' : Spells b us) : Spells (a ++ c :: b) (ts ++ us) :=
  h.append (h'.blank hc) (apart_cons (isApart_of_isBlank hc)) (List.cons_ne_nil c b)

/-- The closing tag ends a statement and the island. -/
theorem reads_closeTag : Reads .code (closeTag ++ cs) us ↔
    ∃ ws, us = .terminator :: ws ∧ Reads .text cs ws := by
  have hs : step .code '?' ('>' :: cs) =
      .ok { token := some .terminator, width := 2, mode := .text } := rfl
  exact Reads.iff_of_step hs

theorem step_openTag (cs : List Char) : step .text '<' ("?tpl".toList ++ cs) =
    .ok { token := none, width := 5, mode := .code } := by
  have hopen : startsWith openTag ('<' :: ("?tpl".toList ++ cs)) = true :=
    startsWith_iff.mpr ⟨cs, rfl⟩
  rw [step, textStep, if_pos hopen]
  rfl

theorem reads_openTag : Reads .text (openTag ++ cs) us ↔ Reads .code cs us := by
  have hcons : openTag ++ cs = '<' :: ("?tpl".toList ++ cs) := rfl
  rw [hcons, Reads.iff_of_step (step_openTag cs)]
  simp

/-- An island is read as its code, which the closing tag follows. -/
theorem reads_island : Reads .text (island code ++ rest) us ↔
    Reads .code (code ++ (' ' :: closeTag ++ rest)) us := by
  have h : island code ++ rest = openTag ++ (' ' :: (code ++ (' ' :: closeTag ++ rest))) := by
    simp [island]
  rw [h, reads_openTag, reads_blank (by decide)]

theorem apart_closing : Apart (' ' :: closeTag ++ rest) := apart_cons (by decide)

/-- The tokens of an island in front of other text. -/
theorem Spells.reads_island (h : Spells code ts) (hr : Reads .text rest us) :
    Reads .text (island code ++ rest) (ts ++ .terminator :: us) := by
  rw [Lexer.reads_island]
  refine h apart_closing ?_
  rw [List.cons_append, reads_blank (by decide), reads_closeTag]
  exact ⟨us, rfl, hr⟩

/-- The tokens of an island with nothing after it. -/
theorem reads_of_lex {ls : List Lexeme} (h : lex (island code) = .ok ls) :
    Reads .code (code ++ (' ' :: closeTag)) (ls.map Lexeme.token) := by
  have h := reads_of_lexFrom h
  rw [← List.append_nil (island code), Lexer.reads_island] at h
  simpa using h

theorem reads_closing : Reads .code (' ' :: closeTag) [.terminator] := by
  have hend : Reads .code (closeTag ++ []) [.terminator] := reads_closeTag.mpr ⟨[], rfl, reads_nil⟩
  exact (reads_blank (by decide)).mpr hend

/-- Nothing has no tokens. -/
theorem Spells.eq_nil (h : Spells [] ts) : ts = [] := by
  have heq : ts ++ [.terminator] = [.terminator] :=
    (h (apart_cons (by decide)) reads_closing).unique reads_closing
  exact List.append_left_eq_self.mp heq

theorem eq_of_reads_closing {tail : List Char} (hb : ∀ d ∈ tail, isBlank d = true)
    (h : Reads .code (tail ++ (' ' :: closeTag)) us) : us = [.terminator] := by
  rw [reads_blanks hb] at h
  exact h.unique reads_closing

/-- Code in front of the blanks at the end of an island is read by steps of its own. -/
theorem Reads.split_blanks {b : List Char} (h : Reads .code (code ++ (b ++ (' ' :: closeTag))) vs)
    (hb : ∀ d ∈ b, isBlank d = true) (hc : uninterrupted .code code = true) :
    ∃ ts, vs = ts ++ [.terminator] ∧ Steps code ts := by
  have hapart : Apart (b ++ (' ' :: closeTag)) := by
    cases b with
    | nil => exact apart_cons (by decide)
    | cons d b => exact apart_cons (isApart_of_isBlank (hb d List.mem_cons_self))
  have hclosing : ∀ d ∈ ' ' :: closeTag, isBare d = true := forall_mem_of_all (by decide)
  have hbare : ∀ d ∈ b ++ (' ' :: closeTag), isBare d = true := by
    intro d hd
    rcases List.mem_append.mp hd with hd | hd
    · exact isBare_of_isBlank (hb d hd)
    · exact hclosing d hd
  obtain ⟨ts, us, hvs, hus, hsteps⟩ := h.split hapart hbare hc
  rw [eq_of_reads_closing hb hus] at hvs
  exact ⟨ts, hvs, hsteps⟩

theorem Reads.split_closing (h : Reads .code (code ++ (' ' :: closeTag)) vs)
    (hc : uninterrupted .code code = true) : ∃ ts, vs = ts ++ [.terminator] ∧ Steps code ts :=
  Reads.split_blanks (b := []) h (by simp) hc

/-! ### Outer blanks -/

section OuterBlanks

variable {b : List Char}

theorem foldl_next_of_blanks (hb : ∀ d ∈ b, isBlank d = true) :
    b.foldl Quoting.next .code = .code :=
  foldl_next_of_bare fun d hd => isBare_of_isBlank (hb d hd)

/-- Blanks in front give no token. -/
theorem Steps.of_blanks (h : Steps (b ++ a) ts) (hb : ∀ d ∈ b, isBlank d = true) : Steps a ts := by
  induction b with
  | nil => exact h
  | cons d b ih =>
    obtain ⟨hd, hb⟩ := List.forall_mem_cons.mp hb
    refine ih ?_ hb
    rw [List.cons_append] at h
    cases h with
    | cons hgoes hstep h =>
      rw [codeStep_of_isBlank hd] at hstep
      cases hstep
      exact h

/-- Nor do blanks behind. -/
theorem Steps.of_blanks_behind (h : Steps (a ++ b) ts) (hc : uninterrupted .code (a ++ b) = true)
    (hb : ∀ d ∈ b, isBlank d = true) : Steps a ts := by
  have hall : Reads .code (a ++ b ++ (' ' :: closeTag)) (ts ++ [.terminator]) :=
    (h.firm (apart_cons (by decide)).breaks).mpr ⟨_, rfl, reads_closing⟩
  rw [List.append_assoc] at hall
  obtain ⟨us, hus, hsteps⟩ := hall.split_blanks hb (uninterrupted_of_append hc)
  rwa [List.append_cancel_right hus]

/-- What stands behind the last character that is no blank. -/
theorem trimRight_append (a : List Char) :
    ∃ b, trimRight a ++ b = a ∧ ∀ d ∈ b, isBlank d = true := by
  refine ⟨(a.reverse.takeWhile isBlank).reverse, ?_, fun d hd =>
    List.mem_takeWhile_imp (List.mem_reverse.mp hd)⟩
  rw [trimRight, dropRightWhile, ← List.reverse_append, List.takeWhile_append_dropWhile,
    List.reverse_reverse]

theorem Steps.trimLeft (h : Steps a ts) : Steps (trimLeft a) ts := by
  refine Steps.of_blanks (b := a.takeWhile isBlank) ?_ fun d hd => List.mem_takeWhile_imp hd
  rwa [Text.trimLeft, List.takeWhile_append_dropWhile]

theorem Steps.trimRight (h : Steps a ts) (hc : uninterrupted .code a = true) :
    Steps (trimRight a) ts := by
  obtain ⟨b, ha, hb⟩ := trimRight_append a
  refine Steps.of_blanks_behind (b := b) ?_ ?_ hb
  · rwa [ha]
  · rwa [ha]

/-- **Outer blanks do not count.** -/
theorem Steps.trim (h : Steps a ts) (hc : uninterrupted .code a = true) :
    Steps (trim a) ts := by
  refine h.trimLeft.trimRight ?_
  have hb : ∀ d ∈ a.takeWhile isBlank, isBlank d = true := fun d hd => List.mem_takeWhile_imp hd
  rw [← List.takeWhile_append_dropWhile (p := isBlank) (l := a)] at hc
  have hbehind := uninterrupted_behind hc
  rwa [foldl_next_of_blanks hb] at hbehind

end OuterBlanks

end Lexer

end Stencil
