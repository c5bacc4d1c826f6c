import Mathlib.Data.List.Basic
import Stencil.Proofs.Binding

/-!
# Binding variables, token by token

Binding and lexing read code independently of each other: binding looks for dollar signs outside of
string literals, lexing cuts the code into tokens.  They agree on where literals start and end and
on which names are qualified, so what binding does can be said in tokens: a variable that is bound
becomes the variable of the context, an arrow and a word, and every other token stays.

## Main definitions

* `takeBytes`, `dropBytes` — the parts of a source before and after a byte offset.
* `opensQualified` — whether a text goes on like a qualified name.
* `boundTokens` — the tokens that stand for a token of the source after binding.
* `BindsNothing` — nothing is put into a piece of code.

## Main results

* `codeStep_bindFrom` — where no variable is bound, the step is the same in the bound code.
* `reads_context` — where a variable is bound, three tokens are read.
* `lex_bindVars` — the tokens of bound code.
-/

namespace Stencil

open Text Lexer

/-! ### Places in a source -/

/-- The text before a byte offset. -/
def takeBytes : Nat → List Char → List Char
  | _, [] => []
  | n, c :: cs => if n = 0 then [] else c :: takeBytes (n - c.utf8Size) cs

/-- The text after a byte offset. -/
def dropBytes : Nat → List Char → List Char
  | _, [] => []
  | n, c :: cs => if n = 0 then c :: cs else dropBytes (n - c.utf8Size) cs

variable {mode : Quoting} {before cs ds w v p : List Char}

theorem takeBytes_append (cs ds : List Char) : takeBytes (byteSize cs) (cs ++ ds) = cs := by
  induction cs with
  | nil =>
    cases ds with
    | nil => rfl
    | cons d ds => rfl
  | cons c cs ih =>
    have hpos := c.utf8Size_pos
    rw [byteSize_cons, List.cons_append, takeBytes, if_neg (by omega), Nat.add_sub_cancel_left, ih]

theorem dropBytes_append (cs ds : List Char) : dropBytes (byteSize cs) (cs ++ ds) = ds := by
  induction cs with
  | nil =>
    cases ds with
    | nil => rfl
    | cons d ds => rfl
  | cons c cs ih =>
    have hpos := c.utf8Size_pos
    rw [byteSize_cons, List.cons_append, dropBytes, if_neg (by omega), Nat.add_sub_cancel_left, ih]

/-- Whether a text goes on with a qualification or a backslash. -/
def opensQualified (cs : List Char) : Bool := startsWith [':', ':'] cs || startsWith ['\\'] cs

/-- The tokens that stand for a token of the source when its variables are bound. -/
def boundTokens (source : List Char) (l : Lexeme) : List Token :=
  match l.token with
  | .var name =>
    if startsBound name.toList ∧ ¬ endsQualified (takeBytes l.start source).reverse then
      [.var contextName, .sign .arrow, .word name]
    else [.var name]
  | token => [token]

/-! ### Code into which nothing is put -/

/-- Whatever follows, nothing is put into the code when it is read in the mode after the text
`before`, which is given backwards. -/
def BindsNothing (mode : Quoting) (before w : List Char) : Prop :=
  ∀ cs, bindFrom mode before (w ++ cs) =
    w ++ bindFrom (w.foldl Quoting.next mode) (w.reverse ++ before) cs

theorem BindsNothing.append (hw : BindsNothing mode before w)
    (hv : BindsNothing (w.foldl Quoting.next mode) (w.reverse ++ before) v) :
    BindsNothing mode before (w ++ v) := by
  intro cs
  rw [List.append_assoc, hw, hv, List.append_assoc, List.foldl_append, List.reverse_append,
    List.append_assoc]

/-- Only behind a dollar sign something is put in. -/
theorem bindsNothing_of_notMem (h : '$' ∉ w) : BindsNothing mode before w := by
  induction w generalizing mode before with
  | nil => exact fun _ => rfl
  | cons c w ih =>
    intro cs
    have hc : c ≠ '$' := fun he => h (he ▸ List.mem_cons_self)
    have hw : '$' ∉ w := fun hm => h (List.mem_cons_of_mem c hm)
    rw [List.cons_append, bindFrom_cons, if_neg fun hi => hc hi.2.1, ih hw]
    simp

/-- A dollar sign in a literal or behind a qualification. -/
theorem bindsNothing_dollar (h : mode ≠ .code ∨ endsQualified before = true) :
    BindsNothing mode before ['$'] := by
  intro cs
  rw [List.singleton_append, bindFrom_cons, if_neg]
  · rfl
  · rintro ⟨hm, -, -, he⟩
    rcases h with h | h
    · exact h hm
    · exact he h

theorem bindsNothing_of_quoted {c : Char} (h : mode ≠ .code) : BindsNothing mode before [c] := by
  by_cases hc : c = '$'
  · subst hc
    exact bindsNothing_dollar (.inl h)
  · exact bindsNothing_of_notMem (by simpa using Ne.symm hc)

/-- Nothing is put into a string literal. -/
theorem bindsNothing_quoted {quote : Char} {x : List Char × Nat}
    (h : readQuoted quote cs = some x) : BindsNothing (.quoted quote) before (cs.take x.2) := by
  have hquoted : ∀ {d : Char}, d ≠ quote → d ≠ '\\' →
      [d].foldl Quoting.next (.quoted quote) = .quoted quote := by
    intro d hd hb
    simp [Quoting.next, hd, hb]
  fun_induction readQuoted quote cs generalizing x before with
  | case1 => cases h
  | case2 =>
    cases h
    exact bindsNothing_of_quoted (by simp)
  | case3 => cases h
  | case4 =>
    cases h
    exact bindsNothing_of_quoted (by simp)
  | case5 d cs _ ih =>
    obtain ⟨y, hy, rfl⟩ := Option.map_eq_some_iff.mp h
    -- a backslash and what it escapes, which leads back into the literal
    have hslash : BindsNothing (.quoted quote) before ['\\'] := bindsNothing_of_quoted (by simp)
    have hescaped : BindsNothing (.escaped quote) ('\\' :: before) [d] :=
      bindsNothing_of_quoted (by simp)
    have hpair : BindsNothing (.quoted quote) before (['\\'] ++ [d]) :=
      hslash.append (by simpa [Quoting.next] using hescaped)
    have hrest : BindsNothing (.quoted quote) (d :: '\\' :: before) (cs.take y.2) := ih hy
    exact hpair.append (by simpa [Quoting.next] using hrest)
  | case6 c d cs hne hc ih =>
    obtain ⟨y, hy, rfl⟩ := Option.map_eq_some_iff.mp h
    have hfirst : BindsNothing (.quoted quote) before [c] := bindsNothing_of_quoted (by simp)
    have hrest : BindsNothing (.quoted quote) (c :: before) ((d :: cs).take y.2) := ih hy
    refine hfirst.append ?_
    rw [hquoted hne hc]
    exact hrest

/-! ### What a token looks at -/

theorem startsWith_bindFrom (hp : '$' ∉ p) (mode : Quoting) (before cs : List Char) :
    startsWith p (bindFrom mode before cs) = startsWith p cs := by
  induction p generalizing mode before cs with
  | nil => rfl
  | cons x p ih =>
    have hx : x ≠ '$' := fun he => hp (he ▸ List.mem_cons_self)
    cases cs with
    | nil => rfl
    | cons c cs =>
      rw [bindFrom_cons, startsWith_cons, startsWith_cons]
      by_cases hc : x = c
      · -- the phrase goes on behind a character that is no dollar sign
        rw [if_neg fun hi => hx (hc.trans hi.2.1), List.nil_append,
          ih (fun hm => hp (List.mem_cons_of_mem x hm))]
      · rw [decide_eq_false hc, Bool.false_and, Bool.false_and]

theorem takeWhile_bindFrom {q : Char → Bool} (hq : q '$' = false) (mode : Quoting)
    (before cs : List Char) : (bindFrom mode before cs).takeWhile q = cs.takeWhile q := by
  induction cs generalizing mode before with
  | nil => rfl
  | cons c cs ih =>
    rw [bindFrom_cons]
    by_cases hc : q c = true
    · have hd : c ≠ '$' := by
        rintro rfl
        rw [hq] at hc
        cases hc
      rw [if_neg fun hi => hd hi.2.1, List.nil_append, List.takeWhile_cons_of_pos hc,
        List.takeWhile_cons_of_pos hc, ih]
    · rw [List.takeWhile_cons_of_neg hc, List.takeWhile_cons_of_neg hc]

theorem exists_dropWhile_bindFrom {q : Char → Bool} (hq : q '$' = false) (mode : Quoting)
    (before cs : List Char) : ∃ mode' before',
      (bindFrom mode before cs).dropWhile q = bindFrom mode' before' (cs.dropWhile q) := by
  induction cs generalizing mode before with
  | nil => exact ⟨mode, before, rfl⟩
  | cons c cs ih =>
    by_cases hc : q c = true
    · have hd : c ≠ '$' := by
        rintro rfl
        rw [hq] at hc
        cases hc
      obtain ⟨mode', before', h⟩ := ih (mode.next c) (c :: before)
      refine ⟨mode', before', ?_⟩
      rw [bindFrom_cons, if_neg fun hi => hd hi.2.1, List.nil_append,
        List.dropWhile_cons_of_pos hc, List.dropWhile_cons_of_pos hc, h]
    · refine ⟨mode, before, ?_⟩
      rw [List.dropWhile_cons_of_neg hc, bindFrom_cons, List.dropWhile_cons_of_neg hc]

theorem nameAt_bindFrom (mode : Quoting) (before cs : List Char) :
    nameAt (bindFrom mode before cs) = nameAt cs := by
  cases cs with
  | nil => rfl
  | cons c cs =>
    rw [bindFrom_cons, nameAt, nameAt]
    by_cases hc : isNameStart c = true
    · have hd : c ≠ '$' := by
        rintro rfl
        exact absurd hc (by decide)
      rw [if_pos hc, if_pos hc, if_neg fun hi => hd hi.2.1, List.nil_append,
        takeWhile_bindFrom (by decide)]
    · rw [if_neg hc, if_neg hc]

/-- A numeral ends before the fraction that no digit follows, so two more characters count. -/
theorem numeral_bindFrom (mode : Quoting) (before cs : List Char) :
    numeral (bindFrom mode before cs) = numeral cs := by
  obtain ⟨mode', before', hdrop⟩ :=
    exists_dropWhile_bindFrom (q := isAsciiDigit) (by decide) mode before cs
  rw [numeral, numeral, takeWhile_bindFrom (by decide), hdrop]
  cases cs.dropWhile isAsciiDigit with
  | nil => rfl
  | cons d rest =>
    rw [bindFrom_cons]
    by_cases hd : d = '.'
    · subst hd
      have hdot : ¬ ('.' : Char) = '$' := by decide
      simp only [hdot, false_and, and_false, if_false, List.nil_append,
        takeWhile_bindFrom (q := isAsciiDigit) (by decide)]
    · split
      next heq => exact absurd (List.cons.inj heq).1 hd
      next =>
        split
        next heq => exact absurd (List.cons.inj heq).1 hd
        next => rfl

theorem readQuoted_bindFrom (quote : Char) (before cs : List Char) :
    readQuoted quote (bindFrom (.quoted quote) before cs) = readQuoted quote cs := by
  have hkeep : ∀ {m : Quoting} {b : List Char} {c : Char} {cs : List Char}, m ≠ .code →
      bindFrom m b (c :: cs) = c :: bindFrom (m.next c) (c :: b) cs := by
    intro m b c cs hm
    rw [bindFrom_cons, if_neg fun hi => hm hi.1, List.nil_append]
  fun_induction readQuoted quote cs generalizing before with
  | case1 => rfl
  | case2 => simp [bindFrom, readQuoted]
  | case3 c hne => simp [bindFrom, readQuoted, hne]
  | case4 d cs =>
    rw [hkeep (by simp)]
    cases bindFrom (Quoting.next (.quoted quote) quote) (quote :: before) (d :: cs) with
    | nil => simp [readQuoted]
    | cons e es => simp [readQuoted]
  | case5 d cs hne ih =>
    rw [hkeep (by simp), hkeep (by simp [Quoting.next]), readQuoted, if_neg hne, if_pos rfl]
    have hnext : (Quoting.next (.quoted quote) '\\').next d = .quoted quote := by
      simp [Quoting.next]
    rw [hnext, ih]
  | case6 c d cs hne hc ih =>
    have hnext : Quoting.next (.quoted quote) c = .quoted quote := by
      simp [Quoting.next, hne, hc]
    have ih := ih (c :: before)
    rw [hkeep (by simp), hnext]
    rw [hkeep (by simp)] at ih ⊢
    rw [readQuoted, if_neg hne, if_neg hc, ih]

/-! ### Words -/

theorem qualifierWidth_eq_zero (h : startsWith [':', ':'] cs = false) : qualifierWidth cs = 0 := by
  match cs with
  | [] => rfl
  | [c] => exact qualifierWidth_singleton c
  | c :: d :: cs =>
    refine qualifierWidth_of_ne ?_
    rintro ⟨rfl, rfl⟩
    simp [startsWith, dropStart?] at h

theorem notMem_nameAt (cs : List Char) : '$' ∉ nameAt cs := by
  intro h
  cases cs with
  | nil => cases h
  | cons c cs =>
    rw [nameAt] at h
    split at h
    next hc =>
      rcases List.mem_cons.mp h with rfl | h
      · exact absurd hc (by decide)
      · exact absurd (List.mem_takeWhile_imp h) (by decide)
    next => cases h

theorem take_length_nameAt (cs : List Char) : cs.take (nameAt cs).length = nameAt cs :=
  (List.prefix_iff_eq_take.mp (prefix_nameAt cs)).symm

theorem nameAt_append_drop (cs : List Char) : nameAt cs ++ cs.drop (nameAt cs).length = cs := by
  rw [← take_length_nameAt cs, List.length_take_of_le (length_nameAt_le cs), List.take_append_drop]

/-- A dollar sign in a qualified word follows the qualification. -/
theorem bindsNothing_qualifier (before cs : List Char) :
    BindsNothing .code before (cs.take (qualifierWidth cs)) := by
  have hcolons : BindsNothing .code before [':', ':'] := bindsNothing_of_notMem (by decide)
  unfold qualifierWidth
  split
  next rest =>
    split
    next => exact fun _ => rfl
    next =>
      have hdollar : BindsNothing .code (':' :: ':' :: before) ['$'] :=
        bindsNothing_dollar (.inr rfl)
      have hhead : BindsNothing .code before ([':', ':'] ++ ['$']) := hcolons.append hdollar
      have hname : ':' :: ':' :: '$' :: nameAt rest = [':', ':'] ++ ['$'] ++ nameAt rest := rfl
      rw [Nat.add_comm, List.take_succ_cons, List.take_succ_cons, List.take_succ_cons,
        take_length_nameAt, hname]
      exact hhead.append (bindsNothing_of_notMem (notMem_nameAt rest))
  next rest _ =>
    split
    next => exact fun _ => rfl
    next =>
      have hname : ':' :: ':' :: nameAt rest = [':', ':'] ++ nameAt rest := rfl
      rw [Nat.add_comm, List.take_succ_cons, List.take_succ_cons, take_length_nameAt, hname]
      exact hcolons.append (bindsNothing_of_notMem (notMem_nameAt rest))
  next => exact fun _ => rfl

theorem qualifierWidth_bindFrom (before cs : List Char) :
    qualifierWidth (bindFrom .code before cs) = qualifierWidth cs := by
  by_cases h : startsWith [':', ':'] cs = true
  · obtain ⟨rest, rfl⟩ := startsWith_iff.mp h
    have hcolons : BindsNothing .code before [':', ':'] := bindsNothing_of_notMem (by decide)
    have hnext : [':', ':'].foldl Quoting.next .code = .code := by decide
    rw [hcolons, hnext]
    show qualifierWidth (':' :: ':' :: bindFrom .code (':' :: ':' :: before) rest) =
      qualifierWidth (':' :: ':' :: rest)
    by_cases hd : rest.head? = some '$'
    · obtain ⟨rest, rfl⟩ : ∃ r, rest = '$' :: r := by
        cases rest with
        | nil => cases hd
        | cons d rest =>
          cases hd
          exact ⟨rest, rfl⟩
      have hdollar : BindsNothing .code (':' :: ':' :: before) ['$'] :=
        bindsNothing_dollar (.inr rfl)
      have hrest := hdollar rest
      rw [List.singleton_append] at hrest
      rw [hrest, List.singleton_append, qualifierWidth, qualifierWidth, nameAt_bindFrom]
    · rw [qualifierWidth_colons hd, qualifierWidth_colons (by rwa [head?_bindFrom]),
        nameAt_bindFrom]
  · rw [Bool.not_eq_true] at h
    rw [qualifierWidth_eq_zero h, qualifierWidth_eq_zero]
    rw [startsWith_bindFrom (by decide), h]

theorem wordWidth_skip {skip : Nat} (h : skip ≤ cs.length) :
    wordWidth skip cs = skip + wordWidth 0 (cs.drop skip) := by
  induction skip generalizing cs with
  | zero => rw [Nat.zero_add, List.drop_zero]
  | succ skip ih =>
    cases cs with
    | nil => exact absurd h (by simp)
    | cons c cs =>
      rw [wordWidth, ih (Nat.le_of_succ_le_succ h), List.drop_succ_cons]
      omega

/-- A word goes on with one more character or with a qualifier. -/
theorem wordWidth_cons (c : Char) (cs : List Char) :
    wordWidth 0 (c :: cs) =
      if isNamePart c || c = '\\' then 1 + wordWidth 0 cs
      else if qualifierWidth (c :: cs) = 0 then 0
      else qualifierWidth (c :: cs) +
        wordWidth 0 ((c :: cs).drop (qualifierWidth (c :: cs))) := by
  have hle := qualifierWidth_le (c :: cs)
  rw [wordWidth]
  split
  next => rfl
  next =>
    cases hq : qualifierWidth (c :: cs) with
    | zero => rfl
    | succ k =>
      rw [hq, List.length_cons] at hle
      simp only [Nat.succ_ne_zero, if_false]
      rw [wordWidth_skip (Nat.le_of_succ_le_succ hle), List.drop_succ_cons]
      omega

/-- A character of a word is no dollar sign and no quote. -/
theorem ne_dollar_of_word {c : Char} (h : (isNamePart c || c = '\\') = true) :
    c ≠ '$' ∧ Quoting.code.next c = .code := by
  constructor
  · rintro rfl
    exact absurd h (by decide)
  · have hb : isBare c = true := by
      rw [Bool.or_eq_true, decide_eq_true_iff] at h
      rcases h with h | rfl
      · exact isBare_of_isNamePart h
      · decide
    exact foldl_next_of_bare (a := [c]) (by simpa using hb)

/-- Nothing is put into a word. -/
theorem bindsNothing_word (before cs : List Char) :
    BindsNothing .code before (cs.take (wordWidth 0 cs)) := by
  -- a qualifier covers several characters, so the induction is on the length
  induction hn : cs.length using Nat.strong_induction_on generalizing cs before with
  | _ n ih =>
    cases cs with
    | nil => exact fun _ => rfl
    | cons c cs =>
      rw [wordWidth_cons]
      split
      next hc =>
        obtain ⟨hd, hnext⟩ := ne_dollar_of_word hc
        have hfirst : BindsNothing .code before [c] :=
          bindsNothing_of_notMem (by simpa using hd.symm)
        have hrest := ih _ (by rw [← hn]; exact Nat.lt_succ_self _) (c :: before) cs rfl
        rw [Nat.add_comm, List.take_succ_cons]
        refine hfirst.append ?_
        rw [List.foldl_cons, hnext]
        exact hrest
      next =>
        split
        next => exact fun _ => rfl
        next hq =>
          have hfirst := bindsNothing_qualifier before (c :: cs)
          have hnext : ((c :: cs).take (qualifierWidth (c :: cs))).foldl Quoting.next .code =
              .code := foldl_next_of_bare isBare_qualifier
          rw [List.take_add]
          refine hfirst.append ?_
          rw [hnext]
          refine ih _ ?_ _ _ rfl
          rw [← hn, List.length_drop, List.length_cons]
          omega

theorem wordWidth_bindFrom (before cs : List Char) :
    wordWidth 0 (bindFrom .code before cs) = wordWidth 0 cs := by
  induction hn : cs.length using Nat.strong_induction_on generalizing cs before with
  | _ n ih =>
    cases cs with
    | nil => rfl
    | cons c cs =>
      have hq := qualifierWidth_bindFrom before (c :: cs)
      have hbind := bindsNothing_qualifier before (c :: cs)
        ((c :: cs).drop (qualifierWidth (c :: cs)))
      have hnext : ((c :: cs).take (qualifierWidth (c :: cs))).foldl Quoting.next .code =
          .code := foldl_next_of_bare isBare_qualifier
      have hlen : ((c :: cs).take (qualifierWidth (c :: cs))).length = qualifierWidth (c :: cs) :=
        List.length_take_of_le (qualifierWidth_le _)
      rw [List.take_append_drop, hnext] at hbind
      rw [wordWidth_cons c cs]
      have hcons := bindFrom_cons .code before c cs
      rw [hcons, wordWidth_cons, ← hcons, hq]
      by_cases hc : (isNamePart c || c = '\\') = true
      · obtain ⟨hd, hcode⟩ := ne_dollar_of_word hc
        rw [if_pos hc, if_pos hc, if_neg fun hi => hd hi.2.1, List.nil_append, hcode,
          ih _ (by rw [← hn]; exact Nat.lt_succ_self _) _ _ rfl]
      · rw [if_neg hc, if_neg hc]
        by_cases hz : qualifierWidth (c :: cs) = 0
        · rw [if_pos hz, if_pos hz]
        · have hdrop : (bindFrom .code before (c :: cs)).drop (qualifierWidth (c :: cs)) =
              bindFrom .code (((c :: cs).take (qualifierWidth (c :: cs))).reverse ++ before)
                ((c :: cs).drop (qualifierWidth (c :: cs))) := by
            rw [hbind, List.drop_append_of_le_length hlen.ge, List.drop_of_length_le hlen.le,
              List.nil_append]
          rw [if_neg hz, if_neg hz, hdrop]
          congr 1
          refine ih _ ?_ _ _ rfl
          rw [← hn, List.length_drop, List.length_cons]
          omega

/-! ### Steps over bound code -/

variable {c : Char} {a source : List Char} {s : Step} {pos : Nat} {ls : List Lexeme}

/-- Signs hold no dollar sign. -/
theorem notMem_signs : ∀ x ∈ signs, '$' ∉ x.1 := forall_mem_of_all (by decide)

theorem signStep_bindFrom (hc : c ≠ '$') (before a : List Char) :
    signStep c (bindFrom (Quoting.code.next c) (c :: before) a) = signStep c a := by
  have hcons : bindFrom .code before (c :: a) =
      c :: bindFrom (Quoting.code.next c) (c :: before) a := by
    rw [bindFrom_cons, if_neg fun hi => hc hi.2.1, List.nil_append]
  have h : signs.find? (fun x => startsWith x.1 (bindFrom .code before (c :: a))) =
      signs.find? (fun x => startsWith x.1 (c :: a)) :=
    List.find?_congr fun x hx => by rw [startsWith_bindFrom (notMem_signs x hx)]
  rw [hcons] at h
  rw [signStep, signStep, h]

/-- Code in which the dollar sign at its start, if there is one, is not bound. -/
def Leaves (before : List Char) (c : Char) (a : List Char) : Prop :=
  ¬ (c = '$' ∧ startsBound a = true ∧ ¬ endsQualified before = true)

theorem Leaves.bindFrom_cons (h : Leaves before c a) :
    bindFrom .code before (c :: a) = c :: bindFrom (Quoting.code.next c) (c :: before) a := by
  rw [Stencil.bindFrom_cons, if_neg fun hi => h hi.2, List.nil_append]

/-- The step at a place does not see that the code behind it is bound. -/
theorem codeStep_bindFrom (hg : goesOn (c :: a) = true) (hl : Leaves before c a) :
    codeStep c (bindFrom (Quoting.code.next c) (c :: before) a) = codeStep c a := by
  have hg' : goesOn (c :: bindFrom (Quoting.code.next c) (c :: before) a) = true := by
    rw [← hg]
    exact goesOn_congr (head?_bindFrom _ _ a)
  have hw : wordWidth 0 (c :: bindFrom (Quoting.code.next c) (c :: before) a) =
      wordWidth 0 (c :: a) := by
    rw [← hl.bindFrom_cons, wordWidth_bindFrom]
  have hn : numeral (c :: bindFrom (Quoting.code.next c) (c :: before) a) = numeral (c :: a) := by
    rw [← hl.bindFrom_cons, numeral_bindFrom]
  have htake : (c :: bindFrom (Quoting.code.next c) (c :: before) a).take (wordWidth 0 (c :: a)) =
      (c :: a).take (wordWidth 0 (c :: a)) := by
    have hbind := bindsNothing_word before (c :: a) ((c :: a).drop (wordWidth 0 (c :: a)))
    rw [List.take_append_drop, hl.bindFrom_cons] at hbind
    rw [hbind]
    exact List.take_left' (List.length_take_of_le (wordWidth_le (Nat.zero_le _)))
  have hnum : numeralStep (c :: bindFrom (Quoting.code.next c) (c :: before) a) =
      numeralStep (c :: a) := by
    rw [numeralStep, numeralStep, hn]
  rw [codeStep_of_goesOn hg', codeStep_of_goesOn hg]
  simp only [nameAt_bindFrom, hw, htake, hnum]
  by_cases hd : c = '$'
  · subst hd
    rfl
  · rw [signStep_bindFrom hd]
    by_cases hq : c = '\x27' ∨ c = '\x22'
    · have hopen : Quoting.code.next c = .quoted c := if_pos hq
      rw [hopen, readQuoted_bindFrom]
    · have hq' : (decide (c = '\x27') || decide (c = '\x22')) = false := by simpa using hq
      rw [hq']
      rfl

theorem notMem_numeral (cs : List Char) : '$' ∉ numeral cs := by
  intro h
  rw [numeral] at h
  have hdigits : ∀ ds : List Char, '$' ∉ ds.takeWhile isAsciiDigit :=
    fun ds hm => absurd (List.mem_takeWhile_imp hm) (by decide)
  split at h
  next rest _ =>
    simp only [] at h
    split at h
    · exact hdigits cs h
    · rcases List.mem_append.mp h with h | h
      · exact hdigits cs h
      · rcases List.mem_cons.mp h with h | h
        · exact absurd h (by decide)
        · exact hdigits rest h
  next => exact hdigits cs h

/-- A step covers code into which nothing is put, when no variable is bound there. -/
theorem bindFrom_step (hs : codeStep c a = .ok s) (hg : goesOn (c :: a) = true)
    (hl : Leaves before c a) :
    bindFrom .code before (c :: a) = (c :: a).take s.width ++
      bindFrom .code (((c :: a).take s.width).reverse ++ before) ((c :: a).drop s.width) := by
  have hout := (covers_codeStep hs hg).outside
  -- all steps but the one over a variable are over such code, whatever follows it
  have hnothing {n : Nat} (hn : ((c :: a).take n).foldl Quoting.next .code = .code)
      (h : BindsNothing .code before ((c :: a).take n)) :
      bindFrom .code before (c :: a) = (c :: a).take n ++
        bindFrom .code (((c :: a).take n).reverse ++ before) ((c :: a).drop n) := by
    have h := h ((c :: a).drop n)
    rwa [List.take_append_drop, hn] at h
  have hstart {p : List Char} (hp : p <+: c :: a) (hd : '$' ∉ p) :
      BindsNothing .code before ((c :: a).take p.length) := by
    rw [← List.prefix_iff_eq_take.mp hp]
    exact bindsNothing_of_notMem hd
  rw [codeStep_of_goesOn hg] at hs
  split at hs
  next hc =>
    cases hs
    have hd : c ≠ '$' := by
      rintro rfl
      exact absurd hc (by decide)
    exact hnothing hout (hstart (p := [c]) ⟨a, rfl⟩ (by simpa using hd.symm))
  split at hs
  next hc =>
    subst hc
    split at hs
    next => cases hs
    next name hname =>
      cases hs
      have hname : BindsNothing .code ('$' :: before) (nameAt a) :=
        bindsNothing_of_notMem (notMem_nameAt a)
      have hbind := hname (a.drop (nameAt a).length)
      have hnext : (nameAt a).foldl Quoting.next .code = .code := foldl_next_of_bare isBare_nameAt
      rw [nameAt_append_drop, hnext] at hbind
      have hopen : Quoting.code.next '$' = .code := by decide
      rw [hl.bindFrom_cons, hopen, hbind]
      simp [Nat.add_comm 1, take_length_nameAt]
  split at hs
  next hc =>
    rw [numeralStep] at hs
    split at hs
    next =>
      cases hs
      exact hnothing hout (hstart (prefix_numeral _) (notMem_numeral _))
    next => cases hs
  split at hs
  next hc =>
    rw [Bool.or_eq_true, decide_eq_true_iff, decide_eq_true_iff] at hc
    split at hs
    next content n hq =>
      cases hs
      have hopen : Quoting.code.next c = .quoted c := if_pos hc
      have hquote : BindsNothing .code before [c] :=
        bindsNothing_of_notMem (by rcases hc with rfl | rfl <;> decide)
      have hliteral : BindsNothing (.quoted c) (c :: before) (a.take n) := bindsNothing_quoted hq
      refine hnothing hout ?_
      rw [Nat.add_comm, List.take_succ_cons]
      refine hquote.append ?_
      rw [List.foldl_cons, hopen]
      exact hliteral
    next => cases hs
  split at hs
  next =>
    cases hs
    exact hnothing hout (bindsNothing_word before (c :: a))
  rw [signStep] at hs
  split at hs
  next hc =>
    cases hs
    exact hnothing hout (hstart (p := [c]) ⟨a, rfl⟩ (by rw [hc]; decide))
  next =>
    split at hs
    next spelling sign hf =>
      cases hs
      have hp := List.find?_some hf
      exact hnothing hout
        (hstart (startsWith_iff.mp hp) (notMem_signs _ (List.mem_of_find?_eq_some hf)))
    next => cases hs

/-! ### Bound variables -/

/-- A name ends where no character of a name follows. -/
theorem endsNames_drop_nameAt (h : nameAt a ≠ []) : EndsNames (a.drop (nameAt a).length) := by
  intro d hd
  cases a with
  | nil => exact absurd rfl h
  | cons c a =>
    by_cases hc : isNameStart c = true
    · have hdrop : (a.takeWhile isNamePart ++ a.dropWhile isNamePart).drop
          (a.takeWhile isNamePart).length = a.dropWhile isNamePart := List.drop_left
      rw [List.takeWhile_append_dropWhile] at hdrop
      rw [nameAt, if_pos hc, List.length_cons, List.drop_succ_cons, hdrop] at hd
      have hnot := List.head?_dropWhile_not isNamePart a
      rw [hd] at hnot
      simpa using hnot
    · rw [nameAt, if_neg hc] at h
      exact absurd rfl h

/-- Whether a variable is bound shows in its name. -/
theorem startsBound_nameAt (a : List Char) : startsBound (nameAt a) = startsBound a := by
  by_cases h : nameAt a = []
  · rw [h]
    cases a with
    | nil => rfl
    | cons c a =>
      have hc : isNameStart c = false := by
        by_contra hc
        rw [Bool.not_eq_false] at hc
        rw [nameAt, if_pos hc] at h
        cases h
      rw [isNameStart, Bool.or_eq_false_iff] at hc
      cases a with
      | nil => simp [startsBound, hc.1]
      | cons d a => simp [startsBound, hc.1, hc.2]
  · rw [← startsBound_append (endsNames_drop_nameAt h), nameAt_append_drop]

theorem wordWidth_append_of_isNamePart (h : ∀ d ∈ w, isNamePart d = true) (cs : List Char) :
    wordWidth 0 (w ++ cs) = w.length + wordWidth 0 cs := by
  induction w with
  | nil => rw [List.nil_append, List.length_nil, Nat.zero_add]
  | cons c w ih =>
    have hc : (isNamePart c || decide (c = '\\')) = true := by
      rw [h c List.mem_cons_self, Bool.true_or]
    rw [List.cons_append, wordWidth_cons, if_pos hc, ih fun d hd => h d (List.mem_cons_of_mem c hd),
      List.length_cons]
    omega

/-- What no word goes on with. -/
theorem wordWidth_eq_zero (hn : EndsNames cs) (hq : opensQualified cs = false) :
    wordWidth 0 cs = 0 := by
  rw [opensQualified, Bool.or_eq_false_iff] at hq
  cases cs with
  | nil => rfl
  | cons d cs =>
    have hd : d ≠ '\\' := by
      rintro rfl
      exact absurd hq.2 (by simp [startsWith, dropStart?])
    rw [wordWidth_cons, if_neg (by simp [hn d rfl, hd]), if_pos (qualifierWidth_eq_zero hq.1)]

theorem isNamePart_nameAt : ∀ d ∈ nameAt cs, isNamePart d = true := by
  intro d hd
  cases cs with
  | nil => cases hd
  | cons c cs =>
    rw [nameAt] at hd
    split at hd
    next hc =>
      rcases List.mem_cons.mp hd with rfl | hd
      · exact isNamePart_of_isNameStart hc
      · exact List.mem_takeWhile_imp hd
    next => cases hd

/-- Code goes on at a name. -/
theorem not_isAsciiDigit_of_isNameStart (hc : isNameStart c = true) : isAsciiDigit c = false := by
  by_contra hd
  rw [Bool.not_eq_false] at hd
  simp only [isNameStart, isAsciiLetter, isAsciiDigit, Bool.or_eq_true, Bool.and_eq_true,
    decide_eq_true_eq] at hc hd
  rcases hc with hc | rfl
  · omega
  · exact absurd hd (by decide)

theorem goesOn_of_isNameStart (hc : isNameStart c = true) (cs : List Char) :
    goesOn (c :: cs) = true := by
  refine goesOn_of_notMem (fun hmem => ?_) cs
  simp only [List.mem_cons, List.not_mem_nil, or_false] at hmem
  rcases hmem with rfl | rfl | rfl <;> exact absurd hc (by decide)

/-- The step over a word that starts like a name. -/
theorem codeStep_of_isNameStart (hc : isNameStart c = true) (cs : List Char) :
    codeStep c cs = .ok
      { token := some (.word (String.ofList ((c :: cs).take (wordWidth 0 (c :: cs)))))
        width := wordWidth 0 (c :: cs), mode := .code } := by
  have hne : ∀ d, isNameStart d = false → c ≠ d := by
    rintro d hd rfl
    rw [hc] at hd
    cases hd
  have hblank : isBlank c = false := by
    by_contra hb
    rw [Bool.not_eq_false] at hb
    have hnot := isNameStart_of_isApart (isApart_of_isBlank hb)
    rw [hc] at hnot
    cases hnot
  have hdigit := not_isAsciiDigit_of_isNameStart hc
  rw [codeStep_of_goesOn (goesOn_of_isNameStart hc cs)]
  simp [hblank, hdigit, hc, hne '$' (by decide), hne '\x27' (by decide), hne '\x22' (by decide),
    emit]

/-- **A bound variable is three tokens**: the variable of the context, an arrow and its name. -/
theorem reads_context {us : List Token} (hne : nameAt cs ≠ [])
    (hq : opensQualified (cs.drop (nameAt cs).length) = false)
    (h : Reads .code (cs.drop (nameAt cs).length) us) :
    Reads .code ('$' :: (contextPath ++ cs))
      (.var contextName :: .sign .arrow :: .word (String.ofList (nameAt cs)) :: us) := by
  have hvar : step .code '$' (contextPath ++ cs) =
      .ok { token := some (.var contextName), width := 6, mode := .code } := rfl
  have harrow : step .code '-' ('>' :: cs) =
      .ok { token := some (.sign .arrow), width := 2, mode := .code } := rfl
  have hword : Reads .code cs (.word (String.ofList (nameAt cs)) :: us) := by
    have hwidth : wordWidth 0 cs = (nameAt cs).length := by
      have hw := wordWidth_append_of_isNamePart (w := nameAt cs) isNamePart_nameAt
        (cs.drop (nameAt cs).length)
      rwa [nameAt_append_drop, wordWidth_eq_zero (endsNames_drop_nameAt hne) hq, Nat.add_zero] at hw
    cases cs with
    | nil => exact absurd rfl hne
    | cons c cs =>
      have hc : isNameStart c = true := by
        by_contra hc
        rw [nameAt, if_neg hc] at hne
        exact hne rfl
      have hs : step .code c cs = .ok
          { token := some (.word (String.ofList (nameAt (c :: cs))))
            width := (nameAt (c :: cs)).length, mode := .code } := by
        rw [step, codeStep_of_isNameStart hc cs, hwidth, take_length_nameAt]
      have hlen : (nameAt (c :: cs)).length = (cs.takeWhile isNamePart).length + 1 := by
        rw [nameAt, if_pos hc, List.length_cons]
      refine Reads.of_step hs ?_
      rw [hlen, List.drop_succ_cons] at h
      show Reads .code (cs.drop ((nameAt (c :: cs)).length - 1)) us
      rwa [hlen, Nat.add_sub_cancel]
  exact Reads.of_step hvar (Reads.of_step harrow hword)

/-! ### All of the code -/

theorem byteSize_reverse (cs : List Char) : byteSize cs.reverse = byteSize cs := by
  induction cs with
  | nil => rfl
  | cons c cs ih =>
    rw [List.reverse_cons, byteSize_append, ih, byteSize_cons, byteSize_cons, byteSize_nil]
    omega

/-- What is read starts with the token of its first step. -/
theorem lexFrom_eq_ok {mode : Mode} (hs : step mode c cs = .ok s) (hw : 0 < s.width)
    (h : lexFrom mode 0 pos (c :: cs) = .ok ls) : ∃ rest,
      lexFrom s.mode 0 (pos + byteSize ((c :: cs).take s.width)) ((c :: cs).drop s.width) =
        .ok rest ∧
      ls = (s.token.map fun token =>
        { token, start := pos, stop := pos + byteSize ((c :: cs).take s.width) }).toList ++
        rest := by
  obtain ⟨k, hk⟩ := Nat.exists_eq_succ_of_ne_zero (Nat.ne_of_gt hw)
  rw [lexFrom_of_step hs, lexFrom_skip, hk] at h
  rw [hk, List.take_succ_cons, byteSize_cons, List.drop_succ_cons, ← Nat.add_assoc]
  rw [Nat.succ_sub_one] at h
  cases hr : lexFrom s.mode 0 (pos + c.utf8Size + byteSize (cs.take k)) (cs.drop k) with
  | error e =>
    rw [hr] at h
    cases h
  | ok rest =>
    rw [hr] at h
    cases ht : s.token with
    | none =>
      rw [ht] at h
      cases h
      exact ⟨_, rfl, rfl⟩
    | some token =>
      rw [ht] at h
      cases h
      refine ⟨rest, rfl, ?_⟩
      rw [List.take_succ_cons, byteSize_cons, ← Nat.add_assoc]
      rfl

/-- What gives no token is left out. -/
theorem lexFrom_of_none {mode : Mode} (hs : step mode c cs = .ok s) (hw : 0 < s.width)
    (ht : s.token = none) : lexFrom mode 0 pos (c :: cs) =
      lexFrom s.mode 0 (pos + byteSize ((c :: cs).take s.width)) ((c :: cs).drop s.width) := by
  obtain ⟨k, hk⟩ := Nat.exists_eq_succ_of_ne_zero (Nat.ne_of_gt hw)
  rw [lexFrom_of_step hs, lexFrom_skip, hk, ht, List.take_succ_cons, byteSize_cons,
    List.drop_succ_cons, ← Nat.add_assoc, Nat.succ_sub_one]
  cases lexFrom s.mode 0 (pos + c.utf8Size + byteSize (cs.take k)) (cs.drop k) with
  | error e => rfl
  | ok rest => rfl

/-- A variable is read at a dollar sign. -/
theorem var_of_codeStep {name : String} (hs : codeStep c a = .ok s) (hg : goesOn (c :: a) = true)
    (ht : s.token = some (.var name)) : c = '$' ∧ name = String.ofList (nameAt a) := by
  rw [codeStep_of_goesOn hg] at hs
  split at hs
  next =>
    cases hs
    cases ht
  split at hs
  next hc =>
    split at hs
    next => cases hs
    next =>
      cases hs
      cases ht
      exact ⟨hc, rfl⟩
  split at hs
  next =>
    rw [numeralStep] at hs
    split at hs
    next token heq =>
      cases hs
      cases ht
      split at heq
      · obtain ⟨x, -, hx⟩ := Option.map_eq_some_iff.mp heq
        cases hx
      · obtain ⟨x, -, hx⟩ := Option.map_eq_some_iff.mp heq
        cases hx
    next => cases hs
  split at hs
  next =>
    split at hs
    next =>
      cases hs
      cases ht
    next => cases hs
  split at hs
  next =>
    cases hs
    cases ht
  rw [signStep] at hs
  split at hs
  next =>
    cases hs
    cases ht
  next =>
    split at hs
    next =>
      cases hs
      cases ht
    next => cases hs

/-- At a dollar sign a variable is read. -/
theorem codeStep_dollar (hs : codeStep '$' a = .ok s) (hg : goesOn ('$' :: a) = true) :
    nameAt a ≠ [] ∧ s = { token := some (.var (String.ofList (nameAt a)))
                          width := (nameAt a).length + 1, mode := .code } := by
  have hblank : isBlank '$' = false := by decide
  rw [codeStep_of_goesOn hg, hblank, if_neg Bool.false_ne_true, if_pos rfl] at hs
  split at hs
  next => cases hs
  next name hne =>
    cases hs
    exact ⟨hne, by rw [Nat.add_comm]⟩

/-- What follows code in its island. -/
abbrev closing : List Char := ' ' :: closeTag

theorem tokens_closing (h : lexFrom .code 0 pos closing = .ok ls) :
    ls.map Lexeme.token = [.terminator] :=
  eq_of_reads_closing (by simp : ∀ d ∈ ([] : List Char), isBlank d = true) (reads_of_lexFrom h)

/-- Tokens that are no variables stay. -/
theorem boundTokens_of_ne_var {l : Lexeme} (h : ∀ name, l.token ≠ .var name) :
    boundTokens source l = [l.token] := by
  unfold boundTokens
  split
  next name heq => exact absurd heq (h name)
  next => rfl

theorem isBare_closing : ∀ d ∈ closing, isBare d = true := forall_mem_of_all (by decide)

theorem closing_apart : Apart closing := apart_cons (by decide)

/-- **Where no variable is bound** the step is read in the bound code too. -/
theorem reads_leaves {us : List Token} (hs : codeStep c a = .ok s) (hg : goesOn (c :: a) = true)
    (hl : Leaves before c a)
    (h : Reads .code (bindFrom .code (((c :: a).take s.width).reverse ++ before)
      ((c :: a).drop s.width) ++ closing) us) :
    Reads .code (bindFrom .code before (c :: a) ++ closing) (s.token.toList ++ us) := by
  have hcov := covers_codeStep hs hg
  have hsplit := bindFrom_step hs hg hl
  have hbound := codeStep_bindFrom hg hl
  have hgoes : goesOn (c :: bindFrom (Quoting.code.next c) (c :: before) a) = true := by
    rw [← hg]
    exact goesOn_congr (head?_bindFrom _ _ a)
  rw [hl.bindFrom_cons] at hsplit ⊢
  generalize bindFrom (Quoting.code.next c) (c :: before) a = b at *
  have hstep : step .code c (b ++ closing) = .ok s :=
    codeStep_append_of_ok (hbound.trans hs) hgoes closing_apart.breaks
  refine Reads.of_step hstep ?_
  obtain ⟨k, hk⟩ := Nat.exists_eq_succ_of_ne_zero (Nat.ne_of_gt hcov.pos)
  have hdrop : (c :: b).drop s.width =
      bindFrom .code (((c :: a).take s.width).reverse ++ before) ((c :: a).drop s.width) := by
    rw [hsplit]
    exact List.drop_left' (List.length_take_of_le hcov.le)
  have hle : k ≤ b.length := by
    have hlen := congrArg List.length hsplit
    rw [List.length_append, List.length_take_of_le hcov.le, List.length_cons, hk] at hlen
    omega
  rw [← hdrop, hk, List.drop_succ_cons] at h
  rw [hcov.mode, hk, Nat.succ_sub_one]
  show Reads .code ((b ++ closing).drop k) us
  rwa [List.drop_append_of_le_length hle]

/-- **Where a variable is bound** its three tokens are read. -/
theorem reads_bound {us : List Token} (hb : startsBound a = true)
    (he : endsQualified before = false) (hne : nameAt a ≠ [])
    (hq : opensQualified (a.drop (nameAt a).length ++ closing) = false)
    (h : Reads .code (bindFrom .code (('$' :: nameAt a).reverse ++ before)
      (a.drop (nameAt a).length) ++ closing) us) :
    Reads .code (bindFrom .code before ('$' :: a) ++ closing)
      (.var contextName :: .sign .arrow :: .word (String.ofList (nameAt a)) :: us) := by
  have hname : nameAt (bindFrom .code ('$' :: before) a ++ closing) = nameAt a := by
    rw [nameAt_append closing_apart.breaks.stops, nameAt_bindFrom]
  have hnext : (nameAt a).foldl Quoting.next .code = .code := foldl_next_of_bare isBare_nameAt
  have hbind : bindFrom .code ('$' :: before) a = nameAt a ++
      bindFrom .code (('$' :: nameAt a).reverse ++ before) (a.drop (nameAt a).length) := by
    have hnothing : BindsNothing .code ('$' :: before) (nameAt a) :=
      bindsNothing_of_notMem (notMem_nameAt a)
    have hnothing := hnothing (a.drop (nameAt a).length)
    rw [nameAt_append_drop, hnext] at hnothing
    rw [hnothing, List.reverse_cons, List.append_assoc, List.singleton_append]
  have hdrop : (bindFrom .code ('$' :: before) a ++ closing).drop (nameAt a).length =
      bindFrom .code (('$' :: nameAt a).reverse ++ before) (a.drop (nameAt a).length) ++
        closing := by
    rw [hbind, List.append_assoc, List.drop_left]
  have hopen : Quoting.code.next '$' = .code := by decide
  have hcond : Quoting.code = .code ∧ '$' = '$' ∧ startsBound a = true ∧
      ¬ endsQualified before = true := ⟨rfl, rfl, hb, by simp [he]⟩
  rw [bindFrom_cons, if_pos hcond, hopen, List.cons_append, List.append_assoc, ← hname]
  refine reads_context ?_ ?_ ?_
  · rwa [hname]
  · rw [hname, hdrop]
    have hcolons : ∀ x ∈ [':', ':'], isApart x = false := forall_mem_of_all (by decide)
    have hslash : ∀ x ∈ ['\\'], isApart x = false := forall_mem_of_all (by decide)
    unfold opensQualified at hq ⊢
    rw [startsWith_append_of_apart hcolons closing_apart,
      startsWith_append_of_apart hslash closing_apart] at hq ⊢
    rwa [startsWith_bindFrom (by decide), startsWith_bindFrom (by decide)]
  · rw [hname, hdrop]
    exact h

/-- A piece of code that starts in a source has the tokens of the source, bound. -/
theorem reads_bindFrom {code : List Char} (hc : uninterrupted .code code = true)
    (hl : lexFrom .code 0 (byteSize before) (code ++ closing) = .ok ls)
    (hsource : source = before.reverse ++ (code ++ closing))
    (hq : ∀ l ∈ ls, ∀ name, l.token = .var name →
      opensQualified (dropBytes l.stop source) = false) :
    Reads .code (bindFrom .code before code ++ closing) (ls.flatMap (boundTokens source)) := by
  -- a step covers several characters, so the induction is on the length of the code
  induction hn : code.length using Nat.strong_induction_on generalizing code before ls with
  | _ n ih =>
    cases code with
    | nil =>
      have hread := reads_of_lexFrom hl
      have htokens := tokens_closing hl
      have hnone : ls.flatMap (boundTokens source) = ls.map Lexeme.token := by
        rw [List.map_eq_flatMap]
        refine List.flatMap_congr fun l hmem => boundTokens_of_ne_var fun name heq => ?_
        have hmem := List.mem_map_of_mem (f := Lexeme.token) hmem
        rw [htokens, heq] at hmem
        simp at hmem
      rw [hnone]
      exact hread
    | cons c a =>
      have hg : goesOn (c :: a) = true := (uninterrupted_cons.mp hc).1 rfl
      obtain ⟨s, hs⟩ : ∃ s, codeStep c (a ++ closing) = .ok s := by
        obtain ⟨s, -, hs, -⟩ := (reads_of_lexFrom hl).step_of
        exact ⟨s, hs⟩
      have hstep : step .code c (a ++ closing) = .ok s := hs
      have hs := codeStep_of_append hs hg closing_apart isBare_closing
      have hcov := covers_codeStep hs hg
      obtain ⟨rest, hrest, rfl⟩ := lexFrom_eq_ok hstep hcov.pos hl
      have htake : (c :: (a ++ closing)).take s.width = (c :: a).take s.width := by
        rw [← List.cons_append, List.take_append_of_le_length hcov.le]
      have hdrop : (c :: (a ++ closing)).drop s.width = (c :: a).drop s.width ++ closing := by
        rw [← List.cons_append, List.drop_append_of_le_length hcov.le]
      rw [htake] at hq ⊢
      rw [htake, hdrop, hcov.mode] at hrest
      -- what is left is read after what the step covers
      generalize hw : (c :: a).take s.width = w at *
      generalize ha' : (c :: a).drop s.width = a' at *
      have hcode : c :: a = w ++ a' := by rw [← hw, ← ha', List.take_append_drop]
      have hsource' : source = (w.reverse ++ before).reverse ++ (a' ++ closing) := by
        rw [hsource, hcode]
        simp
      have hafter : dropBytes (byteSize before + byteSize w) source = a' ++ closing := by
        have h := dropBytes_append (w.reverse ++ before).reverse (a' ++ closing)
        rwa [← hsource', byteSize_reverse, byteSize_append, byteSize_reverse, Nat.add_comm] at h
      have hbefore : takeBytes (byteSize before) source = before.reverse := by
        have h := takeBytes_append before.reverse (c :: a ++ closing)
        rwa [← hsource, byteSize_reverse] at h
      have hread : Reads .code (bindFrom .code (w.reverse ++ before) a' ++ closing)
          (rest.flatMap (boundTokens source)) := by
        refine ih _ ?_ ?_ ?_ hsource' ?_ rfl
        · rw [← hn, ← ha', List.length_drop, List.length_cons]
          have hpos := hcov.pos
          omega
        · have hc' := uninterrupted_drop hc s.width
          rwa [hcov.outside, ha'] at hc'
        · rwa [byteSize_append, byteSize_reverse, Nat.add_comm]
        · exact fun l hmem => hq l (List.mem_append_right _ hmem)
      rw [List.flatMap_append]
      by_cases hl : Leaves before c a
      · have hstay : Reads .code (bindFrom .code before (c :: a) ++ closing)
            (s.token.toList ++ rest.flatMap (boundTokens source)) :=
          reads_leaves hs hg hl (by rwa [hw, ha'])
        cases ht : s.token with
        | none =>
          rw [ht] at hstay
          exact hstay
        | some token =>
          rw [ht] at hstay
          have htoken : boundTokens source
              { token, start := byteSize before, stop := byteSize before + byteSize w } =
                [token] := by
            unfold boundTokens
            split
            next name heq =>
              obtain rfl : token = .var name := heq
              obtain ⟨rfl, rfl⟩ := var_of_codeStep hs hg ht
              refine if_neg ?_
              rintro ⟨hb, he⟩
              rw [String.toList_ofList, startsBound_nameAt] at hb
              rw [hbefore, List.reverse_reverse] at he
              exact hl ⟨rfl, hb, he⟩
            next => rfl
          rw [Option.map_some, Option.toList_some, List.flatMap_singleton, htoken]
          exact hstay
      · obtain ⟨rfl, hb, he⟩ := not_not.mp hl
        obtain ⟨hne, rfl⟩ := codeStep_dollar hs hg
        simp only [List.take_succ_cons, List.drop_succ_cons, take_length_nameAt] at hw ha'
        subst hw ha'
        have htoken : boundTokens source
            { token := .var (String.ofList (nameAt a)), start := byteSize before
              stop := byteSize before + byteSize ('$' :: nameAt a) } =
            [.var contextName, .sign .arrow, .word (String.ofList (nameAt a))] := by
          refine if_pos ⟨?_, ?_⟩
          · rwa [String.toList_ofList, startsBound_nameAt]
          · rwa [hbefore, List.reverse_reverse]
        have hfollow := hq _ List.mem_cons_self _ rfl
        rw [hafter] at hfollow
        rw [Option.map_some, Option.toList_some, List.flatMap_singleton, htoken]
        exact reads_bound hb (Bool.eq_false_iff.mpr he) hne hfollow hread

/-- The code of an island is read behind the opening tag and a blank. -/
theorem lex_island (code : List Char) :
    lex (island code) = lexFrom .code 0 6 (code ++ closing) := by
  have hblank : step .code ' ' (code ++ closing) =
      .ok { token := none, width := 1, mode := .code } := by
    rw [step]
    exact codeStep_of_isBlank (by decide)
  have hcons : island code = '<' :: ("?tpl".toList ++ ' ' :: (code ++ closing)) := by
    simp [island, openTag, closing]
  rw [lex, hcons, lexFrom_of_none (step_openTag _) (by decide) rfl]
  exact lexFrom_of_none hblank (by decide) rfl

/-- **Binding and lexing commute.**  When code outside of its literals has no comment and does not
end its island, and none of its variables is followed by a qualification or a backslash, the tokens
of the bound code are those of the code, with the three tokens of the context in place of every
variable that is bound. -/
theorem lex_bindVars {code : List Char} (hc : uninterrupted .code code = true)
    (hl : lex (island code) = .ok ls)
    (hq : ∀ l ∈ ls, ∀ name, l.token = .var name →
      opensQualified (dropBytes l.stop (island code)) = false) :
    ∃ ls', lex (island (bindVars code)) = .ok ls' ∧
      ls'.map Lexeme.token = ls.flatMap (boundTokens (island code)) := by
  -- the code stands behind the opening tag and a blank, after which no name is qualified
  have hunqualified : Unqualified (' ' :: openTag.reverse) := by
    constructor <;> decide
  have hbefore : bindFrom .code ([] ++ ' ' :: openTag.reverse) code = bindVars code :=
    bindFrom_before hunqualified
  have hlex : lexFrom .code 0 (byteSize (' ' :: openTag.reverse)) (code ++ closing) = .ok ls := by
    rwa [lex_island] at hl
  have hsource : island code = (' ' :: openTag.reverse).reverse ++ (code ++ closing) := by
    simp [island, closing]
  have hread := reads_bindFrom hc hlex hsource hq
  rw [List.nil_append] at hbefore
  rw [hbefore] at hread
  obtain ⟨ls', hls', htokens⟩ := hread 6
  exact ⟨ls', by rw [lex_island, hls'], htokens⟩

/-- A literal keeps its dollar sign, a bound variable and a qualified one stand outside of it. -/
theorem lex_bindVars_literal :
    ∃ ls', lex (island (bindVars "$a . '$b' . A::$c".toList)) = .ok ls' ∧
      ls'.map Lexeme.token =
        [.var contextName, .sign .arrow, .word "a", .sign .dot, .string "$b", .sign .dot,
          .word "A::$c", .terminator] := by
  have hlex : lex (island "$a . '$b' . A::$c".toList) = .ok
      [⟨.var "a", 6, 8⟩, ⟨.sign .dot, 9, 10⟩, ⟨.string "$b", 11, 15⟩, ⟨.sign .dot, 16, 17⟩,
        ⟨.word "A::$c", 18, 23⟩, ⟨.terminator, 24, 26⟩] := by rfl
  have hq : ∀ l ∈ ([⟨.var "a", 6, 8⟩, ⟨.sign .dot, 9, 10⟩, ⟨.string "$b", 11, 15⟩,
      ⟨.sign .dot, 16, 17⟩, ⟨.word "A::$c", 18, 23⟩, ⟨.terminator, 24, 26⟩] : List Lexeme),
      opensQualified (dropBytes l.stop (island "$a . '$b' . A::$c".toList)) = false := by
    decide
  exact lex_bindVars (by decide) hlex fun l hl _ _ => hq l hl

end Stencil
