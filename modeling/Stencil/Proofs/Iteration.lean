import Stencil.Proofs.BoundTokens
import Stencil.Proofs.ControlFlow
import Stencil.Proofs.Parsing.Levels
import Stencil.Proofs.Parsing.LoopHeads

/-!
# Loops over collections in comments

A comment that opens a loop over entries is compiled into the loop with a guard in front: that the
collection is there and has entries.  The collection of the guard is cut out of the text of the
loop, which keeps the whole text.  The cut is at the first space, and the collection becomes an
operand of `&&` without parentheses.  So the guard is about the collection of the loop when this is
an operand of `&&` by itself, and has no space inside.

## Main definitions

* `loopText S B` — the text of a loop over the collection `S` with the binding `B`.
* `conjunctOf?` — what the code of a collection is as an operand of `&&`.

## Main results

* `collectionOf_loopText` — the collection is found when there is no space inside of it.
* `bindVars_guarded`, `reads_guarded` — the code of a guarded loop and its tokens.
* `gives_guarded` — its statements.
* `parseProgram_guarded_loop` — a loop is guarded by the collection that it iterates.
* `spaced_collection_cut` — a space inside of a collection breaks the guard, and so does an operator
  that binds less tightly than `&&`.
-/

namespace Stencil

open Text Lexer Stencil.Parser

variable {before after core cs S B rest : List Char} {ts us : List Token} {ls : List Lexeme}

/-- The text of a loop, behind its word. -/
def loopText (S B : List Char) : List Char := argument (S ++ (" as ".toList ++ B))

/-- What the code of a collection is as an operand of `&&`. -/
def conjunctOf? (code : List Char) : Option Expr :=
  (tokensOf? code).bind (wholly? fun ls => binary (depthBound ls) 2 ls)

/-! ### The collection -/

/-- A text that remains when the outer blanks are taken away does not start with one. -/
theorem isBlank_of_head?_trim {c : Char} (h : (trim cs).head? = some c) : isBlank c = false := by
  have hpre : trim cs <+: trimLeft cs := by
    rw [trim, trimRight, dropRightWhile, ← List.reverse_suffix, List.reverse_reverse]
    exact List.dropWhile_suffix _
  have hhead := List.head?_dropWhile_not isBlank cs
  rw [trimLeft] at hpre
  obtain ⟨rest, hrest⟩ := hpre
  rw [← hrest, List.head?_append, h] at hhead
  exact hhead

/-- The collection reaches from the first character that is no blank up to a space. -/
theorem collectionAfterBlanks_append (hb : ∀ c ∈ before, isBlank c = true) (hne : core ≠ [])
    (hhead : ∀ c, core.head? = some c → isBlank c = false) (hspace : ' ' ∉ core) :
    collectionAfterBlanks (before ++ (core ++ ' ' :: rest)) = some core := by
  obtain ⟨c, core, rfl⟩ := List.exists_cons_of_ne_nil hne
  have hword : wordBeforeSpace (c :: (core ++ ' ' :: rest)) = some (c :: core) := by
    have hcut : breakOn [' '] (core ++ ([' '] ++ rest)) = some (core, rest) :=
      breakOn_append_self List.not_mem_nil
        (breakOn_singleton fun hm => hspace (List.mem_cons_of_mem c hm))
    rw [List.singleton_append] at hcut
    rw [wordBeforeSpace, hcut]
    rfl
  induction before with
  | nil =>
    have hc := hhead c rfl
    rw [List.nil_append, List.cons_append, collectionAfterBlanks, hc]
    exact hword
  | cons b before ih =>
    rw [List.cons_append, collectionAfterBlanks, if_pos (hb b List.mem_cons_self),
      ih fun d hd => hb d (List.mem_cons_of_mem b hd)]
    rfl

/-- When there is no space inside of it, the collection is found, with blanks behind it perhaps. -/
theorem collectionOf_loopText (hne : trim S ≠ []) (hspace : ' ' ∉ trim S) (B : List Char) :
    ∃ before C after, S = before ++ (C ++ after) ∧ (∀ c ∈ before, isBlank c = true) ∧
      (∀ c ∈ after, isBlank c = true) ∧ collectionOf (loopText S B) = some C := by
  obtain ⟨before, after, hS, hb, ha⟩ := trim_append S
  have hargs : collectionOf (loopText S B) =
      collectionAfterBlanks (S ++ (" as ".toList ++ B) ++ [')']) := rfl
  -- up to the first space there may be other blanks
  obtain ⟨blanks, after', rest, hafter, hblanks, hrest⟩ : ∃ blanks after' rest,
      after = blanks ++ after' ∧ ' ' ∉ blanks ∧
        after ++ (" as ".toList ++ B ++ [')']) = blanks ++ ' ' :: rest := by
    by_cases hmem : ' ' ∈ after
    · obtain ⟨blanks, rest, rfl, hblanks⟩ := List.eq_append_cons_of_mem hmem
      exact ⟨blanks, ' ' :: rest, _, rfl, hblanks, by rw [List.append_assoc]; rfl⟩
    · exact ⟨after, [], _, (List.append_nil _).symm, hmem, rfl⟩
  refine ⟨before, trim S ++ blanks, after', ?_, hb, ?_, ?_⟩
  · rw [List.append_assoc, ← hafter]
    exact hS
  · exact fun c hc => ha c (hafter ▸ List.mem_append_right _ hc)
  · have htext : S ++ (" as ".toList ++ B) ++ [')'] =
        before ++ (trim S ++ blanks ++ ' ' :: rest) := by
      rw [List.append_assoc (trim S), ← hrest]
      conv_lhs => rw [hS]
      simp only [List.append_assoc]
    rw [hargs, htext]
    refine collectionAfterBlanks_append hb (by simp [hne]) (fun c hc => ?_) ?_
    · obtain ⟨d, core, hcore⟩ := List.exists_cons_of_ne_nil hne
      have hhead : (trim S).head? = some c := by
        rw [hcore] at hc ⊢
        exact hc
      exact isBlank_of_head?_trim hhead
    · rw [List.mem_append, not_or]
      exact ⟨hspace, hblanks⟩

/-! ### Binding -/

theorem ne_dollar_of_isBlank {c : Char} (h : isBlank c = true) : c ≠ '$' := by
  rintro rfl
  revert h
  decide

/-- Code ends in front of a text without names and dollar signs. -/
theorem bindVars_append_of_notMem (hends : EndsNames after) (h : '$' ∉ after) :
    bindVars (cs ++ after) = bindVars cs ++ after := by
  have hafter (mode : Quoting) (cs : List Char) : bindFrom mode cs after = after := by
    have h : bindFrom mode cs (after ++ []) = after ++ [] := bindsNothing_of_notMem h []
    rwa [List.append_nil] at h
  rw [bindVars, bindFrom_append hends, hafter]
  rfl

/-- Blanks in front of code do not count, and none behind it. -/
theorem bindVars_between (hb : ∀ c ∈ before, isBlank c = true)
    (ha : ∀ c ∈ after, isBlank c = true) :
    bindVars (before ++ (core ++ after)) = before ++ (bindVars core ++ after) := by
  have hbare : ∀ c ∈ before, isBare c = true ∧ c ≠ '$' :=
    fun c hc => ⟨isBare_of_isBlank (hb c hc), ne_dollar_of_isBlank (hb c hc)⟩
  have hunqualified : Unqualified (before.reverse ++ []) := by
    rw [List.append_nil]
    have hne (d : Char) (hd : isBlank d = false) : before.reverse.head? ≠ some d := by
      intro h
      have hblank := hb d (List.mem_reverse.mp (List.mem_of_mem_head? h))
      rw [hd] at hblank
      cases hblank
    exact ⟨hne '\\' (by decide), hne ':' (by decide)⟩
  have hends : EndsNames after := fun d hd =>
    isNamePart_of_isApart (isApart_of_isBlank (ha d (List.mem_of_mem_head? hd)))
  rw [bindVars, bindFrom_bare hbare]
  congr 1
  have hcore : bindFrom .code ([] ++ (before.reverse ++ [])) (core ++ after) =
      bindVars (core ++ after) := bindFrom_before hunqualified
  rw [List.nil_append] at hcore
  rw [hcore]
  exact bindVars_append_of_notMem hends fun hm => ne_dollar_of_isBlank (ha _ hm) rfl

/-- Code has the tokens of the fragment when only outer blanks are missing. -/
theorem spellsFirm_of_tokensOf? (h : tokensOf? (before ++ (core ++ after)) = some ls)
    (hb : ∀ c ∈ before, isBlank c = true) (ha : ∀ c ∈ after, isBlank c = true) :
    SpellsFirm (bindVars core) (ls.map Lexeme.token) ∧
      core.foldl Quoting.next .code = .code := by
  rw [tokensOf?] at h
  split at h
  next hu =>
    split at h
    next all hlex =>
      cases h
      have hu := uninterrupted_bindVars hu
      rw [bindVars_between hb ha] at hlex hu
      have hbehind := uninterrupted_behind hu
      rw [foldl_next_of_blanks hb] at hbehind
      have hsteps := ((steps_of_lex hlex hu).of_blanks hb).of_blanks_behind hbehind ha
      exact ⟨hsteps.firm, by rw [← foldl_next_bindVars, hsteps.outside]⟩
    next => cases h
  next => cases h

theorem separates_as : Separates " as ".toList :=
  ⟨forall_mem_of_all (by decide), by rintro _ ⟨⟩; decide, ⟨by decide, by decide⟩, by decide⟩

theorem separates_count : Separates "&&count(".toList :=
  ⟨forall_mem_of_all (by decide), by rintro _ ⟨⟩; decide, ⟨by decide, by decide⟩, by decide⟩

theorem separates_foreach : Separates "))foreach(".toList :=
  ⟨forall_mem_of_all (by decide), by rintro _ ⟨⟩; decide, ⟨by decide, by decide⟩, by decide⟩

/-- The collection and the binding of a loop are bound apart. -/
theorem bindVars_binding (hS : S.foldl Quoting.next .code = .code) (hends : EndsNames rest)
    (hrest : '$' ∉ rest) :
    bindVars (S ++ (" as ".toList ++ (B ++ rest))) =
      bindVars S ++ (" as ".toList ++ (bindVars B ++ rest)) := by
  rw [bindVars_around separates_as hS, bindVars_append_of_notMem hends hrest]

/-- The head of a loop up to its binding, with its variables bound. -/
def boundHead (S : List Char) : List Char :=
  "foreach".toList ++ (['('] ++ (bindVars S ++ " as ".toList))

theorem boundHead_append (S cs : List Char) : boundHead S ++ cs =
    "foreach".toList ++ (['('] ++ (bindVars S ++ (" as ".toList ++ cs))) := by
  show "foreach".toList ++ (['('] ++ (bindVars S ++ " as ".toList)) ++ cs = _
  simp only [List.append_assoc]

/-- A loop with its variables bound. -/
theorem bindVars_loop (hS : S.foldl Quoting.next .code = .code) (hrest : '$' ∉ rest) :
    bindVars ("foreach".toList ++ loopText S B ++ rest) =
      boundHead S ++ (bindVars B ++ (')' :: rest)) := by
  have htext : "foreach".toList ++ loopText S B ++ rest =
      "foreach".toList ++ (['('] ++ (S ++ (" as ".toList ++ (B ++ (')' :: rest))))) := by
    simp [loopText, argument]
  have hends : EndsNames (')' :: rest) := by
    rintro _ ⟨⟩
    decide
  have hword : bindVars "foreach".toList = "foreach".toList := rfl
  have hout : "foreach".toList.foldl Quoting.next .code = .code := rfl
  rw [htext, bindVars_around separates_parenOpen hout, hword,
    bindVars_binding hS hends (by simpa using hrest), boundHead_append]

/-- The text of a guard, and of a loop behind it. -/
theorem guardOf_append (C cs : List Char) : guardOf C ++ ("foreach".toList ++ (['('] ++ cs)) =
    "if".toList ++ (['('] ++ (C ++ ("&&count(".toList ++ (C ++ ("))foreach(".toList ++ cs))))) := by
  have hif : "if(".toList = "if".toList ++ ['('] := rfl
  have hforeach : "))foreach(".toList = "))".toList ++ ("foreach".toList ++ ['(']) := rfl
  unfold guardOf
  simp only [hif, hforeach, List.append_assoc]

/-- A loop with its guard, with its variables bound. -/
theorem bindVars_guarded {C : List Char} (hC : C.foldl Quoting.next .code = .code)
    (hS : S.foldl Quoting.next .code = .code) :
    bindVars (guardOf C ++ "foreach".toList ++ loopText S B) =
      guardOf (bindVars C) ++ (boundHead S ++ (bindVars B ++ [')'])) := by
  have htext : guardOf C ++ "foreach".toList ++ loopText S B =
      guardOf C ++ ("foreach".toList ++ (['('] ++ (S ++ (" as ".toList ++ (B ++ [')']))))) := by
    simp [loopText, argument]
  have hends : EndsNames [')'] := by
    rintro _ ⟨⟩
    decide
  have hword : bindVars "if".toList = "if".toList := rfl
  have hout : "if".toList.foldl Quoting.next .code = .code := rfl
  rw [htext, guardOf_append, bindVars_around separates_parenOpen hout,
    bindVars_around separates_count hC, bindVars_around separates_foreach hC,
    bindVars_binding hS hends (by decide), hword, boundHead_append, guardOf_append]

/-! ### Tokens -/

/-- The tokens up to the binding. -/
def loopHeadTokens (ts : List Token) : List Token :=
  .word "foreach" :: .sign .parenOpen :: (ts ++ [.word "as"])

/-- The tokens of the guard. -/
def loopGuardTokens (ts : List Token) : List Token :=
  .word "if" :: .sign .parenOpen :: (ts ++ .sign .and :: .word "count" :: .sign .parenOpen ::
    (ts ++ [.sign .parenClose, .sign .parenClose]))

theorem spells_boundHead (h : SpellsFirm (bindVars S) ts) :
    SpellsAnywhere (boundHead S) (loopHeadTokens ts) := by
  have hblank : SpellsAnywhere [' '] [] := spellsAnywhere_blank (by decide)
  have has : SpellsAnywhere "as ".toList [.word "as"] := firm_as.anywhere hblank rfl
  have hbinding : SpellsAnywhere (bindVars S ++ " as ".toList) (ts ++ [.word "as"]) :=
    h.anywhere (hblank.append has) rfl
  exact firm_foreach.anywhere ((spellsAnywhere_own rfl).append hbinding) rfl

theorem spells_guardOf {C : List Char} (h : SpellsFirm C ts) :
    SpellsAnywhere (guardOf C) (loopGuardTokens ts) := by
  have hclose : SpellsAnywhere "))".toList [.sign .parenClose, .sign .parenClose] :=
    (spellsAnywhere_own rfl : SpellsAnywhere [')'] _).append (spellsAnywhere_own rfl)
  have harg : SpellsAnywhere (C ++ "))".toList) (ts ++ [.sign .parenClose, .sign .parenClose]) :=
    h.anywhere hclose rfl
  have hcall : SpellsAnywhere ("count".toList ++ (['('] ++ (C ++ "))".toList))) _ :=
    firm_count.anywhere ((spellsAnywhere_own rfl).append harg) rfl
  have hand : SpellsAnywhere
      (C ++ ("&&".toList ++ ("count".toList ++ (['('] ++ (C ++ "))".toList))))) _ :=
    h.anywhere (spellsAnywhere_and.append hcall) rfl
  have htext : guardOf C = "if".toList ++ (['('] ++ (C ++ ("&&".toList ++
      ("count".toList ++ (['('] ++ (C ++ "))".toList)))))) := by
    have hif : "if(".toList = "if".toList ++ ['('] := rfl
    have hcount : "&&count(".toList = "&&".toList ++ ("count".toList ++ ['(']) := rfl
    unfold guardOf
    simp only [hif, hcount, List.append_assoc]
  rw [htext]
  exact firm_if.anywhere ((spellsAnywhere_own rfl).append hand) rfl

/-- The tokens of an island with a loop by itself, whose binding has tokens of its own. -/
theorem tokens_loop (hS : SpellsFirm (bindVars S) ts) (hB : uninterrupted .code B = true)
    (hlex : lex (island (boundHead S ++ (bindVars B ++ ") \x7b \x7d".toList))) = .ok ls) :
    ∃ bs, Spells (bindVars B) bs ∧
      ls.map Lexeme.token = loopHeadTokens ts ++ (bs ++ .sign .parenClose :: emptyBlock) := by
  have hreads := reads_of_lex hlex
  rw [List.append_assoc, spells_boundHead hS] at hreads
  obtain ⟨us, hls, hus⟩ := hreads
  rw [List.append_assoc] at hus
  -- what stands behind the binding
  have htail : Reads .code (") \x7b \x7d".toList ++ (' ' :: closeTag))
      (.sign .parenClose :: emptyBlock) :=
    Reads.own rfl ((reads_blank (by decide)).mpr (Reads.own rfl ((reads_blank (by decide)).mpr
      (Reads.own rfl reads_closing))))
  obtain ⟨bs, vs, rfl, hvs, hsteps⟩ := hus.split (apart_cons (by decide))
    (forall_mem_of_all (by decide)) (uninterrupted_bindVars hB)
  rw [hvs.unique htail] at hls
  exact ⟨bs, hsteps.firm.spells, hls⟩

/-! ### The guarded loop -/

/-- The tokens of a body without statements, whose closing brace has an island of its own. -/
def apartBlock : List Token :=
  [.sign .braceOpen, .terminator, .sign .braceClose, .terminator]

/-- A guarded loop without statements, when its collection is an operand of `&&`. -/
theorem gives_guarded {bs : List Token} {e v : Expr} {k : Option Expr}
    (h : binary (depthBound ls) 2 ls = .ok (e, []))
    (hhead : Parses foreachHead (.sign .parenOpen :: (ls.map Lexeme.token ++ .word "as" ::
      (bs ++ .sign .parenClose :: apartBlock))) (e, k, v) apartBlock) :
    Gives (listUntil .atEnd) 2 (loopGuardTokens (ls.map Lexeme.token) ++
        (loopHeadTokens (ls.map Lexeme.token) ++ (bs ++ .sign .parenClose :: apartBlock)))
      [.cond [.mk (.binary .and e (.call "count" [e])) [.foreach e k v []]] none] [] := by
  have hbody : GivesBody apartBlock [] [.terminator] :=
    ⟨rfl, gives_block (gives_terminator (gives_stop rfl))⟩
  have hloop : Gives statement 1 (.word "foreach" :: .sign .parenOpen ::
      (ls.map Lexeme.token ++ .word "as" :: (bs ++ .sign .parenClose :: apartBlock)))
      [.foreach e k v []] [.terminator] := by
    have hhead : Parses foreachHead ((.sign .parenOpen :: (ls.map Lexeme.token ++ .word "as" ::
        (bs ++ [.sign .parenClose]))) ++ apartBlock) (e, k, v) apartBlock := by
      simpa using hhead
    have h := gives_of_word foreachHead (fun x => .foreach x.1 x.2.1 x.2.2) statement_foreach hhead
      hbody
    simpa using h
  have hguard := gives_cond
    (stands_guard (joins_of_binary h) (by simp [depthBound]) (starts_of_binary h)) hloop
    (gives_branches_nil notNext_terminator)
  have hrest : Gives (listUntil .atEnd) 2 [.terminator] [] [] := gives_terminator (gives_stop rfl)
  have hall := gives_cons _ hguard (List.cons_ne_nil _ _) rfl (by simp) hrest
  simpa [loopGuardTokens, loopHeadTokens] using hall

/-- Code with tokens is not blank. -/
theorem trim_ne_nil_of_tokensOf? (h : tokensOf? S = some ls) (hne : ls ≠ []) : trim S ≠ [] := by
  intro hnil
  obtain ⟨before, after, hS, hb, ha⟩ := trim_append S
  rw [hnil] at hS
  rw [hS] at h
  exact hne (List.map_eq_nil_iff.mp (spellsFirm_of_tokensOf? h hb ha).1.spells.eq_nil)

/-- The head of a loop that is parsed by itself, in front of another body. -/
theorem parses_foreachHead_apart {name : String} {s v : Expr} {k : Option Expr}
    (h : parseProgram name
      (island (bindVars ("foreach".toList ++ loopText S B ++ " \x7b \x7d".toList))) =
        .ok { name, body := [.foreach s k v []] })
    (hS : SpellsFirm (bindVars S) ts) (hout : S.foldl Quoting.next .code = .code)
    (hB : uninterrupted .code B = true) :
    ∃ bs, Spells (bindVars B) bs ∧ Parses foreachHead (.sign .parenOpen :: (ts ++ .word "as" ::
      (bs ++ .sign .parenClose :: apartBlock))) (s, k, v) apartBlock := by
  rw [bindVars_loop hout (by decide), parseProgram] at h
  split at h
  next => cases h
  next ls hlex =>
    split at h
    next => cases h
    next body hbody =>
      cases h
      obtain ⟨bs, hbs, htokens⟩ := tokens_loop hS hB hlex
      have htokens : ls.map Lexeme.token = .word "foreach" ::
          ((.sign .parenOpen :: (ts ++ .word "as" :: bs)) ++ .sign .parenClose :: emptyBlock) := by
        simpa [loopHeadTokens] using htokens
      have hhead : Parses foreachHead _ (s, k, v) apartBlock :=
        parses_foreachHead_of_loop hbody htokens (by decide)
      exact ⟨bs, hbs, by simpa using hhead⟩

/-- The tokens of a guarded loop and of the island that closes it. -/
theorem reads_guarded {C : List Char} {bs : List Token} (hC : SpellsFirm (bindVars C) ts)
    (hS : SpellsFirm (bindVars S) ts) (hB : Spells (bindVars B) bs) :
    Reads .text (island (guardOf (bindVars C) ++ (boundHead S ++ (bindVars B ++ [')'])) ++
        ['\x7b']) ++ island ['\x7d'])
      (loopGuardTokens ts ++ (loopHeadTokens ts ++ (bs ++ .sign .parenClose :: apartBlock))) := by
  have hclose : Reads .text (island ['\x7d'] ++ []) [.sign .braceClose, .terminator] :=
    reads_close reads_nil
  rw [List.append_nil] at hclose
  rw [Lexer.reads_island]
  simp only [List.append_assoc]
  refine (spells_guardOf hC).reads ((spells_boundHead hS).reads
    (hB (apart_cons (by decide)) (Reads.own rfl (Reads.own rfl ?_))))
  exact (reads_blank (by decide)).mpr (reads_closeTag.mpr ⟨_, rfl, hclose⟩)

/-- **A loop over entries is guarded by the collection that it iterates**: when the loop by itself
is one loop, and its collection is an operand of `&&` by itself and has no space inside, the code of
the comment with a closing brace behind it is the guarded loop. -/
theorem parseProgram_guarded_loop {name : String} {s v : Expr} {k : Option Expr}
    (hloop : parseProgram name
      (island (bindVars ("foreach".toList ++ loopText S B ++ " \x7b \x7d".toList))) =
        .ok { name, body := [.foreach s k v []] })
    (hB : uninterrupted .code B = true) (hS : (conjunctOf? S).isSome) (hspace : ' ' ∉ trim S) :
    ∃ out, controlCode "foreach".toList (loopText S B) = .ok out ∧
      parseProgram name (out ++ island ['\x7d']) =
        .ok { name, body :=
          [.cond [.mk (.binary .and s (.call "count" [s])) [.foreach s k v []]] none] } := by
  obtain ⟨e, he⟩ := Option.isSome_iff_exists.mp hS
  obtain ⟨ls, hls, he⟩ := Option.bind_eq_some_iff.mp he
  have he := wholly?_eq_some.mp he
  have hne : ls ≠ [] := by
    obtain ⟨t, ht, -⟩ := starts_of_binary he
    rintro rfl
    cases ht
  have hwhole : tokensOf? ([] ++ (S ++ [])) = some ls := by
    rwa [List.nil_append, List.append_nil]
  obtain ⟨hfirm, hout⟩ := spellsFirm_of_tokensOf? hwhole (by simp) (by simp)
  -- the guard has the collection in it, blanks around it aside
  obtain ⟨before, C, after, hSC, hb, ha, hC⟩ :=
    collectionOf_loopText (trim_ne_nil_of_tokensOf? hls hne) hspace B
  obtain ⟨hfirm', hout'⟩ := spellsFirm_of_tokensOf? (hSC ▸ hls) hb ha
  -- and the collection of the loop is what it is on its own
  obtain ⟨bs, hbs, hhead⟩ := parses_foreachHead_apart hloop hfirm hout hB
  obtain rfl := subject_eq hhead
    ((joins_of_binary he).standsFrom.choice.assignment.parses (by simp [depthBound]) rfl)
  have hcode : controlCode "foreach".toList (loopText S B) =
      .ok (island (bindVars (guardOf C ++ "foreach".toList ++ loopText S B) ++ ['\x7b'])) := by
    have hguard : blockHead .foreachBlock (loopText S B) =
        bindVars (guardOf C ++ "foreach".toList ++ loopText S B) ++ ['\x7b'] := by
      simp only [blockHead, hC]
      rfl
    rw [← hguard]
    rfl
  refine ⟨_, hcode, ?_⟩
  rw [bindVars_guarded hout' hout]
  exact parseProgram_of_yields name
    (yields_of_island (reads_guarded hfirm' hfirm hbs) (gives_guarded he hhead) rfl)

theorem guarded_rows : ∃ out,
    controlCode "foreach".toList (loopText "$t->rows ".toList "$i => $row".toList) = .ok out ∧
      parseProgram "page" (out ++ island ['\x7d']) = .ok { name := "page", body :=
        [.cond [.mk (.binary .and (.member (.member (.var "__ctx") "t") "rows")
              (.call "count" [.member (.member (.var "__ctx") "t") "rows"]))
            [.foreach (.member (.member (.var "__ctx") "t") "rows")
              (some (.member (.var "__ctx") "i")) (.member (.var "__ctx") "row") []]] none] } := by
  have hlex : lex (island (bindVars ("foreach".toList ++
      loopText "$t->rows ".toList "$i => $row".toList ++ " \x7b \x7d".toList))) = .ok
        [⟨.word "foreach", 6, 13⟩, ⟨.sign .parenOpen, 13, 14⟩, ⟨.var "__ctx", 14, 20⟩,
          ⟨.sign .arrow, 20, 22⟩, ⟨.word "t", 22, 23⟩, ⟨.sign .arrow, 23, 25⟩,
          ⟨.word "rows", 25, 29⟩, ⟨.word "as", 31, 33⟩, ⟨.var "__ctx", 34, 40⟩,
          ⟨.sign .arrow, 40, 42⟩, ⟨.word "i", 42, 43⟩, ⟨.sign .fatArrow, 44, 46⟩,
          ⟨.var "__ctx", 47, 53⟩, ⟨.sign .arrow, 53, 55⟩, ⟨.word "row", 55, 58⟩,
          ⟨.sign .parenClose, 58, 59⟩, ⟨.sign .braceOpen, 60, 61⟩, ⟨.sign .braceClose, 62, 63⟩,
          ⟨.terminator, 64, 66⟩] := by rfl
  have hloop : parseProgram "page" (island (bindVars ("foreach".toList ++
      loopText "$t->rows ".toList "$i => $row".toList ++ " \x7b \x7d".toList))) =
        .ok { name := "page", body := [.foreach (.member (.member (.var "__ctx") "t") "rows")
          (some (.member (.var "__ctx") "i")) (.member (.var "__ctx") "row") []] } := by
    rw [parseProgram, hlex]
    rfl
  exact parseProgram_guarded_loop hloop (by decide) (by decide +kernel) (by decide)

/-- The collection `f($a, $b)` is cut at its space, and the guard has one part of a call in it: the
loop by itself is parsed, but the code of the comment is not.  The collection `$a||$b` stays whole;
there the guard asks for entries only where the first operand does not hold. -/
theorem spaced_collection_cut :
    (parseProgram "page" (island (bindVars ("foreach".toList ++
        loopText "f($a, $b)".toList "$v".toList ++ " \x7b \x7d".toList)))).isOk = true ∧
    (conjunctOf? "f($a, $b)".toList).isSome = true ∧
    (∃ out, controlCode "foreach".toList (loopText "f($a, $b)".toList "$v".toList) = .ok out ∧
      (parseProgram "page" (out ++ island ['\x7d'])).isOk = false) ∧
    ∃ out, controlCode "foreach".toList (loopText "$a||$b".toList "$v".toList) = .ok out ∧
      (match parseProgram "page" (out ++ island ['\x7d']) with
        | .ok ⟨_, [.cond [.mk (.binary .or _ (.binary .and _ (.call "count" _))) _] none]⟩ => true
        | _ => false) = true :=
  ⟨by decide +kernel, by decide +kernel, ⟨_, rfl, by decide +kernel⟩, _, rfl, by decide +kernel⟩

end Stencil
