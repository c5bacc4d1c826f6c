import Stencil.Proofs.Elements.Control
import Stencil.Proofs.Parsing.LoopHeads
import Stencil.Proofs.Parsing.Parentheses
import Stencil.Proofs.Parting

/-!
# Which values are loops

The shape of a loop is found in its text: by an arrow, by two semicolons, by an equals sign that
assigns.  A value without arrows that has three lists of expressions is a counting loop, whatever
the lists are.  A value that is one expression may have an equals sign anywhere.  Where this is an
assignment, the loop repeats the whole expression; in a string literal it only gets blanks.  The
equals sign of a compound operator is torn from its operator, and nothing can be made of that.

## Main definitions

* `HeadsStatement` — a head with an empty block behind it is one statement.
* `AssignsAlone` — the equals sign that is found ends no compound operator.

## Main results

* `breakAssignment_bindVars` — the equals sign that is found in bound code.
* `loopHead?_headsStatement` — **which loops are statements**.
-/

namespace Stencil

open Text Lexer Stencil.Parser

variable {c : Char} {a e t v head : List Char} {ts : List Token}

/-! ### Heads of statements -/

/-- The head with an empty block behind it is one statement. -/
def HeadsStatement (head : List Char) : Prop :=
  ∀ name, ∃ s, parseProgram name (island (head ++ " \x7b \x7d".toList)) =
    .ok { name, body := [s] }

theorem headsStatement_of_isHead {wrap : List Stmt → Stmt} (hs : Spells head ts)
    (hh : IsHead ts wrap) (hwrap : startsText [wrap []] = false) : HeadsStatement head := by
  intro name
  have hblock : Spells (head ++ " \x7b \x7d".toList)
      (ts ++ [.sign .braceOpen, .sign .braceClose]) :=
    hs.append_blank (by decide) (Spells.own rfl (.blank (by decide) (.own rfl .nil)))
  have hreads : Reads .text (island (head ++ " \x7b \x7d".toList) ++ []) (ts ++ emptyBlock) := by
    have h := hblock.reads_island reads_nil
    rwa [List.append_assoc] at h
  have hbody : GivesBody emptyBlock [] [.terminator] := ⟨rfl, gives_block (gives_stop rfl)⟩
  have hstatement := hh.gives hbody (notNext_cons rfl)
  obtain ⟨t, ts, rfl⟩ : ∃ t ts', ts = t :: ts' := by
    refine List.exists_cons_of_ne_nil ?_
    rintro rfl
    cases hh.goesOn .atEnd
  have hgives : Gives (listUntil .atEnd) 2 (t :: ts ++ emptyBlock) [wrap []] [] :=
    gives_cons [wrap []] hstatement (List.cons_ne_nil _ _) (hh.goesOn .atEnd) (by simp [emptyBlock])
      (gives_terminator (gives_stop rfl))
  have hyields := yields_of_island hreads hgives hwrap
  rw [List.append_nil] at hyields
  exact ⟨_, parseProgram_of_yields name hyields⟩

/-! ### The equals sign that is found -/

/-- Where the equals sign stands. -/
theorem breakAssignment_eq_some (h : breakAssignment c a = some (t, v)) :
    a = t ++ '=' :: v ∧ breakAssignment c t = none ∧ t.getLast?.getD c ∉ ['=', '!', '<', '>'] ∧
      v.head? ≠ some '=' ∧ v.head? ≠ some '>' := by
  induction a generalizing c t with
  | nil => cases h
  | cons x a ih =>
    rw [breakAssignment] at h
    split at h
    next hfound =>
      cases h
      exact ⟨by rw [hfound.1, List.nil_append], rfl, hfound.2⟩
    next hnot =>
      obtain ⟨⟨t, v⟩, hrest, heq⟩ := Option.map_eq_some_iff.mp h
      cases heq
      obtain ⟨rfl, hnone, hbefore, hbehind⟩ := ih hrest
      refine ⟨rfl, ?_, ?_, hbehind⟩
      · refine breakAssignment_eq_none_cons.mpr ⟨?_, hnone⟩
        rintro ⟨rfl, hc, hequals, hgreater⟩
        cases t with
        | nil => exact absurd hbefore (by decide)
        | cons y t => exact hnot ⟨rfl, hc, hequals, hgreater⟩
      · rwa [List.getLast?_cons, Option.getD_some]

/-- In bound code, the same equals sign is found. -/
theorem breakAssignment_bindVars (h : breakAssignment ' ' e = some (t, v)) :
    ∃ w, breakAssignment ' ' (bindVars e) = some (bindVars t, w) ∧
      bindVars e = bindVars t ++ '=' :: w := by
  obtain ⟨rfl, hnone, hbefore, hbehind⟩ := breakAssignment_eq_some h
  have hends : EndsNames ('=' :: v) := by
    rintro _ ⟨⟩
    decide
  have hequals : '=' ≠ '$' := by decide
  have hbound : bindVars (t ++ '=' :: v) = bindVars t ++ '=' ::
      bindFrom ((t.foldl Quoting.next .code).next '=') ('=' :: (t.reverse ++ [])) v := by
    rw [bindVars, bindFrom_append hends, bindFrom_cons, if_neg fun hi => hequals hi.2.1]
    rfl
  refine ⟨_, ?_, hbound⟩
  rw [hbound]
  refine breakAssignment_append (breakAssignment_bindFrom hnone) ?_ ?_
  · rwa [bindVars, getLast?_bindFrom]
  · rwa [head?_bindFrom]

/-- The first equals sign that assigns ends no compound operator, unless it stands in a string
literal. -/
def AssignsAlone (e : List Char) : Prop :=
  ∀ t v, breakAssignment ' ' e = some (t, v) → Outside t →
    t.getLast?.getD ' ' ∉ ['+', '-', '*', '/', '.']

/-! ### Loops -/

theorem assignmentLoop_eq_some (h : assignmentLoop t v = some head) :
    head = "while ((".toList ++ t ++ " = ".toList ++ v ++ "))".toList := by
  rw [assignmentLoop] at h
  split at h
  · cases h
  · cases h
    rfl

/-- The loop repeats the expression in which the equals sign stands. -/
theorem headsStatement_of_expr {w : List Char} {x : Expr} (hexpr : exprOf? e = some x)
    (hbound : bindVars e = t ++ '=' :: w)
    (hbefore : Outside t →
      t.getLast?.getD ' ' ∉ ['=', '!', '<', '>', '+', '-', '*', '/', '.'])
    (hbehind : w.head? ≠ some '=' ∧ w.head? ≠ some '>') :
    HeadsStatement ("while ((".toList ++ trim t ++ " = ".toList ++ trim w ++ "))".toList) := by
  obtain ⟨ls, hls, hparse⟩ := Option.bind_eq_some_iff.mp hexpr
  rw [tokensOf?] at hls
  split at hls
  next hu =>
    split at hls
    next all hlex =>
      cases hls
      have hu := uninterrupted_bindVars hu
      have hreads := reads_of_lex hlex
      rw [hbound] at hu hreads
      obtain ⟨vs, ws, hvs, hspell, herased, hword⟩ :=
        exists_spells_spaced hreads hu hbefore hbehind
      -- the tokens of the head are those of the expression, but for a literal around the sign
      let ms : List Lexeme := ws.map fun t => ⟨t, 0, 0⟩
      have hms : ms.map Lexeme.token = ws := by simp [ms, Function.comp_def]
      have hform : SameForm all.dropLast ms := by
        have hall : all.dropLast.map Lexeme.token = vs := by
          rw [List.map_dropLast, hvs, List.dropLast_concat]
        have hmap := herased
        rw [← hall, ← hms] at hmap
        simpa [SameForm, Function.comp_def] using hmap
      obtain ⟨y, hy⟩ := exists_parseExpr_of_sameForm hform (wholly?_eq_some.mp hparse)
      have hstands := stands_inParens hy (hms ▸ hword)
      rw [hms] at hstands
      rw [repetition_eq]
      exact headsStatement_of_isHead (spells_apart firm_while.spells (spells_argument hspell))
        (isHead_while hstands) rfl
    next => cases hls
  next => cases hls

/-- Three lists of expressions are a counting loop. -/
theorem exists_headsStatement_of_lists {init test step : List Char}
    (hnone : breakOn "=>".toList (init ++ ';' :: (test ++ ';' :: step)) = none)
    (hinit : (exprsOf? init).isSome) (htest : (exprsOf? test).isSome)
    (hstep : (exprsOf? step).isSome) :
    ∃ head, loopHead? (bindVars (init ++ ';' :: (test ++ ';' :: step))) = some head ∧
      HeadsStatement head := by
  obtain ⟨is, hinit⟩ := Option.isSome_iff_exists.mp hinit
  obtain ⟨cs, htest⟩ := Option.isSome_iff_exists.mp htest
  obtain ⟨ss, hstep⟩ := Option.isSome_iff_exists.mp hstep
  let i : LoopPart fun _ => True := ⟨init, is, hinit, trivial⟩
  let c : LoopPart fun _ => True := ⟨test, cs, htest, trivial⟩
  let s : LoopPart fun _ => True := ⟨step, ss, hstep, trivial⟩
  obtain ⟨ts, hts, hparse⟩ := LoopPart.head i c s
  rw [← bindVars_countingCode] at hts
  have hhead : loopHead? (bindVars (countingCode i c s)) =
      some ("for (".toList ++ bindVars (countingCode i c s) ++ [')']) := loopHead?_counting hnone
  refine ⟨_, hhead, ?_⟩
  have hspell := firm_for.spells.append_blank (c := ' ') (by decide) hts
  exact headsStatement_of_isHead hspell (isHead_for hparse) rfl

/-- Of an expression, only the equals sign that assigns makes a loop. -/
theorem assignment_of_loopHead? (hnone : breakOn "=>".toList e = none) (hcount : e.count ';' < 2)
    (hhead : loopHead? (bindVars e) = some head) :
    ∃ t v w, breakAssignment ' ' e = some (t, v) ∧
      breakAssignment ' ' (bindVars e) = some (bindVars t, w) ∧
      bindVars e = bindVars t ++ '=' :: w ∧
      head = "while ((".toList ++ trim (bindVars t) ++ " = ".toList ++ trim w ++ "))".toList := by
  have hcount : ¬ 2 ≤ (bindVars e).count ';' := by
    rw [bindVars, count_bindFrom (by decide)]
    exact Nat.not_le_of_lt hcount
  rw [loopHead?, breakOn_arrow_bindVars hnone] at hhead
  simp only [if_neg hcount] at hhead
  cases hassign : breakAssignment ' ' e with
  | none =>
    have hbound : breakAssignment ' ' (bindVars e) = none := breakAssignment_bindFrom hassign
    rw [hbound] at hhead
    cases hhead
  | some x =>
    obtain ⟨t, v⟩ := x
    obtain ⟨w, hfound, hbound⟩ := breakAssignment_bindVars hassign
    rw [hfound] at hhead
    exact ⟨t, v, w, rfl, hfound, hbound, assignmentLoop_eq_some hhead⟩

/-- **Which loops are statements.**  Take a value without arrows between entries.  If it has three
lists of expressions with semicolons between them, it is a counting loop, whose head in front of an
empty block is one statement.  If it is one expression with fewer than two semicolons, and the first
equals sign that assigns is not the end of a compound operator, then it is refused, or the head of
its loop in front of an empty block is one statement. -/
theorem loopHead?_headsStatement (hnone : breakOn "=>".toList e = none) :
    (∀ init test step, e = init ++ ';' :: (test ++ ';' :: step) →
      (exprsOf? init).isSome → (exprsOf? test).isSome → (exprsOf? step).isSome →
        ∃ head, loopHead? (bindVars e) = some head ∧ HeadsStatement head) ∧
    ((exprOf? e).isSome → e.count ';' < 2 → AssignsAlone e →
      ∀ head, loopHead? (bindVars e) = some head → HeadsStatement head) := by
  constructor
  · rintro init test step rfl hinit htest hstep
    exact exists_headsStatement_of_lists hnone hinit htest hstep
  · intro hexpr hcount halone head hhead
    obtain ⟨x, hexpr⟩ := Option.isSome_iff_exists.mp hexpr
    obtain ⟨t, v, w, hassign, hfound, hbound, rfl⟩ := assignment_of_loopHead? hnone hcount hhead
    obtain ⟨-, -, hbefore, hbehind⟩ := breakAssignment_eq_some hfound
    have hlast : (bindVars t).getLast? = t.getLast? := getLast?_bindFrom .code [] t
    rw [hlast] at hbefore
    refine headsStatement_of_expr hexpr hbound (fun hout => ?_) hbehind
    have hplain := halone t v hassign (outside_iff.mpr (by
      rw [← foldl_next_bindVars]
      exact outside_iff.mp hout))
    rw [hlast]
    intro hmem
    have hsplit : t.getLast?.getD ' ' ∈ ['=', '!', '<', '>'] ++ ['+', '-', '*', '/', '.'] := hmem
    rcases List.mem_append.mp hsplit with hcompared | hcompound
    · exact hbefore hcompared
    · exact hplain hcompound

/-- A counting loop, and a call with a compound operator in a literal: the loop repeats the call. -/
theorem loopHead?_headsStatement_literal :
    (∃ head, loopHead? (bindVars "$i=0;$i<3;$i++".toList) = some head ∧ HeadsStatement head) ∧
      loopHead? (bindVars "next($rows,'+=')".toList) =
        some "while ((next($__ctx->rows,'+ = ')))".toList ∧
      HeadsStatement "while ((next($__ctx->rows,'+ = ')))".toList := by
  have hshape : loopHead? (bindVars "next($rows,'+=')".toList) =
      some "while ((next($__ctx->rows,'+ = ')))".toList := by
    decide
  have halone : AssignsAlone "next($rows,'+=')".toList := by
    intro t v hbreak hout
    have hfound : breakAssignment ' ' "next($rows,'+=')".toList =
        some ("next($rows,'+".toList, "')".toList) := by
      decide
    rw [hfound] at hbreak
    cases hbreak
    exact absurd hout (by decide)
  refine ⟨?_, hshape, ?_⟩
  · exact (loopHead?_headsStatement (by decide)).1 "$i=0".toList "$i<3".toList "$i++".toList
      rfl (by decide +kernel) (by decide +kernel) (by decide +kernel)
  · exact (loopHead?_headsStatement (by decide)).2 (by decide +kernel) (by decide) halone _ hshape

/-- The sign `+=` is one of the language, and the loop that is made of it cannot be parsed. -/
theorem compound_assignment_torn :
    (exprOf? "$i+=1".toList).isSome ∧
      loopHead? (bindVars "$i+=1".toList) = some "while (($__ctx->i+ = 1))".toList ∧
      (parseProgram "" (island ("while (($__ctx->i+ = 1))".toList ++ " \x7b \x7d".toList))).isOk =
        false := by
  decide +kernel

end Stencil
