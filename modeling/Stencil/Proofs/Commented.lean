import Stencil.Proofs.Cutting
import Stencil.Proofs.Insertion

/-!
# Variables around comments

The lexer skips the comments of the script language, and binding does not know of them.  What stands
behind a comment is bound as it is alone exactly when the comment, read as code, ends outside of
literals: an apostrophe in a comment opens a literal for the binding, and the variables behind it
stay unbound.

## Main definitions

* `CodeComment` — the comments of the script language.

## Main results

* `CodeComment.lexFrom_append` — the lexer goes on behind a comment.
* `CodeComment.bindVars_append` — how the code behind a comment is bound.
* `bindVars_around_comment` — **which comments leave the code around them alone**.
* `apostrophe_in_comment` — not every comment does.
-/

namespace Stencil

open Text Lexer

variable {a b cs rest : List Char}

/-- A comment of the script language: a block up to the first mark that closes it, or a line with
the line feed at its end. -/
inductive CodeComment : List Char → Prop where
  /-- A block. -/
  | block (body : List Char) (hbody : breakOn ['*', '/'] body = none) :
    CodeComment ('/' :: ('*' :: (body ++ ['*', '/'])))
  /-- A line behind `#`. -/
  | hash (line : List Char) (hfeed : '\n' ∉ line) (hopen : breakOn closeTag line = none) :
    CodeComment ('#' :: (line ++ ['\n']))
  /-- A line behind two slashes. -/
  | slashes (line : List Char) (hfeed : '\n' ∉ line) (hopen : breakOn closeTag line = none) :
    CodeComment ('/' :: ('/' :: line ++ ['\n']))

/-! ### Lexing -/

/-- Blanks and comments are passed, whatever follows them. -/
theorem lexFrom_trivia {c : Char} (h : triviaWidth (c :: (a ++ rest)) = a.length + 1) (pos : Nat) :
    lexFrom .code 0 pos (c :: a ++ rest) = lexFrom .code 0 (pos + byteSize (c :: a)) rest := by
  have hcode : codeStep c (a ++ rest) =
      .ok { token := none, width := a.length + 1, mode := .code } := by
    unfold codeStep
    rw [h]
  have hstep : step .code c (a ++ rest) =
      .ok { token := none, width := a.length + 1, mode := .code } := hcode
  rw [List.cons_append, lexFrom_of_step hstep, lexFrom_skip, Nat.add_sub_cancel, List.take_left,
    List.drop_left, byteSize_cons, Nat.add_assoc]
  cases lexFrom .code 0 (pos + (c.utf8Size + byteSize a)) rest with
  | error e => rfl
  | ok ls => rfl

/-- A line comment goes on to the line feed. -/
theorem lineComment_append (hfeed : '\n' ∉ a) (hopen : breakOn closeTag a = none)
    (rest : List Char) : lineComment (a ++ '\n' :: rest) = a := by
  induction a with
  | nil => rfl
  | cons c a ih =>
    rw [List.mem_cons, not_or] at hfeed
    rw [breakOn_eq_none_cons] at hopen
    have hclose : startsWith closeTag (c :: (a ++ '\n' :: rest)) = false := by
      have hmark : ∀ x ∈ closeTag.tail, (x == '\n') = false := forall_mem_of_all (by decide)
      have happ : startsWith closeTag (c :: a ++ '\n' :: rest) = startsWith closeTag (c :: a) :=
        startsWith_cons_append (q := fun d => d == '\n') hmark (by rintro d ⟨⟩; rfl)
      rw [List.cons_append] at happ
      rw [happ, hopen.1]
    rw [List.cons_append, lineComment, hclose, ih hfeed.2 hopen.2]
    simp [Ne.symm hfeed.1]

namespace CodeComment

theorem lexFrom_line {c : Char} (hwidth : triviaWidth (c :: (a ++ '\n' :: rest)) = a.length + 1)
    (pos : Nat) :
    lexFrom .code 0 pos (c :: (a ++ ['\n']) ++ rest) =
      lexFrom .code 0 (pos + byteSize (c :: (a ++ ['\n']))) rest := by
  have hfeed : lexFrom .code 0 (pos + byteSize (c :: a)) ('\n' :: rest) =
      lexFrom .code 0 (pos + byteSize (c :: a) + byteSize ['\n']) rest :=
    lexFrom_trivia (a := []) rfl _
  have hsplit : c :: (a ++ ['\n']) ++ rest = c :: a ++ '\n' :: rest := by simp
  rw [hsplit, lexFrom_trivia hwidth, hfeed, Nat.add_assoc, ← byteSize_append]
  rfl

/-- **The lexer goes on behind a comment.** -/
theorem lexFrom_append (hc : CodeComment cs) (pos : Nat) (rest : List Char) :
    lexFrom .code 0 pos (cs ++ rest) = lexFrom .code 0 (pos + byteSize cs) rest := by
  cases hc with
  | block body hbody =>
    have hcut : breakOn ['*', '/'] (body ++ (['*', '/'] ++ rest)) = some (body, rest) :=
      breakOn_append_self (by decide) hbody
    have hwidth : triviaWidth ('/' :: ('*' :: (body ++ ['*', '/']) ++ rest)) =
        ('*' :: (body ++ ['*', '/'])).length + 1 := by
      have hblank : isBlank '/' = false := by decide
      have hslashes : startsWith ['/', '/']
          ('/' :: ('*' :: (body ++ ['*', '/']) ++ rest)) = false := rfl
      have hopen : startsWith ['/', '*']
          ('/' :: ('*' :: (body ++ ['*', '/']) ++ rest)) = true := rfl
      have hdrop : ('*' :: (body ++ ['*', '/']) ++ rest).drop 1 =
          body ++ (['*', '/'] ++ rest) := by simp
      rw [triviaWidth, hblank, hslashes, hopen, hdrop, hcut]
      simp
    exact lexFrom_trivia hwidth pos
  | hash line hfeed hopen =>
    refine lexFrom_line ?_ pos
    have hline : lineComment ('#' :: line ++ '\n' :: rest) = '#' :: line :=
      lineComment_append (by simpa using hfeed)
        (breakOn_eq_none_append (w := ['#']) (by decide) hopen) rest
    rw [List.cons_append] at hline
    rw [triviaWidth, hline]
    rfl
  | slashes line hfeed hopen =>
    refine lexFrom_line ?_ pos
    have hline : lineComment ('/' :: '/' :: line ++ '\n' :: rest) = '/' :: '/' :: line :=
      lineComment_append (by simpa using hfeed)
        (breakOn_eq_none_append (w := ['/', '/']) (by decide) hopen) rest
    rw [List.cons_append, List.cons_append] at hline
    rw [List.cons_append, triviaWidth, hline]
    rfl

/-! ### Binding -/

/-- A comment ends in a character that belongs to no name and qualifies none. -/
theorem exists_last (hc : CodeComment cs) :
    ∃ w d, cs = w ++ [d] ∧ isNamePart d = false ∧ d ∉ ['$', '\\', ':'] := by
  cases hc with
  | block body => exact ⟨'/' :: '*' :: (body ++ ['*']), '/', by simp, by decide, by decide⟩
  | hash line => exact ⟨'#' :: line, '\n', rfl, by decide, by decide⟩
  | slashes line => exact ⟨'/' :: '/' :: line, '\n', rfl, by decide, by decide⟩

/-- Code behind a comment is bound as it is where the comment, read as code, leaves the reader. -/
theorem bindVars_append (hc : CodeComment cs) (a b : List Char) :
    bindVars (a ++ (cs ++ b)) = bindVars (a ++ cs) ++
      bindFrom ((a ++ cs).foldl Quoting.next .code) [] b := by
  obtain ⟨w, d, rfl, hname, hd⟩ := hc.exists_last
  simp only [List.mem_cons, List.not_mem_nil, or_false, not_or] at hd
  have hends : ∀ ys, EndsNames (d :: ys) := by
    rintro ys e ⟨⟩
    exact hname
  have hlast : ∀ mode before ys, bindFrom mode before (d :: ys) =
      d :: bindFrom (mode.next d) (d :: before) ys := by
    intro mode before ys
    rw [bindFrom_cons, if_neg fun h => hd.1 h.2.1, List.nil_append]
  have hunqualified : Unqualified (d :: ((a ++ w).reverse ++ [])) := by
    simp [Unqualified, hd.2.1, hd.2.2]
  have hbehind (mode : Quoting) : bindFrom mode (d :: ((a ++ w).reverse ++ [])) b =
      bindFrom mode [] b := by
    have hbefore : bindFrom mode ([] ++ d :: ((a ++ w).reverse ++ [])) b = bindFrom mode [] b :=
      bindFrom_before hunqualified
    rwa [List.nil_append] at hbefore
  have hsplit : ∀ ys, a ++ (w ++ [d] ++ ys) = (a ++ w) ++ d :: ys := by simp
  have hwhole := hsplit []
  rw [List.append_nil] at hwhole
  have hmode : (a ++ w ++ [d]).foldl Quoting.next .code =
      ((a ++ w).foldl Quoting.next .code).next d := List.foldl_append
  rw [hsplit, hwhole, bindVars, bindVars, bindFrom_append (hends b), bindFrom_append (hends []),
    hlast, hlast, hbehind, hmode]
  simp [bindFrom]

end CodeComment

/-- Inside of a literal nothing is bound. -/
theorem bindFrom_variable_of_ne {mode : Quoting} (h : mode ≠ .code) :
    bindFrom mode [] ['$', 'a'] = ['$', 'a'] := by
  rw [bindFrom_cons, if_neg fun hb => h hb.1]
  exact congrArg _ (bindsNothing_of_notMem (w := ['a']) (by decide) [])

/-- **Which comments leave the code around them alone.**  The lexer skips every comment.  Behind code
that ends outside of literals, what follows a comment is bound as it is alone, whatever it is,
exactly when the comment, read as code, ends outside of literals too. -/
theorem bindVars_around_comment (ha : Outside a) (hc : CodeComment cs) :
    (∀ pos b, lexFrom .code 0 pos (cs ++ b) = lexFrom .code 0 (pos + byteSize cs) b) ∧
      ((∀ b, bindVars (a ++ (cs ++ b)) = bindVars (a ++ cs) ++ bindVars b) ↔ Outside cs) := by
  have hmode : (a ++ cs).foldl Quoting.next .code = cs.foldl Quoting.next .code := by
    rw [List.foldl_append, outside_iff.mp ha]
  refine ⟨hc.lexFrom_append, fun h => ?_, fun h b => ?_⟩
  · -- a variable behind the comment is bound
    have hbound := h ['$', 'a']
    rw [hc.bindVars_append, hmode, List.append_cancel_left_eq] at hbound
    by_contra hopen
    rw [bindFrom_variable_of_ne fun hcode => hopen (outside_iff.mpr hcode)] at hbound
    exact absurd hbound (by decide)
  · rw [hc.bindVars_append, hmode, outside_iff.mp h]
    rfl

/-- A line comment with an apostrophe in quotes. -/
theorem bindVars_around_quotedWord :
    Outside "$a;".toList ∧ CodeComment "// \x22it's\x22\n".toList ∧
      bindVars ("$a;".toList ++ ("// \x22it's\x22\n".toList ++ "$b".toList)) =
        bindVars ("$a;".toList ++ "// \x22it's\x22\n".toList) ++ bindVars "$b".toList :=
  have ha : Outside "$a;".toList := by decide
  have hc : CodeComment "// \x22it's\x22\n".toList :=
    .slashes " \x22it's\x22".toList (by decide) (by decide)
  ⟨ha, hc, (bindVars_around_comment ha hc).2.mpr (by decide) _⟩

/-- An apostrophe in a comment opens a literal for the binding, but not for the lexer: the variable
behind the comment stays as it is. -/
theorem apostrophe_in_comment :
    CodeComment "/*'*/".toList ∧
      (∀ pos b, lexFrom .code 0 pos ("/*'*/".toList ++ b) =
        lexFrom .code 0 (pos + byteSize "/*'*/".toList) b) ∧
      bindVars "/*'*/$a".toList = "/*'*/$a".toList ∧
      bindVars "/*'*/$a".toList ≠ bindVars "/*'*/".toList ++ bindVars "$a".toList :=
  have hc : CodeComment "/*'*/".toList := .block ['\x27'] (by decide)
  ⟨hc, hc.lexFrom_append, by decide, by decide⟩

end Stencil
