import Stencil.Proofs.Parsing.Refusing
import Stencil.Proofs.Scanning.Alone

/-!
# Where errors of the syntax point

An error points at some bytes of the template, by an offset and a length.  The lexer points at the
character at which there is no step, or behind the template when an island is left open; the parser
points at the token that does not fit, or behind the template when there is no further token.

The offset is always a place between two characters.  The length of a token is that of its
characters, since the steps of the lexer cover whole characters.  In the two other cases the length
is one byte, which is too much behind the template and too little at a character of several bytes.

## Main definitions

* `CoversWhole` — bytes of a text that are whole characters of it.
* `Lexeme.StandsIn` — a token stands in a text.
* `BreaksOff`, `MeetsWide` — the templates that end too early, and those whose lexing stops at a
  character of several bytes.

## Main results

* `standsIn_of_lexFrom`, `refused_of_lexFrom` — the tokens and the errors of the lexer.
* `toSyntaxError_of_parseStatements` — the errors of the parser.
* `parseProgram_points` — **the bytes that an error points at.**
-/

namespace Stencil

open Text Lexer

/-- The bytes are whole characters of the text. -/
def CoversWhole (source : List Char) (offset length : Nat) : Prop :=
  ∃ before mid after, source = before ++ (mid ++ after) ∧ offset = byteSize before ∧
    length = byteSize mid

/-- A token stands in a text, over one character or more. -/
structure Lexeme.StandsIn (l : Lexeme) (source before mid after : List Char) : Prop where
  text : source = before ++ (mid ++ after)
  nonempty : mid ≠ []
  start : l.start = byteSize before
  stop : l.stop = byteSize before + byteSize mid

/-- The template ends where its statements need one more token. -/
def BreaksOff (source : List Char) : Prop :=
  ∃ ts u, lex source = .ok ts ∧ parseStatements ts = .error u ∧ u.token = none

/-- Lexing stops at a character of several bytes. -/
def MeetsWide (source : List Char) : Prop :=
  ∃ e before c after, lex source = .error e ∧ source = before ++ c :: after ∧
    e.offset = byteSize before ∧ 1 < c.utf8Size

variable {mode : Mode} {s : Step} {c : Char} {cs before source : List Char} {k : Nat}
  {ls ts : List Lexeme} {l : Lexeme} {e : SyntaxError} {u : Unexpected} {name : String}

/-! ### Steps of the lexer -/

theorem width_codeStep_pos (h : codeStep c cs = .ok s) : 0 < s.width := by
  unfold codeStep at h
  split at h
  · cases h
    exact Nat.succ_pos _
  split at h
  · cases h
    decide
  split at h
  · split at h
    · cases h
    · cases h
      exact Nat.lt_add_right _ Nat.one_pos
  split at h
  next hdigit => exact (covers_numeralStep h hdigit).pos
  split at h
  · split at h
    · cases h
      exact Nat.lt_add_right _ Nat.one_pos
    · cases h
  split at h
  next hword =>
    cases h
    have hpart : (isNamePart c || decide (c = '\\')) = true := by
      rw [Bool.or_eq_true, decide_eq_true_iff] at hword
      rcases hword with hname | rfl
      · rw [isNamePart_of_isNameStart hname, Bool.true_or]
      · decide
    simp only [wordWidth, if_pos hpart]
    omega
  next => exact (covers_signStep h).pos

theorem width_textStep_pos : 0 < (textStep (c :: cs)).width := by
  unfold textStep
  split
  · decide
  next hopen =>
    rw [textRun, if_neg hopen]
    exact Nat.succ_pos _

/-- A step covers its first character. -/
theorem width_pos (h : step mode c cs = .ok s) : 0 < s.width := by
  cases mode with
  | text =>
    cases h
    exact width_textStep_pos
  | code => exact width_codeStep_pos h

/-- A step gives a token that stands over its characters. -/
theorem standsIn_of_step {token : Token} (h : step mode c cs = .ok s) :
    (⟨token, byteSize before, byteSize before + byteSize ((c :: cs).take s.width)⟩ :
      Lexeme).StandsIn (before ++ c :: cs) before ((c :: cs).take s.width)
      ((c :: cs).drop s.width) where
  text := by rw [List.take_append_drop]
  nonempty := by simpa using (width_pos h).ne'
  start := rfl
  stop := rfl

theorem byteSize_concat (before : List Char) (c : Char) :
    byteSize before + c.utf8Size = byteSize (before ++ [c]) := by simp

/-- **Every token stands in the template.** -/
theorem standsIn_of_lexFrom (h : lexFrom mode k (byteSize before) cs = .ok ls) :
    ∀ l ∈ ls, ∃ b m a, l.StandsIn (before ++ cs) b m a := by
  induction cs generalizing mode k before ls with
  | nil =>
    cases mode with
    | text =>
      cases h
      exact fun _ hl => nomatch hl
    | code => cases h
  | cons c cs ih =>
    cases k with
    | succ k =>
      rw [lexFrom, byteSize_concat] at h
      rw [List.append_cons]
      exact ih h
    | zero =>
      cases hs : step mode c cs with
      | error r =>
        rw [lexFrom, hs] at h
        cases h
      | ok s =>
        rw [lexFrom_of_step hs, byteSize_concat] at h
        cases hrest : lexFrom s.mode (s.width - 1) (byteSize (before ++ [c])) cs with
        | error _ =>
          rw [hrest] at h
          cases h
        | ok rest =>
          have hstands := ih hrest
          rw [← List.append_cons] at hstands
          rw [hrest] at h
          cases ht : s.token with
          | none =>
            rw [ht] at h
            cases h
            exact hstands
          | some token =>
            rw [ht] at h
            cases h
            exact List.forall_mem_cons.mpr ⟨⟨_, _, _, standsIn_of_step hs⟩, hstands⟩

/-- **The lexer refuses the end of the template or a character of it.** -/
theorem refused_of_lexFrom (h : lexFrom mode k (byteSize before) cs = .error e) :
    e.offset = byteSize (before ++ cs) ∧ e.length = 0 ∨
      ∃ b c a, before ++ cs = b ++ c :: a ∧ e.offset = byteSize b ∧ e.length = 1 := by
  induction cs generalizing mode k before with
  | nil =>
    cases mode with
    | text => cases h
    | code =>
      cases h
      exact .inl ⟨by rw [List.append_nil], rfl⟩
  | cons c cs ih =>
    cases k with
    | succ k =>
      rw [lexFrom, byteSize_concat] at h
      rw [List.append_cons]
      exact ih h
    | zero =>
      cases hs : step mode c cs with
      | error r =>
        rw [lexFrom, hs] at h
        cases h
        exact .inr ⟨before, c, cs, rfl, rfl, rfl⟩
      | ok s =>
        rw [lexFrom_of_step hs, byteSize_concat] at h
        cases hrest : lexFrom s.mode (s.width - 1) (byteSize (before ++ [c])) cs with
        | error _ =>
          rw [hrest] at h
          cases h
          have hrefused := ih hrest
          rwa [← List.append_cons] at hrefused
        | ok rest =>
          rw [hrest] at h
          cases ht : s.token with
          | none =>
            rw [ht] at h
            cases h
          | some token =>
            rw [ht] at h
            cases h

/-! ### What errors point at -/

theorem CoversWhole.le {offset length : Nat} (h : CoversWhole source offset length) :
    offset + length ≤ byteSize source := by
  obtain ⟨before, mid, after, rfl, rfl, rfl⟩ := h
  rw [byteSize_append, byteSize_append]
  omega

/-- One byte is a whole character if the character at that place has one byte. -/
theorem coversWhole_one (h : source = before ++ c :: cs) :
    CoversWhole source (byteSize before) 1 ↔ c.utf8Size = 1 := by
  constructor
  · rintro ⟨b, mid, after, happend, hoffset, hlength⟩
    obtain ⟨rfl, hrest⟩ := eq_of_byteSize_eq (h.symm.trans happend) hoffset
    cases mid with
    | nil => cases hlength
    | cons d mid =>
      obtain ⟨rfl, -⟩ := List.cons.inj hrest
      have hpos := c.utf8Size_pos
      rw [byteSize_cons] at hlength
      omega
  · exact fun hsize => ⟨before, [c], cs, h, rfl, hsize.symm⟩

/-- The parser points at a token, or behind the template. -/
theorem toSyntaxError_of_parseStatements (hlex : lex source = .ok ts)
    (h : parseStatements ts = .error u) :
    (u.token = none ∧ (u.toSyntaxError (byteSize source)).offset = byteSize source ∧
      (u.toSyntaxError (byteSize source)).length = 1) ∨
    (u.token ≠ none ∧ CoversWhole source (u.toSyntaxError (byteSize source)).offset
      (u.toSyntaxError (byteSize source)).length) := by
  cases hl : u.token with
  | none => exact .inl (by simp [Unexpected.toSyntaxError, hl])
  | some l =>
    have hmem := Parser.mem_of_parseStatements h hl
    have hlexed : lexFrom .text 0 (byteSize []) source = .ok ts := hlex
    obtain ⟨b, m, a, hstands⟩ := standsIn_of_lexFrom hlexed l hmem
    have hsize := byteSize_pos hstands.nonempty
    refine .inr ⟨by simp, b, m, a, hstands.text, ?_, ?_⟩
    · simp [Unexpected.toSyntaxError, hl, hstands.start]
    · simp only [Unexpected.toSyntaxError, hl, hstands.start, hstands.stop]
      omega

theorem meetsWide_iff (hlex : lex source = .error e) (h : source = before ++ c :: cs)
    (hoffset : e.offset = byteSize before) : MeetsWide source ↔ 1 < c.utf8Size := by
  constructor
  · rintro ⟨e', b, d, a, hlex', hsource, hoffset', hwide⟩
    obtain rfl : e = e' := Except.error.inj (hlex.symm.trans hlex')
    obtain ⟨-, hrest⟩ := eq_of_byteSize_eq (h.symm.trans hsource) (hoffset.symm.trans hoffset')
    obtain ⟨rfl, -⟩ := List.cons.inj hrest
    exact hwide
  · exact fun hwide => ⟨e, before, c, cs, hlex, h, hoffset, hwide⟩

theorem not_meetsWide_of_offset (hlex : lex source = .error e)
    (hoffset : e.offset = byteSize source) : ¬ MeetsWide source := by
  rintro ⟨e', b, d, a, hlex', hsource, hoffset', -⟩
  obtain rfl : e = e' := Except.error.inj (hlex.symm.trans hlex')
  have hpos := d.utf8Size_pos
  rw [hoffset', hsource, byteSize_append, byteSize_cons] at hoffset
  omega

/-- **An error of the syntax points at a place between two characters.  Its last byte is one of the
template unless the template ends too early, and its bytes are whole characters unless the template
ends too early or the lexing stops at a character of several bytes.** -/
theorem parseProgram_points (h : parseProgram name source = .error e) :
    (∃ before after, source = before ++ after ∧ e.offset = byteSize before) ∧
      (e.offset + e.length ≤ byteSize source ↔ ¬ BreaksOff source) ∧
      (CoversWhole source e.offset e.length ↔ ¬ BreaksOff source ∧ ¬ MeetsWide source) := by
  have hend : ∃ before after, source = before ++ after ∧ byteSize source = byteSize before :=
    ⟨source, [], (List.append_nil source).symm, rfl⟩
  rw [parseProgram] at h
  split at h
  next e' hlex =>
    cases h
    have hbreaks : ¬ BreaksOff source := by
      rintro ⟨ts, u, hok, -⟩
      rw [hlex] at hok
      cases hok
    simp only [hbreaks, not_false_eq_true, iff_true, true_and]
    have hrefused : lexFrom .text 0 (byteSize []) source = .error e := hlex
    rcases refused_of_lexFrom hrefused with
      ⟨hoffset, hlength⟩ | ⟨b, c, a, hsource, hoffset, hlength⟩
    · -- an island is left open
      have hwide := not_meetsWide_of_offset hlex hoffset
      rw [hoffset, hlength]
      refine ⟨hend, Nat.le_refl _, iff_of_true ?_ hwide⟩
      exact ⟨source, [], [], by simp, rfl, rfl⟩
    · -- there is no step at a character
      rw [List.nil_append] at hsource
      have hpos := c.utf8Size_pos
      rw [meetsWide_iff hlex hsource hoffset, hoffset, hlength, coversWhole_one hsource]
      refine ⟨⟨b, c :: a, hsource, rfl⟩, ?_, by omega⟩
      rw [hsource, byteSize_append, byteSize_cons]
      omega
  next ts hlex =>
    have hwide : ¬ MeetsWide source := by
      rintro ⟨e', _, _, _, herror, -⟩
      rw [hlex] at herror
      cases herror
    split at h
    next u hparse =>
      cases h
      have hbreaks : BreaksOff source ↔ u.token = none := by
        refine ⟨?_, fun hnone => ⟨ts, u, hlex, hparse, hnone⟩⟩
        rintro ⟨ts', u', hlex', hparse', hnone⟩
        obtain rfl : ts = ts' := Except.ok.inj (hlex.symm.trans hlex')
        obtain rfl : u = u' := Except.error.inj (hparse.symm.trans hparse')
        exact hnone
      rw [hbreaks]
      simp only [hwide, not_false_eq_true, and_true]
      rcases toSyntaxError_of_parseStatements hlex hparse with
        ⟨hnone, hoffset, hlength⟩ | ⟨hsome, hcovers⟩
      · rw [hoffset, hlength]
        have hover : ¬ byteSize source + 1 ≤ byteSize source := Nat.not_succ_le_self _
        exact ⟨hend, iff_of_false hover (not_not_intro hnone),
          iff_of_false (fun hcovers => hover hcovers.le) (not_not_intro hnone)⟩
      · refine ⟨?_, iff_of_true hcovers.le hsome, iff_of_true hcovers hsome⟩
        obtain ⟨before, mid, after, hsource, hoffset, -⟩ := hcovers
        exact ⟨before, mid ++ after, hsource, hoffset⟩
    next => cases h

/-- Errors can be told from programs, and from each other. -/
theorem parseProgram_eq_error (h : (parseProgram name source).map (fun _ => ()) = .error e) :
    parseProgram name source = .error e := by
  generalize parseProgram name source = parsed at h ⊢
  cases parsed with
  | error e' => exact congrArg Except.error (Except.error.inj h)
  | ok program => cases h

/-- A literal that does not fit is pointed at with all of its bytes. -/
theorem second_literal_points :
    ∃ e, parseProgram "t" "<?tpl $a = 'é' 'ü' ?>".toList = .error e ∧
      e.offset = 16 ∧ e.length = 4 ∧
      (∃ before after, "<?tpl $a = 'é' 'ü' ?>".toList = before ++ after ∧
        e.offset = byteSize before) ∧
      (e.offset + e.length ≤ byteSize "<?tpl $a = 'é' 'ü' ?>".toList ↔
        ¬ BreaksOff "<?tpl $a = 'é' 'ü' ?>".toList) ∧
      (CoversWhole "<?tpl $a = 'é' 'ü' ?>".toList e.offset e.length ↔
        ¬ BreaksOff "<?tpl $a = 'é' 'ü' ?>".toList ∧
          ¬ MeetsWide "<?tpl $a = 'é' 'ü' ?>".toList) := by
  have h : parseProgram "t" "<?tpl $a = 'é' 'ü' ?>".toList =
      .error ⟨"string", "`;` or `?>`", 16, 4⟩ := parseProgram_eq_error (by decide +kernel)
  exact ⟨_, h, rfl, rfl, parseProgram_points h⟩

/-- Where a brace is missing, the byte that is pointed at is behind the template. -/
theorem open_brace_points_behind :
    ∃ e, parseProgram "t" "<?tpl if (1) \x7b ?>".toList = .error e ∧
      ¬ e.offset + e.length ≤ byteSize "<?tpl if (1) \x7b ?>".toList :=
  ⟨⟨"end of template", "`\x7d`", 17, 1⟩, parseProgram_eq_error (by decide +kernel), by decide⟩

/-- Of a letter with an accent, the first byte is pointed at. -/
example : lex "<?tpl é ?>".toList = .error ⟨"character `é`", "an expression", 6, 1⟩ := by
  decide +kernel

end Stencil
