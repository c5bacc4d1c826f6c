import Stencil.Proofs.BoundTokens
import Stencil.Proofs.Islands
import Stencil.Proofs.Numerals
import Stencil.Proofs.Parsing.Printing

/-!
# Spelling printed expressions

The tokens of a printed expression are spelled with single spaces between them, and the lexer reads
every spelling back as the token it is of.  So the text of a printed expression is parsed into the
expression.

## Main definitions

* `Token.spelling` — the text of a token.
* `Token.Spelled` — the tokens that are read back from their spelling.
* `Expr.print` — the text of an expression.

## Main results

* `Token.spells` — a spelling is read as its token.
* `parseProgram_print` — the program that writes a printed expression.
-/

namespace Stencil

open Text Lexer Stencil.Parser

variable {w v : List Char} {c : Char} {a : List Char} {t : Token} {ts : List Token}

/-- The text of a token. -/
def Token.spelling : Token → List Char
  | text s => s.toList
  | var name => '$' :: name.toList
  | word name => name.toList
  | int i => (wordText i).toList
  | float x => Number.floatText x
  | string s => quoteLiteral s.toList
  | terminator => [';']
  | sign s => s.text.toList

/-- The tokens that are read back from their spelling. -/
def Token.Spelled : Token → Prop
  | var name => IsName name.toList
  | word name => IsQualified name.toList
  | int i => 0 ≤ i.toInt
  | string _ | sign _ => True
  | text _ | float _ | terminator => False

/-- The spellings of tokens, with single spaces between them. -/
def spellAll (ts : List Token) : List Char := [' '].intercalate (ts.map Token.spelling)

/-- The text of an expression. -/
def Expr.print (e : Expr) : List Char := spellAll e.tokens

/-! ### Names -/

theorem IsName.isNameStart (h : IsName (c :: a)) : isNameStart c = true := by
  by_contra hc
  have h := h.2
  rw [nameAt, if_neg hc] at h
  cases h

theorem IsName.isNamePart (h : IsName w) : ∀ d ∈ w, isNamePart d = true := by
  have h' : ∀ d ∈ nameAt w, Stencil.isNamePart d = true := isNamePart_nameAt
  rwa [h.2] at h'

theorem IsQualified.exists_cons (h : IsQualified w) :
    ∃ c a, w = c :: a ∧ Stencil.isNameStart c = true := by
  have hname : ∀ {u : List Char}, IsName u → ∃ c a, u = c :: a ∧ Stencil.isNameStart c = true := by
    intro u hu
    obtain ⟨c, a, rfl⟩ := List.exists_cons_of_ne_nil hu.1
    exact ⟨c, a, rfl, hu.isNameStart⟩
  cases h with
  | name h => exact hname h
  | more h _ =>
    obtain ⟨c, a, rfl, hc⟩ := hname h
    exact ⟨c, _, rfl, hc⟩

/-- A qualified name is one word. -/
theorem IsQualified.wordWidth (h : IsQualified w) : Lexer.wordWidth 0 w = w.length := by
  induction h with
  | name h =>
    have hw := wordWidth_append_of_isNamePart h.isNamePart []
    rwa [List.append_nil] at hw
  | @more w v h hv ih =>
    obtain ⟨c, a, rfl, hc⟩ := hv.exists_cons
    have hd : (c :: a).head? ≠ some '$' := by
      rintro ⟨⟩
      exact absurd hc (by decide)
    have hne : nameAt (c :: a) ≠ [] := by
      rw [nameAt, if_pos hc]
      exact List.cons_ne_nil _ _
    -- behind the colons the qualifier covers a name, and the word goes on with what is left
    have hrest : (nameAt (c :: a)).length +
        Lexer.wordWidth 0 ((c :: a).drop (nameAt (c :: a)).length) = (c :: a).length := by
      rw [← ih, ← wordWidth_append_of_isNamePart isNamePart_nameAt, nameAt_append_drop]
    have hcolon : ¬ (Stencil.isNamePart ':' || decide (':' = '\\')) = true := by decide
    rw [wordWidth_append_of_isNamePart h.isNamePart, wordWidth_cons, if_neg hcolon,
      qualifierWidth_colons hd, if_neg hne, if_neg (by omega), Nat.add_comm 2, List.drop_succ_cons,
      List.drop_succ_cons, List.length_append, List.length_cons, List.length_cons]
    omega

theorem spells_name {name : String} (h : IsQualified name.toList) :
    Spells name.toList [.word name] := by
  obtain ⟨c, a, hname, hc⟩ := h.exists_cons
  have hw := h.wordWidth
  rw [hname] at hw ⊢
  refine spells_of_step ?_ (goesOn_of_isNameStart hc a)
  rw [codeStep_of_isNameStart hc, hw, List.take_length, ← hname, String.ofList_toList, hname,
    List.length_cons]

theorem spells_variable {name : String} (h : IsName name.toList) :
    Spells ('$' :: name.toList) [.var name] := by
  have hg : goesOn ('$' :: name.toList) = true := rfl
  have hblank : isBlank '$' = false := by decide
  refine spells_of_step ?_ hg
  rw [codeStep_of_goesOn hg, hblank, if_neg Bool.false_ne_true, if_pos rfl, h.2]
  split
  next hnil => exact absurd hnil h.1
  next => rw [String.ofList_toList, emit, Nat.add_comm]

/-! ### Literals -/

/-- A quoted text is read back, whatever follows it. -/
theorem readQuoted_quoted (s rest : List Char) :
    readQuoted '\x27' (s.flatMap quoteChar ++ '\x27' :: rest) =
      some (s, (s.flatMap quoteChar).length + 1) := by
  have hend : ∀ cs : List Char, readQuoted '\x27' ('\x27' :: cs) = some ([], 1) := by
    intro cs
    cases cs with
    | nil => rfl
    | cons d cs => rfl
  induction s with
  | nil => exact hend rest
  | cons c s ih =>
    rw [List.flatMap_cons, List.append_assoc]
    by_cases hc : c = '\\' ∨ c = '\x27'
    · -- an escape stands for the character behind the backslash
      have hescape : unescape '\x27' c = [c] := by
        rcases hc with rfl | rfl <;> rfl
      rw [quoteChar, if_pos hc, List.cons_append, List.singleton_append, readQuoted,
        if_neg (by decide), if_pos rfl, ih, hescape]
      simp
    · rw [quoteChar, if_neg hc, List.singleton_append]
      rw [not_or] at hc
      obtain ⟨d, cs, hcs⟩ : ∃ d cs, s.flatMap quoteChar ++ '\x27' :: rest = d :: cs :=
        List.exists_cons_of_ne_nil (by simp)
      rw [hcs] at ih ⊢
      rw [readQuoted, if_neg hc.2, if_neg hc.1, ih]
      simp

/-- The step over a text between single quotes whose closing quote is where it is read. -/
theorem step_single {content body rest : List Char}
    (hread : readQuoted '\x27' (body ++ '\x27' :: rest) = some (content, body.length + 1)) :
    step .code '\x27' (body ++ '\x27' :: rest) = .ok
      { token := some (.string (String.ofList content)), width := body.length + 2,
        mode := .code } := by
  have hg : ∀ cs, goesOn ('\x27' :: cs) = true := fun _ => rfl
  have hblank : isBlank '\x27' = false := by decide
  have hdigit : isAsciiDigit '\x27' = false := by decide
  rw [step, codeStep_of_goesOn (hg _), hread]
  simp only [hblank, hdigit, emit, Bool.false_eq_true, if_false]
  simp
  omega

/-- A text between single quotes is one token when the closing quote is where it is read. -/
theorem reads_single {content body rest : List Char} {us : List Token}
    (hread : readQuoted '\x27' (body ++ '\x27' :: rest) = some (content, body.length + 1))
    (h : Reads .code rest us) :
    Reads .code ('\x27' :: (body ++ '\x27' :: rest)) (.string (String.ofList content) :: us) := by
  refine Reads.of_step (step_single hread) ?_
  have hdrop : (body ++ '\x27' :: rest).drop (body.length + 2 - 1) = rest := by
    rw [Nat.add_sub_assoc (by decide), ← List.drop_drop, List.drop_left]
    rfl
  rwa [hdrop]

/-- A literal in front of a text: the quote, the content and the quote. -/
theorem quoteLiteral_append (s rest : List Char) :
    quoteLiteral s ++ rest = '\x27' :: (s.flatMap quoteChar ++ '\x27' :: rest) := by
  simp [quoteLiteral]

/-- A literal is one token, whatever follows it. -/
theorem reads_quoted (s : List Char) {rest : List Char} {us : List Token}
    (h : Reads .code rest us) :
    Reads .code (quoteLiteral s ++ rest) (.string (String.ofList s) :: us) := by
  rw [quoteLiteral_append]
  exact reads_single (readQuoted_quoted s rest) h

theorem spells_literal (s : String) : Spells (quoteLiteral s.toList) [.string s] := by
  intro rest us _ h
  have h := reads_quoted s.toList h
  rwa [String.ofList_toList] at h

theorem goesOn_of_isAsciiDigit (hc : isAsciiDigit c = true) (cs : List Char) :
    goesOn (c :: cs) = true := by
  refine goesOn_of_notMem (fun hmem => ?_) cs
  simp only [List.mem_cons, List.not_mem_nil, or_false] at hmem
  rcases hmem with rfl | rfl | rfl <;> exact absurd hc (by decide)

/-- Digits alone are a numeral. -/
theorem numeral_of_all (h : ∀ d ∈ w, isAsciiDigit d = true) : numeral w = w := by
  rw [numeral, List.dropWhile_eq_nil_iff.mpr h, List.takeWhile_eq_self_iff.mpr h]

theorem spells_numeral {i : Int64} (h : 0 ≤ i.toInt) : Spells (wordText i).toList [.int i] := by
  obtain ⟨n, hn⟩ := Int.eq_ofNat_of_zero_le h
  have htext : (wordText i).toList = Nat.toDigits 10 n := by
    have hrepr : wordText i = String.ofList (Nat.toDigits 10 n) := by
      rw [wordText, hn]
      exact Nat.repr_eq_ofList_toDigits
    rw [hrepr, String.toList_ofList]
  have hdigits : ∀ d ∈ Nat.toDigits 10 n, isAsciiDigit d = true :=
    fun d hd => isAsciiDigit_toDigits hd
  have hread : Number.readInteger? (Nat.toDigits 10 n) = some i := by
    rw [readInteger?_toDigits, ← Number.fits?_toInt i, hn]
  have hpoint : (Nat.toDigits 10 n).contains '.' = false := by
    rw [Bool.eq_false_iff, Ne, List.contains_iff_mem]
    exact fun hmem => absurd (hdigits _ hmem) (by decide)
  obtain ⟨c, a, hcons⟩ := List.exists_cons_of_ne_nil (Nat.toDigits_ne_nil (n := n) (b := 10))
  rw [htext]
  rw [hcons] at hdigits hread hpoint ⊢
  have hc : isAsciiDigit c = true := hdigits c List.mem_cons_self
  have hblank : isBlank c = false := by
    by_contra hb
    rw [Bool.not_eq_false] at hb
    have hnot := isAsciiDigit_of_isApart (isApart_of_isBlank hb)
    rw [hc] at hnot
    cases hnot
  have hdollar : c ≠ '$' := by
    rintro rfl
    exact absurd hc (by decide)
  refine spells_of_step ?_ (goesOn_of_isAsciiDigit hc a)
  rw [codeStep_of_goesOn (goesOn_of_isAsciiDigit hc a), hblank, if_neg Bool.false_ne_true,
    if_neg hdollar, if_pos hc, numeralStep, numeral_of_all hdigits]
  simp only [hpoint, Bool.false_eq_true, if_false, hread, Option.map_some, emit, List.length_cons]

/-! ### Signs -/

theorem spells_sign (s : Sign) : Spells s.text.toList [.sign s] := by
  have h : ∃ c a, s.text.toList = c :: a ∧ goesOn (c :: a) = true ∧
      codeStep c a = .ok { token := some (.sign s), width := a.length + 1, mode := .code } := by
    cases s <;> exact ⟨_, _, rfl, rfl, rfl⟩
  obtain ⟨c, a, htext, hg, hs⟩ := h
  rw [htext]
  exact spells_of_step hs hg

/-! ### Expressions -/

/-- **A spelling is read as its token.** -/
theorem Token.spells (h : t.Spelled) : Spells t.spelling [t] := by
  cases t with
  | var name => exact spells_variable h
  | word name => exact spells_name h
  | int i => exact spells_numeral h
  | string s => exact spells_literal s
  | sign s => exact spells_sign s
  | text s => exact absurd h id
  | float x => exact absurd h id
  | terminator => exact absurd h id

theorem spells_all (h : ∀ t ∈ ts, t.Spelled) : Spells (spellAll ts) ts := by
  induction ts with
  | nil => exact Spells.nil
  | cons t ts ih =>
    have ht := Token.spells (h t List.mem_cons_self)
    have hts := ih fun u hu => h u (List.mem_cons_of_mem t hu)
    cases ts with
    | nil =>
      have hone : spellAll [t] = t.spelling := by simp [spellAll, List.intercalate]
      rwa [hone]
    | cons u ts =>
      have hmore : spellAll (t :: u :: ts) = t.spelling ++ ' ' :: spellAll (u :: ts) := by
        simp [spellAll, List.intercalate]
      rw [hmore]
      exact ht.append_blank (by decide) hts

/-- Every token is read back from its spelling. -/
def AllSpelled (ts : List Token) : Prop := ∀ t ∈ ts, t.Spelled

theorem AllSpelled.append {us : List Token} (h : AllSpelled ts) (h' : AllSpelled us) :
    AllSpelled (ts ++ us) := by
  intro t ht
  rcases List.mem_append.mp ht with ht | ht
  · exact h t ht
  · exact h' t ht

theorem AllSpelled.cons (ht : t.Spelled) (h : AllSpelled ts) : AllSpelled (t :: ts) := by
  intro u hu
  rcases List.mem_cons.mp hu with rfl | hu
  · exact ht
  · exact h u hu

theorem allSpelled_nil : AllSpelled [] := fun _ ht => absurd ht List.not_mem_nil

theorem AllSpelled.sign (h : AllSpelled ts) (s : Sign) : AllSpelled (.sign s :: ts) :=
  h.cons trivial

theorem allSpelled_sign (s : Sign) : AllSpelled [.sign s] := allSpelled_nil.sign s

theorem AllSpelled.within (h : AllSpelled ts) (least level : Nat) :
    AllSpelled (within least level ts) := by
  unfold Stencil.within
  split
  · exact h
  · exact (h.append (allSpelled_sign .parenClose)).sign .parenOpen

theorem Value.allSpelled {value : Value} (h : value.Printable) : AllSpelled value.tokens := by
  have hword : ∀ {name : String}, name.toList ≠ [] ∧ nameAt name.toList = name.toList →
      AllSpelled [.word name] := fun hn => allSpelled_nil.cons (IsQualified.name hn)
  cases value with
  | null => exact hword (by decide)
  | bool b =>
    cases b with
    | true => exact hword (by decide)
    | false => exact hword (by decide)
  | int i => exact allSpelled_nil.cons h
  | string s => exact allSpelled_nil.cons trivial
  | float x => exact absurd h id
  | list vs => exact absurd h id
  | map vs => exact absurd h id

mutual

/-- The tokens of a printed expression are read back from their spellings. -/
theorem Expr.allSpelled : (e : Expr) → e.Printable → AllSpelled e.tokens
  | .literal _, h => Value.allSpelled h
  | .var _, h => allSpelled_nil.cons h
  | .const _, h => allSpelled_nil.cons h.1
  | .member base name, h =>
    ((base.allSpelled h.1).within 11 _).append
      ((allSpelled_nil.cons (t := .word name) h.2).sign .arrow)
  | .index base key, h =>
    ((base.allSpelled h.1).within 11 _).append
      (((key.allSpelled h.2).append (allSpelled_sign .bracketClose)).sign .bracketOpen)
  | .append base, h =>
    ((base.allSpelled h).within 11 _).append ((allSpelled_sign .bracketClose).sign .bracketOpen)
  | .call _ args, h =>
    .cons h.1 (((allSpelled_list args h.2.2).append (allSpelled_sign .parenClose)).sign .parenOpen)
  | .method target name args, h =>
    ((target.allSpelled h.1).within 11 _).append <| .sign (.cons (t := .word name) h.2.1
      (((allSpelled_list args h.2.2).append (allSpelled_sign .parenClose)).sign .parenOpen)) .arrow
  | .array items, h =>
    ((allSpelled_items items h).append (allSpelled_sign .bracketClose)).sign .bracketOpen
  | .unary op operand, h => ((operand.allSpelled h).within 9 _).sign op.sign
  | .binary op left right, h =>
    ((left.allSpelled h.1).within _ _).append (((right.allSpelled h.2).within _ _).sign op.sign)
  | .assign op target value, h =>
    (target.allSpelled h.2.1).append ((value.allSpelled h.2.2).sign op.sign)
  | .step target up true, h => (target.allSpelled h.2).sign (stepSign up)
  | .step target up false, h => (target.allSpelled h.2).append (allSpelled_sign (stepSign up))
  | .choice cond yes no, h =>
    ((cond.allSpelled h.1).within 2 _).append (((yes.allSpelled h.2.1).append
      (((no.allSpelled h.2.2).within 1 _).sign .colon)).sign .question)
  | .fallback cond no, h =>
    ((cond.allSpelled h.1).within 2 _).append
      ((((no.allSpelled h.2).within 1 _).sign .colon).sign .question)

theorem allSpelled_list : (es : List Expr) → AllPrintable es → AllSpelled (listTokens es)
  | [], _ => allSpelled_nil
  | e :: es, h => (e.allSpelled h.1).append (allSpelled_more es h.2)

theorem allSpelled_more : (es : List Expr) → AllPrintable es → AllSpelled (moreTokens es)
  | [], _ => allSpelled_nil
  | e :: es, h => ((e.allSpelled h.1).append (allSpelled_more es h.2)).sign .comma

theorem Item.allSpelled : (item : Item) → item.Printable → AllSpelled item.tokens
  | .plain value, h => value.allSpelled h
  | .keyed key value, h => (key.allSpelled h.1).append ((value.allSpelled h.2).sign .fatArrow)

theorem allSpelled_items : (items : List Item) → AllItemsPrintable items →
    AllSpelled (itemTokens items)
  | [], _ => allSpelled_nil
  | item :: items, h => (item.allSpelled h.1).append (allSpelled_moreItems items h.2)

theorem allSpelled_moreItems : (items : List Item) → AllItemsPrintable items →
    AllSpelled (moreItemTokens items)
  | [], _ => allSpelled_nil
  | item :: items, h => ((item.allSpelled h.1).append (allSpelled_moreItems items h.2)).sign .comma

end

/-- **Parsing inverts printing**: an island that writes a printed expression is parsed into the one
statement that writes the expression. -/
theorem parseProgram_print (name : String) {e : Expr} (h : e.Printable) :
    parseProgram name (island ("echo ".toList ++ e.print)) =
      .ok { name, body := [.echo [e]] } := by
  have hword : Spells "echo".toList [.word "echo"] :=
    spells_of_step (c := 'e') (a := "cho".toList) rfl rfl
  have hspell : Spells ("echo".toList ++ ' ' :: e.print) (.word "echo" :: e.tokens) :=
    hword.append_blank (by decide) (spells_all (e.allSpelled h))
  have hreads := hspell.reads_island reads_nil
  have hstop : Gives (listUntil .atEnd) 2 [] [] [] := gives_stop rfl
  have hgives := gives_echo h hstop
  have hyields := yields_of_island hreads hgives rfl
  rw [List.append_nil] at hyields
  exact parseProgram_of_yields name hyields

/-- The product of a sum and a call: the sum needs parentheses, the call none. -/
def sumTimesCall : Expr :=
  .binary .multiply (.binary .add (.literal (.int 1)) (.var "n"))
    (.call "count" [.array [.plain (.literal (.string "it's"))]])

/-- Parentheses around a sum, and none around a call or the literals in it. -/
theorem parseProgram_print_product :
    parseProgram "" (island ("echo ".toList ++ "( 1 + $n ) * count ( [ 'it\\'s' ] )".toList)) =
      .ok { name := "", body := [.echo [sumTimesCall]] } := by
  have hn : IsName "n".toList := ⟨by decide, by decide⟩
  have hcount : IsName "count".toList := ⟨by decide, by decide⟩
  have hone : 0 ≤ (1 : Int64).toInt := by decide
  have hprintable : sumTimesCall.Printable :=
    ⟨⟨hone, hn⟩, .name hcount, by decide, ⟨⟨trivial, trivial⟩, trivial⟩⟩
  have hprint : sumTimesCall.print = "( 1 + $n ) * count ( [ 'it\\'s' ] )".toList := by
    decide +kernel
  rw [← hprint]
  exact parseProgram_print "" hprintable

/-- An increment ends its postfix forms, so in front of another one it needs its parentheses. -/
theorem increment_is_no_base :
    (Expr.index (.step (.var "x") true false) (.literal (.int 0))).print =
        "( $x ++ ) [ 0 ]".toList ∧
      (parseProgram "" (island ("echo ".toList ++ "$x ++ [ 0 ]".toList))).isOk = false := by
  constructor
  · decide +kernel
  · decide +kernel

end Stencil
