import Stencil.Proofs.Scanning.Spans

/-!
# Directives by themselves

The source of a directive, scanned alone, is that directive and nothing else, except that an
expression has to look like one without the rest of its line.  Of the line, only a quote can count:
content that opens a quote passes when the quote is closed behind the brace.

## Main definitions

* `LooksLike` — the contents that look like an expression.
* `OpensQuote` — contents that start with a quote and do not close it.

## Main results

* `looksLikeExpression_iff` — the test of an expression, by its first signs.
* `looksLikeExpression_append_iff` — what the text behind the brace adds to it.
* `scan_source_alone` — **a directive is found alone, unless its content opens a quote.**
-/

namespace Stencil

open Text Lexer

/-! ### What looks like an expression -/

/-- A text that starts as an expression does. -/
inductive LooksLike : List Char → Prop
  /-- A variable. -/
  | var {c : Char} {cs : List Char} (hc : isPlainWord c = true) : LooksLike ('$' :: c :: cs)
  /-- A token of the context: two underscores and a capital letter. -/
  | token {c : Char} {cs : List Char} (hc : 'A' ≤ c ∧ c ≤ 'Z') : LooksLike ('_' :: '_' :: c :: cs)
  /-- A numeral. -/
  | numeral {c : Char} {cs : List Char} (hc : isAsciiDigit c = true) : LooksLike (c :: cs)
  /-- A literal whose quote is closed. -/
  | quoted {q : Char} {text cs : List Char} (hq : q = '\x27' ∨ q = '\x22') :
      LooksLike (q :: (text ++ q :: cs))
  /-- A call. -/
  | call {word cs : List Char} (hne : word ≠ []) (hword : ∀ c ∈ word, isPlainWord c = true) :
      LooksLike (word ++ '(' :: cs)
  /-- A qualified name. -/
  | qualified {word cs : List Char} (hne : word ≠ []) (hword : ∀ c ∈ word, isPlainWord c = true) :
      LooksLike (word ++ ':' :: ':' :: cs)

section Looks

variable {c q : Char} {cs code rest : List Char}

theorem startsConstant_iff :
    startsConstant cs = true ↔ ∃ c rest, ('A' ≤ c ∧ c ≤ 'Z') ∧ cs = '_' :: '_' :: c :: rest := by
  constructor
  · intro h
    unfold startsConstant at h
    split at h
    next c rest => exact ⟨c, rest, by simpa using h, rfl⟩
    next => cases h
  · rintro ⟨c, rest, hc, rfl⟩
    simpa [startsConstant] using hc

theorem startsCall_iff : startsCall cs = true ↔
    ∃ word rest, word ≠ [] ∧ (∀ c ∈ word, isPlainWord c = true) ∧
      (cs = word ++ '(' :: rest ∨ cs = word ++ ':' :: ':' :: rest) := by
  constructor
  · intro h
    simp only [startsCall, Bool.and_eq_true, Bool.or_eq_true, Bool.not_eq_true',
      List.isEmpty_eq_false_iff, startsWith_iff] at h
    obtain ⟨hne, ⟨rest, hrest⟩ | ⟨rest, hrest⟩⟩ := h
    · refine ⟨_, rest, hne, fun c => List.mem_takeWhile_imp, .inl ?_⟩
      rw [← List.singleton_append, hrest, List.takeWhile_append_dropWhile]
    · refine ⟨_, rest, hne, fun c => List.mem_takeWhile_imp, .inr ?_⟩
      change cs = _ ++ ([':', ':'] ++ rest)
      rw [hrest, List.takeWhile_append_dropWhile]
  · rintro ⟨word, rest, hne, hword, rfl | rfl⟩
    · have hhead : ∀ c, ('(' :: rest).head? = some c → isPlainWord c = false := by
        rintro c ⟨⟩
        rfl
      obtain ⟨htake, hdrop⟩ := takeWhile_append_head hword hhead
      simp [startsCall, htake, hdrop, hne, startsWith, dropStart?]
    · have hhead : ∀ c, (':' :: ':' :: rest).head? = some c → isPlainWord c = false := by
        rintro c ⟨⟩
        rfl
      obtain ⟨htake, hdrop⟩ := takeWhile_append_head hword hhead
      simp [startsCall, htake, hdrop, hne, startsWith, dropStart?]

theorem not_special_of_isPlainWord (hc : isPlainWord c = true) :
    c ≠ '$' ∧ ¬(c = '\x27' ∨ c = '\x22') := by
  refine ⟨?_, ?_⟩
  · rintro rfl
    cases hc
  · rintro (rfl | rfl) <;> cases hc

/-- The test of a text that starts neither with a variable nor with a quote. -/
theorem looksLikeExpression_other (hvariable : c ≠ '$') (hquote : ¬(c = '\x27' ∨ c = '\x22'))
    (cs : List Char) : looksLikeExpression (c :: cs) =
      (startsConstant (c :: cs) || isAsciiDigit c || startsCall (c :: cs)) := by
  unfold looksLikeExpression
  split
  next heq => cases heq
  next heq =>
    cases heq
    exact absurd rfl hvariable
  next heq =>
    cases heq
    rw [if_neg hquote]

theorem looksLikeExpression_of_isPlainWord (hc : isPlainWord c = true) (cs : List Char) :
    looksLikeExpression (c :: cs) =
      (startsConstant (c :: cs) || isAsciiDigit c || startsCall (c :: cs)) :=
  looksLikeExpression_other (not_special_of_isPlainWord hc).1 (not_special_of_isPlainWord hc).2 cs

theorem isPlainWord_of_isAsciiDigit (hc : isAsciiDigit c = true) : isPlainWord c = true := by
  simp [isPlainWord, isAsciiAlnum, hc]

/-- A text looks like an expression by its first signs. -/
theorem looksLikeExpression_iff : looksLikeExpression cs = true ↔ LooksLike cs := by
  constructor
  · intro h
    unfold looksLikeExpression at h
    split at h
    next => cases h
    next cs =>
      cases cs with
      | nil => cases h
      | cons c cs => exact .var (by simpa using h)
    next c cs _ =>
      split at h
      next hq =>
        obtain ⟨text, rest, rfl⟩ := List.append_of_mem (List.contains_iff_mem.mp h)
        exact .quoted hq
      next =>
        simp only [Bool.or_eq_true] at h
        rcases h with (h | h) | h
        · obtain ⟨c, rest, hc, heq⟩ := startsConstant_iff.mp h
          exact heq ▸ .token hc
        · exact .numeral h
        · obtain ⟨word, rest, hne, hword, heq | heq⟩ := startsCall_iff.mp h
          · exact heq ▸ .call hne hword
          · exact heq ▸ .qualified hne hword
  · intro h
    cases h with
    | var hc => simpa [looksLikeExpression] using hc
    | @token c cs hc =>
      have hstart : startsConstant ('_' :: '_' :: c :: cs) = true :=
        startsConstant_iff.mpr ⟨c, cs, hc, rfl⟩
      rw [looksLikeExpression_of_isPlainWord rfl, hstart]
      rfl
    | numeral hc =>
      rw [looksLikeExpression_of_isPlainWord (isPlainWord_of_isAsciiDigit hc), hc, Bool.or_true,
        Bool.true_or]
    | quoted hq =>
      rcases hq with rfl | rfl <;> simp [looksLikeExpression]
    | @call word cs hne hword =>
      obtain ⟨c, word, rfl⟩ := List.exists_cons_of_ne_nil hne
      have hcall : startsCall (c :: word ++ '(' :: cs) = true :=
        startsCall_iff.mpr ⟨c :: word, cs, hne, hword, .inl rfl⟩
      rw [List.cons_append] at hcall ⊢
      rw [looksLikeExpression_of_isPlainWord (hword c List.mem_cons_self), hcall, Bool.or_true]
    | @qualified word cs hne hword =>
      obtain ⟨c, word, rfl⟩ := List.exists_cons_of_ne_nil hne
      have hcall : startsCall (c :: word ++ ':' :: ':' :: cs) = true :=
        startsCall_iff.mpr ⟨c :: word, cs, hne, hword, .inr rfl⟩
      rw [List.cons_append] at hcall ⊢
      rw [looksLikeExpression_of_isPlainWord (hword c List.mem_cons_self), hcall, Bool.or_true]

/-! ### What stands behind the brace -/

/-- A text that starts with a quote and does not close it. -/
def OpensQuote (code : List Char) : Prop :=
  ∃ q text, (q = '\x27' ∨ q = '\x22') ∧ code = q :: text ∧ q ∉ text

instance : DecidablePred OpensQuote
  | [] => .isFalse fun ⟨_, _, _, heq, _⟩ => by cases heq
  | q :: text =>
    decidable_of_iff ((q = '\x27' ∨ q = '\x22') ∧ q ∉ text)
      ⟨fun ⟨hq, htext⟩ => ⟨q, text, hq, rfl, htext⟩,
        fun ⟨_, _, hq, heq, htext⟩ => by cases heq; exact ⟨hq, htext⟩⟩

theorem startsConstant_append (code rest : List Char) :
    startsConstant (code ++ '\x7d' :: rest) = startsConstant code := by
  match code with
  | [] => rfl
  | [a] => simp [startsConstant]
  | [a, b] =>
    have hbrace : ¬('A' ≤ '\x7d' ∧ '\x7d' ≤ 'Z') := by decide
    rw [Bool.eq_iff_iff, startsConstant_iff, startsConstant_iff]
    constructor
    · rintro ⟨c, rest', hc, heq⟩
      simp only [List.cons_append, List.nil_append, List.cons.injEq] at heq
      exact absurd (heq.2.2.1 ▸ hc) hbrace
    · rintro ⟨c, rest', -, heq⟩
      simp at heq
  | a :: b :: c :: code =>
    rw [Bool.eq_iff_iff, startsConstant_iff, startsConstant_iff]
    simp

theorem startsCall_append (code rest : List Char) :
    startsCall (code ++ '\x7d' :: rest) = startsCall code := by
  have hword : ∀ c ∈ code.takeWhile isPlainWord, isPlainWord c = true :=
    fun c => List.mem_takeWhile_imp
  have hhead : ∀ c, (code.dropWhile isPlainWord ++ '\x7d' :: rest).head? = some c →
      isPlainWord c = false := by
    have hnot := List.head?_dropWhile_not isPlainWord code
    cases hdrop : code.dropWhile isPlainWord with
    | nil =>
      rintro c ⟨⟩
      rfl
    | cons x tail =>
      rw [hdrop] at hnot
      rintro c ⟨⟩
      simpa using hnot
  have hsplit := takeWhile_append_head hword hhead
  rw [← List.append_assoc, List.takeWhile_append_dropWhile] at hsplit
  rw [startsCall, startsCall, hsplit.1, hsplit.2]
  -- the signs of a call do not reach the brace
  have hnil : ∀ cs, startsWith [] cs = true := fun _ => rfl
  have hcons : ∀ x p, startsWith (x :: p) [] = false := fun _ _ => rfl
  match code.dropWhile isPlainWord with
  | [] => rfl
  | [a] => simp [startsWith_cons, hnil, hcons]
  | a :: b :: tail => simp [startsWith_cons, hnil]

theorem looksLikeExpression_quote (hq : q = '\x27' ∨ q = '\x22') :
    looksLikeExpression (q :: cs) = true ↔ q ∈ cs := by
  rcases hq with rfl | rfl <;> simp [looksLikeExpression]

theorem opensQuote_cons : OpensQuote (q :: cs) ↔ (q = '\x27' ∨ q = '\x22') ∧ q ∉ cs := by
  constructor
  · rintro ⟨_, _, hq, heq, hcs⟩
    cases heq
    exact ⟨hq, hcs⟩
  · rintro ⟨hq, hcs⟩
    exact ⟨q, cs, hq, rfl, hcs⟩

/-- **Of what stands behind the brace, only a quote counts**, and only for content that opens
one. -/
theorem looksLikeExpression_append_iff :
    looksLikeExpression (code ++ '\x7d' :: rest) = true ↔
      LooksLike code ∨ (OpensQuote code ∧ ∃ q ∈ code.head?, q ∈ rest) := by
  rw [← looksLikeExpression_iff]
  cases code with
  | nil =>
    have hopens : ¬ OpensQuote [] := by decide
    have hbrace : looksLikeExpression ([] ++ '\x7d' :: rest) = false := by
      have hconstant := startsConstant_append [] rest
      have hcall := startsCall_append [] rest
      rw [List.nil_append] at hconstant hcall ⊢
      rw [looksLikeExpression_other (by decide) (by decide), hconstant, hcall]
      rfl
    rw [hbrace]
    simp [hopens, looksLikeExpression]
  | cons c code =>
    by_cases hq : c = '\x27' ∨ c = '\x22'
    · have hbrace : c ≠ '\x7d' := by rcases hq with rfl | rfl <;> decide
      rw [List.cons_append, looksLikeExpression_quote hq, looksLikeExpression_quote hq,
        opensQuote_cons]
      by_cases hmem : c ∈ code
      · simp [hmem]
      · simp [hmem, hq, hbrace]
    · rw [opensQuote_cons]
      by_cases hvariable : c = '$'
      · subst hvariable
        cases code with
        | nil => simp [looksLikeExpression, isPlainWord, isAsciiAlnum, isAsciiLetter, isAsciiDigit]
        | cons d code => simp [looksLikeExpression]
      · have hconstant := startsConstant_append (c :: code) rest
        have hcall := startsCall_append (c :: code) rest
        rw [List.cons_append] at hconstant hcall ⊢
        rw [looksLikeExpression_other hvariable hq, looksLikeExpression_other hvariable hq,
          hconstant, hcall]
        simp [hq]

end Looks

/-! ### Scanning a source alone -/

instance : DecidablePred LooksLike := fun _ => decidable_of_iff _ looksLikeExpression_iff

section Alone

variable {cs before code rest source : List Char} {d : Directive} {f : Found Directive} {n : Nat}

theorem LooksLike.not_opensQuote (h : LooksLike code) : ¬ OpensQuote code := by
  rintro ⟨q, text, hq, rfl, htext⟩
  rw [← looksLikeExpression_iff, looksLikeExpression_quote hq] at h
  exact htext h

/-- An expression passes when it looks like one by itself, or when it opens a quote that the rest
of the line closes. -/
theorem passes_echo : (Directive.echo code).Passes rest ↔
    LooksLike code ∨ (OpensQuote code ∧ ∃ q ∈ code.head?, q ∈ firstLine rest) :=
  looksLikeExpression_append_iff

theorem constructAt_directive : constructAt cs = some (.directive d, n) ↔
    islandAt cs = none ∧ directiveAt cs = some (d, n) := by
  rw [constructAt]
  cases islandAt cs with
  | some found => simp
  | none => simp

theorem islandAt_append_eq_none (h : islandAt (source ++ rest) = none) : islandAt source = none := by
  rw [islandAt, Option.map_eq_none_iff] at h ⊢
  cases hopen : dropStart? openTag source with
  | none => rfl
  | some tail =>
    rw [dropStart?_eq_some_iff.mp hopen, List.append_assoc, dropStart?_append] at h
    cases h

/-- A source alone is one directive exactly when that is what stands at its start. -/
theorem scanDirectives_eq_singleton (hne : source ≠ []) :
    scanDirectives source = [⟨0, d, source⟩] ↔
      constructAt source = some (.directive d, source.length) := by
  constructor
  · intro hscan
    have hmem : (⟨0, d, source⟩ : Found Directive) ∈ scanDirectives source := by
      rw [hscan]
      exact List.mem_cons_self
    obtain ⟨before, after, hstands, hmatch⟩ :=
      standsIn_of_mem_findPlaces (mem_scanDirectives.mp hmem)
    -- the source fills the text
    have hlength := congrArg List.length hstands.text
    simp only [List.length_append] at hlength
    obtain rfl : after = [] := List.length_eq_zero_iff.mp (by omega)
    rwa [List.append_nil] at hmatch
  · intro hmatch
    have hcut : cut constructAt source = [.found (.directive d) source] := by
      rw [← List.append_nil source] at hmatch
      have hfound := cutFrom_found hne (by rwa [List.append_nil source] at hmatch ⊢)
      rwa [List.append_nil] at hfound
    rw [scanDirectives, findPlaces, hcut]
    rfl

/-- A directive of a text is found there with what follows it. -/
theorem passes_of_mem_scanDirectives (hf : f ∈ scanDirectives cs) :
    ∃ before after, f.StandsIn cs before after ∧ islandAt (f.source ++ after) = none ∧
      f.value.Shape f.source ∧ f.value.Passes after := by
  obtain ⟨before, after, hstands, hmatch⟩ :=
    standsIn_of_mem_findPlaces (mem_scanDirectives.mp hf)
  obtain ⟨hisland, hdirective⟩ := constructAt_directive.mp hmatch
  obtain ⟨source, rest, happend, hlength, hshape, hpasses⟩ := directiveAt_iff.mp hdirective
  obtain ⟨rfl, rfl⟩ := List.append_inj happend hlength
  exact ⟨before, after, ⟨hstands.text, hstands.offset⟩, hisland, hshape, hpasses⟩

/-- A directive is found alone when it passes with nothing behind it. -/
theorem scan_source_iff_passes (hf : f ∈ scanDirectives cs) :
    scanDirectives f.source = [⟨0, f.value, f.source⟩] ↔ f.value.Passes [] := by
  obtain ⟨before, after, -, hisland, hshape, -⟩ := passes_of_mem_scanDirectives hf
  rw [scanDirectives_eq_singleton hshape.ne_nil, constructAt_directive]
  constructor
  · rintro ⟨-, hdirective⟩
    obtain ⟨source, rest, happend, hlength, -, hpasses⟩ := directiveAt_iff.mp hdirective
    have hrest := congrArg List.length happend
    rw [List.length_append] at hrest
    obtain rfl : rest = [] := List.length_eq_zero_iff.mp (by omega)
    exact hpasses
  · intro hpasses
    have halone := hshape.directiveAt hpasses
    rw [List.append_nil] at halone
    exact ⟨islandAt_append_eq_none hisland, halone⟩

/-- No directive and no island of the text reaches over the place. -/
def Reached (cs : List Char) (place : Nat) : Prop :=
  (∀ f ∈ scanDirectives cs, place ≤ f.offset ∨ f.stop ≤ place) ∧
    ∀ i ∈ scanIslands cs, place ≤ i.offset ∨ i.stop ≤ place

theorem eq_of_byteSize_eq {a b x y : List Char} (happend : a ++ x = b ++ y)
    (hsize : byteSize a = byteSize b) : a = b ∧ x = y := by
  have hnil : ∀ mid : List Char, byteSize mid = 0 → mid = [] := by
    intro mid hmid
    by_contra hne
    exact (byteSize_pos hne).ne' hmid
  rcases List.append_eq_append_iff.mp happend with ⟨mid, rfl, rfl⟩ | ⟨mid, rfl, rfl⟩
  · rw [byteSize_append] at hsize
    obtain rfl := hnil mid (by omega)
    exact ⟨(List.append_nil a).symm, rfl⟩
  · rw [byteSize_append] at hsize
    obtain rfl := hnil mid (by omega)
    exact ⟨List.append_nil b, rfl⟩

/-- Braces that a scan comes to are an expression when their content passes. -/
theorem mem_scanDirectives_braces (hcs : cs = before ++ '\x7b' :: (code ++ '\x7d' :: rest))
    (hline : '\n' ∉ code) (hclose : '\x7d' ∉ code) (hat : code.head? ≠ some '@')
    (hreached : Reached cs (byteSize before)) :
    (⟨byteSize before, .echo code, '\x7b' :: (code ++ ['\x7d'])⟩ : Found Directive) ∈
        scanDirectives cs ↔ code ≠ [] ∧ (Directive.echo code).Passes rest := by
  have hbraces : '\x7b' :: (code ++ '\x7d' :: rest) = '\x7b' :: (code ++ ['\x7d']) ++ rest := by
    simp
  rw [hbraces] at hcs
  constructor
  · intro hmem
    obtain ⟨before', after, hstands, -, hshape, hpasses⟩ := passes_of_mem_scanDirectives hmem
    obtain ⟨-, hafter⟩ := eq_of_byteSize_eq (hcs.symm.trans hstands.text) hstands.offset
    obtain rfl := List.append_cancel_left hafter
    cases hshape with
    | echo hne => exact ⟨hne, hpasses⟩
  · rintro ⟨hne, hpasses⟩
    have hmatch : constructAt ('\x7b' :: (code ++ ['\x7d']) ++ rest) =
        some (.directive (.echo code), ('\x7b' :: (code ++ ['\x7d'])).length) :=
      constructAt_directive.mpr
        ⟨rfl, (Directive.Shape.echo hne hline hclose hat).directiveAt hpasses⟩
    have hplace := (cuts_cut constructAt_takesStarts cs).exists_found_or_none 0 hcs
      (List.cons_ne_nil _ _)
    obtain hnone | ⟨⟨offset, value, found⟩, hf, inner, tail, rfl, htail, hprefix, hoffset, hstart⟩ :=
      hplace
    · rw [hmatch] at hnone
      cases hnone
    · replace hoffset : offset + byteSize inner = byteSize before := by simpa using hoffset
      by_cases hinner : inner = []
      · -- the match starts at the brace, so it is the one found there
        subst hinner
        have hsome := hmatch.symm.trans (hstart rfl)
        simp only [List.nil_append, Option.some.injEq, Prod.mk.injEq] at hsome
        obtain ⟨rfl, hlength⟩ := hsome
        obtain ⟨after, hafter⟩ := hprefix
        obtain ⟨rfl, -⟩ := List.append_inj hafter hlength.symm
        obtain rfl : offset = byteSize before := by simpa using hoffset
        exact mem_scanDirectives.mpr hf
      · -- a match that starts before the brace reaches over it
        exfalso
        have hsize := byteSize_pos hinner
        have htail := byteSize_pos htail
        have hover : offset < byteSize before ∧
            byteSize before < offset + byteSize (inner ++ tail) := by
          rw [byteSize_append]
          omega
        cases value with
        | island =>
          have hapart := hreached.2 ⟨offset, (), inner ++ tail⟩ (mem_scanIslands.mpr hf)
          unfold Text.Found.stop at hapart
          dsimp only at hapart
          omega
        | directive d =>
          have hapart := hreached.1 ⟨offset, d, inner ++ tail⟩ (mem_scanDirectives.mpr hf)
          unfold Text.Found.stop at hapart
          dsimp only at hapart
          omega

end Alone

/-- **A directive is found alone, unless its content opens a quote.**  The source of a directive,
scanned by itself, is that directive and nothing else; only the content of an expression that opens
a quote and does not close it is no expression by itself.  Apart from such contents, braces that a
scan comes to are an expression exactly when what stands between them looks like one, whatever
follows on the line. -/
theorem scan_source_alone (cs : List Char) :
    (∀ f ∈ scanDirectives cs, scanDirectives f.source = [⟨0, f.value, f.source⟩] ↔
      ∀ code, f.value = .echo code → ¬ OpensQuote code) ∧
    ∀ before code rest, cs = before ++ '\x7b' :: (code ++ '\x7d' :: rest) → '\n' ∉ code →
      '\x7d' ∉ code → code.head? ≠ some '@' → ¬ OpensQuote code → Reached cs (byteSize before) →
      ((⟨byteSize before, .echo code, '\x7b' :: (code ++ ['\x7d'])⟩ : Found Directive) ∈
        scanDirectives cs ↔ code ≠ [] ∧ LooksLike code) := by
  constructor
  · intro f hf
    rw [scan_source_iff_passes hf]
    obtain ⟨-, after, -, -, -, hpasses⟩ := passes_of_mem_scanDirectives hf
    cases hvalue : f.value with
    | echo code =>
      rw [hvalue, passes_echo] at hpasses
      have hnothing : ¬∃ q ∈ code.head?, q ∈ firstLine [] := by simp [firstLine]
      simp only [passes_echo, hnothing, and_false, or_false, Directive.echo.injEq, forall_eq']
      constructor
      · exact LooksLike.not_opensQuote
      · intro hopens
        exact hpasses.resolve_right fun hquote => hopens hquote.1
    | raw code => simp [Directive.Passes]
    | resource verb argument attributes => simp [Directive.Passes]
    | control keyword args => simp [Directive.Passes]
  · intro before code rest hcs hline hclose hat hopens hreached
    rw [mem_scanDirectives_braces hcs hline hclose hat hreached, passes_echo]
    simp [hopens]

/-- Braces of a script, a literal in braces and a control comment. -/
def literalText : List Char :=
  "f() \x7b \x27\x7d \x7b\x27a\x27\x7d it\x27s <!--@end-->".toList

/-- The directives of the text are found alone, and the literal is an expression as it looks like
one. -/
theorem scan_source_alone_literal :
    (scanDirectives literalText).map (fun f => (f.offset, f.value)) =
      [(9, .echo "\x27a\x27".toList), (20, .control "end".toList [])] ∧
    (∀ f ∈ scanDirectives literalText, scanDirectives f.source = [⟨0, f.value, f.source⟩]) ∧
    ((⟨9, .echo "\x27a\x27".toList, "\x7b\x27a\x27\x7d".toList⟩ : Found Directive) ∈
      scanDirectives literalText) := by
  have hfound : (scanDirectives literalText).map (fun f => (f.offset, f.value)) =
      [(9, .echo "\x27a\x27".toList), (20, .control "end".toList [])] := by decide +kernel
  obtain ⟨halone, hbraces⟩ := scan_source_alone literalText
  refine ⟨hfound, fun f hf => (halone f hf).mpr ?_, ?_⟩
  · have hopens : ∀ d ∈ (scanDirectives literalText).map Found.value,
        d = .echo "\x27a\x27".toList ∨ d = .control "end".toList [] := by decide +kernel
    intro code hcode
    rcases hopens _ (List.mem_map_of_mem hf) with hvalue | hvalue
    · obtain rfl : code = "\x27a\x27".toList := by
        rw [hcode] at hvalue
        cases hvalue
        rfl
      decide
    · rw [hcode] at hvalue
      cases hvalue
  · refine (hbraces (literalText.take 9) "\x27a\x27".toList (literalText.drop 14)
      (by decide +kernel) (by decide) (by decide) (by decide) (by decide) ?_).mpr
        ⟨by decide, by decide⟩
    unfold Reached
    decide +kernel

/-- Braces whose content opens a quote, before an apostrophe. -/
def apostropheText : List Char := "\x7b\x27a\x7d it\x27s".toList

/-- **Content that opens a quote is taken for an expression when a quote follows on the line**; by
itself, it neither looks like one nor is found as one. -/
theorem apostrophe_taken_for_literal :
    (scanDirectives apostropheText).map (fun f => (f.value, f.source)) =
      [(.echo "\x27a".toList, "\x7b\x27a\x7d".toList)] ∧
    (scanDirectives "\x7b\x27a\x7d".toList).map (fun f => (f.value, f.source)) = [] ∧
    ¬ LooksLike "\x27a".toList := by
  decide +kernel

end Stencil
