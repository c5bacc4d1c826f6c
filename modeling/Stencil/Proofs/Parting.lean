import Mathlib.Data.List.Induction
import Stencil.Proofs.Fragment
import Stencil.Proofs.Insertion
import Stencil.Proofs.Parsing.Payloads

/-!
# Code in parts

Code that is cut at a character and put together again with other blanks around it has the same
tokens when no token goes on over the cut.  Signs are the tokens to look at: the characters on both
sides of a cut may be one sign.  A cut inside of a string literal changes what the literal holds,
and it still is one literal.

## Main definitions

* `Parted code rest` — no sign goes on from the code into the rest.
* `InLiteral` — what stands in a string literal up to some place.
* `spaced` — code with other blanks around an equals sign.

## Main results

* `Reads.split_of_parted`, `Steps.readsFirst_of_parted` — code in front of a cut.
* `outside_or_inLiteral` — every place stands outside of literals or inside of one.
* `spellsAnywhere_literal` — a literal is one token.
* `exists_spells_spaced` — what blanks around an equals sign do to the tokens.
-/

namespace Stencil

open Text Lexer

variable {c d quote : Char} {a b code rest tail cs content : List Char} {ts us vs : List Token}
  {s : Step}

namespace Lexer

/-! ### Signs -/

/-- The characters that stand side by side in a sign. -/
def signPairs : List (Char × Char) := signs.flatMap fun x => x.1.zip x.1.tail

/-- No sign goes on from the code into the rest. -/
def Parted (code rest : List Char) : Prop :=
  ∀ c d, code.getLast? = some c → rest.head? = some d → (c, d) ∉ signPairs

theorem Parted.of_suffix (h : Parted code rest) (ha : c :: a <:+ code) : Parted (c :: a) rest := by
  intro x d hx hd
  obtain ⟨b, rfl⟩ := ha
  refine h x d ?_ hd
  rw [List.getLast?_append, hx, Option.some_or]

theorem mem_zip_tail (a b : List Char) (c d : Char) :
    (c, d) ∈ (a ++ c :: d :: b).zip (a ++ c :: d :: b).tail := by
  induction a with
  | nil => exact List.mem_cons_self
  | cons x a ih =>
    cases a with
    | nil => exact List.mem_cons_of_mem _ ih
    | cons y a => exact List.mem_cons_of_mem _ ih

/-- A spelling that starts with the code ends in it. -/
theorem startsWith_append_of_parted {x : List Char × Sign} (hx : x ∈ signs)
    (h : Parted (c :: a) rest) : startsWith x.1 (c :: a ++ rest) = startsWith x.1 (c :: a) := by
  rw [Bool.eq_iff_iff, startsWith_iff, startsWith_iff]
  constructor
  · intro hprefix
    rcases List.prefix_or_prefix_of_prefix hprefix (List.prefix_append (c :: a) rest) with hp | hp
    · exact hp
    · obtain ⟨r, hr⟩ := hp
      rw [← hr, List.prefix_append_right_inj] at hprefix
      cases r with
      | nil =>
        rw [List.append_nil] at hr
        exact hr ▸ List.prefix_rfl
      | cons d r =>
        -- the sign would have the characters on both sides of the cut
        obtain ⟨rest, rfl⟩ := hprefix
        obtain ⟨b, y, hb⟩ : ∃ b y, c :: a = b ++ [y] :=
          ⟨_, _, (List.dropLast_append_getLast (List.cons_ne_nil c a)).symm⟩
        refine absurd ?_ (h y d (by rw [hb, List.getLast?_concat]) rfl)
        refine List.mem_flatMap.mpr ⟨x, hx, ?_⟩
        rw [← hr, hb, List.append_assoc]
        exact mem_zip_tail b r y d
  · intro hprefix
    exact hprefix.trans (List.prefix_append _ _)

theorem signStep_append_of_parted (h : Parted (c :: a) rest) :
    signStep c (a ++ rest) = signStep c a := by
  have hfind : signs.find? (fun x => startsWith x.1 (c :: (a ++ rest))) =
      signs.find? (fun x => startsWith x.1 (c :: a)) :=
    List.find?_congr fun x hx => startsWith_append_of_parted hx h
  rw [signStep, signStep, hfind]

end Lexer

/-! ### Literals -/

/-- The content of a literal is read up to its closing quote, whatever follows. -/
theorem LiteralContent.readQuoted (h : LiteralContent quote content) (hquote : quote ≠ '\\') :
    ∃ text, ∀ rest,
      readQuoted quote (content ++ quote :: rest) = some (text, content.length + 1) := by
  induction h with
  | nil =>
    refine ⟨[], fun rest => ?_⟩
    cases rest <;> simp [Stencil.readQuoted]
  | @plain content c hc hslash _ ih =>
    obtain ⟨text, htext⟩ := ih
    refine ⟨c :: text, fun rest => ?_⟩
    obtain ⟨d, ds, hds⟩ : ∃ d ds, content ++ quote :: rest = d :: ds :=
      List.exists_cons_of_ne_nil (by simp)
    have hrest := htext rest
    rw [hds] at hrest
    rw [List.cons_append, hds, Stencil.readQuoted, if_neg hc, if_neg hslash, hrest]
    rfl
  | @escape content c _ ih =>
    obtain ⟨text, htext⟩ := ih
    refine ⟨unescape quote c ++ text, fun rest => ?_⟩
    rw [List.cons_append, List.cons_append, Stencil.readQuoted, if_neg hquote.symm, if_pos rfl,
      htext rest]
    rfl

/-- A literal that ends somewhere is read. -/
theorem exists_readQuoted (hquote : isBare quote = false)
    (h : (quote :: cs).foldl Quoting.next .code = .code) : ∃ x, readQuoted quote cs = some x := by
  rw [List.foldl_cons, next_code_of_quote hquote] at h
  obtain ⟨content, rest, rfl, hcontent, -⟩ := exists_literalContent cs h
  obtain ⟨text, htext⟩ := hcontent.readQuoted (ne_slash_of_quote hquote)
  exact ⟨_, htext rest⟩

/-- What stands in a string literal up to some place: whole characters and escapes, or a backslash
that escapes what comes next. -/
def InLiteral (quote : Char) (cs : List Char) : Prop :=
  LiteralContent quote cs ∨ ∃ content, cs = content ++ ['\\'] ∧ LiteralContent quote content

theorem LiteralContent.append (h : LiteralContent quote a) (h' : LiteralContent quote b) :
    LiteralContent quote (a ++ b) := by
  induction h with
  | nil => exact h'
  | plain c hc hslash _ ih => exact ih.plain c hc hslash
  | escape c _ ih => exact ih.escape c

/-- Content goes on with a character that neither ends nor escapes. -/
theorem InLiteral.append (h : InLiteral quote a) (hc : c ≠ quote) (hslash : c ≠ '\\')
    (hb : LiteralContent quote b) : LiteralContent quote (a ++ c :: b) := by
  rcases h with h | ⟨content, rfl, h⟩
  · exact h.append (hb.plain c hc hslash)
  · rw [List.append_assoc]
    exact h.append (hb.escape c)

theorem InLiteral.cons (hc : c ≠ quote) (hslash : c ≠ '\\') (h : InLiteral quote a) :
    InLiteral quote (c :: a) := by
  rcases h with h | ⟨content, rfl, h⟩
  · exact .inl (h.plain c hc hslash)
  · exact .inr ⟨c :: content, rfl, h.plain c hc hslash⟩

theorem InLiteral.escape (c : Char) (h : InLiteral quote a) : InLiteral quote ('\\' :: c :: a) := by
  rcases h with h | ⟨content, rfl, h⟩
  · exact .inl (h.escape c)
  · exact .inr ⟨'\\' :: c :: content, rfl, h.escape c⟩

/-- What stands at the start of a content stands in the literal. -/
theorem LiteralContent.inLiteral (h : LiteralContent quote cs) (ha : a <+: cs) :
    InLiteral quote a := by
  induction h generalizing a with
  | nil =>
    rw [List.prefix_nil.mp ha]
    exact .inl .nil
  | plain c hc hslash _ ih =>
    cases a with
    | nil => exact .inl .nil
    | cons x a =>
      obtain ⟨rfl, htail⟩ := List.cons_prefix_cons.mp ha
      exact (ih htail).cons hc hslash
  | escape c _ ih =>
    rcases a with _ | ⟨x, _ | ⟨y, a⟩⟩
    · exact .inl .nil
    · obtain ⟨hx, -⟩ := List.cons_prefix_cons.mp ha
      exact .inr ⟨[], by rw [hx, List.nil_append], .nil⟩
    · obtain ⟨hx, ha⟩ := List.cons_prefix_cons.mp ha
      obtain ⟨rfl, htail⟩ := List.cons_prefix_cons.mp ha
      rw [hx]
      exact (ih htail).escape y

theorem InLiteral.of_prefix (h : InLiteral quote cs) (ha : a <+: cs) : InLiteral quote a := by
  rcases h with h | ⟨content, rfl, h⟩
  · exact h.inLiteral ha
  · rcases List.prefix_concat_iff.mp ha with rfl | ha
    · exact .inr ⟨content, rfl, h⟩
    · exact h.inLiteral ha

/-- **Every place stands outside of literals or inside of one.** -/
theorem outside_or_inLiteral (cs : List Char) : Outside cs ∨
    ∃ a quote b, cs = a ++ quote :: b ∧ Outside a ∧ isBare quote = false ∧ InLiteral quote b := by
  induction cs using List.reverseRecOn with
  | nil => exact .inl .nil
  | append_singleton cs c ih =>
    rcases ih with h | ⟨a, quote, b, rfl, ha, hquote, hb⟩
    · cases hc : isBare c with
      | true =>
        refine .inl (outside_iff.mpr ?_)
        rw [List.foldl_append, outside_iff.mp h, List.foldl_cons, next_code_of_isBare hc]
        rfl
      | false => exact .inr ⟨cs, c, [], rfl, h, hc, .inl .nil⟩
    · rw [List.append_assoc, List.cons_append]
      rcases hb with hb | ⟨content, rfl, hb⟩
      · by_cases hc : c = quote
        · subst hc
          left
          refine outside_iff.mpr ?_
          rw [List.foldl_append, outside_iff.mp ha]
          exact (Outside.nil.literal c hquote hb).foldl_next
        right
        refine ⟨a, quote, b ++ [c], rfl, ha, hquote, ?_⟩
        by_cases hslash : c = '\\'
        · exact .inr ⟨b, by rw [hslash], hb⟩
        · exact .inl (hb.append (LiteralContent.nil.plain c hc hslash))
      · right
        refine ⟨a, quote, _, rfl, ha, hquote, .inl ?_⟩
        rw [List.append_assoc]
        exact hb.append (LiteralContent.nil.escape c)

/-- Blanks at the start of a content escape nothing. -/
theorem LiteralContent.trimLeft (h : LiteralContent quote cs) :
    LiteralContent quote (trimLeft cs) := by
  induction h with
  | nil => exact .nil
  | @plain cs c hc hslash h ih =>
    cases hblank : isBlank c with
    | true => simpa [Text.trimLeft, hblank] using ih
    | false => simpa [Text.trimLeft, hblank] using h.plain c hc hslash
  | escape c h ih => exact h.escape c

theorem InLiteral.trimRight (h : InLiteral quote cs) : InLiteral quote (trimRight cs) := by
  obtain ⟨b, hcs, -⟩ := trimRight_append cs
  exact h.of_prefix ⟨b, hcs⟩

namespace Lexer

/-! ### Steps -/

/-- No sign has a quote in it. -/
theorem parted_quote (h : isBare d = false) : Parted code (d :: rest) := by
  have hall : ∀ p ∈ signPairs, isBare p.2 = true := forall_mem_of_all (by decide)
  rintro c _ - ⟨⟩ hmem
  rw [hall _ hmem] at h
  cases h

theorem stops_quote (h : isBare d = false) : Stops (d :: rest) := by
  have hquote : d = '\x27' ∨ d = '\x22' := by simpa [isBare, imp_iff_not_or] using h
  rcases hquote with rfl | rfl
  · exact stops_cons (by decide) (by decide)
  · exact stops_cons (by decide) (by decide)

theorem codeStep_append_of_parted (hs : codeStep c a = .ok s) (hg : goesOn (c :: a) = true)
    (hr : Stops rest) (hp : Parted (c :: a) rest) : codeStep c (a ++ rest) = .ok s := by
  rw [codeStep_append_of_stops hg hr (signStep_append_of_parted hp), hs]
  intro hb
  obtain ⟨x, hx⟩ := readQuoted_of_codeStep hs hg hb
  rw [hx]
  exact readQuoted_append hx rest

theorem codeStep_of_parted (hs : codeStep c (a ++ rest) = .ok s) (hg : goesOn (c :: a) = true)
    (hr : Stops rest) (hp : Parted (c :: a) rest)
    (hout : (c :: a).foldl Quoting.next .code = .code) : codeStep c a = .ok s := by
  rwa [codeStep_append_of_stops hg hr (signStep_append_of_parted hp)] at hs
  intro hb
  obtain ⟨x, hx⟩ := exists_readQuoted hb hout
  rw [hx]
  exact readQuoted_append hx rest

/-- Steps are the same in front of a cut. -/
theorem Steps.readsFirst_of_parted (h : Steps code ts) (hr : Stops rest) (hp : Parted code rest) :
    ReadsFirst code ts rest :=
  h.readsFirst fun _ _ _ hb hg hs => codeStep_append_of_parted hs hg hr (hp.of_suffix hb)

/-- Code that ends outside of literals is read by steps of its own in front of a cut. -/
theorem Reads.split_of_parted (h : Reads .code (code ++ tail) vs) (ht : Stops tail)
    (hp : Parted code tail) (hc : uninterrupted .code code = true) (hout : Outside code) :
    ∃ ts us, vs = ts ++ us ∧ Reads .code tail us ∧ Steps code ts :=
  h.steps hc fun _ _ _ hb ho hg hs =>
    codeStep_of_parted hs hg ht (hp.of_suffix hb) (ho.trans (outside_iff.mp hout))

/-! ### An equals sign with blanks around it -/

/-- A literal is one token, whatever follows it. -/
theorem spellsAnywhere_literal (hquote : isBare quote = false) (h : LiteralContent quote content) :
    ∃ text, SpellsAnywhere (quote :: (content ++ [quote])) [.string text] := by
  obtain ⟨text, htext⟩ := h.readQuoted (ne_slash_of_quote hquote)
  refine ⟨String.ofList text, fun rest => ?_⟩
  have hs : step .code quote (content ++ [quote] ++ rest) = .ok
      { token := some (.string (String.ofList text)), width := 1 + (content.length + 1),
        mode := .code } := by
    have hor : quote = '\x27' ∨ quote = '\x22' := by simpa [isBare, imp_iff_not_or] using hquote
    have hread : readQuoted quote (content ++ [quote] ++ rest) =
        some (text, content.length + 1) := by
      simpa using htext rest
    rcases hor with rfl | rfl
    · rw [step, codeStep_of_goesOn (goesOn_of_notMem (by decide) _), hread]
      rfl
    · rw [step, codeStep_of_goesOn (goesOn_of_notMem (by decide) _), hread]
      rfl
  exact readsFirst_of_step hs rfl (by simp [Nat.add_comm])

/-- An equals sign that is no part of another sign. -/
theorem step_equals (h : rest.head? ≠ some '=' ∧ rest.head? ≠ some '>') :
    step .code '=' rest = .ok { token := some (.sign .assign), width := 1, mode := .code } := by
  have hfind : signs.find? (fun x => startsWith x.1 ('=' :: rest)) = some (['='], .assign) := by
    cases rest with
    | nil => rfl
    | cons d rest =>
      have hequals : '=' ≠ d := fun hd => h.1 (by rw [← hd, List.head?_cons])
      have hgreater : '>' ≠ d := fun hd => h.2 (by rw [← hd, List.head?_cons])
      simp [signs, hequals, hgreater, startsWith, dropStart?]
  rw [step, codeStep_of_goesOn (goesOn_of_notMem (by decide) _)]
  have hstep : signStep '=' rest =
      .ok { token := some (.sign .assign), width := 1, mode := .code } := by
    rw [signStep, hfind]
    rfl
  exact hstep

/-- The signs that end in an equals sign, by the character before it. -/
theorem parted_equals (h : code.getLast?.getD ' ' ∉ ['=', '!', '<', '>', '+', '-', '*', '/', '.']) :
    Parted code ('=' :: rest) := by
  have hall : ∀ p ∈ signPairs, p.2 = '=' → p.1 ∈ ['=', '!', '<', '>', '+', '-', '*', '/', '.'] :=
    forall_mem_of_all (by decide)
  rintro c _ hc ⟨⟩ hmem
  rw [hc, Option.getD_some] at h
  exact h (hall _ hmem rfl)

theorem trimLeft_append (hd : isBlank d = false) (a b : List Char) :
    Text.trimLeft (a ++ d :: b) = Text.trimLeft a ++ d :: b := by
  induction a with
  | nil => simp [Text.trimLeft, hd]
  | cons c a ih =>
    cases hc : isBlank c with
    | true => simpa [Text.trimLeft, hc] using ih
    | false => simp [Text.trimLeft, hc]

theorem trimRight_cons_append (hd : isBlank d = false) (a b : List Char) :
    Text.trimRight (a ++ d :: b) = a ++ d :: Text.trimRight b := by
  have h := trimLeft_append hd b.reverse a.reverse
  simp only [Text.trimLeft] at h
  simp [Text.trimRight, dropRightWhile, h]

theorem trim_append_cons (hd : isBlank d = false) (a b : List Char) :
    Text.trim (a ++ d :: b) = Text.trimLeft a ++ d :: Text.trimRight b := by
  rw [Text.trim, trimLeft_append hd, trimRight_cons_append hd]

/-- An equals sign between two texts, with one blank on both sides. -/
def spaced (t v : List Char) : List Char :=
  Text.trim t ++ ' ' :: ("=".toList ++ ' ' :: Text.trim v)

variable {t v : List Char}

/-- An equals sign outside of literals is an assignment, and the blanks do not count. -/
theorem exists_spells_of_outside (h : Reads .code (t ++ '=' :: v ++ (' ' :: closeTag)) us)
    (hc : uninterrupted .code (t ++ '=' :: v) = true) (ht : Outside t)
    (hbefore : t.getLast?.getD ' ' ∉ ['=', '!', '<', '>', '+', '-', '*', '/', '.'])
    (hbehind : v.head? ≠ some '=' ∧ v.head? ≠ some '>') :
    ∃ ts vs, us = ts ++ .sign .assign :: vs ++ [.terminator] ∧
      Spells (spaced t v) (ts ++ .sign .assign :: vs) := by
  have hct : uninterrupted .code t = true := uninterrupted_of_append hc
  have hcv : uninterrupted .code v = true := by
    rw [List.append_cons] at hc
    have hbehind := uninterrupted_behind hc
    rwa [List.foldl_append, outside_iff.mp ht] at hbehind
  rw [List.append_assoc, List.cons_append] at h
  obtain ⟨ts, us, rfl, hus, htarget⟩ :=
    h.split_of_parted (stops_cons (by decide) (by decide)) (parted_equals hbefore) hct ht
  have hhead : (v ++ (' ' :: closeTag)).head? ≠ some '=' ∧
      (v ++ (' ' :: closeTag)).head? ≠ some '>' := by
    cases v with
    | nil => exact ⟨by decide, by decide⟩
    | cons d v => exact hbehind
  have hequals : ReadsFirst ['='] [.sign .assign] (v ++ (' ' :: closeTag)) :=
    readsFirst_of_step (a := []) (step_equals hhead) rfl rfl
  obtain ⟨us', rfl, hus'⟩ := hequals.mp hus
  obtain ⟨vs, rfl, hvalue⟩ := hus'.split_closing hcv
  refine ⟨ts, vs, by simp, ?_⟩
  have hassign : Spells "=".toList [.sign .assign] := spells_of_step (c := '=') (a := []) rfl rfl
  have htarget' : Spells (Text.trim t) ts := (htarget.trim hct).firm.spells
  have hvalue' : Spells (Text.trim v) vs := (hvalue.trim hcv).firm.spells
  exact htarget'.append_blank (by decide) (hassign.append_blank (by decide) hvalue')

/-- A literal in which an equals sign stands goes on behind it and ends somewhere.  With blanks
around the equals sign it still is a literal. -/
theorem exists_literal_around_equals (hb : InLiteral quote b) (hquote : isBare quote = false)
    (ha : Outside a) (hout : Outside (a ++ quote :: b ++ '=' :: v)) :
    ∃ r w, v = r ++ quote :: w ∧ LiteralContent quote (b ++ '=' :: r) ∧
      LiteralContent quote (Text.trimRight b ++ ' ' :: '=' :: ' ' :: Text.trimLeft r) := by
  have hequals : '=' ≠ quote := by
    rintro rfl
    cases hquote
  have hspace : ' ' ≠ quote := by
    rintro rfl
    cases hquote
  have hv : v.foldl Quoting.next (.quoted quote) = .code := by
    have hstill := (hb.append hequals (by decide) .nil).foldl_next
    have hend := outside_iff.mp hout
    simp only [List.foldl_append, List.foldl_cons, List.foldl_nil] at hstill
    simpa only [List.foldl_append, List.foldl_cons, outside_iff.mp ha, next_code_of_quote hquote,
      hstill] using hend
  obtain ⟨r, w, rfl, hr, -⟩ := exists_literalContent v hv
  refine ⟨r, w, rfl, hb.append hequals (by decide) hr, ?_⟩
  apply hb.trimRight.append hspace (by decide)
  exact (hr.trimLeft.plain ' ' hspace (by decide)).plain '=' hequals (by decide)

/-- Code with a literal in it is read in three parts. -/
theorem Reads.split_around_literal (hquote : isBare quote = false)
    (h : Reads .code (a ++ (quote :: (content ++ [quote])) ++ b ++ (' ' :: closeTag)) us)
    (hc : uninterrupted .code (a ++ (quote :: (content ++ [quote])) ++ b) = true) (ha : Outside a)
    (hcontent : LiteralContent quote content) :
    ∃ ts text vs, us = ts ++ .string text :: vs ++ [.terminator] ∧ Steps a ts ∧ Steps b vs ∧
      uninterrupted .code b = true := by
  obtain ⟨text, htext⟩ := spellsAnywhere_literal hquote hcontent
  have hcb : uninterrupted .code b = true := by
    have hbehind := uninterrupted_behind hc
    rwa [List.foldl_append, outside_iff.mp ha,
      (Outside.nil.literal quote hquote hcontent).foldl_next] at hbehind
  rw [List.append_assoc] at hc
  rw [List.append_assoc, List.append_assoc] at h
  obtain ⟨ts, us₁, rfl, hus₁, hbegin⟩ := h.split_of_parted (stops_quote hquote)
    (parted_quote hquote) (uninterrupted_of_append hc) ha
  obtain ⟨us₂, rfl, hus₂⟩ := (htext _).mp hus₁
  obtain ⟨vs, rfl, hrest⟩ := hus₂.split_closing hcb
  exact ⟨ts, text, vs, by simp, hbegin, hrest, hcb⟩

/-- Three parts around a literal are put together. -/
theorem Steps.spells_around_literal (hquote : isBare quote = false) (h : Steps a ts)
    (hcontent : LiteralContent quote content) (hb : Steps b vs) :
    ∃ text, Spells (a ++ (quote :: (content ++ [quote]) ++ b)) (ts ++ .string text :: vs) := by
  obtain ⟨text, htext⟩ := spellsAnywhere_literal hquote hcontent
  refine ⟨text, ?_⟩
  intro rest us hapart hus
  have hliteral := htext.reads (hb.firm.spells hapart hus)
  have hfirst : ReadsFirst a ts (quote :: (content ++ [quote]) ++ (b ++ rest)) :=
    h.readsFirst_of_parted (stops_quote hquote) (parted_quote hquote)
  have hall := hfirst.mpr ⟨_, rfl, hliteral⟩
  simpa only [List.append_assoc, List.cons_append, List.nil_append] using hall

/-- An equals sign in a literal stays in it, and so do the blanks. -/
theorem exists_spells_of_inLiteral
    (h : Reads .code (a ++ quote :: b ++ '=' :: v ++ (' ' :: closeTag)) us)
    (hc : uninterrupted .code (a ++ quote :: b ++ '=' :: v) = true) (ha : Outside a)
    (hquote : isBare quote = false) (hb : InLiteral quote b)
    (hout : Outside (a ++ quote :: b ++ '=' :: v)) :
    ∃ ts text text' vs, us = ts ++ .string text :: vs ++ [.terminator] ∧
      Spells (spaced (a ++ quote :: b) v) (ts ++ .string text' :: vs) := by
  have hblank : isBlank quote = false := by
    rw [Bool.eq_false_iff]
    intro hblank
    rw [isBare_of_isBlank hblank] at hquote
    cases hquote
  obtain ⟨r, w, rfl, hcontent, hcontent'⟩ := exists_literal_around_equals hb hquote ha hout
  have hcode : a ++ quote :: b ++ '=' :: (r ++ quote :: w) =
      a ++ (quote :: (b ++ '=' :: r ++ [quote])) ++ w := by simp
  rw [hcode] at h hc
  obtain ⟨ts, text, vs, rfl, hbegin, hrest, hcw⟩ := h.split_around_literal hquote hc ha hcontent
  obtain ⟨text', hspell⟩ :=
    hbegin.trimLeft.spells_around_literal hquote hcontent' (hrest.trimRight hcw)
  refine ⟨ts, text, text', vs, rfl, ?_⟩
  have hspaced : spaced (a ++ quote :: b) (r ++ quote :: w) = Text.trimLeft a ++
      (quote :: (Text.trimRight b ++ ' ' :: '=' :: ' ' :: Text.trimLeft r ++ [quote]) ++
        Text.trimRight w) := by
    rw [spaced, trim_append_cons hblank, trim_append_cons hblank]
    simp
  rwa [hspaced]

/-- **An equals sign with blanks around it**: where it is no part of another sign, the tokens are
the same as before, except for what a literal around it holds. -/
theorem exists_spells_spaced (h : Reads .code (t ++ '=' :: v ++ (' ' :: closeTag)) us)
    (hc : uninterrupted .code (t ++ '=' :: v) = true)
    (hbefore : Outside t →
      t.getLast?.getD ' ' ∉ ['=', '!', '<', '>', '+', '-', '*', '/', '.'])
    (hbehind : v.head? ≠ some '=' ∧ v.head? ≠ some '>') :
    ∃ vs ws, us = vs ++ [.terminator] ∧ Spells (spaced t v) ws ∧
      vs.map Token.erased = ws.map Token.erased ∧ ∀ w, ws ≠ [.word w] := by
  rcases outside_or_inLiteral t with ht | ⟨a, quote, b, rfl, ha, hquote, hb⟩
  · obtain ⟨ts, vs, rfl, hspell⟩ := exists_spells_of_outside h hc ht (hbefore ht) hbehind
    refine ⟨_, _, rfl, hspell, rfl, fun w hw => ?_⟩
    have hmem : Token.sign .assign ∈ [Token.word w] := hw ▸ by simp
    simp at hmem
  · obtain ⟨_, -, hsteps⟩ := h.split_closing hc
    obtain ⟨ts, text, text', vs, rfl, hspell⟩ :=
      exists_spells_of_inLiteral h hc ha hquote hb (outside_iff.mpr hsteps.outside)
    refine ⟨_, _, rfl, hspell, ?_, fun w hw => ?_⟩
    · simp [Token.erased]
    · have hmem : Token.string text' ∈ [Token.word w] := hw ▸ by simp
      simp at hmem

end Lexer

end Stencil
