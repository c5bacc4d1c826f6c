import Stencil.Proofs.BoundTokens

/-!
# Where variables are bound

Binding is described here without its reader.  Code consists of characters and whole string
literals, and a place is outside of literals when the text in front of it consists of these.  The
way to the context is put in behind every dollar sign at such a place that starts the name of a
variable and is neither qualified nor escaped, and nothing else changes.  What is put in opens no
literal, qualifies nothing and starts no name, so that binding puts nothing into bound code.

## Main definitions

* `LiteralContent` — what stands between the quotes of a literal.
* `Outside` — a text that ends outside of its literals.
* `BoundAt` — a variable of the context is named behind a dollar sign.

## Main results

* `outside_iff` — a reader is outside of literals behind exactly these texts.
* `bindVars_bindVars` — binding twice is binding once.
* `bindVars_inserts` — **where the way to the context is put in**.
-/

namespace Stencil

open Text Lexer

variable {mode : Quoting} {before before' after content cs ds rest : List Char} {quote c : Char}

/-! ### Code outside of literals -/

/-- What stands between the quotes of a string literal: a backslash takes the next character with
it. -/
inductive LiteralContent (quote : Char) : List Char → Prop where
  /-- No character. -/
  | nil : LiteralContent quote []
  /-- A character that stands for itself. -/
  | plain {cs : List Char} (c : Char) (hquote : c ≠ quote) (hslash : c ≠ '\\')
    (h : LiteralContent quote cs) : LiteralContent quote (c :: cs)
  /-- A backslash and the character that it escapes. -/
  | escape {cs : List Char} (c : Char) (h : LiteralContent quote cs) :
    LiteralContent quote ('\\' :: c :: cs)

/-- The text ends outside of string literals: it consists of characters that are no quotes and of
whole literals. -/
inductive Outside : List Char → Prop where
  /-- No character. -/
  | nil : Outside []
  /-- A character that is no quote. -/
  | bare {cs : List Char} (c : Char) (hbare : isBare c = true) (h : Outside cs) : Outside (c :: cs)
  /-- A literal. -/
  | literal {content cs : List Char} (quote : Char) (hquote : isBare quote = false)
    (hcontent : LiteralContent quote content) (h : Outside cs) :
    Outside (quote :: (content ++ quote :: cs))

theorem next_code_of_isBare (h : isBare c = true) : Quoting.code.next c = .code :=
  foldl_next_of_bare (a := [c]) (by simpa using h)

theorem next_code_of_quote (h : isBare c = false) : Quoting.code.next c = .quoted c := by
  have hquote : c = '\x27' ∨ c = '\x22' := by simpa [isBare, imp_iff_not_or] using h
  exact if_pos hquote

theorem ne_slash_of_quote (h : isBare quote = false) : quote ≠ '\\' := by
  rintro rfl
  cases h

/-- The content of a literal is read without leaving it. -/
theorem LiteralContent.foldl_next (h : LiteralContent quote content) :
    content.foldl Quoting.next (.quoted quote) = .quoted quote := by
  induction h with
  | nil => rfl
  | plain c hquote hslash _ ih => simpa [Quoting.next, hquote, hslash] using ih
  | escape c _ ih => simpa [Quoting.next] using ih

theorem Outside.foldl_next (h : Outside cs) : cs.foldl Quoting.next .code = .code := by
  induction h with
  | nil => rfl
  | bare c hbare _ ih => rw [List.foldl_cons, next_code_of_isBare hbare, ih]
  | literal quote hquote hcontent _ ih =>
    have hclose : (Quoting.quoted quote).next quote = .code := by
      simp [Quoting.next, ne_slash_of_quote hquote]
    rw [List.foldl_cons, next_code_of_quote hquote, List.foldl_append, hcontent.foldl_next,
      List.foldl_cons, hclose, ih]

/-- A reader that gets out of a literal has come to its closing quote. -/
theorem exists_literalContent : ∀ cs : List Char,
    cs.foldl Quoting.next (.quoted quote) = .code →
      ∃ content rest, cs = content ++ quote :: rest ∧ LiteralContent quote content ∧
        rest.foldl Quoting.next .code = .code
  | [], h => nomatch h
  | [c], h => by
    by_cases hslash : c = '\\'
    · simp [Quoting.next, hslash] at h
    · by_cases hquote : c = quote
      · exact ⟨[], [], by rw [hquote]; rfl, .nil, rfl⟩
      · simp [Quoting.next, hslash, hquote] at h
  | c :: d :: cs, h => by
    by_cases hslash : c = '\\'
    · subst hslash
      obtain ⟨content, rest, rfl, hcontent, hrest⟩ :=
        exists_literalContent cs (by simpa [Quoting.next] using h)
      exact ⟨'\\' :: d :: content, rest, rfl, hcontent.escape d, hrest⟩
    · by_cases hquote : c = quote
      · subst hquote
        exact ⟨[], d :: cs, rfl, .nil, by simpa [Quoting.next, hslash] using h⟩
      · obtain ⟨content, rest, hcs, hcontent, hrest⟩ :=
          exists_literalContent (d :: cs) (by simpa [Quoting.next, hslash, hquote] using h)
        exact ⟨c :: content, rest, by rw [hcs]; rfl, hcontent.plain c hquote hslash, hrest⟩

theorem outside_of_foldl_next : ∀ {cs : List Char}, cs.foldl Quoting.next .code = .code →
    Outside cs
  | [], _ => .nil
  | c :: cs, h => by
    cases hc : isBare c with
    | true =>
      rw [List.foldl_cons, next_code_of_isBare hc] at h
      exact (outside_of_foldl_next h).bare c hc
    | false =>
      rw [List.foldl_cons, next_code_of_quote hc] at h
      obtain ⟨content, rest, rfl, hcontent, hrest⟩ := exists_literalContent cs h
      exact (outside_of_foldl_next hrest).literal c hc hcontent
termination_by cs => cs.length

/-- **A reader is outside of literals behind characters and whole literals.** -/
theorem outside_iff : Outside cs ↔ cs.foldl Quoting.next .code = .code :=
  ⟨Outside.foldl_next, outside_of_foldl_next⟩

instance : DecidablePred Outside := fun _ => decidable_of_iff _ outside_iff.symm

/-! ### Names of variables -/

/-- The text goes on with the name of a variable of the context: a letter, or an underscore and a
letter or digit, all of them ASCII. -/
def StartsVariable (cs : List Char) : Prop :=
  (∃ c rest, cs = c :: rest ∧ isAsciiLetter c = true) ∨
    ∃ c rest, cs = '_' :: c :: rest ∧ isAsciiAlnum c = true

/-- A variable of the context is named behind a dollar sign between the two texts. -/
structure BoundAt (before after : List Char) : Prop where
  outside : Outside before
  starts : StartsVariable after
  unqualified : ¬ [':', ':'] <:+ before
  unescaped : ¬ ['\\'] <:+ before

theorem startsBound_cons (c : Char) (cs : List Char) :
    startsBound (c :: cs) =
      (isAsciiLetter c || (decide (c = '_') && cs.head?.any isAsciiAlnum)) := by
  cases cs with
  | nil => simp [startsBound]
  | cons d cs => rfl

theorem startsVariable_iff : StartsVariable cs ↔ startsBound cs = true := by
  cases cs with
  | nil => simp [StartsVariable, startsBound]
  | cons c cs =>
    rw [startsBound_cons, Bool.or_eq_true, Bool.and_eq_true, decide_eq_true_iff]
    cases cs with
    | nil => simp [StartsVariable]
    | cons d cs => simp [StartsVariable]

theorem endsQualified_iff :
    endsQualified before.reverse = true ↔ [':', ':'] <:+ before ∨ ['\\'] <:+ before := by
  rw [← List.reverse_prefix, ← List.reverse_prefix]
  cases before.reverse with
  | nil => simp [endsQualified]
  | cons c cs =>
    rw [endsQualified_cons, decide_eq_true_iff]
    cases cs with
    | nil => simp [eq_comm]
    | cons d cs => simp [List.cons_prefix_cons, eq_comm, or_comm]

theorem boundAt_iff : BoundAt before after ↔ before.foldl Quoting.next .code = .code ∧
    startsBound after = true ∧ ¬ endsQualified before.reverse = true := by
  rw [← outside_iff, ← startsVariable_iff, endsQualified_iff, not_or]
  exact ⟨fun h => ⟨h.outside, h.starts, h.unqualified, h.unescaped⟩,
    fun h => ⟨h.1, h.2.1, h.2.2.1, h.2.2.2⟩⟩

instance (before after : List Char) : Decidable (BoundAt before after) :=
  decidable_of_iff _ boundAt_iff.symm

/-! ### What is put in -/

/-- The characters of code with what is put in behind each; `before` stands in front of them. -/
theorem bindFrom_eq_flatMap (before cs : List Char) :
    bindFrom (before.foldl Quoting.next .code) before.reverse cs =
      (cs.zipIdx before.length).flatMap fun x =>
        if x.1 = '$' ∧ BoundAt ((before ++ cs).take x.2) ((before ++ cs).drop (x.2 + 1)) then
          '$' :: contextPath
        else [x.1] := by
  induction cs generalizing before with
  | nil => rfl
  | cons c cs ih =>
    have hbefore : (before ++ c :: cs).take before.length = before := List.take_left
    have hafter : (before ++ c :: cs).drop (before.length + 1) = cs := by
      rw [List.append_cons]
      exact List.drop_left' (by simp)
    have ih := ih (before ++ [c])
    rw [List.foldl_append, List.reverse_append, List.length_append, ← List.append_cons] at ih
    simp only [List.foldl_cons, List.foldl_nil, List.reverse_singleton, List.singleton_append,
      List.length_singleton] at ih
    rw [List.zipIdx_cons, List.flatMap_cons, bindFrom_cons, hbefore, hafter, ih]
    by_cases h : c = '$' ∧ BoundAt before cs
    · have hbound := boundAt_iff.mp h.2
      rw [if_pos h, if_pos ⟨hbound.1, h.1, hbound.2⟩, h.1]
      rfl
    · rw [if_neg h, if_neg fun h' => h ⟨h'.2.1, boundAt_iff.mpr ⟨h'.1, h'.2.2⟩⟩]
      rfl

/-! ### Binding bound code -/

/-- Binding keeps whether a name starts. -/
theorem startsBound_bindFrom (mode : Quoting) (before cs : List Char) :
    startsBound (bindFrom mode before cs) = startsBound cs := by
  cases cs with
  | nil => rfl
  | cons c cs =>
    rw [bindFrom_cons]
    split
    next h =>
      rw [h.2.1]
      cases cs <;> rfl
    next => rw [List.nil_append, startsBound_cons, startsBound_cons, head?_bindFrom]

/-- Two texts, given backwards, after which the code reads the same: a name that comes next is
qualified after both or after neither, also when a colon comes before it. -/
def ReadsAlike (before before' cs : List Char) : Prop :=
  (cs.head? = some '$' → endsQualified before' = endsQualified before) ∧
    (cs.head? = some ':' → before'.head? = before.head?)

theorem ReadsAlike.cons (h : ReadsAlike before before' (c :: cs)) :
    ReadsAlike (c :: before) (c :: before') cs := by
  refine ⟨fun _ => ?_, fun _ => rfl⟩
  rw [endsQualified_cons, endsQualified_cons]
  by_cases hc : c = ':'
  · rw [h.2 (by rw [hc]; rfl)]
  · simp [hc]

/-- A name neither starts with a dollar sign nor with a colon. -/
theorem readsAlike_of_startsBound (h : startsBound cs = true) : ReadsAlike before before' cs := by
  cases cs with
  | nil => cases h
  | cons c cs =>
    constructor
    · rintro ⟨⟩
      cases cs <;> cases h
    · rintro ⟨⟩
      cases cs <;> cases h

/-- Nothing is put into bound code. -/
theorem bindFrom_bindFrom (h : ReadsAlike before before' cs) :
    bindFrom mode before' (bindFrom mode before cs) = bindFrom mode before cs := by
  induction cs generalizing mode before before' with
  | nil => rfl
  | cons c cs ih =>
    by_cases hbound : mode = .code ∧ c = '$' ∧ startsBound cs = true ∧
        ¬ endsQualified before = true
    · -- the way to the context stands where the name stood, and it is no name
      obtain ⟨rfl, rfl, hstarts, hunqualified⟩ := hbound
      have hpath : BindsNothing .code ('$' :: before') contextPath :=
        bindsNothing_of_notMem (by decide)
      have hnot : ∀ ds, ¬ startsBound (contextPath ++ ds) = true := fun ds => by
        rintro ⟨⟩
      rw [bindFrom_cons .code before, if_pos ⟨rfl, rfl, hstarts, hunqualified⟩, bindFrom_cons,
        if_neg fun h => hnot _ h.2.2.1, List.nil_append]
      refine congrArg _ ?_
      have hnext : Quoting.code.next '$' = .code := rfl
      rw [hnext, hpath, foldl_next_contextPath, ih (readsAlike_of_startsBound hstarts)]
    · have hstays : ¬ (mode = .code ∧ c = '$' ∧
          startsBound (bindFrom (mode.next c) (c :: before) cs) = true ∧
          ¬ endsQualified before' = true) := by
        rintro ⟨hmode, hc, hstarts, hqualified⟩
        rw [startsBound_bindFrom] at hstarts
        rw [h.1 (by rw [hc]; rfl)] at hqualified
        exact hbound ⟨hmode, hc, hstarts, hqualified⟩
      rw [bindFrom_cons mode before, if_neg hbound, List.nil_append, bindFrom_cons, if_neg hstays,
        List.nil_append, ih h.cons]

/-- Binding twice is binding once. -/
theorem bindVars_bindVars (s : List Char) : bindVars (bindVars s) = bindVars s :=
  bindFrom_bindFrom ⟨fun _ => rfl, fun _ => rfl⟩

/-- **Binding only inserts.**  Bound code is the code with the way to the context behind the dollar
signs that stand outside of literals, in front of a name, and neither behind `::` nor behind a
backslash; every character stays in its order.  Nothing is put into bound code. -/
theorem bindVars_inserts (s : List Char) :
    (bindVars s = s.zipIdx.flatMap fun x =>
      if x.1 = '$' ∧ BoundAt (s.take x.2) (s.drop (x.2 + 1)) then '$' :: "__ctx->".toList
      else [x.1]) ∧
      bindVars (bindVars s) = bindVars s :=
  ⟨bindFrom_eq_flatMap [] s, bindVars_bindVars s⟩

/-- A variable behind a literal that ends in an escaped backslash, and one in a literal that never
ends. -/
example : bindVars "'\\\\'.$a.A::$b.\"$c\\".toList = "'\\\\'.$__ctx->a.A::$b.\"$c\\".toList := by
  decide +kernel

end Stencil
