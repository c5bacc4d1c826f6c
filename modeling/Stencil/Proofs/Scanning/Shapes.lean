import Stencil.Proofs.Relocation
import Stencil.Proofs.Stages.Directives

/-!
# The shapes of directives

Each kind of directive has one shape of source: an opening, the parts that the directive keeps, and
an ending that does not stand earlier.  A directive is found at a place of a text exactly when a
source of its shape stands there.  Only for an expression in braces the text after it counts too, as
the line is looked at up to its end.

## Main definitions

* `CutBy p text` — behind the text, the phrase stands for the first time.
* `Directive.Shape` — the sources of a directive.
* `Directive.Passes` — an expression with the rest of its line looks like one.

## Main results

* `directiveAt_iff` — **a directive is found where a source of its shape stands.**
-/

namespace Stencil

open Text

/-! ### Endings -/

section Endings

variable {p text tail rest cs : List Char}

/-- The phrase stands behind the text, and nowhere before. -/
def CutBy (p text : List Char) : Prop := breakOn p (text ++ p) = some (text, [])

instance (p text : List Char) : Decidable (CutBy p text) := by
  unfold CutBy
  infer_instance

theorem breakOn_self (p : List Char) : breakOn p p = some ([], []) := by
  have hdrop : dropStart? p p = some [] := dropStart?_eq_some_iff.mpr (List.append_nil p).symm
  cases p with
  | nil => rfl
  | cons x p => rw [breakOn, hdrop]

/-- What is cut off at a phrase does not depend on what follows the phrase. -/
theorem breakOn_iff : breakOn p cs = some (text, rest) ↔ cs = text ++ p ++ rest ∧ CutBy p text := by
  constructor
  · intro h
    refine ⟨breakOn_eq_some h, ?_⟩
    induction cs generalizing text with
    | nil =>
      obtain ⟨r, hr, heq⟩ := Option.map_eq_some_iff.mp h
      cases heq
      exact breakOn_self p
    | cons c cs ih =>
      rw [breakOn] at h
      cases hdrop : dropStart? p (c :: cs) with
      | some r =>
        rw [hdrop] at h
        cases h
        exact breakOn_self p
      | none =>
        rw [hdrop] at h
        obtain ⟨⟨text', rest'⟩, hcut, heq⟩ := Option.map_eq_some_iff.mp h
        cases heq
        -- a phrase at the start of the shorter text would stand at the start of the longer one
        have hnone : dropStart? p (c :: (text' ++ p)) = none := by
          cases hshort : dropStart? p (c :: (text' ++ p)) with
          | none => rfl
          | some r =>
            have hlong : c :: cs = p ++ (r ++ rest) := by
              rw [breakOn_eq_some hcut, ← List.cons_append, dropStart?_eq_some_iff.mp hshort,
                List.append_assoc]
            rw [dropStart?_eq_some_iff.mpr hlong] at hdrop
            cases hdrop
        have hcut' : breakOn p (text' ++ p) = some (text', []) := ih hcut
        rw [CutBy, List.cons_append, breakOn, hnone, hcut']
        rfl
  · rintro ⟨rfl, hcut⟩
    have happend := breakOn_append hcut rest
    rwa [List.nil_append] at happend

/-- The phrase is not in the text that it is behind. -/
theorem CutBy.breakOn_eq_none (hp : p ≠ []) (h : CutBy p text) : breakOn p text = none := by
  refine Option.eq_none_iff_forall_ne_some.mpr fun x hx => ?_
  have hfirst := breakOn_append hx p
  rw [CutBy, hfirst] at h
  have htail := (Prod.mk.inj (Option.some.inj h)).2
  exact hp (List.append_eq_nil_iff.mp htail).2

theorem cutBy_singleton {x : Char} : CutBy [x] text ↔ x ∉ text := by
  constructor
  · exact notMem_of_breakOn
  · intro hx
    have hfound : breakOn [x] (text ++ ([x] ++ [])) = some (text, []) :=
      breakOn_append_self List.not_mem_nil (breakOn_singleton hx)
    exact hfound

theorem notMem_firstLine (cs : List Char) : '\n' ∉ firstLine cs := by
  intro hmem
  simpa using List.mem_takeWhile_imp hmem

theorem firstLine_append_of_notMem (h : '\n' ∉ text) (rest : List Char) :
    firstLine (text ++ rest) = text ++ firstLine rest := by
  refine List.takeWhile_append_of_pos fun c hc => ?_
  simpa using ne_of_mem_of_not_mem hc h

/-- A phrase on the first line. -/
theorem breakOn_firstLine (hp : '\n' ∉ p) : (∃ tail, breakOn p (firstLine cs) = some (text, tail)) ↔
    ∃ rest, cs = text ++ p ++ rest ∧ '\n' ∉ text ∧ CutBy p text := by
  constructor
  · rintro ⟨tail, h⟩
    obtain ⟨hline, hcut⟩ := breakOn_iff.mp h
    obtain ⟨rest, hrest⟩ := firstLine_append cs
    refine ⟨tail ++ rest, ?_, ?_, hcut⟩
    · conv => lhs; rw [hrest, hline]
      simp only [List.append_assoc]
    · intro hmem
      refine notMem_firstLine cs ?_
      rw [hline]
      exact List.mem_append_left _ (List.mem_append_left _ hmem)
  · rintro ⟨rest, rfl, hline, hcut⟩
    refine ⟨firstLine rest, breakOn_iff.mpr ⟨?_, hcut⟩⟩
    rw [List.append_assoc, firstLine_append_of_notMem hline, firstLine_append_of_notMem hp,
      List.append_assoc]

/-- The text up to a sign that stands in it. -/
theorem takeWhile_ne_iff {x : Char} : (cs.takeWhile (· ≠ x) = text ∧ text.length ≠ cs.length) ↔
    x ∉ text ∧ ∃ rest, cs = text ++ x :: rest := by
  constructor
  · rintro ⟨rfl, hlength⟩
    refine ⟨fun hmem => ?_, exists_takeWhile_append hlength⟩
    simpa using List.mem_takeWhile_imp hmem
  · rintro ⟨hx, rest, rfl⟩
    refine ⟨(takeWhile_append_head (fun c hc => ?_) fun c hc => ?_).1, ?_⟩
    · simpa using ne_of_mem_of_not_mem hc hx
    · cases hc
      simp
    · simp

end Endings

/-! ### Shapes -/

/-- The sources of a directive. -/
inductive Directive.Shape : Directive → List Char → Prop
  /-- An expression in braces, on one line. -/
  | echo {code : List Char} (hne : code ≠ []) (hline : '\n' ∉ code) (hclose : '\x7d' ∉ code)
      (hat : code.head? ≠ some '@') : Shape (.echo code) ('\x7b' :: (code ++ ['\x7d']))
  /-- Code in braces, after an at sign. -/
  | raw {code : List Char} (hne : code ≠ []) (hclose : '\x7d' ∉ code) :
      Shape (.raw code) ('\x7b' :: '@' :: (code ++ ['\x7d']))
  /-- A resource as a tag with attributes, on one line. -/
  | tag {word text : List Char} {verb : ResourceVerb} (hverb : (word, verb) ∈ resourceVerbs)
      (hword : ∀ c ∈ text.head?, isPlainWord c = false) (hline : '\n' ∉ text)
      (hclose : CutBy ['/', '>'] text) (hattributes : attributesOf .tag text ≠ []) :
      Shape (.resource verb none (attributesOf .tag text)) ('<' :: (word ++ text ++ ['/', '>']))
  /-- A resource as a comment: an argument in quotes, and attributes on the rest of the line. -/
  | comment {mark : Char} {word argument text : List Char} {verb : ResourceVerb}
      (hmark : mark = '#' ∨ mark = '%') (hverb : (word, verb) ∈ resourceVerbs)
      (hne : argument ≠ []) (hquote : '\x22' ∉ argument) (hline : '\n' ∉ text)
      (hclose : CutBy ")-->".toList text) :
      Shape (.resource verb (some argument) (attributesOf .comment text))
        ("<!--".toList ++ mark ::
          (word ++ "(\x22".toList ++ argument ++ '\x22' :: (text ++ ")-->".toList)))
  /-- Control flow: a keyword and what follows it, on one line. -/
  | control {keyword args : List Char} (hne : keyword ≠ [])
      (hword : ∀ c ∈ keyword, isKeywordChar c = true)
      (hends : ∀ c ∈ args.head?, isKeywordChar c = false) (hline : '\n' ∉ args)
      (hclose : CutBy "-->".toList args) :
      Shape (.control keyword args) ("<!--@".toList ++ (keyword ++ args ++ "-->".toList))

/-- The test of an expression, on its line: of the line, the rest counts. -/
def Directive.Passes : Directive → List Char → Prop
  | .echo code, rest => looksLikeExpression (code ++ '\x7d' :: firstLine rest) = true
  | _, _ => True

/-- What is found is the start of the text, behind an opening that was read before. -/
def ReadsShape (opening : List Char) (m : Matcher Directive) : Prop :=
  ∀ cs d n, m cs = some (d, n) → ∃ body rest, cs = body ++ rest ∧ n = body.length ∧
    d.Shape (opening ++ body) ∧ d.Passes rest

theorem ReadsShape.afterPhrase {p : List Char} {m : Matcher Directive} (h : ReadsShape p m) :
    ReadsShape [] (afterPhrase p m) := by
  intro cs d n hmatch
  obtain ⟨rest, hrest, hm⟩ := Option.bind_eq_some_iff.mp hmatch
  obtain ⟨⟨d', k⟩, hk, heq⟩ := Option.map_eq_some_iff.mp hm
  cases heq
  obtain ⟨body, rest', rfl, rfl, hshape, hpasses⟩ := h _ _ _ hk
  refine ⟨p ++ body, rest', ?_, ?_, hshape, hpasses⟩
  · rw [dropStart?_eq_some_iff.mp hrest, List.append_assoc]
  · rw [List.length_append]

theorem ReadsShape.or {opening : List Char} {m m' : Matcher Directive} (h : ReadsShape opening m)
    (h' : ReadsShape opening m') : ReadsShape opening fun cs => (m cs).or (m' cs) := by
  intro cs d n hmatch
  rcases Option.or_eq_some_iff.mp hmatch with hm | ⟨-, hm⟩
  · exact h cs d n hm
  · exact h' cs d n hm

/-! ### Braces -/

theorem bracedAt_readsShape : ReadsShape ['\x7b'] bracedAt := by
  intro cs d n h
  unfold bracedAt at h
  split at h
  next code =>
    dsimp only at h
    split at h
    next => cases h
    next hbody =>
      simp only [Bool.or_eq_true, List.isEmpty_iff, decide_eq_true_eq, not_or] at hbody
      obtain ⟨hclose, rest, hrest⟩ := takeWhile_ne_iff.mp ⟨rfl, hbody.2⟩
      cases h
      refine ⟨'@' :: (code.takeWhile (· ≠ '\x7d') ++ ['\x7d']), rest, ?_, ?_,
        .raw hbody.1 hclose, trivial⟩
      · conv => lhs; rw [hrest]
        simp
      · simp
  next hat =>
    dsimp only at h
    split at h
    next => cases h
    next hbody =>
      simp only [Bool.or_eq_true, List.isEmpty_iff, decide_eq_true_eq, Bool.not_eq_true', not_or,
        Bool.not_eq_false] at hbody
      obtain ⟨⟨hne, hlength⟩, hlooks⟩ := hbody
      obtain ⟨hclose, tail, htail⟩ := takeWhile_ne_iff.mp ⟨rfl, hlength⟩
      obtain ⟨rest, hrest⟩ := firstLine_append cs
      generalize (firstLine cs).takeWhile (· ≠ '\x7d') = code at *
      have hcs : cs = code ++ '\x7d' :: (tail ++ rest) := by
        conv => lhs; rw [hrest, htail]
        simp
      have hline : '\n' ∉ code := by
        intro hmem
        refine notMem_firstLine cs ?_
        rw [htail]
        exact List.mem_append_left _ hmem
      have hfirst : firstLine cs = code ++ '\x7d' :: firstLine (tail ++ rest) := by
        rw [hcs, firstLine_append_of_notMem hline]
        rfl
      have hhead : code.head? ≠ some '@' := by
        intro hhead
        obtain ⟨code', rfl⟩ := List.head?_eq_some_iff.mp hhead
        exact hat _ hcs
      cases h
      refine ⟨code ++ ['\x7d'], tail ++ rest, ?_, ?_, .echo hne hline hclose hhead, ?_⟩
      · rw [hcs]
        simp
      · simp
      · rw [Directive.Passes, ← hfirst]
        exact hlooks

theorem bracedAt_raw {code : List Char} (hne : code ≠ []) (hclose : '\x7d' ∉ code)
    (rest : List Char) :
    bracedAt ('@' :: (code ++ '\x7d' :: rest)) = some (.raw code, code.length + 2) := by
  have hcut : ∃ more, code ++ '\x7d' :: rest = code ++ '\x7d' :: more := ⟨rest, rfl⟩
  obtain ⟨hbody, hlength⟩ := takeWhile_ne_iff.mpr ⟨hclose, hcut⟩
  unfold bracedAt
  simp only [hbody, hlength, List.isEmpty_iff, hne, decide_false, Bool.or_false, if_false]

theorem bracedAt_echo {code : List Char} (hne : code ≠ []) (hline : '\n' ∉ code)
    (hclose : '\x7d' ∉ code) (hat : code.head? ≠ some '@') {rest : List Char}
    (hpasses : looksLikeExpression (code ++ '\x7d' :: firstLine rest) = true) :
    bracedAt (code ++ '\x7d' :: rest) = some (.echo code, code.length + 1) := by
  have hfirst : firstLine (code ++ '\x7d' :: rest) = code ++ '\x7d' :: firstLine rest := by
    rw [firstLine_append_of_notMem hline]
    rfl
  have hcut : ∃ more, code ++ '\x7d' :: firstLine rest = code ++ '\x7d' :: more :=
    ⟨firstLine rest, rfl⟩
  obtain ⟨hbody, hlength⟩ := takeWhile_ne_iff.mpr ⟨hclose, hcut⟩
  unfold bracedAt
  split
  next code' heq =>
    obtain ⟨c, code, rfl⟩ := List.exists_cons_of_ne_nil hne
    rw [List.cons_append, List.cons.injEq] at heq
    exact absurd (congrArg some heq.1) hat
  next =>
    rw [hfirst]
    simp only [hbody, hlength, hpasses, List.isEmpty_iff, hne, decide_false, Bool.or_false,
      Bool.not_true, if_false]

/-! ### Resources -/

section Resources

variable {cs rest word text argument : List Char} {verb : ResourceVerb} {width : Nat}

theorem isPlainWord_of_mem_resourceVerbs (h : (word, verb) ∈ resourceVerbs) :
    ∀ c ∈ word, isPlainWord c = true := by
  have hall : ∀ entry ∈ resourceVerbs, entry.1.all isPlainWord = true :=
    forall_mem_of_all (by decide)
  exact List.all_eq_true.mp (hall _ h)

theorem head?_getD_false {q : Char → Bool} :
    (rest.head?.map q).getD false = false ↔ ∀ c ∈ rest.head?, q c = false := by
  cases rest <;> simp

/-- The keyword is the whole first word. -/
theorem verbAt_iff : verbAt cs = some (verb, width, rest) ↔ ∃ word, (word, verb) ∈ resourceVerbs ∧
    (∀ c ∈ rest.head?, isPlainWord c = false) ∧ cs = word ++ rest ∧ width = word.length := by
  constructor
  · intro h
    obtain ⟨word, hmem, hends, hcs, hwidth⟩ := verbAt_eq_some h
    exact ⟨word, hmem, head?_getD_false.mp hends, hcs, hwidth⟩
  · rintro ⟨word, hmem, hends, rfl, rfl⟩
    have hword := takeWhile_append_head (isPlainWord_of_mem_resourceVerbs hmem) hends
    have hsome : (verbAt (word ++ rest)).isSome = true := by
      rw [verbAt, List.findSome?_isSome_iff]
      refine ⟨_, hmem, ?_⟩
      simp [head?_getD_false.mpr hends]
    obtain ⟨⟨verb', width', rest'⟩, hfound⟩ := Option.isSome_iff_exists.mp hsome
    obtain ⟨word', hmem', hends', hcs, rfl⟩ := verbAt_eq_some hfound
    -- both words are what stands before the first other sign
    have hword' := takeWhile_append_head (isPlainWord_of_mem_resourceVerbs hmem')
      (head?_getD_false.mp hends')
    rw [← hcs, hword.1, hword.2] at hword'
    obtain ⟨rfl, rfl⟩ := hword'
    have hdistinct : ∀ a ∈ resourceVerbs, ∀ b ∈ resourceVerbs, a.1 = b.1 → a.2 = b.2 := by decide
    obtain rfl : verb' = verb := hdistinct _ hmem' _ hmem rfl
    exact hfound

theorem resourceTagAt_readsShape : ReadsShape ['<'] resourceTagAt := by
  intro cs d n h
  rw [resourceTagAt] at h
  split at h
  next verb width rest hverb =>
    split at h
    next text tail hcut =>
      dsimp only at h
      split at h
      next => cases h
      next hattributes =>
        obtain ⟨word, hmem, hends, rfl, rfl⟩ := verbAt_iff.mp hverb
        obtain ⟨rest', rfl, hline, hclose⟩ := (breakOn_firstLine (by decide)).mp ⟨tail, hcut⟩
        rw [List.isEmpty_iff] at hattributes
        -- the attributes start with the first sign after the keyword
        have hword : ∀ c ∈ text.head?, isPlainWord c = false := by
          intro c hc
          refine hends c ?_
          cases text with
          | nil => cases hc
          | cons x text => exact hc
        cases h
        refine ⟨word ++ text ++ ['/', '>'], rest', ?_, ?_,
          .tag hmem hword hline hclose hattributes, trivial⟩
        · simp only [List.append_assoc]
        · simp only [List.length_append]
          rfl
    next => cases h
  next => cases h

theorem resourceTagAt_tag (hverb : (word, verb) ∈ resourceVerbs)
    (hword : ∀ c ∈ text.head?, isPlainWord c = false) (hline : '\n' ∉ text)
    (hclose : CutBy ['/', '>'] text) (hattributes : attributesOf .tag text ≠ [])
    (rest : List Char) :
    resourceTagAt (word ++ text ++ ['/', '>'] ++ rest) =
      some (.resource verb none (attributesOf .tag text), word.length + text.length + 2) := by
  have hends : ∀ c ∈ (text ++ ['/', '>'] ++ rest).head?, isPlainWord c = false := by
    cases text with
    | nil => exact absurd rfl hattributes
    | cons x text => exact hword
  have hkeyword : verbAt (word ++ text ++ ['/', '>'] ++ rest) =
      some (verb, word.length, text ++ ['/', '>'] ++ rest) :=
    verbAt_iff.mpr ⟨word, hverb, hends, by simp only [List.append_assoc], rfl⟩
  obtain ⟨tail, hcut⟩ := (breakOn_firstLine (p := ['/', '>']) (by decide)).mpr
    ⟨rest, rfl, hline, hclose⟩
  rw [resourceTagAt, hkeyword]
  simp only [hcut, List.isEmpty_iff, hattributes, if_false]

theorem resourceCommentAt_readsShape {mark : Char} (hmark : mark = '#' ∨ mark = '%') :
    ReadsShape ("<!--".toList ++ [mark]) resourceCommentAt := by
  intro cs d n h
  rw [resourceCommentAt] at h
  split at h
  next verb width rest hverb =>
    split at h
    next argument tail hargument =>
      split at h
      next text tail' hcut =>
        split at h
        next => cases h
        next hne =>
          obtain ⟨word, hmem, -, rfl, rfl⟩ := verbAt_iff.mp hverb
          obtain ⟨rfl, hquote⟩ := breakOn_iff.mp hargument
          obtain ⟨rest', rfl, hline, hclose⟩ := (breakOn_firstLine (by decide)).mp ⟨tail', hcut⟩
          rw [List.isEmpty_iff] at hne
          cases h
          refine ⟨word ++ "(\x22".toList ++ argument ++ '\x22' :: (text ++ ")-->".toList), rest', ?_,
            ?_, ?_, trivial⟩
          · simp
          · simp
            omega
          · have hshape := Directive.Shape.comment hmark hmem hne (cutBy_singleton.mp hquote) hline
              hclose
            rwa [List.append_cons] at hshape
      next => cases h
    next => cases h
  next => cases h

theorem resourceCommentAt_comment (hverb : (word, verb) ∈ resourceVerbs) (hne : argument ≠ [])
    (hquote : '\x22' ∉ argument) (hline : '\n' ∉ text) (hclose : CutBy ")-->".toList text)
    (rest : List Char) :
    resourceCommentAt
        (word ++ "(\x22".toList ++ argument ++ '\x22' :: (text ++ ")-->".toList) ++ rest) =
      some (.resource verb (some argument) (attributesOf .comment text),
        word.length + argument.length + text.length + 7) := by
  have hkeyword : verbAt
      (word ++ "(\x22".toList ++ argument ++ '\x22' :: (text ++ ")-->".toList) ++ rest) =
        some (verb, word.length,
          '(' :: '\x22' :: (argument ++ ['\x22'] ++ (text ++ ")-->".toList ++ rest))) := by
    refine verbAt_iff.mpr ⟨word, hverb, ?_, ?_, rfl⟩
    · rintro c ⟨⟩
      rfl
    · simp
  have hargument := breakOn_iff.mpr
    ⟨Eq.refl (argument ++ ['\x22'] ++ (text ++ ")-->".toList ++ rest)), cutBy_singleton.mpr hquote⟩
  obtain ⟨tail, hcut⟩ := (breakOn_firstLine (p := ")-->".toList) (by decide)).mpr
    ⟨rest, rfl, hline, hclose⟩
  rw [resourceCommentAt, hkeyword]
  simp only [hargument, hcut, List.isEmpty_iff, hne, if_false]

end Resources

/-! ### Control comments -/

section Control

variable {keyword args : List Char}

theorem controlAt_readsShape : ReadsShape "<!--@".toList controlAt := by
  intro cs d n h
  rw [controlAt] at h
  split at h
  next args tail hcut =>
    split at h
    next => cases h
    next hne =>
      rw [List.isEmpty_iff] at hne
      obtain ⟨rest, hrest, hline, hclose⟩ := (breakOn_firstLine (by decide)).mp ⟨tail, hcut⟩
      have hcs : cs = cs.takeWhile isKeywordChar ++ (args ++ "-->".toList ++ rest) := by
        rw [← hrest, List.takeWhile_append_dropWhile]
      have hends : ∀ c ∈ args.head?, isKeywordChar c = false := by
        intro c hc
        have hhead : (cs.dropWhile isKeywordChar).head? = some c := by
          rw [hrest, List.append_assoc]
          cases args with
          | nil => cases hc
          | cons x args => exact hc
        have hnot := List.head?_dropWhile_not isKeywordChar cs
        rw [hhead] at hnot
        simpa using hnot
      cases h
      refine ⟨cs.takeWhile isKeywordChar ++ args ++ "-->".toList, rest, ?_, ?_,
        .control hne (fun c hc => List.mem_takeWhile_imp hc) hends hline hclose, trivial⟩
      · conv => lhs; rw [hcs]
        simp only [List.append_assoc]
      · simp only [List.length_append]
        rfl
  next => cases h

theorem controlAt_control (hne : keyword ≠ []) (hword : ∀ c ∈ keyword, isKeywordChar c = true)
    (hends : ∀ c ∈ args.head?, isKeywordChar c = false) (hline : '\n' ∉ args)
    (hclose : CutBy "-->".toList args) (rest : List Char) :
    controlAt (keyword ++ args ++ "-->".toList ++ rest) =
      some (.control keyword args, keyword.length + args.length + 3) := by
  have hhead : ∀ c, (args ++ "-->".toList ++ rest).head? = some c → isKeywordChar c = false := by
    cases args with
    | nil =>
      rintro c ⟨⟩
      rfl
    | cons x args => exact hends
  obtain ⟨hkeyword, hrest⟩ := takeWhile_append_head hword hhead
  obtain ⟨tail, hcut⟩ := (breakOn_firstLine (p := "-->".toList) (by decide)).mpr
    ⟨rest, rfl, hline, hclose⟩
  have hassoc : keyword ++ args ++ "-->".toList ++ rest =
      keyword ++ (args ++ "-->".toList ++ rest) := by simp only [List.append_assoc]
  rw [controlAt, hassoc, hrest, hkeyword]
  simp only [hcut, List.isEmpty_iff, hne, if_false]

end Control

/-! ### Directives -/

theorem directiveAt_readsShape : ReadsShape [] directiveAt :=
  bracedAt_readsShape.afterPhrase.or <| resourceTagAt_readsShape.afterPhrase.or <|
    (resourceCommentAt_readsShape (.inl rfl)).afterPhrase.or <|
      (resourceCommentAt_readsShape (.inr rfl)).afterPhrase.or controlAt_readsShape.afterPhrase

theorem afterPhrase_append {α : Type} (p : List Char) (m : Matcher α) (rest : List Char) :
    afterPhrase p m (p ++ rest) = (m rest).map fun (a, n) => (a, p.length + n) := by
  rw [afterPhrase, dropStart?_append, Option.bind_some]

section Openings

variable {cs : List Char} {d : Directive} {n : Nat}

theorem directiveAt_brace (h : bracedAt cs = some (d, n)) :
    directiveAt ('\x7b' :: cs) = some (d, 1 + n) := by
  have hbrace := afterPhrase_append ['\x7b'] bracedAt cs
  rw [h] at hbrace
  rw [directiveAt]
  exact Option.or_eq_some_iff.mpr (.inl hbrace)

theorem directiveAt_tag (h : resourceTagAt cs = some (d, n)) :
    directiveAt ('<' :: cs) = some (d, 1 + n) := by
  have htag := afterPhrase_append ['<'] resourceTagAt cs
  rw [h] at htag
  have hbrace : afterPhrase ['\x7b'] bracedAt ('<' :: cs) = none := rfl
  rw [directiveAt, hbrace, Option.none_or]
  exact Option.or_eq_some_iff.mpr (.inl htag)

/-- A comment is neither code in braces nor a tag. -/
theorem directiveAt_angle (cs : List Char) : directiveAt ('<' :: '!' :: cs) =
    (afterPhrase "<!--#".toList resourceCommentAt ('<' :: '!' :: cs)).or
      ((afterPhrase "<!--%".toList resourceCommentAt ('<' :: '!' :: cs)).or
        (afterPhrase "<!--@".toList controlAt ('<' :: '!' :: cs))) := rfl

theorem directiveAt_resourceComment {mark : Char} (hmark : mark = '#' ∨ mark = '%')
    (h : resourceCommentAt cs = some (d, n)) :
    directiveAt ("<!--".toList ++ mark :: cs) = some (d, 5 + n) := by
  refine (directiveAt_angle _).trans ?_
  rcases hmark with rfl | rfl
  · have hcomment := afterPhrase_append "<!--#".toList resourceCommentAt cs
    rw [h] at hcomment
    exact Option.or_eq_some_iff.mpr (.inl hcomment)
  · have hcomment := afterPhrase_append "<!--%".toList resourceCommentAt cs
    rw [h] at hcomment
    exact Option.or_eq_some_iff.mpr (.inr ⟨rfl, Option.or_eq_some_iff.mpr (.inl hcomment)⟩)

theorem directiveAt_control (h : controlAt cs = some (d, n)) :
    directiveAt ("<!--@".toList ++ cs) = some (d, 5 + n) := by
  refine (directiveAt_angle _).trans ?_
  have hcontrol := afterPhrase_append "<!--@".toList controlAt cs
  rw [h] at hcontrol
  exact Option.or_eq_some_iff.mpr (.inr ⟨rfl, Option.or_eq_some_iff.mpr (.inr ⟨rfl, hcontrol⟩)⟩)

end Openings

/-- A source of its shape is found as the directive, whatever follows, unless the test of an
expression fails. -/
theorem Directive.Shape.directiveAt {d : Directive} {source : List Char} (h : d.Shape source)
    {rest : List Char} (hpasses : d.Passes rest) :
    directiveAt (source ++ rest) = some (d, source.length) := by
  cases h with
  | echo hne hline hclose hat =>
    have hfound := directiveAt_brace (bracedAt_echo hne hline hclose hat hpasses)
    simpa [Nat.add_comm, Nat.add_left_comm, Nat.add_assoc] using hfound
  | raw hne hclose =>
    have hfound := directiveAt_brace (bracedAt_raw hne hclose rest)
    simpa [Nat.add_comm, Nat.add_left_comm, Nat.add_assoc] using hfound
  | tag hverb hword hline hclose hattributes =>
    have hfound := directiveAt_tag (resourceTagAt_tag hverb hword hline hclose hattributes rest)
    simpa [Nat.add_comm, Nat.add_left_comm, Nat.add_assoc] using hfound
  | comment hmark hverb hne hquote hline hclose =>
    have hfound := directiveAt_resourceComment hmark
      (resourceCommentAt_comment hverb hne hquote hline hclose rest)
    simpa [Nat.add_comm, Nat.add_left_comm, Nat.add_assoc] using hfound
  | control hne hword hends hline hclose =>
    have hfound := directiveAt_control (controlAt_control hne hword hends hline hclose rest)
    simpa [Nat.add_comm, Nat.add_left_comm, Nat.add_assoc] using hfound

/-- **A directive is found where a source of its shape stands.** -/
theorem directiveAt_iff {cs : List Char} {d : Directive} {n : Nat} :
    directiveAt cs = some (d, n) ↔ ∃ source rest, cs = source ++ rest ∧ n = source.length ∧
      d.Shape source ∧ d.Passes rest := by
  constructor
  · exact directiveAt_readsShape cs d n
  · rintro ⟨source, rest, rfl, rfl, hshape, hpasses⟩
    exact hshape.directiveAt hpasses

end Stencil
