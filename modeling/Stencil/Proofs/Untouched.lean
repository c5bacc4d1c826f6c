import Stencil.Proofs.Caching.Loading
import Stencil.Proofs.ControlFlow
import Stencil.Proofs.Guard
import Stencil.Proofs.Relocation
import Stencil.Proofs.Stages.Blocks

/-!
# Templates without constructs

A template in which no stage finds anything is its own body: compiled code is the guard in front of
it, and rendering it returns it.  What the stages look for are braces, comments, islands, tags of
blocks, forms and resources, sources of assets, and attributes that control elements.

The names of assets and resources are told apart from longer names as words are and not as names of
elements are, so that a tag `img-box` with a source counts as an image.  Such tags have to be left
out.

## Main definitions

* `followedBy` — a pattern in front of a text with a property.
* `ResourceFree`, `SourceFree` — no resource tag, and no asset with a source, whose name ends as
  told.
* `ConstructFree` — texts without constructs.
* `NamesEnd` — no name of an asset or a resource goes on as words do not.
* `Handler.Keeps` — what is kept for a template is some code, if anything.

## Main results

* `Compiler.compile_constructFree` — the code of a template without constructs.
* `Handler.load_of_keeps` — a template is loaded when its code parses.
* `renders_itself` — **a template without constructs renders to itself.**
-/

namespace Stencil

open Text Lexer Stencil.Parser

/-! ### Texts without constructs -/

section Patterns

variable {α : Type} {m : Matcher α} {p q cs : List Char}

/-- A match of the pattern in front of a text with the property. -/
def followedBy (m : Matcher α) (has : List Char → Bool) : Matcher α := fun cs =>
  (m cs).bind fun (a, n) => if has (cs.drop n) then some (a, n) else none

/-- A pattern that does not occur matches nowhere. -/
theorem not_occurs_iff : occurs m cs = false ↔ ∀ r, r ≠ [] → r <:+ cs → m r = none := by
  induction cs with
  | nil =>
    refine iff_of_true rfl fun r hr hsuffix => ?_
    exact absurd (List.suffix_nil.mp hsuffix) hr
  | cons c cs ih =>
    rw [occurs, Bool.or_eq_false_iff, ih, Option.isSome_eq_false_iff, Option.isNone_iff_eq_none]
    constructor
    · rintro ⟨hhere, hlater⟩ r hr hsuffix
      rcases List.suffix_cons_iff.mp hsuffix with rfl | hsuffix
      · exact hhere
      · exact hlater r hr hsuffix
    · intro h
      refine ⟨h _ (List.cons_ne_nil c cs) (List.suffix_refl _), fun r hr hsuffix => ?_⟩
      exact h r hr (hsuffix.trans (List.suffix_cons c cs))

/-- A phrase that does not stand in the text starts none of its ends. -/
theorem dropStart?_of_absent {r : List Char} (h : ¬ p <:+: cs) (hr : r <:+ cs)
    (q : List Char) : dropStart? (p ++ q) r = none := by
  cases hopen : dropStart? (p ++ q) r with
  | none => rfl
  | some rest =>
    have hstart : p <+: r :=
      ⟨q ++ rest, by rw [dropStart?_eq_some_iff.mp hopen, List.append_assoc]⟩
    exact absurd (hstart.isInfix.trans hr.isInfix) h

theorem afterPhrase_eq_none {r : List Char} (h : dropStart? p r = none) :
    afterPhrase p m r = none := by
  rw [afterPhrase, h]
  rfl

theorem followedBy_eq_none_iff {has : List Char → Bool} : followedBy m has cs = none ↔
    ∀ a n, m cs = some (a, n) → has (cs.drop n) = false := by
  rw [followedBy]
  cases hm : m cs with
  | none => simp
  | some x =>
    obtain ⟨a, n⟩ := x
    cases hhas : has (cs.drop n) <;> simp [hhas]

/-- A property that comes down to one of two others. -/
theorem not_occurs_followedBy {has has₁ has₂ : List Char → Bool}
    (hcover : ∀ rest, has₁ rest = false → has₂ rest = false → has rest = false)
    (h₁ : occurs (followedBy m has₁) cs = false) (h₂ : occurs (followedBy m has₂) cs = false) :
    occurs (followedBy m has) cs = false := by
  rw [not_occurs_iff] at h₁ h₂ ⊢
  intro r hne hr
  have hr₁ := followedBy_eq_none_iff.mp (h₁ r hne hr)
  have hr₂ := followedBy_eq_none_iff.mp (h₂ r hne hr)
  exact followedBy_eq_none_iff.mpr fun a n hm => hcover _ (hr₁ a n hm) (hr₂ a n hm)

end Patterns

/-- No tag of a resource stands in the text: an opening bracket and the word of a directive, with an
end of the name behind it. -/
def ResourceFree (ends : List Char → Bool) (cs : List Char) : Prop :=
  ∀ entry ∈ resourceVerbs, occurs (followedBy (phrase ('<' :: entry.1)) ends) cs = false

/-- Whether a tag shows a source before the first closing bracket. -/
def showsSource (rest : List Char) : Bool :=
  occurs (phraseFold "src=\x22".toList) (rest.takeWhile (· ≠ '>'))

/-- No tag of an image, an input or a script, with an end of the name behind it, shows a source. -/
def SourceFree (ends : List Char → Bool) (cs : List Char) : Prop :=
  ∀ name ∈ assetElements,
    occurs (followedBy (phraseFold ('<' :: name)) fun rest => ends rest && showsSource rest) cs =
      false

instance (ends : List Char → Bool) (cs : List Char) : Decidable (ResourceFree ends cs) :=
  inferInstanceAs (Decidable (∀ entry ∈ resourceVerbs, _))

instance (ends : List Char → Bool) (cs : List Char) : Decidable (SourceFree ends cs) :=
  inferInstanceAs (Decidable (∀ name ∈ assetElements, _))

/-- A text without constructs. -/
structure ConstructFree (cs : List Char) : Prop where
  noBrace : '\x7b' ∉ cs
  noComment : ¬ "<!--".toList <:+: cs
  noIsland : ¬ openTag <:+: cs
  noBlock : occurs blockTagAt cs = false
  noForm : occurs formOpenAt cs = false
  noResource : ResourceFree endsName cs
  noSource : SourceFree endsName cs
  noLoop : ¬ "loop=\x22".toList <:+: cs
  noCondition : ¬ "cond=\x22".toList <:+: cs

instance (cs : List Char) : Decidable (ConstructFree cs) :=
  decidable_of_iff ('\x7b' ∉ cs ∧ ¬ "<!--".toList <:+: cs ∧ ¬ openTag <:+: cs ∧
      occurs blockTagAt cs = false ∧ occurs formOpenAt cs = false ∧ ResourceFree endsName cs ∧
      SourceFree endsName cs ∧ ¬ "loop=\x22".toList <:+: cs ∧ ¬ "cond=\x22".toList <:+: cs)
    ⟨fun ⟨h₁, h₂, h₃, h₄, h₅, h₆, h₇, h₈, h₉⟩ => ⟨h₁, h₂, h₃, h₄, h₅, h₆, h₇, h₈, h₉⟩,
      fun ⟨h₁, h₂, h₃, h₄, h₅, h₆, h₇, h₈, h₉⟩ => ⟨h₁, h₂, h₃, h₄, h₅, h₆, h₇, h₈, h₉⟩⟩

/-- Whether the keyword of a resource ends in front of the text, the rest of a tag without content
on one line. -/
def endsKeyword (rest : List Char) : Bool :=
  ! (rest.head?.map isPlainWord).getD false && contains ['/', '>'] (firstLine rest)

/-- Names of assets and resources end as names of elements do: where a tag shows a source, or has no
content and ends on its line, none of them goes on with a character that belongs to no word, such as
a hyphen. -/
structure NamesEnd (cs : List Char) : Prop where
  source : SourceFree (fun rest => endsWord rest && ! endsName rest) cs
  resource : ResourceFree (fun rest => endsKeyword rest && ! endsName rest) cs

instance (cs : List Char) : Decidable (NamesEnd cs) :=
  decidable_of_iff (SourceFree (fun rest => endsWord rest && ! endsName rest) cs ∧
      ResourceFree (fun rest => endsKeyword rest && ! endsName rest) cs)
    ⟨fun ⟨h₁, h₂⟩ => ⟨h₁, h₂⟩, fun ⟨h₁, h₂⟩ => ⟨h₁, h₂⟩⟩

section Names

variable {ends : List Char → Bool} {cs r rest name word : List Char}

/-- No asset shows a source, wherever the word of its name ends. -/
theorem NamesEnd.sourceFree (hn : NamesEnd cs) (h : ConstructFree cs) : SourceFree endsWord cs := by
  intro name hname
  refine not_occurs_followedBy (fun rest h₁ h₂ => ?_) (h.noSource name hname) (hn.source name hname)
  cases hends : endsName rest <;> simp_all

/-- No tag is one of a resource, wherever its keyword ends. -/
theorem NamesEnd.resourceFree (hn : NamesEnd cs) (h : ConstructFree cs) :
    ResourceFree endsKeyword cs := by
  intro entry hentry
  refine not_occurs_followedBy (fun rest h₁ h₂ => ?_) (h.noResource entry hentry)
    (hn.resource entry hentry)
  cases hends : endsName rest <;> simp_all

theorem SourceFree.at (h : SourceFree ends cs) (hname : name ∈ assetElements) (hr : r <:+ cs)
    (hopen : dropStartFold? ('<' :: name) r = some rest) :
    (ends rest && showsSource rest) = false := by
  obtain ⟨q, hq, rfl⟩ := dropStartFold?_eq_some_iff.mp hopen
  have hne : q ++ rest ≠ [] := by
    intro hnil
    rw [hnil] at hopen
    cases hopen
  have hnone := followedBy_eq_none_iff.mp (not_occurs_iff.mp (h name hname) _ hne hr) ()
    ('<' :: name).length (by rw [phraseFold, hopen]; rfl)
  rwa [← hq.length, List.drop_left] at hnone

theorem ResourceFree.at {verb : ResourceVerb} (h : ResourceFree ends cs)
    (hword : (word, verb) ∈ resourceVerbs) (hr : '<' :: word ++ rest <:+ cs) :
    ends rest = false := by
  have hopen : dropStart? ('<' :: word) ('<' :: word ++ rest) = some rest := dropStart?_append _ _
  have hdrop : ('<' :: word ++ rest).drop ('<' :: word).length = rest := List.drop_left
  have hnone := not_occurs_iff.mp (h _ hword) ('<' :: word ++ rest) (List.cons_ne_nil _ _) hr
  have hends := followedBy_eq_none_iff.mp hnone () ('<' :: word).length (by rw [phrase, hopen]; rfl)
  rwa [hdrop] at hends

/-- A phrase without closing brackets stands within a tag. -/
theorem isSome_phraseFold_takeWhile (hp : ∀ x ∈ p, isFormOf x '>' = false)
    (h : (dropStartFold? p cs).isSome = true) :
    (phraseFold p (cs.takeWhile (· ≠ '>'))).isSome = true := by
  obtain ⟨tail, htail⟩ := Option.isSome_iff_exists.mp h
  obtain ⟨q, hq, rfl⟩ := dropStartFold?_eq_some_iff.mp htail
  have hinside : ∀ d ∈ q, decide (d ≠ '>') = true := by
    intro d hd
    obtain ⟨x, hx, hform⟩ := hq.exists_isFormOf d hd
    rw [decide_eq_true_iff]
    rintro rfl
    rw [hp x hx] at hform
    cases hform
  rw [List.takeWhile_append_of_pos hinside, phraseFold, hq.dropStartFold?]
  rfl

/-- A source that is found is shown. -/
theorem showsSource_of_sourceValue (h : (sourceValue rest).isSome = true) :
    showsSource rest = true := by
  induction rest with
  | nil => cases h
  | cons c cs ih =>
    rw [sourceValue] at h
    have hc : c ≠ '>' := by
      rintro rfl
      cases h
    rw [showsSource, List.takeWhile_cons_of_pos (by simpa using hc)]
    rw [if_neg hc] at h
    cases hopen : (dropStartFold? "src=\x22".toList cs).isSome with
    | true =>
      have hhere := isSome_phraseFold_takeWhile (p := "src=\x22".toList)
        (forall_mem_of_all (by decide)) hopen
      refine occurs_append [c] (occurs_of_isSome ?_ hhere)
      intro hnil
      rw [hnil] at hhere
      cases hhere
    | false =>
      rw [Option.isSome_eq_false_iff, Option.isNone_iff_eq_none] at hopen
      rw [hopen, Option.bind_none, ite_self, Option.none_or, Option.isSome_map] at h
      exact occurs_append [c] (ih h)

end Names

/-! ### Stages that find nothing -/

section Stages

variable {cs : List Char}

theorem authorCommentAt_constructFree (h : ConstructFree cs) {r : List Char} (hr : r <:+ cs) :
    authorCommentAt r = none := by
  have hopen : dropStart? "<!--//".toList r = none :=
    dropStart?_of_absent h.noComment hr ['/', '/']
  rw [authorCommentAt, hopen]
  rfl

theorem dropAuthorComments_constructFree (h : ConstructFree cs) : dropAuthorComments cs = cs :=
  replaceMatches_of_not_occurs _
    (not_occurs_iff.mpr fun _ _ hr => authorCommentAt_constructFree h hr)

theorem resolveAssets_constructFree (h : ConstructFree cs) (hn : NamesEnd cs)
    (webPath : List Char) : resolveAssets webPath cs = cs := by
  refine replaceMatches_of_not_occurs _ (not_occurs_iff.mpr fun r _ hr => ?_)
  unfold assetAt
  split
  next tail _ =>
    refine List.findSome?_eq_none_iff.mpr fun name hname => ?_
    cases hopen : dropStartFold? name tail with
    | none => rfl
    | some rest =>
      have hfree := (hn.sourceFree h).at hname hr hopen
      rw [Option.bind_some]
      split
      next hends =>
        rw [hends, Bool.true_and] at hfree
        cases hsource : sourceValue rest with
        | none => rfl
        | some x =>
          rw [showsSource_of_sourceValue (by rw [hsource]; rfl)] at hfree
          cases hfree
      next => rfl
  next => rfl

/-- A tag without control attributes observes no name. -/
theorem observedName?_constructFree (h : ConstructFree cs) {piece : Piece Tag}
    (hpiece : piece ∈ cut tagAt cs) : observedName? piece = none := by
  cases piece with
  | plain c => rfl
  | found tag source =>
    have hinfix : source <:+: cs := by
      obtain ⟨before, after, hcut⟩ := List.append_of_mem hpiece
      have hsource := flatMap_source_cut tagAt cs
      rw [hcut, List.flatMap_append, List.flatMap_cons] at hsource
      exact ⟨_, _, by rw [List.append_assoc]; exact hsource⟩
    have hmark : occurs controlMarkAt source = false := by
      refine not_occurs_iff.mpr fun r _ hr => ?_
      cases r with
      | nil => rfl
      | cons c r =>
        have htail : r <:+: cs := ((List.suffix_cons c r).trans hr).isInfix.trans hinfix
        have hcond : startsWith "cond=\x22".toList r = false := by
          rw [← Bool.not_eq_true, startsWith_iff]
          exact fun hp => h.noCondition (hp.isInfix.trans htail)
        have hloop : startsWith "loop=\x22".toList r = false := by
          rw [← Bool.not_eq_true, startsWith_iff]
          exact fun hp => h.noLoop (hp.isInfix.trans htail)
        rw [controlMarkAt, hcond, hloop]
        simp only [Bool.and_false]
        rfl
    rw [observedName?, hmark, Bool.and_false]
    rfl

/-- Where no name is observed, wrapping puts the text together again. -/
theorem wrapPieces_nil (offset : Nat) (opened : List OpenElement) (pieces : List (Piece Tag)) :
    wrapPieces [] offset opened pieces = ⟨pieces.flatMap Piece.source, [], [], []⟩ := by
  induction pieces generalizing offset with
  | nil => rfl
  | cons piece rest ih =>
    cases piece with
    | plain c =>
      rw [wrapPieces, ih]
      rfl
    | found tag source =>
      rw [wrapPieces, if_pos List.not_mem_nil, ih]
      rfl

theorem compileScopes_constructFree (h : ConstructFree cs) : compileScopes cs = (cs, []) := by
  have hobserved : (cut tagAt cs).filterMap observedName? = [] :=
    List.filterMap_eq_nil_iff.mpr fun _ hpiece => observedName?_constructFree h hpiece
  rw [compileScopes, hobserved, wrapPieces_nil, flatMap_source_cut]
  rfl

theorem resourceTagAt_constructFree (h : ConstructFree cs) (hn : NamesEnd cs) {r : List Char}
    (hr : '<' :: r <:+ cs) : resourceTagAt r = none := by
  rw [resourceTagAt]
  split
  next verb width rest hverb =>
    obtain ⟨word, hword, hends, rfl, -⟩ := verbAt_eq_some hverb
    have hfree := (hn.resourceFree h).at hword hr
    rw [endsKeyword, hends, Bool.not_false, Bool.true_and, contains, Option.isSome_eq_false_iff,
      Option.isNone_iff_eq_none] at hfree
    rw [hfree]
  next => rfl

/-- No directive stands in a text without constructs. -/
theorem directiveAt_constructFree (h : ConstructFree cs) (hn : NamesEnd cs) {r : List Char}
    (hr : r <:+ cs) : directiveAt r = none := by
  have hbrace : ¬ ['\x7b'] <:+: cs := fun hin => h.noBrace (hin.subset List.mem_cons_self)
  have hbraced : afterPhrase ['\x7b'] bracedAt r = none :=
    afterPhrase_eq_none (dropStart?_of_absent hbrace hr [])
  have htag : afterPhrase ['<'] resourceTagAt r = none := by
    rw [afterPhrase]
    cases hopen : dropStart? ['<'] r with
    | none => rfl
    | some rest =>
      obtain rfl : r = '<' :: rest := dropStart?_eq_some_iff.mp hopen
      rw [Option.bind_some, resourceTagAt_constructFree h hn hr]
      rfl
  have hcomment : ∀ {α : Type} (c : Char) (m : Matcher α),
      afterPhrase ("<!--".toList ++ [c]) m r = none := fun c m =>
    afterPhrase_eq_none (dropStart?_of_absent h.noComment hr [c])
  have hhash : afterPhrase "<!--#".toList resourceCommentAt r = none := hcomment '#' _
  have hpercent : afterPhrase "<!--%".toList resourceCommentAt r = none := hcomment '%' _
  have hcontrol : afterPhrase "<!--@".toList controlAt r = none := hcomment '@' _
  rw [directiveAt, hbraced, htag, hhash, hpercent, hcontrol]
  rfl

theorem constructAt_constructFree (h : ConstructFree cs) (hn : NamesEnd cs) :
    occurs constructAt cs = false := by
  refine not_occurs_iff.mpr fun r _ hr => ?_
  have hopen : dropStart? openTag r = none := dropStart?_of_absent h.noIsland hr []
  rw [constructAt, islandAt, hopen, Option.map_none, directiveAt_constructFree h hn hr]
  rfl

theorem compileDirectives_constructFree (h : ConstructFree cs) (hn : NamesEnd cs)
    (resolve : Path → Option Path) : compileDirectives resolve cs = (cs, []) := by
  rw [compileDirectives, cut, cutFrom_of_not_occurs (constructAt_constructFree h hn)]
  have hpieces := expandPieces_plain resolve 0 cs []
  simp only [List.append_nil, expandPieces] at hpieces
  exact hpieces _

theorem dropBlocks_constructFree (h : ConstructFree cs) : dropBlocks cs = cs := by
  refine replaceMatches_of_not_occurs _ (not_occurs_iff.mpr fun r hne hr => ?_)
  have hcomment : spacedCommentAt r = none := by
    unfold spacedCommentAt
    split
    next => rfl
    next c tail =>
      split
      next =>
        rw [authorCommentAt_constructFree h ((List.suffix_cons c tail).trans hr)]
        rfl
      next => exact authorCommentAt_constructFree h hr
  rw [not_occurs_iff.mp h.noBlock r hne hr, hcomment]
  rfl

theorem augmentPieces_plain (template rulesetDir : Path) (offset : Nat) (cs : List Char) :
    augmentPieces template rulesetDir offset (cs.map .plain) = (cs, []) := by
  induction cs generalizing offset with
  | nil => rfl
  | cons c cs ih => rw [List.map_cons, augmentPieces, ih]

theorem augmentForms_constructFree (h : ConstructFree cs) (template rulesetDir : Path) :
    augmentForms template rulesetDir cs = (cs, []) := by
  have hnone : occurs formAt cs = false :=
    not_occurs_iff.mpr fun r hne hr => formAt_eq_none (not_occurs_iff.mp h.noForm r hne hr)
  rw [augmentForms, cut, cutFrom_of_not_occurs hnone]
  exact augmentPieces_plain template rulesetDir 0 cs

/-- **The code of a template without constructs** is the guard in front of the template, and nothing
is reported. -/
theorem Compiler.compile_constructFree (h : ConstructFree cs) (hn : NamesEnd cs) (c : Compiler)
    (t : FileTree) (path webPath : List Char) :
    (c.compile t path webPath cs).code = c.prologue ++ cs ∧
      (c.compile t path webPath cs).diagnostics = [] := by
  have hprepared : Compiler.prepared webPath cs = cs := by
    rw [Compiler.prepared, dropAuthorComments_constructFree h, resolveAssets_constructFree h hn]
  constructor
  · simp only [code_compile, hprepared, Compiler.emitted, compileScopes_constructFree h,
      compileDirectives_constructFree h hn, dropBlocks_constructFree h,
      augmentForms_constructFree h]
  · simp only [diagnostics_compile, hprepared, Compiler.raised, compileScopes_constructFree h,
      compileDirectives_constructFree h hn, dropBlocks_constructFree h,
      augmentForms_constructFree h]
    rfl

end Stages

/-! ### The program of a text -/

section Text

variable {cs : List Char}

theorem textRun_of_noIsland (h : ¬ openTag <:+: cs) : textRun cs = cs := by
  induction cs with
  | nil => rfl
  | cons c cs ih =>
    have hstart : startsWith openTag (c :: cs) = false := by
      rw [← Bool.not_eq_true, startsWith_iff]
      exact fun hp => h hp.isInfix
    rw [textRun, hstart, ih fun hin => h (List.infix_cons hin)]
    rfl

/-- A text without islands is one statement, if it is anything. -/
theorem parseProgram_of_noIsland (name : String) (h : ¬ openTag <:+: cs) :
    parseProgram name cs = .ok ⟨name, headText cs⟩ := by
  refine parseProgram_of_yields name ⟨[], [], ?_, gives_stop rfl, rfl, ?_⟩
  · rw [textRun_of_noIsland h, List.drop_length]
    exact reads_nil
  · rw [textRun_of_noIsland h, List.append_nil]

/-- A program that is a text writes it. -/
theorem run_headText {σ : Type} (host : Host σ) (name : String) (ctx : Context) (s : σ) :
    (⟨name, headText cs⟩ : Program).run host ctx s = (.ok (String.ofList cs), ctx, s) := by
  rw [headText]
  split
  next hnil =>
    subst hnil
    rfl
  next =>
    have hexec : (Stmt.text (String.ofList cs)).exec host
        { context := ctx, locals := [], out := "", host := s } =
          .ok .normal
            { context := ctx, locals := [], out := "" ++ String.ofList cs, host := s } := rfl
    rw [Program.run, execBlock_cons_of_normal hexec, String.empty_append]
    rfl

end Text

/-! ### Rendering -/

/-- A name stands for itself between quotes. -/
theorem IsName.standsQuoted {w : List Char} (h : IsName w) : StandsQuoted w := by
  have hpart := h.isNamePart
  have hback : '\\' ∉ w := by
    intro hmem
    have hslash := hpart _ hmem
    revert hslash
    decide
  refine ⟨fun hmem => ?_, fun hin => hback (hin.subset List.mem_cons_self), fun hend => ?_⟩
  · have hquote := hpart _ hmem
    revert hquote
    decide
  · exact hback (List.mem_of_getLast? hend)

namespace Handler

variable {h : Handler} {u : Template} {w : World} {code source : List Char} {program : Program}

/-- What is kept for the template, if anything, is this code, and every program that is kept is the
program of its code. -/
structure Keeps (h : Handler) (u : Template) (code : List Char) (w : World) : Prop where
  programs : HoldsPrograms w.programs
  code : ∀ changed kept, h.kept u changed w = some kept → kept = code

/-- The program of code that parses, whether it is kept or not. -/
theorem program_of_parse (hp : HoldsPrograms w.programs) (hparse : u.parse code = .ok program) :
    ∃ programs, Handler.program u code w = .ok program { w with programs } := by
  obtain ⟨e, herror, -⟩ | ⟨found, programs, hfound, -, hprogram⟩ := program_cases hp u code
  · cases hparse.symm.trans herror
  · cases hparse.symm.trans hfound
    exact ⟨programs, hprogram⟩

/-- **A template whose code parses is loaded**, whether its code is kept or not, and asks for no
resource by that. -/
theorem load_of_keeps (hkeeps : h.Keeps u code w) (hread : w.tree.read? u.path = some source)
    (hcode : h.codeOf w.tree u source = .ok code) (hparse : u.parse code = .ok program) :
    ∃ w', h.load u w = .ok program w' ∧ w'.events = w.events := by
  obtain ⟨time, hfile⟩ := FileTree.find?_of_read? hread
  have htime : w.tree.time? u.path = some time := by
    rw [FileTree.time?, hfile]
  rw [load_eq, htime]
  dsimp only
  split
  next kept hkept =>
    cases hkeeps.code _ _ hkept
    obtain ⟨programs, hprogram⟩ :=
      program_of_parse (w := { w with reused := w.reused + 1 }) hkeeps.programs hparse
    exact ⟨_, hprogram, rfl⟩
  next =>
    obtain ⟨programs, hprogram⟩ :=
      program_of_parse (w := { w with compiled := w.compiled + 1 }) hkeeps.programs hparse
    rw [loadAnew_eq, compile_eq, hread]
    dsimp only
    rw [hcode]
    dsimp only
    rw [hprogram]
    exact ⟨_, rfl, (keep_others h u code _).2⟩

theorem isDefined_enter (h : Handler) (u : Template) (ctx : Context) :
    (h.enter u ctx).isDefined h.config.entryConstant = true := by
  unfold enter
  extract_lets before entered
  by_cases hdefined : entered.isDefined h.config.entryConstant = true
  · rw [if_pos hdefined, hdefined]
  · rw [if_neg hdefined, Context.isDefined, Context.define, Assoc.contains, Assoc.get?_insert_self]
    rfl

/-- Only two variables are set before a program starts. -/
theorem get?_enter (h : Handler) (u : Template) (ctx : Context) {name : String}
    (hpath : name ≠ tplPathName) (hinfo : name ≠ "logged_info") :
    (h.enter u ctx).get? name = ctx.get? name := by
  unfold enter
  extract_lets before entered
  have hbefore : before.get? name = ctx.get? name := Context.get?_set_of_ne ctx hpath.symm _
  have hentered : entered.get? name = before.get? name := by
    unfold entered
    split
    · split
      · exact Context.get?_set_of_ne before hinfo.symm _
      · rfl
    · rfl
  -- a constant is no variable
  have hconstant : (if entered.isDefined h.config.entryConstant then entered
      else entered.define h.config.entryConstant (.bool true)).get? name = entered.get? name := by
    split <;> rfl
  rw [hconstant, hentered, hbefore]

end Handler

/-- **A template without constructs renders to itself.**  Its code is the guard in front of it, and
nothing is reported; and where nothing else is kept for it, rendering returns the template, asks for
no resource and changes no variable but those of its directory and of the session. -/
theorem renders_itself {source : List Char} (hfree : ConstructFree source)
    (hends : NamesEnd source) :
    (∀ (c : Compiler) (t : FileTree) (path webPath : List Char),
      (c.compile t path webPath source).code = c.prologue ++ source ∧
        (c.compile t path webPath source).diagnostics = []) ∧
    ∀ (h : Handler) (dir : Path) (file : List Char) (u : Template) (ctx : Context) (w : World),
      IsName h.config.entryConstant.toList → h.find w.tree dir file = .ok u →
      w.tree.read? u.path = some source → h.Keeps u (h.compiler.prologue ++ source) w →
      ∃ after w', h.render dir file ctx w = (.ok (String.ofList source), after, w') ∧
        w'.events = w.events ∧
        ∀ name, name ≠ Handler.tplPathName → name ≠ "logged_info" →
          after.get? name = ctx.get? name := by
  refine ⟨Compiler.compile_constructFree hfree hends, ?_⟩
  intro h dir file u ctx w hname hfind hread hkeeps
  obtain ⟨hcompiled, hclean⟩ :=
    Compiler.compile_constructFree hfree hends h.compiler w.tree u.path u.webPath
  have hcode : h.codeOf w.tree u source = .ok (h.compiler.prologue ++ source) := by
    rw [Handler.codeOf, hclean, if_neg (fun hdirty => hdirty.1 rfl), hcompiled]
  have hprogram := parseProgram_guarded hname.standsQuoted
    (parseProgram_of_noIsland (String.ofList u.programName) hfree.noIsland)
  rw [String.ofList_toList] at hprogram
  have hparse : u.parse (h.compiler.prologue ++ source) =
      .ok ⟨String.ofList u.programName, guard h.config.entryConstant :: headText source⟩ := by
    rw [Template.parse, Compiler.prologue_eq]
    exact hprogram ▸ rfl
  obtain ⟨w', hload, hevents⟩ := Handler.load_of_keeps hkeeps hread hcode hparse
  refine ⟨h.enter u ctx, w', ?_, hevents, fun name => Handler.get?_enter h u ctx⟩
  rw [Handler.render, hfind]
  dsimp only
  rw [Handler.renderAt, Handler.renderUnit, hload]
  dsimp only
  rw [Program.run_guarded, if_pos (Handler.isDefined_enter h u ctx),
    run_headText]
  rfl

/-- A text with brackets, quotes and the end of an island, and nothing in it. -/
def looseText : List Char :=
  "<p class=\x22x\x22>1 < 2 ?> <formula></p>\n<image src=\x22é\x22>".toList

/-- An application with one page, which keeps compiled code in memory. -/
def looseHandler : Handler := { config := {}, root := "/app".toList, backend := .memory }

/-- Its files, before anything is kept. -/
def looseWorld : World :=
  { tree := { nodes := [(["app".toList], .dir),
      (["app".toList, "p.html".toList], .file (.text looseText) 0)] }, now := 0 }

/-- Loose brackets come out as they are. -/
theorem looseText_rendered :
    ConstructFree looseText ∧ NamesEnd looseText ∧
      ∃ after w', looseHandler.render [] "p.html".toList {} looseWorld =
          (.ok (String.ofList looseText), after, w') ∧ w'.events = [] := by
  have hfree : ConstructFree looseText := by decide +kernel
  have hends : NamesEnd looseText := by decide +kernel
  have hname : IsName looseHandler.config.entryConstant.toList := by
    rw [IsName]
    decide +kernel
  have hfind : looseHandler.find looseWorld.tree [] "p.html".toList =
      .ok (.ofPath .exact {} "/app".toList "/app/p.html".toList) := by decide +kernel
  have hkeeps : looseHandler.Keeps (.ofPath .exact {} "/app".toList "/app/p.html".toList)
      (looseHandler.compiler.prologue ++ looseText) looseWorld :=
    { programs := fun _ _ _ hget => by cases hget
      code := fun _ _ hkept => by cases hkept }
  obtain ⟨after, w', hrender, hevents, -⟩ :=
    (renders_itself hfree hends).2 looseHandler [] "p.html".toList _ {} looseWorld hname hfind
      (by decide +kernel) hkeeps
  exact ⟨hfree, hends, after, w', hrender, hevents⟩

/-- A tag whose name starts as that of an image. -/
def imageBoxText : List Char := "<img-box src=\x22a.png\x22></img-box>".toList

/-- A tag whose name starts as that of a resource. -/
def loadMoreText : List Char := "<load-more pages=\x222\x22 />".toList

/-- The source of an `img-box` is taken for that of an image, and a `load-more` for a resource. -/
theorem longer_names_taken :
    (ConstructFree imageBoxText ∧
      ((Compiler.forConstant "__XTPL__").compile {} "/app/p.html".toList "/m/".toList
        imageBoxText).code ≠ (Compiler.forConstant "__XTPL__").prologue ++ imageBoxText) ∧
    ConstructFree loadMoreText ∧
      ((Compiler.forConstant "__XTPL__").compile {} "/app/p.html".toList "/m/".toList
        loadMoreText).diagnostics ≠ [] := by
  decide +kernel

end Stencil
