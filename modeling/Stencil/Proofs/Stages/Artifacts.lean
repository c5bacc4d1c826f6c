import Stencil.Markup.Compile
import Stencil.Proofs.Forms.Augmenting
import Stencil.Proofs.Relocation
import Stencil.Proofs.Stages.Blocks

/-!
# Islands in artifacts

An opening tag of a form ends outside of islands, and what is inserted into a form and taken out of
its tag leaves them alone.  With the stages before, islands stand in the compiled code.

## Main definitions

* `removedRulesets` — the attributes that are taken out of forms.
* `Compiler.wrapped`, `Compiler.expanded` — what the stages in front write.

## Main results

* `formTagEnd_outside` — an opening tag does not end inside of an island.
* `holds_augmentForms` — the text with the fields of its forms holds the islands.
* `Compiler.compile_holds_islands` — **islands stand in the output of every later stage.**
-/

namespace Stencil

open Text Lexer

/-- The attribute that is taken out of a form. -/
def FormPiece.removed? : FormPiece → Option (List Char)
  | form f => (findFirst? rulesetAttributeAt f.tag).map fun x => x.2.2.1
  | rest => none

/-- The attributes that are taken out of the forms of a text. -/
def removedRulesets (cs : List Char) : List (List Char) :=
  (findAll formAt cs).filterMap FormPiece.removed?

variable {is : List (List Char)} {i a cs x rest : List Char}

/-! ### Marks of forms -/

theorem startsWithMark_formAt : StartsWithMark formAt :=
  startsWithMark_of_imp
    (fun cs h => Option.isSome_iff_ne_none.mpr fun hnone => h (formAt_eq_none hnone))
    fun cs h => by simp only [isSome_stageMarkAt, h, Bool.true_or, Bool.or_true]

theorem startsWithMark_rulesetAttributeAt : StartsWithMark rulesetAttributeAt := by
  intro a b rest h
  have hword : ∀ x ∈ "ruleset=\x22".toList, isFormOf x '?' = false := forall_mem_of_all (by decide)
  have hphrase : (phraseFold "ruleset=\x22".toList
      (a.dropWhile isBlank ++ '?' :: b)).isSome = true := by
    rw [rulesetAttributeAt, dropWhile_question] at h
    rw [phraseFold, Option.isSome_map]
    cases hopen : dropStartFold? "ruleset=\x22".toList (a.dropWhile isBlank ++ '?' :: b) with
    | none =>
      rw [hopen] at h
      exact absurd rfl h
    | some tail => rfl
  rw [stopsAtQuestion_phraseFold hword _ b rest] at hphrase
  have hmark : occurs stageMarkAt (a.dropWhile isBlank ++ '?' :: rest) = true := by
    refine occurs_of_isSome (List.append_ne_nil_of_right_ne_nil _ (List.cons_ne_nil _ _)) ?_
    simp only [isSome_stageMarkAt, hphrase, Bool.or_true]
  have hsplit : a ++ '?' :: rest =
      a.takeWhile isBlank ++ (a.dropWhile isBlank ++ '?' :: rest) := by
    rw [← List.append_assoc, List.takeWhile_append_dropWhile]
  rw [hsplit]
  exact occurs_append _ hmark

/-! ### Opening tags of forms -/

section Tags

variable {k n : Nat} {w z : List Char}

theorem le_of_formTagEnd (h : formTagEnd k cs = some n) : k ≤ n := by
  induction cs generalizing k n with
  | nil => cases k <;> cases h
  | cons c cs ih =>
    cases k with
    | zero => exact Nat.zero_le n
    | succ k =>
      obtain ⟨n', hn', rfl⟩ := Option.map_eq_some_iff.mp h
      exact Nat.succ_le_succ (ih hn')

/-- An island is passed in an opening tag. -/
theorem ClosesOnce.formTagEnd (hi : ClosesOnce i) (rest : List Char) :
    formTagEnd 0 (i ++ rest) = (formTagEnd 0 rest).map (· + i.length) := by
  obtain ⟨code, rfl, hcode⟩ := hi
  exact (TagPart.island code hcode).formTagEnd rest

/-- The first closing tag of a text with an island ends before the island or with it, or stands
behind it. -/
theorem closing_outside (hi : ClosesOnce i) {code tail : List Char}
    (h : breakOn closeTag (w ++ (i ++ z)) = some (code, tail)) :
    code.length + 2 ≤ w.length ∨ w.length + i.length ≤ code.length + 2 := by
  cases hw : breakOn closeTag w with
  | some found =>
    obtain ⟨code', tail'⟩ := found
    rw [breakOn_append hw] at h
    cases h
    have hlen := congrArg List.length (breakOn_eq_some hw)
    simp only [List.length_append, closeTag, List.length_cons, List.length_nil] at hlen
    exact .inl (by omega)
  | none =>
    obtain ⟨inner, rfl, hinner⟩ := hi
    have hbefore : Misses (phrase closeTag) w (openTag ++ (inner ++ closeTag) ++ z) := by
      refine misses_phrase (by rw [contains, hw]; rfl) (.inl fun d hd => ?_)
      cases hd
      decide
    have hopening : Misses (phrase closeTag) openTag inner := by
      refine misses_phrase (by decide) (.inr fun d hd => ?_)
      cases hd
      decide
    have hnone : breakOn closeTag (openTag ++ inner) = none := by
      rw [hopening.breakOn, hinner]
      rfl
    have hfirst : breakOn closeTag ((openTag ++ inner) ++ (closeTag ++ z)) =
        some (openTag ++ inner, z) := breakOn_append_self (by decide) hnone
    have hsplit : openTag ++ (inner ++ closeTag) ++ z = (openTag ++ inner) ++ (closeTag ++ z) := by
      simp only [List.append_assoc]
    rw [hbefore.breakOn, hsplit, hfirst] at h
    cases h
    refine .inr (Nat.le_of_eq ?_)
    simp only [List.length_append, closeTag, List.length_cons, List.length_nil, Nat.add_assoc]

/-- An island that is read in front of another one opens in front of it. -/
theorem exists_of_opening (hi : ClosesOnce i) {c : Char}
    (h : dropStart? openTag (c :: (w ++ (i ++ z))) = some rest) :
    ∃ w', w = "?tpl".toList ++ w' ∧ rest = w' ++ (i ++ z) := by
  have hsplit : openTag = '<' :: "?tpl".toList := rfl
  rw [dropStart?_eq_some_iff, hsplit, List.cons_append] at h
  obtain ⟨-, htail⟩ := List.cons.inj h
  rcases List.append_eq_append_iff.mp htail.symm with ⟨t, rfl, hrest⟩ | ⟨t, ht, hrest⟩
  · exact ⟨t, rfl, hrest⟩
  · cases t with
    | nil => exact ⟨[], by rw [List.append_nil] at ht ⊢; exact ht.symm, hrest.symm⟩
    | cons d t =>
      obtain ⟨code, rfl, -⟩ := hi
      have hd : '<' = d := (List.cons.inj hrest).1
      have hmem : d ∈ "?tpl".toList := ht ▸ List.mem_append_right w List.mem_cons_self
      rw [← hd] at hmem
      exact absurd hmem (by decide)

/-- An island that is read in front of another one ends in front of it, or behind it. -/
theorem skipped_outside (hi : ClosesOnce i) {c : Char} {code tail : List Char}
    (hopen : dropStart? openTag (c :: (w ++ (i ++ z))) = some rest)
    (hclose : breakOn closeTag rest = some (code, tail)) :
    code.length + openTag.length + 1 ≤ w.length ∨
      w.length + i.length ≤ code.length + openTag.length + 1 := by
  obtain ⟨w', rfl, rfl⟩ := exists_of_opening hi hopen
  have hout := closing_outside hi hclose
  have hfour : "?tpl".toList.length = 4 := rfl
  have hfive : openTag.length = 5 := rfl
  rw [List.length_append, hfour, hfive]
  omega

/-- **An opening tag does not end inside of an island.** -/
theorem formTagEnd_outside (hi : ClosesOnce i)
    (hk : k ≤ w.length ∨ w.length + i.length ≤ k)
    (h : formTagEnd k (w ++ (i ++ z)) = some n) : n ≤ w.length ∨ w.length + i.length ≤ n := by
  induction w generalizing k n with
  | nil =>
    rcases hk with hk | hk
    · rw [List.length_nil, Nat.le_zero] at hk
      subst hk
      rw [List.nil_append, hi.formTagEnd] at h
      obtain ⟨n', -, rfl⟩ := Option.map_eq_some_iff.mp h
      exact .inr (by simp)
    · exact .inr (hk.trans (le_of_formTagEnd h))
  | cons c w ih =>
    rw [List.length_cons] at hk ⊢
    cases k with
    | succ k =>
      obtain ⟨n', hn', rfl⟩ := Option.map_eq_some_iff.mp h
      rcases ih (by omega) hn' with hle | hle
      · exact .inl (by omega)
      · exact .inr (by omega)
    | zero =>
      rw [List.cons_append, formTagEnd] at h
      split at h
      next =>
        cases h
        exact .inl (by omega)
      next =>
        split at h
        next =>
          split at h
          next rest hopen =>
            split at h
            next code tail hcut =>
              obtain ⟨n', hn', rfl⟩ := Option.map_eq_some_iff.mp h
              rcases ih (skipped_outside hi hopen hcut) hn' with hle | hle
              · exact .inl (by omega)
              · exact .inr (by omega)
            next => cases h
          next => cases h
        next =>
          obtain ⟨n', hn', rfl⟩ := Option.map_eq_some_iff.mp h
          rcases ih (.inl (Nat.zero_le _)) hn' with hle | hle
          · exact .inl (by omega)
          · exact .inr (by omega)

/-- No island opens in the name of a form tag. -/
theorem opening_behind_name {word t : List Char} (hword : FormOf "<form".toList word)
    (h : word ++ rest = w ++ '<' :: '?' :: t) : ∃ w', w = word ++ w' := by
  have hsplit : "<form".toList = '<' :: "form".toList := rfl
  rw [hsplit] at hword
  obtain ⟨name, rfl, hname⟩ := hword.eq_cons (by decide)
  have hletters : '<' ∉ name ∧ '?' ∉ name := by
    have hall : ∀ x ∈ "form".toList, isFormOf x '<' = false ∧ isFormOf x '?' = false :=
      forall_mem_of_all (by decide)
    constructor <;> intro hmem <;> obtain ⟨x, hx, hform⟩ := hname.exists_isFormOf _ hmem
    · rw [(hall x hx).1] at hform
      cases hform
    · rw [(hall x hx).2] at hform
      cases hform
  rcases List.append_eq_append_iff.mp h with ⟨w', rfl, -⟩ | ⟨b, hb, hrest⟩
  · exact ⟨w', rfl⟩
  · cases w with
    | cons c w =>
      cases b with
      | nil => exact ⟨[], by rw [List.append_nil] at hb ⊢; exact hb.symm⟩
      | cons d b =>
        -- the angle bracket would be a letter of the name
        rw [List.cons_append] at hb hrest
        rw [← (List.cons.inj hrest).1] at hb
        exact absurd ((List.cons.inj hb).2 ▸ List.mem_append_right w List.mem_cons_self) hletters.1
    | nil =>
      rw [List.nil_append] at hb
      subst hb
      cases name with
      | nil => cases hname
      | cons d name =>
        have hd : '?' = d := (List.cons.inj (List.cons.inj hrest).2).1
        exact absurd (hd ▸ List.mem_cons_self) hletters.2

/-- No island begins in the opening tag of a form and ends behind it. -/
theorem not_straddles_tag (hi : ClosesOnce i) {f : Form} (hf : f.Found) :
    ¬ Straddles i f.tag z := by
  rintro ⟨u, v, w, y, hu, hv, huv, htag, rfl⟩
  obtain ⟨word, parts, hword, -, hparts⟩ := hf.opening
  have hisland : word ++ ((parts.flatMap TagPart.text ++ ['>']) ++ (v ++ y)) = w ++ (i ++ y) := by
    rw [← List.append_assoc, ← hparts, htag, huv, List.append_assoc, List.append_assoc]
  obtain ⟨w', rfl⟩ : ∃ w', w = word ++ w' := by
    obtain ⟨code, hcode, -⟩ := hi
    have hopening : word ++ ((parts.flatMap TagPart.text ++ ['>']) ++ (v ++ y)) =
        w ++ '<' :: '?' :: ("tpl".toList ++ (code ++ closeTag) ++ y) := by
      rw [hisland, hcode]
      rfl
    exact opening_behind_name hword hopening
  rw [List.append_assoc word] at hisland
  have hend : formTagEnd 0 ((parts.flatMap TagPart.text ++ ['>']) ++ (v ++ y)) =
      some ((parts.flatMap TagPart.text).length + 1) := by
    rw [List.append_assoc, formTagEnd_parts, List.singleton_append, formTagEnd, if_pos rfl,
      Option.map_some, Nat.add_comm]
  rw [List.append_cancel_left hisland] at hend
  have hout := formTagEnd_outside hi (.inl (Nat.zero_le _)) hend
  -- the tag is the name and what is read behind it
  have hlen := congrArg List.length (htag.symm.trans hparts)
  have hpos := List.length_pos_iff.mpr hu
  have hpos' := List.length_pos_iff.mpr hv
  simp only [List.length_append, List.length_singleton, huv] at hlen hout
  omega

end Tags

/-! ### Forms -/

section Forms

variable {f : Form} {n : Nat} (template rulesetDir : Path)

/-- The opening tag without its ruleset holds the islands. -/
theorem holds_rulesetParts {tag : List Char} (hquiet : ∀ i ∈ is, Quiet i)
    (hopen : ∀ x ∈ findFirst? rulesetAttributeAt tag, contains openTag x.2.2.1 = false)
    (h : Holds is tag) : Holds is (rulesetParts template rulesetDir tag).1 := by
  rw [rulesetParts]
  cases hfirst : findFirst? rulesetAttributeAt tag with
  | none => exact h
  | some found =>
    obtain ⟨before, name, source, rest⟩ := found
    obtain ⟨htag, n, hmatch, hsource⟩ := findFirst?_eq_some hfirst
    have hkept : Holds is (before ++ rest) := by
      rw [htag] at h
      refine h.cutOut (fun i hi => (hquiet i hi).closes) (fun i hi => ?_) (hopen _ hfirst)
        fun d hd => ?_
      · exact not_straddles_of_startsWithMark startsWithMark_rulesetAttributeAt (fun _ => rfl)
          (hquiet i hi) (hmatch.trans_ne (Option.some_ne_none _))
      · obtain ⟨blanks, word, -, -, -, hattribute⟩ := rulesetAttribute_of_some hmatch
        rw [hsource, hattribute, ← List.append_assoc, ← List.append_assoc,
          List.getLast?_concat] at hd
        cases hd
        decide
    cases hpath : rulesetPath? name template rulesetDir with
    | none => simpa only [hpath] using hkept
    | some path => simpa only [hpath, List.append_assoc] using hkept.behind _

/-- A form with its fields holds the islands. -/
theorem holds_augment (hquiet : ∀ i ∈ is, Quiet i)
    (hmatch : formAt (a ++ rest) = some (.form f, a.length))
    (hopen : ∀ source ∈ (FormPiece.form f).removed?, contains openTag source = false)
    (h : Holds is (x ++ (a ++ rest))) :
    Holds is (x ++ ((f.augment template rulesetDir).1 ++ rest)) := by
  obtain ⟨hf, tail, hcs, hlen⟩ := Form.found_of_formAt hmatch
  obtain ⟨rfl, rfl⟩ := List.append_inj hcs hlen
  have hkept : ∀ x ∈ findFirst? rulesetAttributeAt f.tag, contains openTag x.2.2.1 = false :=
    fun x hx => hopen _ (Option.mem_map_of_mem _ hx)
  rcases h.split with ⟨l, r, rfl, hl, hr⟩ | ⟨i, hi, hstraddles⟩
  · have hr_quiet : ∀ i ∈ r, Quiet i := fun i hi => hquiet i (List.mem_append_right l hi)
    have hassoc : f.source ++ rest = f.tag ++ (f.body ++ f.closing ++ rest) :=
      List.append_assoc _ _ _
    rw [hassoc] at hr
    rcases hr.split with ⟨l', r', rfl, hl', hr'⟩ | ⟨i, hi, hstraddles⟩
    · have htag := holds_rulesetParts template rulesetDir
        (fun i hi => hr_quiet i (List.mem_append_left r' hi)) hkept hl'
      have hform : (f.augment template rulesetDir).1 ++ rest =
          (rulesetParts template rulesetDir f.tag).1 ++
            ((missingFields f.body ++ (rulesetParts template rulesetDir f.tag).2.1) ++
              (f.body ++ f.closing ++ rest)) := by
        simp only [Form.augment, List.append_assoc]
      rw [hform]
      exact hl.append (htag.append (hr'.behind _))
    · exact absurd hstraddles (not_straddles_tag (hr_quiet i hi).closes hf)
  · exact absurd hstraddles (not_straddles_of_startsWithMark startsWithMark_formAt (fun _ => rfl)
      (hquiet i hi) (hmatch.trans_ne (Option.some_ne_none _)))

/-- **The text with the fields of its forms holds the islands.** -/
theorem holds_augmentForms (hquiet : ∀ i ∈ is, Quiet i)
    (hopen : ∀ source ∈ removedRulesets cs, contains openTag source = false) (h : Holds is cs) :
    Holds is (augmentForms template rulesetDir cs).1 := by
  rw [augmentForms_fst]
  refine holds_cutFrom (x := [])
    (P := fun v _ => ∀ source ∈ v.removed?, contains openTag source = false) (fun _ => rfl)
    exists_append_of_formAt (fun {x a rest v} hmatch hv h => ?_) cs.length le_rfl
    (fun v a hmem source hsource => ?_) h
  · cases v with
    | form f => exact holds_augment template rulesetDir hquiet hmatch hv h
    | rest => exact h
  · exact hopen source (List.mem_filterMap.mpr
      ⟨v, List.mem_filterMap.mpr ⟨_, hmem, rfl⟩, hsource⟩)

end Forms

/-! ### Templates -/

namespace Compiler

/-- What the stage of controlled elements writes. -/
def wrapped (webPath source : List Char) : List Char := (compileScopes (prepared webPath source)).1

/-- What the stage of directives writes. -/
def expanded (c : Compiler) (t : FileTree) (path : Path) (webPath source : List Char) : List Char :=
  (compileDirectives (t.resolveDir? c.root path) (wrapped webPath source)).1

/-- **Later stages keep islands.**  The islands behind the stage of controlled elements stand in the
text with its directives replaced, when each closes once and no directive holds an opening tag.  The
islands there stand in the compiled code, when none holds a mark of a later stage and nothing that
these stages take out holds an opening tag. -/
theorem compile_holds_islands (c : Compiler) (t : FileTree) (path : Path)
    (webPath source : List Char) :
    ((∀ i ∈ islandsOf (wrapped webPath source), ClosesOnce i) →
      (∀ d ∈ scanDirectives (wrapped webPath source), contains openTag d.source = false) →
        Holds (islandsOf (wrapped webPath source)) (c.expanded t path webPath source)) ∧
    ((∀ i ∈ islandsOf (c.expanded t path webPath source), Quiet i) →
      (∀ removed ∈ removedBlocks (c.expanded t path webPath source) ++
        removedRulesets (dropBlocks (c.expanded t path webPath source)),
          contains openTag removed = false) →
        Holds (islandsOf (c.expanded t path webPath source))
          (c.compile t path webPath source).code) := by
  refine ⟨holds_compileDirectives _, fun hquiet hremoved => ?_⟩
  have hexpanded := holds_islandsOf (c.expanded t path webPath source)
  have hplain := holds_dropBlocks hquiet
    (fun removed h => hremoved removed (List.mem_append_left _ h)) hexpanded
  have hformed := holds_augmentForms (relativeToRoot c.root path) c.rulesetDir hquiet
    (fun removed h => hremoved removed (List.mem_append_right _ h)) hplain
  exact hformed.behind c.prologue

/-- A form with a ruleset around an element whose condition holds what reads as a directive and as
an element. -/
def quotedMarkup : List Char :=
  "<form ruleset=\x22r\x22><p cond=\x22$a == '\x7b$b\x7d <p>'\x22>\x7b$c\x7d</p></form>".toList

/-- The condition of that element stays as it is written. -/
theorem compile_holds_quotedMarkup :
    "<?tpl if ($__ctx->a == '\x7b$b\x7d <p>') \x7b ?>".toList ∈
        islandsOf (wrapped ['/'] quotedMarkup) ∧
      Holds (islandsOf (wrapped ['/'] quotedMarkup))
        (plainCompiler.expanded {} "/app/a.html".toList ['/'] quotedMarkup) ∧
      (islandsOf (plainCompiler.expanded {} "/app/a.html".toList ['/'] quotedMarkup)).length = 3 ∧
      Holds (islandsOf (plainCompiler.expanded {} "/app/a.html".toList ['/'] quotedMarkup))
        (plainCompiler.compile {} "/app/a.html".toList ['/'] quotedMarkup).code := by
  obtain ⟨hexpanded, hcompiled⟩ :=
    compile_holds_islands plainCompiler {} "/app/a.html".toList ['/'] quotedMarkup
  exact ⟨by decide +kernel, hexpanded (by decide +kernel) (by decide +kernel), by decide +kernel,
    hcompiled (by decide +kernel) (by decide +kernel)⟩

/-- A condition with a closing tag in a string literal. -/
def quotedClosing : List Char := "<p cond=\x22$a == '?>\x7b$b\x7d'\x22>x</p>".toList

/-- Behind a closing tag in a string literal, directives are replaced in the code. -/
theorem quotedClosing_island_replaced :
    islandsOf (wrapped ['/'] quotedClosing) =
      ["<?tpl if ($__ctx->a == '?>\x7b$b\x7d') \x7b ?>".toList, "<?tpl \x7d ?>".toList] ∧
    plainCompiler.expanded {} "/app/a.html".toList ['/'] quotedClosing =
      ("<?tpl if ($__ctx->a == '?><?tpl echo $__ctx->b ?>') \x7b ?><p>x</p>".toList ++
        "<?tpl \x7d ?>".toList) ∧
    ∃ i ∈ islandsOf (wrapped ['/'] quotedClosing),
      contains i (plainCompiler.expanded {} "/app/a.html".toList ['/'] quotedClosing) = false := by
  decide +kernel

end Compiler

end Stencil
