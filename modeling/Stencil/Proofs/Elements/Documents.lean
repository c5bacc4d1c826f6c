import Stencil.Proofs.Elements.Attributes

/-!
# Documents

A document is a tree of texts and elements.  It is printed, the tags of the text are wrapped, and
the code that comes out is parsed into the statements of the tree: every control attribute of an
element is a statement around it, the first one outermost.

The tags of a document are matched as the tree has them, because the tags of a body close what they
open.  Its code is read from right to left, where the text of an element gives its statements in
front of those of any other text.

## Main definitions

* `Document` — the trees, and `Document.source`, the text of a tree.
* `mergeTexts` — statements with texts side by side made one.
* `around` — statements under control.
* `Document.stmts` — the statements of a tree.
* `Renders code B` — in front of any text, the code gives the statements `B`.

## Main results

* `wrapPieces_pieces` — what wrapping makes of a document.
* `Renders.around` — the heads and the closing braces around an element.
* `parseProgram_of_document` — a printed document is compiled without findings, into its statements.
-/

namespace Stencil

open Text Lexer Stencil.Parser

variable {a b cs rest : List Char} {A B K : List Stmt} {r us vs : List Token} {stop : Stop}

/-- A tree of texts and elements, side by side. -/
inductive Document where
  /-- Nothing more. -/
  | done : Document
  /-- Text. -/
  | text (chars : List Char) (noTag : '<' ∉ chars) (rest : Document) : Document
  /-- An element without content. -/
  | alone (tag : OpenTag) (ending : Ending)
      (isAlone : isVoid tag.name.folded = true ∨ ending ≠ .plain) (rest : Document) : Document
  /-- An element with its content and its closing tag. -/
  | paired (tag : OpenTag) (notVoid : isVoid tag.name.folded = false) (body : Document)
      (closing : ElementName) (same : closing.folded = tag.name.folded) (rest : Document) : Document

namespace Document

/-- The document as it is printed. -/
def source : Document → List Char
  | done => []
  | text chars _ rest => chars ++ rest.source
  | alone tag e _ rest => tag.source e ++ rest.source
  | paired tag _ body closing _ rest =>
    tag.source .plain ++ (body.source ++ (closingTag closing ++ rest.source))

/-- The tags of the document and the characters between them. -/
def pieces : Document → List (Piece Tag)
  | done => []
  | text chars _ rest => chars.map .plain ++ rest.pieces
  | alone tag e _ rest =>
    .found { name := tag.name.folded, isClosing := false } (tag.source e) :: rest.pieces
  | paired tag _ body closing _ rest =>
    .found { name := tag.name.folded, isClosing := false } (tag.source .plain) ::
      (body.pieces ++ .found { name := closing.folded, isClosing := true } (closingTag closing) ::
        rest.pieces)

end Document

/-- Text under control: the heads in front of it, and the closing braces after it. -/
def wrapping (controls : List Control) (inner : List Char) : List Char :=
  headIslands (controls.map Control.head) ++ (inner ++ closeIsland controls.length)

/-- What the document is compiled to. -/
def Document.code : Document → List Char
  | .done => []
  | .text chars _ rest => chars ++ rest.code
  | .alone tag e _ rest => wrapping tag.controls (tag.kept e) ++ rest.code
  | .paired tag _ body closing _ rest =>
    wrapping tag.controls (tag.kept .plain ++ (body.code ++ closingTag closing)) ++ rest.code

/-! ### Meaning -/

/-- Statements with texts side by side made one. -/
def mergeTexts : List Stmt → List Stmt
  | [] => []
  | .text s :: K => joinText s.toList (mergeTexts K)
  | s :: K => s :: mergeTexts K

/-- Statements under control, the first one outermost. -/
def around : List Control → List Stmt → List Stmt
  | [], B => B
  | c :: controls, B => [c.wrap (mergeTexts (around controls B))]

/-- The statements of a tree. -/
def Document.stmts : Document → List Stmt
  | .done => []
  | .text chars _ rest => .text (String.ofList chars) :: rest.stmts
  | .alone tag e _ rest => around tag.controls [.text (String.ofList (tag.kept e))] ++ rest.stmts
  | .paired tag _ body closing _ rest =>
    around tag.controls (.text (String.ofList (tag.kept .plain)) ::
      (body.stmts ++ [.text (String.ofList (closingTag closing))])) ++ rest.stmts

/-! ### Wrapping -/

theorem cutFrom_pieces (t : Document) (rest : List Char) :
    cutFrom tagAt 0 (t.source ++ rest) = t.pieces ++ cutFrom tagAt 0 rest := by
  induction t generalizing rest with
  | done => rfl
  | text chars noTag more ih =>
    have hplain : ∀ c ∈ chars, ∀ ds, tagAt (c :: ds) = none :=
      fun c hc => tagAt_of_ne fun he => noTag (he ▸ hc)
    rw [Document.source, List.append_assoc, cutFrom_plain hplain, ih, Document.pieces,
      List.append_assoc]
  | alone tag e _ more ih =>
    rw [Document.source, List.append_assoc, cutFrom_openTag, ih]
    rfl
  | paired tag _ body closing _ more ihb ih =>
    rw [Document.source, List.append_assoc, List.append_assoc, List.append_assoc, cutFrom_openTag,
      ihb, cutFrom_closingTag, ih, Document.pieces, List.cons_append, List.append_assoc]
    rfl

theorem cut_pieces (t : Document) : cut tagAt t.source = t.pieces := by
  have h := cutFrom_pieces t []
  rw [List.append_nil] at h
  rw [cut, h]
  exact List.append_nil _

variable {observed : List (List Char)} {ps qs : List (Piece Tag)}

/-- Wherever the pieces stand, wrapping makes the code of them and goes on with the rest. -/
def WrapsTo (observed : List (List Char)) (ps : List (Piece Tag)) (code : List Char) : Prop :=
  ∀ offset opened rest, ∃ offset',
    wrapPieces observed offset opened (ps ++ rest) =
      (wrapPieces observed offset' opened rest).before code

theorem before_before (w : Wrapped) (a b : List Char) :
    (w.before b).before a = w.before (a ++ b) := by
  simp [Wrapped.before]

theorem wrapsTo_nil : WrapsTo observed [] [] := fun offset _ _ => ⟨offset, rfl⟩

theorem WrapsTo.append (ha : WrapsTo observed ps a) (hb : WrapsTo observed qs b) :
    WrapsTo observed (ps ++ qs) (a ++ b) := by
  intro offset opened rest
  obtain ⟨o₁, h₁⟩ := ha offset opened (qs ++ rest)
  obtain ⟨o₂, h₂⟩ := hb o₁ opened rest
  exact ⟨o₂, by rw [List.append_assoc, h₁, h₂, before_before]⟩

theorem wrapsTo_plain (cs : List Char) : WrapsTo observed (cs.map .plain) cs := by
  induction cs with
  | nil => exact wrapsTo_nil
  | cons c cs ih =>
    intro offset opened rest
    obtain ⟨o, h⟩ := ih (offset + c.utf8Size) opened rest
    refine ⟨o, ?_⟩
    rw [List.map_cons, List.cons_append, wrapPieces, h, before_before]
    rfl

/-- A tag of a name that is not observed stays. -/
theorem wrapsTo_unobserved {tag : Tag} (h : tag.name ∉ observed) (source : List Char) :
    WrapsTo observed [.found tag source] source := by
  intro offset opened rest
  refine ⟨offset + byteSize source, ?_⟩
  rw [List.singleton_append, wrapPieces, if_pos h]

/-- Without control attributes nothing is put around a tag. -/
theorem wrapping_of_controlAttributes_eq_nil {tag : OpenTag} {e : Ending}
    (h : controlAttributes (tag.source e) = [] ∧ openTagText (tag.source e) = tag.source e) :
    tag.controls = [] ∧ tag.kept e = tag.source e := by
  constructor
  · have hvalues := map_value_controlAttributes tag e
    rw [h.1] at hvalues
    exact List.map_eq_nil_iff.mp hvalues.symm
  · rw [← openTagText_source, h.2]

theorem wrapping_nil (a : List Char) : wrapping [] a = a := by
  simp [wrapping, headIslands, closeIsland]

/-- An element without content. -/
theorem wrapsTo_alone {tag : OpenTag} {e : Ending}
    (halone : isVoid tag.name.folded = true ∨ e ≠ .plain)
    (hun : tag.name.folded ∉ observed →
      controlAttributes (tag.source e) = [] ∧ openTagText (tag.source e) = tag.source e) :
    WrapsTo observed [.found { name := tag.name.folded, isClosing := false } (tag.source e)]
      (wrapping tag.controls (tag.kept e)) := by
  by_cases hobs : tag.name.folded ∈ observed
  · intro offset opened rest
    have ha : isAlone tag.name.folded (tag.source e) = true := by
      rw [isAlone_source]
      simpa using halone
    refine ⟨offset + byteSize (tag.source e), ?_⟩
    rw [List.singleton_append, wrapPieces, if_neg (not_not_intro hobs)]
    simp only [Bool.false_eq_true, if_false, ha, if_true]
    simp [Wrapped.alone, Wrapped.before, malformedLoops_source, headsOf_source, openTagText_source,
      wrapping]
  · -- a name that is not observed has no control attributes
    obtain ⟨hcontrols, hkept⟩ := wrapping_of_controlAttributes_eq_nil (hun hobs)
    rw [hcontrols, hkept, wrapping_nil]
    exact wrapsTo_unobserved hobs _

/-- The closing tag of an element gives its statements back to the opening one. -/
theorem opened_closing (w : Wrapped) (name source closing : List Char) (offset n : Nat) :
    ((w.closing name closing n).before a).opened name offset source =
      { w with
        out := headIslands (headsOf source) ++ openTagText source ++
          (a ++ (closing ++ closeIsland n ++ w.out))
        malformed := malformedLoops offset source ++ w.malformed } := by
  simp [Wrapped.opened, Wrapped.before, Wrapped.closing]

/-- An element with its content. -/
theorem WrapsTo.paired {tag : OpenTag} {closing : ElementName}
    (hvoid : isVoid tag.name.folded = false) (hsame : closing.folded = tag.name.folded)
    (hun : tag.name.folded ∉ observed → controlAttributes (tag.source .plain) = [] ∧
      openTagText (tag.source .plain) = tag.source .plain)
    (hbody : WrapsTo observed ps a) :
    WrapsTo observed
      (.found { name := tag.name.folded, isClosing := false } (tag.source .plain) ::
        (ps ++ [.found { name := closing.folded, isClosing := true } (closingTag closing)]))
      (wrapping tag.controls (tag.kept .plain ++ (a ++ closingTag closing))) := by
  by_cases hobs : tag.name.folded ∈ observed
  · intro offset opened rest
    have ha : isAlone tag.name.folded (tag.source .plain) = false := by
      rw [isAlone_source, hvoid]
      rfl
    -- the content is wrapped while the element is open
    obtain ⟨o, ho⟩ := hbody (offset + byteSize (tag.source .plain))
      (⟨tag.name.folded, (headsOf (tag.source .plain)).length⟩ :: opened)
      (.found { name := closing.folded, isClosing := true } (closingTag closing) :: rest)
    refine ⟨o + byteSize (closingTag closing), ?_⟩
    rw [List.cons_append, List.append_assoc, List.singleton_append, wrapPieces,
      if_neg (not_not_intro hobs)]
    simp only [Bool.false_eq_true, if_false, ha, ho]
    -- behind the content the element is the innermost one again
    rw [wrapPieces, hsame, if_neg (not_not_intro hobs)]
    simp only [if_true, closeLatest, opened_closing]
    simp [Wrapped.before, malformedLoops_source, headsOf_source, openTagText_source, wrapping]
  · obtain ⟨hcontrols, hkept⟩ := wrapping_of_controlAttributes_eq_nil (hun hobs)
    rw [hcontrols, hkept, wrapping_nil]
    have hopen : WrapsTo observed
        [.found { name := tag.name.folded, isClosing := false } (tag.source .plain)]
        (tag.source .plain) := wrapsTo_unobserved hobs _
    have hclose : WrapsTo observed
        [.found { name := closing.folded, isClosing := true } (closingTag closing)]
        (closingTag closing) := wrapsTo_unobserved (hsame ▸ hobs) _
    exact hopen.append (hbody.append hclose)

/-- **What wrapping makes of a document.** -/
theorem wrapsTo_pieces (t : Document) (hun : Unheeded observed t.pieces) :
    WrapsTo observed t.pieces t.code := by
  induction t with
  | done => exact wrapsTo_nil
  | text chars _ more ih =>
    exact (wrapsTo_plain chars).append (ih (hun.mono fun p hp => List.mem_append_right _ hp))
  | alone tag e halone more ih =>
    have hmore := ih (hun.mono fun p hp => List.mem_cons_of_mem _ hp)
    have htag := wrapsTo_alone halone fun hobs => hun _ _ List.mem_cons_self rfl hobs
    exact htag.append hmore
  | paired tag hvoid body closing hsame more ihb ih =>
    have hbody := ihb (hun.mono fun p hp =>
      List.mem_cons_of_mem _ (List.mem_append_left _ hp))
    have hmore := ih (hun.mono fun p hp =>
      List.mem_cons_of_mem _ (List.mem_append_right _ (List.mem_cons_of_mem _ hp)))
    have helement := (WrapsTo.paired hvoid hsame
      (fun hobs => hun _ _ List.mem_cons_self rfl hobs) hbody).append hmore
    simpa only [Document.pieces, Document.code, List.cons_append, List.append_assoc,
      List.nil_append] using helement

/-- A document is wrapped without findings. -/
theorem compileScopes_document (t : Document) : compileScopes t.source = (t.code, []) := by
  have hun := unheeded t.pieces
  obtain ⟨o, ho⟩ := wrapsTo_pieces t hun 0 [] []
  rw [List.append_nil] at ho
  rw [compileScopes, cut_pieces]
  simp only [ho]
  simp [wrapPieces, Wrapped.before]

/-! ### Statements -/

theorem mergeTexts_text (cs : List Char) (K : List Stmt) :
    mergeTexts (.text (String.ofList cs) :: K) = joinText cs (mergeTexts K) := by
  rw [mergeTexts, String.toList_ofList]

theorem mergeTexts_cons {s : Stmt} (h : startsText [s] = false) (K : List Stmt) :
    mergeTexts (s :: K) = s :: mergeTexts K := by
  cases s with
  | text _ => cases h
  | _ => rfl

/-- In front of any text, the code gives the statements `B` in front of those of the text. -/
def Renders (code : List Char) (B : List Stmt) : Prop :=
  ∀ ⦃stop rest K r⦄, Yields stop rest (mergeTexts K) r →
    Yields stop (code ++ rest) (mergeTexts (B ++ K)) r

theorem renders_nil : Renders [] [] := fun _ _ _ _ h => h

theorem Renders.append (ha : Renders a A) (hb : Renders b B) : Renders (a ++ b) (A ++ B) := by
  intro stop rest K r h
  rw [List.append_assoc, List.append_assoc]
  exact ha (hb h)

theorem renders_text (h : Inert cs) : Renders cs [.text (String.ofList cs)] := by
  intro stop rest K r hrest
  rw [List.singleton_append, mergeTexts_text]
  exact hrest.text h

/-- Closing braces, token by token. -/
theorem spells_replicate (n : Nat) :
    Spells (List.replicate n '\x7d') (List.replicate n (.sign .braceClose)) := by
  induction n with
  | zero => exact Spells.nil
  | succ n ih => exact ih.own rfl

/-- The island with the head of a statement, in front of the text of its body. -/
theorem Yields.controlled (c : Control) (hbody : Yields .atBrace cs B (.sign .braceClose :: vs))
    (hvs : NotNext isWordToken vs) (hK : Gives (listUntil stop) 2 vs K r) :
    Yields stop (island (c.head ++ " \x7b".toList) ++ cs) (c.wrap B :: K) r := by
  obtain ⟨ts, hts, hhead⟩ := c.isHead
  have hspell : Spells (c.head ++ " \x7b".toList) (ts ++ [.sign .braceOpen]) :=
    hts.append_blank (by decide) (Spells.nil.own rfl)
  exact Yields.block hspell hhead (c.startsText_wrap B) hbody hvs hK

theorem headIslands_cons (c : Control) (controls : List Control) :
    headIslands ((c :: controls).map Control.head) =
      island (c.head ++ " \x7b".toList) ++ headIslands (controls.map Control.head) := rfl

/-- The heads of an element, in front of the text up to the closing braces. -/
theorem Yields.heads (controls : List Control) (hbody : Yields .atBrace cs (mergeTexts B)
      (List.replicate controls.length (.sign .braceClose) ++ .sign .braceClose :: vs)) :
    Yields .atBrace (headIslands (controls.map Control.head) ++ cs) (mergeTexts (around controls B))
      (.sign .braceClose :: vs) := by
  induction controls generalizing vs with
  | nil => exact hbody
  | cons c controls ih =>
    -- the innermost head closes with the first of the braces
    rw [List.length_cons, List.replicate_succ', List.append_assoc, List.singleton_append] at hbody
    have hstop : Gives (listUntil .atBrace) 2 (.sign .braceClose :: vs) [] _ := gives_stop rfl
    have h := (ih hbody).controlled c (notNext_cons rfl) hstop
    rw [headIslands_cons, List.append_assoc, around, mergeTexts_cons (c.startsText_wrap _)]
    exact h

/-- **An element under control**: the heads in front of it, and the closing braces after it. -/
theorem Renders.around (h : Renders cs B) (controls : List Control) :
    Renders (wrapping controls cs) (Stencil.around controls B) := by
  cases controls with
  | nil =>
    rw [wrapping_nil]
    exact h
  | cons c controls =>
    intro stop rest K r hrest
    obtain ⟨us, hus, hK⟩ := hrest.reads
    have hclose : Reads .text (island (List.replicate (controls.length + 1) '\x7d') ++ rest)
        (.sign .braceClose :: (List.replicate controls.length (.sign .braceClose) ++
          .terminator :: us)) :=
      (spells_replicate (controls.length + 1)).reads_island hus
    have hinner := h (K := []) (yields_close hclose)
    -- the last brace belongs to the outermost head
    have hlast : (.sign .braceClose :: (List.replicate controls.length (.sign .braceClose) ++
          .terminator :: us) : List Token) =
        List.replicate controls.length (.sign .braceClose) ++
          .sign .braceClose :: .terminator :: us := by
      rw [← List.cons_append, ← List.replicate_succ, List.replicate_succ', List.append_assoc,
        List.singleton_append]
    rw [List.append_nil, hlast] at hinner
    have houter := (Yields.heads controls hinner).controlled c (notNext_cons rfl)
      (gives_terminator hK)
    rw [Stencil.around, List.singleton_append, mergeTexts_cons (c.startsText_wrap _)]
    simpa only [wrapping, headIslands_cons, closeIsland, List.length_cons, Nat.succ_ne_zero,
      if_false, List.append_assoc] using houter

/-! ### Texts of tags -/

/-- Inside of a text the phrase is found without regard to a character that it does not have. -/
theorem startsWith_append_of_notMem {d : Char} {p : List Char} (hd : d ∉ p) :
    startsWith p (a ++ d :: rest) = startsWith p a := by
  induction p generalizing a with
  | nil => rfl
  | cons x p ih =>
    rw [List.mem_cons, not_or] at hd
    cases a with
    | nil =>
      rw [List.nil_append, startsWith_cons, decide_eq_false (Ne.symm hd.1), Bool.false_and]
      rfl
    | cons c a => rw [List.cons_append, startsWith_cons, startsWith_cons, ih hd.2]

theorem inert_cons {c : Char} (h : ∀ rest, startsWith openTag (c :: (a ++ rest)) = false)
    (ha : Inert a) : Inert (c :: a) := by
  intro rest
  rw [List.cons_append, textRun, if_neg (by rw [h rest]; exact Bool.false_ne_true), ha rest]
  rfl

/-- No island opens in a value that has none. -/
theorem inert_value (h : breakOn openTag a = none) : Inert (a ++ ['\x22']) := by
  induction a with
  | nil => exact inert_singleton (by decide)
  | cons c a ih =>
    have hc := breakOn_eq_none_cons.mp h
    rw [List.cons_append]
    refine inert_cons (fun rest => ?_) (ih hc.2)
    rw [List.append_assoc, ← List.cons_append, List.singleton_append,
      startsWith_append_of_notMem (by decide)]
    exact hc.1

theorem inert_name (n : ElementName) : Inert n.chars := by
  refine inert_of_notMem fun h => ?_
  exact absurd (n.isLetter_or_isDigit '<' h) (by decide)

theorem PlainAttribute.inert (attr : PlainAttribute) : Inert (quoted attr.name attr.value) := by
  have hname : Inert (' ' :: (attr.name ++ ['=', '\x22'])) := by
    refine inert_of_notMem fun h => ?_
    rcases List.mem_cons.mp h with h | h
    · exact absurd h (by decide)
    · rcases List.mem_append.mp h with h | h
      · exact (attr.isName '<' h).2 (by decide)
      · exact absurd h (by decide)
  have h := hname.append (inert_value attr.noIsland)
  simpa [quoted] using h

/-- No island opens in an opening tag without its control attributes. -/
theorem inert_kept (t : OpenTag) (e : Ending) : Inert (t.kept e) := by
  have hattributes : ∀ as : List Attribute, Inert (as.flatMap Attribute.kept) := by
    intro as
    induction as with
    | nil => exact inert_nil
    | cons attr as ih =>
      rw [List.flatMap_cons]
      refine Inert.append ?_ ih
      cases attr with
      | plain attr => exact attr.inert
      | control c => exact inert_nil
  have hending : Inert e.chars := by
    cases e <;> exact inert_of_notMem (by decide)
  have hrest := (inert_name t.name).append ((hattributes t.attributes).append hending)
  refine inert_cons (fun rest => ?_) hrest
  -- a name follows the angle bracket, and no question mark
  obtain ⟨c, cs, hcs⟩ := List.exists_cons_of_ne_nil t.name.chars_ne_nil
  have hc : '?' ≠ c := by
    rintro rfl
    exact absurd (t.name.isLetter_or_isDigit '?' (hcs ▸ List.mem_cons_self)) (by decide)
  rw [hcs, openTag, startsWith_cons, List.cons_append, List.cons_append, startsWith_cons,
    decide_eq_false hc, Bool.false_and, Bool.and_false]

theorem inert_closingTag (n : ElementName) : Inert (closingTag n) := by
  have hrest : Inert ('/' :: (n.chars ++ ['>'])) := by
    refine (inert_singleton (by decide)).append ((inert_name n).append ?_)
    exact inert_singleton (by decide)
  exact inert_cons (fun rest => rfl) hrest

/-- The code of a document gives its statements. -/
theorem Document.renders (t : Document) : Renders t.code t.stmts := by
  induction t with
  | done => exact renders_nil
  | text chars noTag more ih => exact (renders_text (inert_of_notMem noTag)).append ih
  | alone tag e _ more ih => exact ((renders_text (inert_kept tag e)).around tag.controls).append ih
  | paired tag _ body closing _ more ihb ih =>
    have hinner := (renders_text (inert_kept tag .plain)).append
      (ihb.append (renders_text (inert_closingTag closing)))
    exact (hinner.around tag.controls).append ih

theorem parseProgram_code (name : String) (t : Document) :
    parseProgram name t.code = .ok { name, body := mergeTexts t.stmts } := by
  have h := t.renders (K := []) Yields.nil
  rw [List.append_nil, List.append_nil] at h
  exact parseProgram_of_yields name h

/-- **A printed document is compiled without findings, and its code is parsed into the statements of
the tree.** -/
theorem parseProgram_of_document (name : String) (t : Document) :
    ∃ out, compileScopes t.source = (out, []) ∧
      parseProgram name out = .ok { name, body := mergeTexts t.stmts } :=
  ⟨t.code, compileScopes_document t, parseProgram_code name t⟩

/-- The shapes of loops are tried in order: the arrow of an array makes a loop over entries of a
counting loop, and its code cannot be parsed. -/
theorem counting_loop_with_arrow_misread :
    (exprsOf? "$i=[1=>2]".toList).isSome = true ∧ (exprsOf? "$i".toList).isSome = true ∧
      (exprsOf? "1".toList).isSome = true ∧
      (compileScopes "<p loop=\x22$i=[1=>2];$i;1\x22>x</p>".toList).1 =
        ("<?tpl if ($__ctx->i=[1 && count($__ctx->i=[1)) ".toList ++
          "foreach ($__ctx->i=[1 as 2];$__ctx->i;1) \x7b ?><p>x</p><?tpl \x7d ?>".toList) ∧
      (parseProgram "" (compileScopes "<p loop=\x22$i=[1=>2];$i;1\x22>x</p>".toList).1).isOk =
        false := by
  decide +kernel

/-- A loop and a condition on one element. -/
example : ∃ t : Document,
    t.source = "<li loop=\x22$l=>$v\x22 cond=\x22$v\x22>x</li>".toList ∧
      t.code = "<?tpl if ($__ctx->l && count($__ctx->l)) ".toList ++
        "foreach ($__ctx->l as $__ctx->v) \x7b ?><?tpl if ($__ctx->v) \x7b ?>".toList ++
        "<li>x</li><?tpl \x7d\x7d ?>".toList := by
  let name : ElementName := ⟨"li".toList, none, by decide, forall_mem_of_all (by decide), nofun⟩
  let list : Collection :=
    ⟨"$l".toList, .member (.var "__ctx") "l", rfl, rfl, by unfold FitsAttribute; decide⟩
  let value : Binder :=
    ⟨"$v".toList, .member (.var "__ctx") "v", rfl, by unfold FitsAttribute; decide⟩
  let cond : Condition FitsAttribute :=
    ⟨"$v".toList, .member (.var "__ctx") "v", rfl, by unfold FitsAttribute; decide⟩
  refine ⟨.paired ⟨name, [.control (.entries list (.value value (by decide))),
    .control (.cond cond)]⟩ rfl (.text "x".toList (by decide) .done) name rfl .done, ?_, ?_⟩
  · decide
  · decide +kernel

end Stencil
