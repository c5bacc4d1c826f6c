import Stencil.Markup.Compile
import Stencil.Proofs.Cutting

/-!
# Diagnostics behind a comment

A comment for authors is dropped before any stage reads the template, so a template with a comment
in front has the code of the template alone and the same diagnostics, offsets aside.  An offset is
the place of an occurrence in the source, and the occurrences of a text that does not begin in the
comment are those behind it.

## Main definitions

* `AuthorComment` — a comment for authors.
* `Raised` — a diagnostic as its stage raised it, with the text that the stage read.
* `Raised.place?`, `Raised.report` — its place in the source, and the diagnostic placed there.
* `Compiler.raised` — what the stages raise on a template without comments.
* `BeginsIn` — where a text begins in front of another one.

## Main results

* `occurrences_append` — the occurrences of a text that begins only in the second part.
* `diagnostics_compile` — the diagnostics of a template are what its stages raise, placed.
* `compile_behind_comment` — **the same code and the same diagnostics behind a comment.**
-/

namespace Stencil

open Text

/-! ### Occurrences in two parts -/

section Occurrences

variable {α : Type} {m : Matcher α} {p a b : List Char}

/-- The text begins in the first one, when the second one follows. -/
def BeginsIn (p a b : List Char) : Prop := ∃ n < a.length, startsWith p ((a ++ b).drop n) = true

instance : Decidable (BeginsIn p a b) :=
  inferInstanceAs (Decidable (∃ n < a.length, startsWith p ((a ++ b).drop n) = true))

theorem not_beginsIn_cons {c : Char} :
    ¬ BeginsIn p (c :: a) b ↔ startsWith p (c :: a ++ b) = false ∧ ¬ BeginsIn p a b := by
  constructor
  · intro h
    refine ⟨?_, fun ⟨n, hn, hs⟩ => h ⟨n + 1, Nat.succ_lt_succ hn, hs⟩⟩
    rw [Bool.eq_false_iff]
    exact fun hs => h ⟨0, Nat.succ_pos _, hs⟩
  · rintro ⟨hs, h⟩ ⟨n, hn, hp⟩
    cases n with
    | zero =>
      rw [List.drop_zero, hs] at hp
      cases hp
    | succ n => exact h ⟨n, Nat.lt_of_succ_lt_succ hn, hp⟩

theorem phrase_eq_none {cs : List Char} (h : startsWith p cs = false) : phrase p cs = none := by
  rw [startsWith, Option.isSome_eq_false_iff, Option.isNone_iff_eq_none] at h
  rw [phrase, h]
  rfl

/-- A text that begins only in the second part leaves the first one whole. -/
theorem cutFrom_append_of_not_beginsIn (h : ¬ BeginsIn p a b) :
    cutFrom (phrase p) 0 (a ++ b) = a.map .plain ++ cutFrom (phrase p) 0 b := by
  induction a with
  | nil => rfl
  | cons c a ih =>
    obtain ⟨hs, h⟩ := not_beginsIn_cons.mp h
    have hnone := phrase_eq_none hs
    rw [List.cons_append] at hnone
    rw [List.cons_append, cutFrom, hnone, ih h]
    rfl

/-- Places are counted from where the first piece starts. -/
theorem map_offset_foundFrom (n offset : Nat) (pieces : List (Piece α)) :
    (foundFrom (n + offset) pieces).map Found.offset =
      ((foundFrom offset pieces).map Found.offset).map (n + ·) := by
  induction pieces generalizing offset with
  | nil => rfl
  | cons piece rest ih =>
    cases piece with
    | plain c => simpa only [foundFrom, Nat.add_assoc] using ih (offset + c.utf8Size)
    | found value source =>
      have ih := ih (offset + byteSize source)
      rw [← Nat.add_assoc] at ih
      simp only [foundFrom, List.map_cons, ih]

theorem foundFrom_plain (offset : Nat) (a : List Char) (pieces : List (Piece α)) :
    foundFrom offset (a.map .plain ++ pieces) = foundFrom (offset + byteSize a) pieces := by
  induction a generalizing offset with
  | nil => rfl
  | cons c a ih => rw [List.map_cons, List.cons_append, foundFrom, ih, byteSize_cons, Nat.add_assoc]

/-- **The occurrences of a text that does not begin in the first part are those of the second
one.** -/
theorem occurrences_append (h : ¬ BeginsIn p a b) :
    occurrences p (a ++ b) = (occurrences p b).map (byteSize a + ·) := by
  rw [occurrences, findPlaces, cut, cutFrom_append_of_not_beginsIn h, foundFrom_plain, Nat.zero_add,
    ← Nat.add_zero (byteSize a), map_offset_foundFrom, Nat.add_zero]
  rfl

/-- The place of a construct moves with what stands in front of the source. -/
theorem relocated?_append {input : List Char} {offset : Nat} (h : ¬ BeginsIn p a b) :
    relocated? input (a ++ b) offset p = (relocated? input b offset p).map (byteSize a + ·) := by
  rw [relocated?, relocated?, occurrences_append h, List.getElem?_map]

end Occurrences

/-! ### Comments in front -/

/-- A comment for authors, which ends where a comment can end for the first time. -/
structure AuthorComment where
  /-- The text of the comment. -/
  body : List Char
  /-- No comment ends in it. -/
  ends : breakOn "-->".toList (body ++ "-->".toList) = some (body, [])

/-- The comment as it stands in a template. -/
def AuthorComment.text (k : AuthorComment) : List Char :=
  "<!--//".toList ++ (k.body ++ "-->".toList)

/-- What is found in a text is found in front of any other one. -/
theorem breakOn_append {p a x y : List Char} (h : breakOn p a = some (x, y)) (b : List Char) :
    breakOn p (a ++ b) = some (x, y ++ b) := by
  have hdrop : ∀ {cs rest : List Char}, dropStart? p cs = some rest →
      dropStart? p (cs ++ b) = some (rest ++ b) := by
    intro cs rest hr
    rw [dropStart?_eq_some_iff] at hr ⊢
    rw [hr, List.append_assoc]
  induction a generalizing x with
  | nil =>
    obtain ⟨r, hr, heq⟩ := Option.map_eq_some_iff.mp h
    cases heq
    -- only the empty phrase is found in the empty text
    have hp : p = [] := (List.append_eq_nil_iff.mp (dropStart?_eq_some_iff.mp hr).symm).1
    subst hp
    cases hr
    cases b <;> rfl
  | cons c a ih =>
    rw [breakOn] at h
    cases hd : dropStart? p (c :: a) with
    | some rest =>
      rw [hd] at h
      cases h
      have hd := hdrop hd
      rw [List.cons_append] at hd ⊢
      rw [breakOn, hd]
    | none =>
      rw [hd] at h
      obtain ⟨⟨x', y'⟩, hx, heq⟩ := Option.map_eq_some_iff.mp h
      cases heq
      -- the phrase does not begin here, where less text follows
      have hnone : dropStart? p (c :: a ++ b) = none := by
        cases hs : dropStart? p (c :: a ++ b) with
        | none => rfl
        | some r =>
          have hlong : p.length ≤ (c :: a).length := by
            rw [breakOn_eq_some hx]
            simp only [List.length_cons, List.length_append]
            omega
          have hb : p <+: c :: a ++ b := ⟨r, (dropStart?_eq_some_iff.mp hs).symm⟩
          obtain ⟨r', hr'⟩ := List.prefix_of_prefix_length_le hb (List.prefix_append _ b) hlong
          rw [dropStart?_eq_some_iff.mpr hr'.symm] at hd
          cases hd
      rw [List.cons_append] at hnone ⊢
      rw [breakOn, hnone, ih hx]
      rfl

/-- In place of the equation of `AuthorComment.text`, which is slow to generate. -/
theorem AuthorComment.text_eq (k : AuthorComment) :
    k.text = "<!--//".toList ++ (k.body ++ "-->".toList) := rfl

theorem authorCommentAt_text (k : AuthorComment) (s : List Char) :
    authorCommentAt (k.text ++ s) = some ((), k.text.length) := by
  have hsplit : k.text ++ s = "<!--//".toList ++ (k.body ++ "-->".toList ++ s) :=
    List.append_assoc _ _ _
  have hdrop : dropStart? "<!--//".toList (k.text ++ s) =
      some (k.body ++ "-->".toList ++ s) := hsplit ▸ dropStart?_append _ _
  rw [authorCommentAt, hdrop, Option.bind_some, breakOn_append k.ends, Option.map_some]
  have hlength : k.text.length = k.body.length + 9 := by
    have hopen : "<!--//".toList.length = 6 := by decide +kernel
    have hclose : "-->".toList.length = 3 := by decide +kernel
    rw [k.text_eq, List.length_append, List.length_append, hopen, hclose]
    omega
  rw [hlength]

/-- A comment in front of a template is no part of what the stages read. -/
theorem prepared_comment (webPath : List Char) (k : AuthorComment) (s : List Char) :
    Compiler.prepared webPath (k.text ++ s) = Compiler.prepared webPath s := by
  have hcut : cut authorCommentAt (k.text ++ s) = .found () k.text :: cut authorCommentAt s :=
    cutFrom_found (by simp [k.text_eq]) (authorCommentAt_text k s)
  rw [Compiler.prepared, Compiler.prepared, dropAuthorComments, dropAuthorComments, removeMatches,
    removeMatches, replaceMatches, replaceMatches, hcut]
  rfl

/-! ### What stages raise -/

/-- A diagnostic with the offset that its stage gave it, and the text that the stage read. -/
structure Raised where
  /-- The diagnostic. -/
  item : Diagnostic
  /-- The input of its stage. -/
  input : List Char

namespace Raised

/-- The place of the construct in the source, when the source has its text often enough. -/
def place? (source : List Char) (r : Raised) : Option Nat :=
  if r.item.text = [] then none else relocated? r.input source r.item.offset r.item.text

/-- The diagnostic placed in the source; without a place it keeps its offset. -/
def report (source : List Char) (r : Raised) : Diagnostic :=
  match r.place? source with
  | some offset => { r.item with offset }
  | none => r.item

/-- The findings of a stage that reads the input. -/
def ofFindings (file : List Char) (stage : Stage) (input : List Char) (fs : List Finding) :
    List Raised :=
  fs.map fun f => { item := { f with stage, file }, input }

end Raised

namespace Compiler

/-- What the stages raise on a template, of which the first one reads `start`. -/
def raised (c : Compiler) (t : FileTree) (path : Path) (start : List Char) : List Raised :=
  let (wrapped, scopeFindings) := compileScopes start
  let (expanded, directiveFindings) := compileDirectives (t.resolveDir? c.root path) wrapped
  let plain := dropBlocks expanded
  let (_, formFindings) := augmentForms (relativeToRoot c.root path) c.rulesetDir plain
  Raised.ofFindings path .tagScope start scopeFindings ++
    Raised.ofFindings path .directives wrapped directiveFindings ++
    Raised.ofFindings path .forms plain formFindings

/-- The code that the stages make of a template, of which the first one reads `start`. -/
def emitted (c : Compiler) (t : FileTree) (path : Path) (start : List Char) : List Char :=
  let (wrapped, _) := compileScopes start
  let (expanded, _) := compileDirectives (t.resolveDir? c.root path) wrapped
  c.prologue ++ (augmentForms (relativeToRoot c.root path) c.rulesetDir (dropBlocks expanded)).1

end Compiler

open Report in
theorem moveItem_eq_report (file : List Char) (stage : Stage) (input source : List Char)
    (fs : List Finding) :
    (fs.map fun f => ({ f with stage, file } : Diagnostic)).map (moveItem stage input source) =
      (Raised.ofFindings file stage input fs).map (Raised.report source) := by
  rw [Raised.ofFindings, List.map_map, List.map_map]
  refine List.map_congr_left fun f _ => ?_
  by_cases h : f.text = []
  · simp [moveItem, Raised.report, Raised.place?, h]
  · cases hplace : relocated? input source f.offset f.text with
    | none => simp [moveItem, Raised.report, Raised.place?, h, hplace]
    | some place => simp [moveItem, Raised.report, Raised.place?, h, hplace]

/-- A stage leaves the diagnostics of other stages where they are. -/
theorem moveItem_report_of_ne {other stage : Stage} (h : other ≠ stage) (file : List Char)
    (read input source : List Char) (fs : List Finding) :
    ((Raised.ofFindings file other read fs).map (Raised.report source)).map
        (Report.moveItem stage input source) =
      (Raised.ofFindings file other read fs).map (Raised.report source) := by
  rw [List.map_map]
  refine List.map_congr_left fun r hr => ?_
  obtain ⟨f, -, rfl⟩ := List.mem_map.mp hr
  have hstage : ∀ r : Raised, (r.report source).stage = r.item.stage := by
    intro r
    rw [Raised.report]
    split <;> rfl
  rw [Function.comp, Report.moveItem, hstage, if_neg fun hs => h hs.1]

theorem stage_pushAll (r : Report) (fs : List Finding) :
    (r.pushAll fs).stage = r.stage ∧ (r.pushAll fs).file = r.file := by
  induction fs generalizing r with
  | nil => exact ⟨rfl, rfl⟩
  | cons f fs ih => exact ih (r.push f)

/-- A stage places what it raises and leaves the rest where it is. -/
theorem items_stage (r : Report) (stage : Stage) (input source : List Char) (fs : List Finding) :
    (((r.enter stage).pushAll fs).relocate input source).items =
      r.items.map (Report.moveItem stage input source) ++
        (Raised.ofFindings r.file stage input fs).map (Raised.report source) := by
  rw [Report.relocate, Report.items_pushAll, List.map_append, (stage_pushAll _ fs).1,
    ← moveItem_eq_report]
  rfl

theorem file_stage (r : Report) (stage : Stage) (input source : List Char) (fs : List Finding) :
    (((r.enter stage).pushAll fs).relocate input source).file = r.file :=
  (stage_pushAll (r.enter stage) fs).2

/-- **The diagnostics of a template are what its stages raise, placed in its source.** -/
theorem diagnostics_compile (c : Compiler) (t : FileTree) (path webPath source : List Char) :
    (c.compile t path webPath source).diagnostics =
      (c.raised t path (Compiler.prepared webPath source)).map (Raised.report source) := by
  have hnew : (Report.new path).items = [] ∧ (Report.new path).file = path := ⟨rfl, rfl⟩
  simp only [Compiler.compile, Compiler.raised, items_stage, file_stage, List.map_append, hnew,
    moveItem_report_of_ne (by decide : Stage.tagScope ≠ .directives),
    moveItem_report_of_ne (by decide : Stage.tagScope ≠ .forms),
    moveItem_report_of_ne (by decide : Stage.directives ≠ .forms), List.map_nil, List.nil_append]

theorem code_compile (c : Compiler) (t : FileTree) (path webPath source : List Char) :
    (c.compile t path webPath source).code =
      c.emitted t path (Compiler.prepared webPath source) := rfl

/-! ### The same diagnostics -/

/-- A construct whose text does not begin in what stands in front is placed as far behind it as it
is placed without it. -/
theorem report_behind (r : Raised) (a b : List Char) (h : ¬ BeginsIn r.item.text a b) :
    r.report (a ++ b) =
      match r.place? b with
      | some offset => { r.item with offset := offset + byteSize a }
      | none => r.report b := by
  have hplace : r.place? (a ++ b) = (r.place? b).map (byteSize a + ·) := by
    rw [Raised.place?, Raised.place?, relocated?_append h]
    split <;> rfl
  rw [Raised.report, Raised.report, hplace]
  cases r.place? b with
  | some offset => rw [Option.map_some, Nat.add_comm]
  | none => rfl

/-- **A comment in front leaves the code and the diagnostics alone.**  Both templates have the code
of the same stages and report what they raise, in the same order.  A construct that has a place in
the template has it behind the comment, farther by the size of the comment, unless its text begins
in the comment already; one without a place keeps its offset. -/
theorem compile_behind_comment (c : Compiler) (t : FileTree) (path webPath s : List Char)
    (k : AuthorComment) :
    (c.compile t path webPath (k.text ++ s)).code = (c.compile t path webPath s).code ∧
      (c.compile t path webPath s).diagnostics =
        (c.raised t path (Compiler.prepared webPath s)).map (Raised.report s) ∧
      (c.compile t path webPath (k.text ++ s)).diagnostics =
        (c.raised t path (Compiler.prepared webPath s)).map (Raised.report (k.text ++ s)) ∧
      ∀ r ∈ c.raised t path (Compiler.prepared webPath s), ¬ BeginsIn r.item.text k.text s →
        r.report (k.text ++ s) =
          match r.place? s with
          | some offset => { r.item with offset := offset + byteSize k.text }
          | none => r.report s := by
  refine ⟨?_, diagnostics_compile c t path webPath s, ?_, fun r _ => report_behind r k.text s⟩
  · rw [code_compile, code_compile, prepared_comment]
  · rw [diagnostics_compile, prepared_comment]

/-- The settings of an application under `/app`. -/
def plainCompiler : Compiler :=
  { root := "/app".toList, rulesetDir := "ruleset".toList, entryConstant := "APP".toList }

/-- An element that is never closed. -/
def unclosedElementText : List Char := "<p cond=\x22$a\x22>x".toList

/-- Behind a note, an element that is never closed is reported as far on as the note is long. -/
theorem unclosed_element_behind_note :
    (plainCompiler.compile {} "/app/a.html".toList ['/']
        ("<!--//note-->".toList ++ unclosedElementText)).diagnostics.map (fun d => d.offset) =
      [13] := by
  let k : AuthorComment := ⟨"note".toList, by decide⟩
  let raised := plainCompiler.raised {} "/app/a.html".toList
    (Compiler.prepared ['/'] unclosedElementText)
  obtain ⟨-, -, hbehind, hplaced⟩ :=
    compile_behind_comment plainCompiler {} "/app/a.html".toList ['/'] unclosedElementText k
  have hnew : ∀ r ∈ raised, ¬ BeginsIn r.item.text k.text unclosedElementText := by
    decide +kernel
  have hmap := List.map_congr_left fun r hr => hplaced r hr (hnew r hr)
  rw [show "<!--//note-->".toList = k.text from rfl, hbehind, hmap]
  decide +kernel

/-- A construct whose text stands in the comment too is reported there, and not behind it. -/
theorem unclosed_element_behind_its_copy :
    (plainCompiler.compile {} "/app/a.html".toList ['/']
        unclosedElementText).diagnostics.map (fun d => d.offset) = [0] ∧
    (plainCompiler.compile {} "/app/a.html".toList ['/']
        ("<!--//<p cond=\x22$a\x22>-->".toList ++ unclosedElementText)).diagnostics.map
          (fun d => d.offset) = [6] ∧
    byteSize "<!--//<p cond=\x22$a\x22>-->".toList = 22 := by
  decide +kernel

end Stencil
