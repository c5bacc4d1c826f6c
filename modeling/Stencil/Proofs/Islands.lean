import Stencil.Proofs.Fragment

/-!
# Texts with islands, read as statements

A compiled template is text with islands in between.  This module follows it from right to left: it
says which statements a text gives when those of the text after it are known.  The head of a
statement and its closing brace stand in islands of their own, so that the statements of a body are
those of the text between them.

## Main definitions

* `Inert` — text in which no island opens, whatever follows it.
* `joinText` — statements with text in front of them.
* `Yields stop text K r` — up to the token at which a list stops, the text gives the statements `K`,
  and the tokens `r` are left.

## Main results

* `Yields.text` — text in front of other text.
* `yields_close`, `Yields.block` — the islands of a statement with a body.
* `parseProgram_of_yields` — the program of a whole text.
-/

namespace Stencil

open Text Lexer Stencil.Parser

variable {a b cs code rest : List Char} {ts us vs r : List Token} {stop : Stop} {K B : List Stmt}

/-! ### Text -/

/-- No island opens in the text, whatever follows it. -/
def Inert (a : List Char) : Prop := ∀ rest, textRun (a ++ rest) = a ++ textRun rest

theorem inert_nil : Inert [] := fun _ => rfl

theorem Inert.append (ha : Inert a) (hb : Inert b) : Inert (a ++ b) := by
  intro rest
  rw [List.append_assoc, ha, hb, List.append_assoc]

/-- A character that opens no island. -/
theorem inert_singleton {c : Char} (h : c ≠ '<') : Inert [c] := by
  intro rest
  have hs : startsWith openTag (c :: rest) = false := by
    rw [openTag, startsWith_cons, decide_eq_false h.symm, Bool.false_and]
  simp [textRun, hs]

theorem inert_of_notMem (h : '<' ∉ a) : Inert a := by
  induction a with
  | nil => exact inert_nil
  | cons c a ih =>
    have hc : c ≠ '<' := fun he => h (he ▸ List.mem_cons_self)
    exact (inert_singleton hc).append (ih fun hm => h (List.mem_cons_of_mem c hm))

/-- The text before the first island. -/
def headText (run : List Char) : List Stmt := if run = [] then [] else [.text (String.ofList run)]

/-- Whether statements start with text. -/
def startsText : List Stmt → Bool
  | .text _ :: _ => true
  | _ => false

/-- Statements with text in front of them; texts side by side are one text. -/
def joinText (a : List Char) : List Stmt → List Stmt
  | .text s :: K => .text (String.ofList a ++ s) :: K
  | K => headText a ++ K

theorem joinText_of_not_startsText (a : List Char) (hK : startsText K = false) :
    joinText a K = headText a ++ K := by
  match K, hK with
  | [], _ => rfl
  | .echo _ :: _, _ => rfl
  | .expr _ :: _, _ => rfl
  | .cond _ _ :: _, _ => rfl
  | .foreach _ _ _ _ :: _, _ => rfl
  | .forLoop _ _ _ _ :: _, _ => rfl
  | .whileLoop _ _ :: _, _ => rfl
  | .switch _ _ :: _, _ => rfl
  | .breakOut :: _, _ => rfl
  | .continueOn :: _, _ => rfl
  | .exit :: _, _ => rfl

/-- Text in front of the text before the first island. -/
theorem joinText_headText (a run : List Char) (hK : startsText K = false) :
    joinText a (headText run ++ K) = headText (a ++ run) ++ K := by
  by_cases hrun : run = []
  · rw [hrun, List.append_nil]
    exact joinText_of_not_startsText a hK
  · have hne : a ++ run ≠ [] := fun h => hrun (List.append_eq_nil_iff.mp h).2
    rw [headText, if_neg hrun, headText, if_neg hne, String.ofList_append]
    rfl

/-- Text in front of statements is in front of the first of them. -/
theorem joinText_append (a : List Char) (L : List Stmt) (hK : startsText K = false) :
    joinText a (L ++ K) = joinText a L ++ K := by
  by_cases hL : startsText L = true
  · match L, hL with
    | .text s :: L, _ => rfl
  · rw [Bool.not_eq_true] at hL
    have hLK : startsText (L ++ K) = false := by
      cases L with
      | nil => exact hK
      | cons s L => cases s <;> exact hL
    rw [joinText_of_not_startsText a hLK, joinText_of_not_startsText a hL, List.append_assoc]

/-! ### What a text gives -/

/-- Up to the token at which a list of statements stops, the text gives `K` and leaves `r`. -/
structure Yields (stop : Stop) (cs : List Char) (K : List Stmt) (r : List Token) : Prop where
  /-- Behind the text before the first island there are tokens, and statements without text in
  front. -/
  split : ∃ us L, Reads .text (cs.drop (textRun cs).length) us ∧
    Gives (listUntil stop) 2 us L r ∧ startsText L = false ∧ K = headText (textRun cs) ++ L

/-- The text up to the first island is one token. -/
theorem reads_textRun (h : Reads .text (cs.drop (textRun cs).length) us) :
    Reads .text cs (if textRun cs = [] then us
      else .text (String.ofList (textRun cs)) :: us) := by
  cases cs with
  | nil => exact h
  | cons c cs =>
    split
    next hrun =>
      rw [hrun] at h
      exact h
    next hrun =>
      -- a run that is not empty starts with no island
      have hopen : startsWith openTag (c :: cs) = false := by
        by_contra ho
        rw [Bool.not_eq_false] at ho
        exact hrun (by rw [textRun, if_pos ho])
      have hs : step .text c cs = .ok
          { token := some (.text (String.ofList (textRun (c :: cs)))),
            width := (textRun (c :: cs)).length, mode := .text } := by
        rw [step, textStep, hopen]
        rfl
      refine Reads.of_step hs ?_
      obtain ⟨k, hk⟩ := Nat.exists_eq_succ_of_ne_zero (mt List.eq_nil_of_length_eq_zero hrun)
      rw [hk] at h ⊢
      exact h

/-- The tokens of a text and the statements they give. -/
theorem Yields.reads (h : Yields stop cs K r) :
    ∃ us, Reads .text cs us ∧ Gives (listUntil stop) 2 us K r := by
  obtain ⟨us, L, hus, hL, -, rfl⟩ := h.split
  refine ⟨_, reads_textRun hus, ?_⟩
  rw [headText]
  split
  · exact hL
  · exact gives_text hL

/-- Text in front of other text. -/
theorem Yields.text (ha : Inert a) (h : Yields stop rest K r) :
    Yields stop (a ++ rest) (joinText a K) r := by
  obtain ⟨us, L, hus, hL, hnot, rfl⟩ := h.split
  refine ⟨us, L, ?_, hL, hnot, ?_⟩
  · rwa [ha, List.length_append, ← List.drop_drop, List.drop_left]
  · rw [ha, joinText_headText a _ hnot]

/-- No text stands before an island. -/
theorem textRun_island (code rest : List Char) : textRun (island code ++ rest) = [] := by
  have h : island code ++ rest =
      '<' :: ("?tpl".toList ++ (' ' :: code ++ ' ' :: closeTag ++ rest)) := by
    simp [island, openTag]
  have hs : startsWith openTag
      ('<' :: ("?tpl".toList ++ (' ' :: code ++ ' ' :: closeTag ++ rest))) = true :=
    startsWith_iff.mpr ⟨_, rfl⟩
  rw [h, textRun, if_pos hs]

/-- What an island and the text after it give. -/
theorem yields_of_island (hr : Reads .text (island code ++ rest) us)
    (hK : Gives (listUntil stop) 2 us K r) (hnot : startsText K = false) :
    Yields stop (island code ++ rest) K r := by
  refine ⟨us, K, ?_, hK, hnot, ?_⟩
  · rw [textRun_island]
    exact hr
  · rw [textRun_island]
    rfl

/-- Nothing gives nothing. -/
theorem Yields.nil : Yields .atEnd [] [] [] :=
  ⟨[], [], reads_nil, gives_stop rfl, rfl, rfl⟩

/-! ### Statements over several islands -/

/-- The closing brace of a block, in front of anything. -/
theorem yields_close (hr : Reads .text (island code ++ rest) (.sign .braceClose :: us)) :
    Yields .atBrace (island code ++ rest) [] (.sign .braceClose :: us) :=
  yields_of_island hr (gives_stop rfl) rfl

theorem firm_break : SpellsFirm "break".toList [.word "break"] :=
  spellsFirm_of_step (c := 'b') (a := "reak".toList) rfl rfl

/-- An island that leaves a loop. -/
theorem Yields.break (h : Yields stop rest K r) :
    Yields stop (island "break;".toList ++ rest) (.breakOut :: K) r := by
  obtain ⟨us, hus, hK⟩ := h.reads
  have hspell : Spells "break;".toList [.word "break", .terminator] :=
    firm_break.spells.append_own rfl Spells.nil
  exact yields_of_island (hspell.reads_island hus) (gives_break (gives_terminator hK)) rfl

/-- The body of a block between its braces, the first of which ends an island. -/
theorem Yields.body (h : Yields .atBrace cs B (.sign .braceClose :: vs)) :
    ∃ us, Reads .text cs us ∧ GivesBody (.sign .braceOpen :: .terminator :: us) B vs := by
  obtain ⟨us, hus, hB⟩ := h.reads
  exact ⟨us, hus, rfl, gives_block (gives_terminator hB)⟩

/-- **A statement with a body**: its head in an island, and the text of its body up to the closing
brace. -/
theorem Yields.block {wrap : List Stmt → Stmt} (hspell : Spells code (ts ++ [.sign .braceOpen]))
    (hhead : IsHead ts wrap) (hwrap : startsText [wrap B] = false)
    (hbody : Yields .atBrace cs B (.sign .braceClose :: vs)) (hvs : NotNext isWordToken vs)
    (hK : Gives (listUntil stop) 2 vs K r) :
    Yields stop (island code ++ cs) (wrap B :: K) r := by
  obtain ⟨us, hus, hB⟩ := hbody.body
  have hreads := hspell.reads_island hus
  rw [List.append_assoc] at hreads
  have hstmt := hhead.gives hB hvs
  have hne : ts ≠ [] := by
    rintro rfl
    exact absurd (hhead.goesOn .atEnd) (by decide)
  obtain ⟨t, ts, rfl⟩ := List.exists_cons_of_ne_nil hne
  -- the list goes on behind the block, so the block must have taken a token
  have hlt : vs.length < (t :: ts ++ .sign .braceOpen :: .terminator :: us).length := by
    have h := hB.block.le
    simp only [List.length_append, List.length_cons] at h ⊢
    omega
  refine yields_of_island hreads (gives_cons [wrap B] hstmt (List.cons_ne_nil _ _) ?_ hlt hK) ?_
  · exact hhead.goesOn stop
  · revert hwrap
    cases wrap B <;> exact id

/-- The program of a text. -/
theorem parseProgram_of_yields (name : String) (h : Yields .atEnd cs K []) :
    parseProgram name cs = .ok { name, body := K } := by
  obtain ⟨us, hus, hK⟩ := h.reads
  obtain ⟨ls, hls, rfl⟩ := hus 0
  obtain ⟨rs, hrs, -⟩ := hK.parses (n := depthBound ls)
    (by rw [depthBound, List.length_map]; omega) ls rfl
  have hparse : parseStatements ls = .ok K := by
    rw [parseStatements]
    rw [listUntil] at hrs
    rw [hrs]
  rw [parseProgram, lex, hls]
  simp only [hparse]

end Stencil
