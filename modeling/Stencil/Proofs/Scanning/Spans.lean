import Mathlib.Data.List.Pairwise
import Stencil.Markup.Directive.Expand
import Stencil.Proofs.Scanning.Shapes

/-!
# The spans of directives

Scanning a text cuts it into pieces: characters at which nothing is found, directives, and islands.
As the pieces put together are the text again, the spans of directives and islands lie in the text
one behind the other, each on the source of what was found, and compiling the directives copies
everything between them.

## Main definitions

* `Cuts m cs ps` — the pieces of a text that is read with a pattern, step by step.
* `Found.StandsIn` — a match with the texts around it.
* `scanIslands`, `IsIsland` — the islands that a scan meets, and their sources.
* `Expands` — a text whose spans are replaced, and which is copied otherwise.

## Main results

* `cuts_cut` — cutting a text gives such pieces.
* `exists_found_or_none` — a place is in a match, or nothing is found at it.
* `directives_span_their_sources` — **the spans of directives are exact.**
-/

namespace Stencil

open Text

/-! ### Cutting step by step -/

section Cuts

variable {α : Type} {m : Matcher α} {cs a before rest : List Char} {ps : List (Piece α)}
  {offset : Nat} {f : Found α}

/-- The pattern matches a start of the text, which is not empty. -/
def TakesStarts (m : Matcher α) : Prop :=
  ∀ cs x n, m cs = some (x, n) → ∃ source rest, source ≠ [] ∧ cs = source ++ rest ∧
    n = source.length

/-- The pieces of a text: at every place the match, or the character when there is none. -/
inductive Cuts (m : Matcher α) : List Char → List (Piece α) → Prop
  | nil : Cuts m [] []
  | plain {c : Char} {rest : List Char} {ps : List (Piece α)} (hnone : m (c :: rest) = none)
      (hrest : Cuts m rest ps) : Cuts m (c :: rest) (.plain c :: ps)
  | found {x : α} {source rest : List Char} {ps : List (Piece α)} (hne : source ≠ [])
      (hmatch : m (source ++ rest) = some (x, source.length)) (hrest : Cuts m rest ps) :
      Cuts m (source ++ rest) (.found x source :: ps)

theorem cuts_cut (hm : TakesStarts m) (cs : List Char) : Cuts m cs (cut m cs) := by
  -- on the length, as a match takes several characters at once
  obtain ⟨n, hn⟩ : ∃ n, cs.length ≤ n := ⟨_, le_rfl⟩
  induction n generalizing cs with
  | zero =>
    rw [List.length_eq_zero_iff.mp (Nat.le_zero.mp hn)]
    exact .nil
  | succ n ih =>
    cases cs with
    | nil => exact .nil
    | cons c rest =>
      cases hmatch : m (c :: rest) with
      | none =>
        rw [cut, cutFrom, hmatch]
        exact .plain hmatch (ih rest (by simpa using hn))
      | some found =>
        obtain ⟨x, k⟩ := found
        obtain ⟨source, after, hne, hcs, rfl⟩ := hm _ _ _ hmatch
        have hpos := List.length_pos_iff.mpr hne
        rw [hcs] at hmatch hn ⊢
        rw [cut, cutFrom_found hne hmatch]
        refine .found hne hmatch (ih after ?_)
        rw [List.length_append] at hn
        omega

/-- A match stands in a text, with this text in front of it and that one behind. -/
structure Text.Found.StandsIn (f : Found α) (cs before after : List Char) : Prop where
  text : cs = before ++ (f.source ++ after)
  offset : f.offset = byteSize before

/-- The place behind a match, in bytes. -/
def Text.Found.stop (f : Found α) : Nat := f.offset + byteSize f.source

theorem byteSize_pos (h : cs ≠ []) : 0 < byteSize cs := by
  have hlength := List.length_pos_iff.mpr h
  have hle := length_le_byteSize cs
  omega

theorem le_offset_of_mem_foundFrom (hf : f ∈ foundFrom offset ps) : offset ≤ f.offset := by
  induction ps generalizing offset with
  | nil => cases hf
  | cons piece ps ih =>
    cases piece with
    | plain c => exact (Nat.le_add_right _ _).trans (ih hf)
    | found x source =>
      rcases List.mem_cons.mp hf with rfl | hf
      · exact le_rfl
      · exact (Nat.le_add_right _ _).trans (ih hf)

/-- Matches lie one behind the other. -/
theorem pairwise_foundFrom (offset : Nat) (ps : List (Piece α)) :
    (foundFrom offset ps).Pairwise fun f g => f.stop ≤ g.offset := by
  induction ps generalizing offset with
  | nil => exact .nil
  | cons piece ps ih =>
    cases piece with
    | plain c => exact ih _
    | found x source => exact .cons (fun g hg => le_offset_of_mem_foundFrom hg) (ih _)

/-- Every match stands in the text, and is what the pattern finds there. -/
theorem Cuts.standsIn (h : Cuts m cs ps) (hf : f ∈ foundFrom (byteSize a) ps) :
    f.source ≠ [] ∧ ∃ before after, f.StandsIn (a ++ cs) before after ∧
      m (f.source ++ after) = some (f.value, f.source.length) := by
  induction h generalizing a with
  | nil => cases hf
  | @plain c rest ps hnone hrest ih =>
    have hoffset : byteSize a + c.utf8Size = byteSize (a ++ [c]) := by simp
    rw [foundFrom, hoffset] at hf
    rw [List.append_cons]
    exact ih hf
  | @found x source rest ps hne hmatch hrest ih =>
    rw [foundFrom, ← byteSize_append] at hf
    rcases List.mem_cons.mp hf with rfl | hf
    · exact ⟨hne, a, rest, ⟨rfl, rfl⟩, hmatch⟩
    · rw [← List.append_assoc]
      exact ih hf

/-- **A place of the text is in a match, or nothing is found at it.** -/
theorem Cuts.exists_found_or_none (h : Cuts m cs ps) (offset : Nat) (hcs : cs = before ++ rest)
    (hrest : rest ≠ []) : m rest = none ∨ ∃ f ∈ foundFrom offset ps,
      ∃ inner tail, f.source = inner ++ tail ∧ tail ≠ [] ∧ tail <+: rest ∧
        f.offset + byteSize inner = offset + byteSize before ∧
        (inner = [] → m rest = some (f.value, f.source.length)) := by
  induction h generalizing before offset with
  | nil =>
    obtain ⟨-, rfl⟩ := List.append_eq_nil_iff.mp hcs.symm
    exact absurd rfl hrest
  | @plain c after ps hnone hcuts ih =>
    cases before with
    | nil =>
      rw [List.nil_append] at hcs
      exact .inl (hcs ▸ hnone)
    | cons b before =>
      rw [List.cons_append, List.cons.injEq] at hcs
      obtain ⟨rfl, hcs⟩ := hcs
      rw [foundFrom, byteSize_cons, ← Nat.add_assoc]
      exact ih _ hcs
  | @found x source after ps hne hmatch hcuts ih =>
    rcases List.append_eq_append_iff.mp hcs with ⟨mid, rfl, hafter⟩ | ⟨mid, rfl, hrest'⟩
    · -- the place is behind this match
      rw [foundFrom, byteSize_append, ← Nat.add_assoc]
      rcases ih (offset + byteSize source) hafter with hnone | ⟨f, hf, hplace⟩
      · exact .inl hnone
      · exact .inr ⟨f, List.mem_cons_of_mem _ hf, hplace⟩
    · cases mid with
      | nil =>
        rw [List.append_nil] at hne hmatch ⊢
        rw [List.nil_append] at hrest'
        rcases @ih [] (offset + byteSize before) hrest'.symm with hnone | ⟨f, hf, hplace⟩
        · exact .inl hnone
        · exact .inr ⟨f, List.mem_cons_of_mem _ hf, hplace⟩
      | cons c mid =>
        refine .inr ⟨⟨offset, x, before ++ c :: mid⟩, List.mem_cons_self, before, c :: mid, rfl,
          List.cons_ne_nil c mid, ⟨after, hrest'.symm⟩, rfl, ?_⟩
        rintro rfl
        rw [hrest']
        exact hmatch

end Cuts

/-! ### Directives and islands -/

/-- The sources of an island, with the text behind it: up to the first closing tag, or else up to
the end of the text. -/
inductive IsIsland : List Char → List Char → Prop
  | closed {code after : List Char} (hclose : CutBy closeTag code) :
      IsIsland (openTag ++ code ++ closeTag) after
  | unclosed {code : List Char} (hopen : ¬ closeTag <:+: code) : IsIsland (openTag ++ code) []

section Scanning

variable {cs source after : List Char} {c : Construct} {n : Nat}

theorem islandAt_isIsland (h : islandAt cs = some ((), n)) :
    ∃ source rest, cs = source ++ rest ∧ n = source.length ∧ IsIsland source rest := by
  obtain ⟨rest, hopen, hend⟩ := Option.map_eq_some_iff.mp h
  cases dropStart?_eq_some_iff.mp hopen
  split at hend
  next code tail hclose =>
    cases hend
    obtain ⟨rfl, hcut⟩ := breakOn_iff.mp hclose
    refine ⟨openTag ++ code ++ closeTag, tail, ?_, ?_, .closed hcut⟩
    · simp only [List.append_assoc]
    · simp only [List.length_append]
  next hclose =>
    cases hend
    refine ⟨openTag ++ rest, [], (List.append_nil _).symm, rfl, .unclosed ?_⟩
    rw [← contains_iff_isInfix, contains, hclose]
    decide

theorem IsIsland.ne_nil (h : IsIsland source after) : source ≠ [] := by
  cases h <;> exact List.cons_ne_nil _ _

theorem Directive.Shape.ne_nil {d : Directive} (h : d.Shape source) : source ≠ [] := by
  cases h <;> exact List.cons_ne_nil _ _

/-- What a scan takes at a place. -/
inductive Construct.Stands : Construct → List Char → List Char → Prop
  | directive {d : Directive} {source after : List Char} (hshape : d.Shape source) :
      Stands (.directive d) source after
  | island {source after : List Char} (hisland : IsIsland source after) :
      Stands .island source after

theorem constructAt_eq_some (h : constructAt cs = some (c, n)) :
    ∃ source rest, cs = source ++ rest ∧ n = source.length ∧ c.Stands source rest := by
  rw [constructAt] at h
  split at h
  next k hisland =>
    cases h
    obtain ⟨source, rest, hcs, hk, hshape⟩ := islandAt_isIsland hisland
    exact ⟨source, rest, hcs, hk, .island hshape⟩
  next =>
    obtain ⟨⟨d, k⟩, hdirective, heq⟩ := Option.map_eq_some_iff.mp h
    cases heq
    obtain ⟨source, rest, hcs, hk, hshape, -⟩ := directiveAt_iff.mp hdirective
    exact ⟨source, rest, hcs, hk, .directive hshape⟩

theorem constructAt_takesStarts : TakesStarts constructAt := by
  intro cs c n h
  obtain ⟨source, rest, hcs, hn, hstands⟩ := constructAt_eq_some h
  refine ⟨source, rest, ?_, hcs, hn⟩
  cases hstands with
  | directive hshape => exact hshape.ne_nil
  | island hisland => exact hisland.ne_nil

/-- What is found at a place with its source has the shape of it. -/
theorem stands_of_constructAt (h : constructAt (source ++ after) = some (c, source.length)) :
    c.Stands source after := by
  obtain ⟨source', rest, hcs, hn, hstands⟩ := constructAt_eq_some h
  obtain ⟨rfl, rfl⟩ := List.append_inj hcs hn
  exact hstands

/-- An opening tag is an island, whatever follows. -/
theorem constructAt_openTag (rest : List Char) :
    ∃ n, constructAt (openTag ++ rest) = some (.island, n) := by
  rw [constructAt, islandAt, dropStart?_append, Option.map_some]
  cases breakOn closeTag rest with
  | none => exact ⟨_, rfl⟩
  | some parts => exact ⟨_, rfl⟩

end Scanning

/-- Whether a construct is an island. -/
def Construct.island? : Construct → Option Unit
  | .island => some ()
  | .directive _ => none

/-- The islands that a scan meets, with their places. -/
def scanIslands (cs : List Char) : List (Found Unit) :=
  (findPlaces constructAt cs).filterMap fun found =>
    found.value.island?.map fun value => { offset := found.offset, value, source := found.source }

section Spans

variable {cs before after : List Char} {f : Found Directive} {i : Found Unit}

theorem mem_scanDirectives : f ∈ scanDirectives cs ↔
    (⟨f.offset, .directive f.value, f.source⟩ : Found Construct) ∈ findPlaces constructAt cs := by
  rw [scanDirectives, List.mem_filterMap]
  constructor
  · rintro ⟨⟨offset, _ | _, source⟩, hmem, heq⟩ <;> cases heq
    exact hmem
  · intro hmem
    exact ⟨_, hmem, rfl⟩

theorem mem_scanIslands : i ∈ scanIslands cs ↔
    (⟨i.offset, .island, i.source⟩ : Found Construct) ∈ findPlaces constructAt cs := by
  rw [scanIslands, List.mem_filterMap]
  constructor
  · rintro ⟨⟨offset, _ | _, source⟩, hmem, heq⟩ <;> cases heq
    exact hmem
  · intro hmem
    exact ⟨_, hmem, rfl⟩

/-- What is found stands in the text, and a scan finds it there. -/
theorem standsIn_of_mem_findPlaces {f : Found Construct} (hf : f ∈ findPlaces constructAt cs) :
    ∃ before after, f.StandsIn cs before after ∧
      constructAt (f.source ++ after) = some (f.value, f.source.length) :=
  ((cuts_cut constructAt_takesStarts cs).standsIn (a := []) hf).2

/-- A directive stands in the text, and its source has its shape. -/
theorem shape_of_mem_scanDirectives (hf : f ∈ scanDirectives cs) :
    (∃ before after, f.StandsIn cs before after) ∧ f.value.Shape f.source := by
  obtain ⟨before, after, hstands, hmatch⟩ :=
    standsIn_of_mem_findPlaces (mem_scanDirectives.mp hf)
  obtain ⟨hshape⟩ := stands_of_constructAt hmatch
  exact ⟨⟨before, after, hstands.text, hstands.offset⟩, hshape⟩

/-- An island stands in the text, and its source is that of an island there. -/
theorem isIsland_of_mem_scanIslands (hi : i ∈ scanIslands cs) :
    ∃ before after, i.StandsIn cs before after ∧ IsIsland i.source after := by
  obtain ⟨before, after, hstands, hmatch⟩ :=
    standsIn_of_mem_findPlaces (mem_scanIslands.mp hi)
  cases stands_of_constructAt hmatch with
  | island hisland => exact ⟨before, after, ⟨hstands.text, hstands.offset⟩, hisland⟩

/-- Directives lie one behind the other. -/
theorem pairwise_scanDirectives (cs : List Char) : (scanDirectives cs).Pairwise fun f g =>
    f.offset < g.offset ∧ f.stop ≤ g.offset := by
  have hordered : (scanDirectives cs).Pairwise fun f g => f.stop ≤ g.offset := by
    refine (pairwise_foundFrom 0 (cut constructAt cs)).filterMap _ ?_
    rintro ⟨_, _ | _, _⟩ ⟨_, _ | _, _⟩ hle f hf g hg <;> cases hf <;> cases hg
    exact hle
  refine hordered.imp_of_mem fun hf hg hle => ⟨?_, hle⟩
  have hpos := byteSize_pos (shape_of_mem_scanDirectives hf).2.ne_nil
  unfold Text.Found.stop at hle
  omega

/-- A directive and an island do not overlap. -/
theorem apart_of_mem (hf : f ∈ scanDirectives cs) (hi : i ∈ scanIslands cs) :
    f.stop ≤ i.offset ∨ i.stop ≤ f.offset := by
  have hall : (findPlaces constructAt cs).Pairwise fun f g =>
      f.stop ≤ g.offset ∨ g.stop ≤ f.offset :=
    (pairwise_foundFrom 0 _).imp .inl
  have hne : (⟨f.offset, .directive f.value, f.source⟩ : Found Construct) ≠
      ⟨i.offset, .island, i.source⟩ := by
    intro heq
    cases congrArg Found.value heq
  have hsymm : Std.Symm fun f g : Found Construct => f.stop ≤ g.offset ∨ g.stop ≤ f.offset :=
    ⟨fun _ _ => Or.symm⟩
  exact hall.forall (mem_scanDirectives.mp hf) (mem_scanIslands.mp hi) hne

/-- An opening tag lies in an island, or it is a part of a directive that starts before it. -/
theorem openTag_covered (hcs : cs = before ++ (openTag ++ after)) :
    (∃ i ∈ scanIslands cs, i.offset ≤ byteSize before ∧ byteSize before < i.stop) ∨
      ∃ f ∈ scanDirectives cs, f.offset < byteSize before ∧ byteSize before < f.stop := by
  obtain ⟨n, hopen⟩ := constructAt_openTag after
  have hplace := (cuts_cut constructAt_takesStarts cs).exists_found_or_none 0 hcs
    (List.cons_ne_nil _ _)
  rw [hopen] at hplace
  obtain hnone | ⟨⟨offset, value, source⟩, hf, inner, tail, rfl, htail, -, hoffset, hstart⟩ :=
    hplace
  · cases hnone
  · have hpos := byteSize_pos htail
    replace hoffset : offset + byteSize inner = byteSize before := by simpa using hoffset
    have hstop : byteSize before < offset + byteSize (inner ++ tail) := by
      rw [byteSize_append]
      omega
    cases value with
    | island =>
      refine .inl ⟨⟨offset, (), inner ++ tail⟩, mem_scanIslands.mpr hf, ?_, hstop⟩
      exact Nat.le.intro hoffset
    | directive d =>
      refine .inr ⟨⟨offset, d, inner ++ tail⟩, mem_scanDirectives.mpr hf, ?_, hstop⟩
      -- a directive does not start with an opening tag
      have hinner : inner ≠ [] := fun hnil => by cases hstart hnil
      have hinner := byteSize_pos hinner
      show offset < byteSize before
      omega

end Spans

/-! ### Copying -/

/-- What is written for a directive under the verdict on its nesting. -/
def Directive.written (resolve : Path → Option Path) (d : Directive)
    (verdict : Option Imbalance) : List Char :=
  match d.codeUnder resolve verdict with
  | .ok code => code
  | .error _ => []

/-- A text, whose first character has this offset, with the spans of directives replaced by what is
written for them; the text before each span and behind the last one is copied. -/
inductive Expands (resolve : Path → Option Path) :
    Nat → List (Found Directive) → List (Option Imbalance) → List Char → List Char → Prop
  | copied {offset : Nat} {verdicts : List (Option Imbalance)} {tail : List Char} :
      Expands resolve offset [] verdicts tail tail
  | replaced {offset : Nat} {f : Found Directive} {fs : List (Found Directive)}
      {verdicts : List (Option Imbalance)} {gap cs out : List Char}
      (hoffset : f.offset = offset + byteSize gap)
      (hrest : Expands resolve f.stop fs verdicts.tail cs out) :
      Expands resolve offset (f :: fs) verdicts (gap ++ (f.source ++ cs))
        (gap ++ (f.value.written resolve (verdicts.head?.getD none) ++ out))

namespace Expands

variable {resolve : Path → Option Path} {offset : Nat} {fs : List (Found Directive)}
  {verdicts : List (Option Imbalance)} {cs out : List Char}

/-- Text in front is copied. -/
theorem behind (a : List Char) (h : Expands resolve (offset + byteSize a) fs verdicts cs out) :
    Expands resolve offset fs verdicts (a ++ cs) (a ++ out) := by
  cases h with
  | copied => exact .copied
  | @replaced _ f _ _ gap cs out hoffset hrest =>
    rw [← List.append_assoc a gap, ← List.append_assoc a gap]
    refine .replaced ?_ hrest
    rw [hoffset, byteSize_append, Nat.add_assoc]

theorem of_expandPieces (resolve : Path → Option Path) (ps : List (Piece Construct))
    (offset : Nat) (verdicts : List (Option Imbalance)) :
    Expands resolve offset
      ((foundFrom offset ps).filterMap fun found => found.value.directive?.map fun d =>
        { offset := found.offset, value := d, source := found.source })
      verdicts (ps.flatMap Piece.source) (expandPieces resolve offset ps verdicts).1 := by
  induction ps generalizing offset verdicts with
  | nil => exact .copied
  | cons piece ps ih =>
    match piece with
    | .plain c => exact (ih (offset + c.utf8Size) verdicts).behind [c]
    | .found .island source => exact (ih (offset + byteSize source) verdicts).behind source
    | .found (.directive d) source =>
      have hrest := ih (offset + byteSize source) verdicts.tail
      have hoffset : (⟨offset, d, source⟩ : Found Directive).offset = offset + byteSize [] :=
        (Nat.add_zero offset).symm
      have hnext : Expands resolve offset (⟨offset, d, source⟩ :: _) verdicts
          ([] ++ (source ++ _)) ([] ++ (d.written resolve (verdicts.head?.getD none) ++ _)) :=
        .replaced hoffset hrest
      rw [expandPieces]
      have hout : (match d.codeUnder resolve (verdicts.head?.getD none) with
          | .ok code =>
            (code ++ (expandPieces resolve (offset + byteSize source) ps verdicts.tail).1,
              (expandPieces resolve (offset + byteSize source) ps verdicts.tail).2)
          | .error fault =>
            ((expandPieces resolve (offset + byteSize source) ps verdicts.tail).1,
              ⟨fault.defect, offset, source, some fault.help⟩ ::
                (expandPieces resolve (offset + byteSize source) ps verdicts.tail).2)).1 =
          d.written resolve (verdicts.head?.getD none) ++
            (expandPieces resolve (offset + byteSize source) ps verdicts.tail).1 := by
        unfold Directive.written
        cases d.codeUnder resolve (verdicts.head?.getD none) <;> rfl
      rw [← hout] at hnext
      exact hnext

end Expands

theorem values_scanDirectives (cs : List Char) :
    ((cut constructAt cs).filterMap Piece.value?).filterMap Construct.directive? =
      (scanDirectives cs).map Found.value := by
  have hvalues : ∀ (offset : Nat) (ps : List (Piece Construct)),
      (ps.filterMap Piece.value?).filterMap Construct.directive? =
        ((foundFrom offset ps).filterMap fun found => found.value.directive?.map fun d =>
          ({ offset := found.offset, value := d, source := found.source } : Found Directive)).map
            Found.value := by
    intro offset ps
    induction ps generalizing offset with
    | nil => rfl
    | cons piece ps ih =>
      match piece with
      | .plain c => exact ih _
      | .found .island source => exact ih (offset + byteSize source)
      | .found (.directive d) source => exact congrArg (d :: ·) (ih (offset + byteSize source))
  exact hvalues 0 _

/-- **The spans of directives are exact.**  The directives of a text lie one behind the other, each
on a part of the text that is a source of it.  A scan meets islands, each up to its first closing
tag or the end of the text; every opening tag lies in one of them or behind the start of a
directive, and no directive overlaps an island.  Compiling replaces the spans of the directives and
copies the rest of the text. -/
theorem directives_span_their_sources (resolve : Path → Option Path) (cs : List Char) :
    ((scanDirectives cs).Pairwise fun f g => f.offset < g.offset ∧ f.stop ≤ g.offset) ∧
    (∀ f ∈ scanDirectives cs,
      (∃ before after, f.StandsIn cs before after) ∧ f.value.Shape f.source) ∧
    (∀ i ∈ scanIslands cs, (∃ before after, i.StandsIn cs before after ∧ IsIsland i.source after) ∧
      ∀ f ∈ scanDirectives cs, f.stop ≤ i.offset ∨ i.stop ≤ f.offset) ∧
    (∀ before after, cs = before ++ (openTag ++ after) →
      (∃ i ∈ scanIslands cs, i.offset ≤ byteSize before ∧ byteSize before < i.stop) ∨
        ∃ f ∈ scanDirectives cs, f.offset < byteSize before ∧ byteSize before < f.stop) ∧
    Expands resolve 0 (scanDirectives cs)
      (imbalances ((scanDirectives cs).map fun f => f.value.nesting?)) cs
      (compileDirectives resolve cs).1 := by
  refine ⟨pairwise_scanDirectives cs, fun f => shape_of_mem_scanDirectives,
    fun i hi => ⟨isIsland_of_mem_scanIslands hi, fun f hf => apart_of_mem hf hi⟩,
    fun before after => openTag_covered, ?_⟩
  have hexpands := Expands.of_expandPieces resolve (cut constructAt cs) 0
    (imbalances ((scanDirectives cs).map fun f => f.value.nesting?))
  rw [flatMap_source_cut] at hexpands
  rw [compileDirectives, values_scanDirectives, List.map_map]
  exact hexpands

/-- A text with an island and a directive of every kind, and with signs of several bytes. -/
def mixedText : List Char :=
  ("é\x7b$a\x7d<?tpl \x7b$b\x7d ?>\x7b@ $n =\n1 \x7d<!--@if(\x27ü\x27)--><load target=\x22a.js\x22/>" ++
    "<!--%import(\x22b.css\x22,media=\x22all\x22)-->\x7ba\x7d<!--@end-->").toList

/-- Its directives with their places; the opening tag of the island is no part of them. -/
theorem directives_span_their_sources_mixed :
    (scanDirectives mixedText).map (fun f => (f.offset, f.value)) =
      [(2, .echo "$a".toList), (19, .raw " $n =\n1 ".toList),
        (30, .control "if".toList "(\x27ü\x27)".toList),
        (46, .resource .loadFile none [("target".toList, "a.js".toList)]),
        (67, .resource .importFile (some "b.css".toList) [("media".toList, "all".toList)]),
        (105, .control "end".toList [])] ∧
    (∀ f ∈ scanDirectives mixedText, f.value.Shape f.source) ∧
    ((∃ i ∈ scanIslands mixedText, i.offset ≤ 6 ∧ 6 < i.stop) ∨
      ∃ f ∈ scanDirectives mixedText, f.offset < 6 ∧ 6 < f.stop) := by
  obtain ⟨-, hshape, -, hopen, -⟩ := directives_span_their_sources (fun _ => none) mixedText
  have hisland : mixedText = "é\x7b$a\x7d".toList ++ (openTag ++ mixedText.drop 10) := by
    decide +kernel
  exact ⟨by decide +kernel, fun f hf => (hshape f hf).2, hopen _ _ hisland⟩

end Stencil
