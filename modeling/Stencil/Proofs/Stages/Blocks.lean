import Stencil.Markup.Comment
import Stencil.Proofs.Forms.Pages
import Stencil.Proofs.Stages.Directives

/-!
# Islands, blocks and comments

After the directives the tags of blocks, comments and attributes of rulesets are taken out of the
text, and fields are put into forms.  None of these stages looks for islands.  What each of them
looks for starts with a mark, and no mark is read past a question mark; so nothing is found inside
of an island in which no mark occurs.

## Main definitions

* `stageMarkAt` — the marks of the later stages.
* `Quiet` — an island without marks, that closes once.
* `StartsWithMark` — the matches of a pattern start with a mark.
* `removedBlocks` — the tags and comments that are taken out.

## Main results

* `not_straddles_of_startsWithMark` — such a pattern does not match inside of a quiet island.
* `holds_cutFrom` — islands stay in a text whose matches are rewritten one after the other.
* `holds_dropBlocks` — the text without blocks and comments holds the islands.
-/

namespace Stencil

open Text Lexer

/-- A tag of a block, or a comment for authors with a blank. -/
def blockOrCommentAt : Matcher Unit := fun cs => (blockTagAt cs).or (spacedCommentAt cs)

/-- What the stages after the directives look for. -/
def stageMarkAt : Matcher Unit := fun cs =>
  (blockTagAt cs).or <| (phraseFold "<!--//".toList cs).or <|
    (formOpenAt cs).or (phraseFold "ruleset=\x22".toList cs)

/-- An island that closes once and holds nothing that later stages look for. -/
structure Quiet (i : List Char) : Prop where
  closes : ClosesOnce i
  unmarked : occurs stageMarkAt i = false

instance : DecidablePred Quiet := fun i =>
  decidable_of_iff (ClosesOnce i ∧ occurs stageMarkAt i = false)
    ⟨fun h => ⟨h.1, h.2⟩, fun h => ⟨h.closes, h.unmarked⟩⟩

/-- The tags of blocks and the comments that are taken out of a text. -/
def removedBlocks (cs : List Char) : List (List Char) :=
  (findPlaces blockOrCommentAt cs).map Found.source

variable {α : Type} {m : Matcher α} {is : List (List Char)} {i a b cs x rest : List Char}

/-! ### Marks -/

section Marks

/-- The pattern does not read past a question mark. -/
def StopsAtQuestion (m : Matcher α) : Prop :=
  ∀ a b rest, (m (a ++ '?' :: b)).isSome = (m (a ++ '?' :: rest)).isSome

theorem dropStartFold?_question {p : List Char} (hp : ∀ x ∈ p, isFormOf x '?' = false)
    (a b : List Char) :
    dropStartFold? p (a ++ '?' :: b) = (dropStartFold? p a).map (· ++ '?' :: b) := by
  refine dropStartFold?_append_of_notMem fun x hx d hd => ?_
  cases hd
  exact hp x hx

theorem dropWhile_question (a b : List Char) :
    (a ++ '?' :: b).dropWhile isBlank = a.dropWhile isBlank ++ '?' :: b := by
  rw [List.dropWhile_append]
  cases a.dropWhile isBlank with
  | nil => rfl
  | cons c a => rfl

theorem stopsAtQuestion_phraseFold {p : List Char} (hp : ∀ x ∈ p, isFormOf x '?' = false) :
    StopsAtQuestion (phraseFold p) := by
  intro a b rest
  simp only [phraseFold, dropStartFold?_question hp, Option.isSome_map]

theorem StopsAtQuestion.or {m' : Matcher α} (h : StopsAtQuestion m) (h' : StopsAtQuestion m') :
    StopsAtQuestion fun cs => (m cs).or (m' cs) := by
  intro a b rest
  simp only [Option.isSome_or, h a b rest, h' a b rest]

theorem stopsAtQuestion_formOpenAt : StopsAtQuestion formOpenAt := by
  have hends : ∀ a b, endsFormName (a ++ '?' :: b) = endsFormName a := by
    intro a b
    cases a with
    | nil => rfl
    | cons c a => rfl
  have hword : ∀ x ∈ "<form".toList, isFormOf x '?' = false := forall_mem_of_all (by decide)
  intro a b rest
  simp only [formOpenAt, dropStartFold?_question hword]
  cases dropStartFold? "<form".toList a with
  | none => rfl
  | some tail => simp only [Option.map_some, Option.bind_some, hends]

theorem stopsAtQuestion_blockNameAt : StopsAtQuestion blockNameAt := by
  have hends : ∀ a b, startsWith ['>'] ((a ++ '?' :: b).dropWhile isBlank) =
      startsWith ['>'] (a.dropWhile isBlank) := by
    intro a b
    rw [dropWhile_question]
    cases a.dropWhile isBlank with
    | nil => rfl
    | cons c a =>
      rw [List.cons_append, startsWith_cons, startsWith_cons]
      rfl
  have hword : ∀ x ∈ "block".toList, isFormOf x '?' = false := forall_mem_of_all (by decide)
  intro a b rest
  simp only [blockNameAt, dropStartFold?_question hword]
  cases dropStartFold? "block".toList a with
  | none => rfl
  | some tail =>
    simp only [Option.map_some, Option.bind_some, hends]
    split <;> rfl

theorem stopsAtQuestion_blockTagAt : StopsAtQuestion blockTagAt := by
  have hopen : ∀ {c : Char} {cs}, c ≠ '/' →
      blockTagAt ('<' :: c :: cs) = (blockNameAt (c :: cs)).map fun x => ((), x.2 + 1) := by
    intro c cs hc
    simp [blockTagAt, hc]
  have hother : ∀ {c : Char} {cs}, c ≠ '<' → blockTagAt (c :: cs) = none := by
    intro c cs hc
    simp [blockTagAt, hc]
  intro a b rest
  cases a with
  | nil => rfl
  | cons c a =>
    by_cases hc : c = '<'
    · subst hc
      cases a with
      | nil => rfl
      | cons d a =>
        by_cases hd : d = '/'
        · subst hd
          simp only [List.cons_append, blockTagAt, Option.isSome_map]
          exact stopsAtQuestion_blockNameAt a b rest
        · simp only [List.cons_append, hopen hd, Option.isSome_map]
          exact stopsAtQuestion_blockNameAt (d :: a) b rest
    · simp only [List.cons_append, hother hc]

/-- What a later stage looks for is not read past a question mark. -/
theorem stopsAtQuestion_stageMarkAt : StopsAtQuestion stageMarkAt :=
  stopsAtQuestion_blockTagAt.or <|
    (stopsAtQuestion_phraseFold (forall_mem_of_all (by decide))).or <|
      stopsAtQuestion_formOpenAt.or (stopsAtQuestion_phraseFold (forall_mem_of_all (by decide)))

end Marks

/-! ### Patterns that start with a mark -/

section Starting

/-- Wherever the pattern matches in front of a question mark, a mark occurs in front of it. -/
def StartsWithMark (m : Matcher α) : Prop :=
  ∀ a b rest, m (a ++ '?' :: b) ≠ none → occurs stageMarkAt (a ++ '?' :: rest) = true

theorem isSome_stageMarkAt (cs : List Char) :
    (stageMarkAt cs).isSome = ((blockTagAt cs).isSome || ((phraseFold "<!--//".toList cs).isSome ||
      ((formOpenAt cs).isSome || (phraseFold "ruleset=\x22".toList cs).isSome))) := by
  rw [stageMarkAt, Option.isSome_or, Option.isSome_or, Option.isSome_or]

theorem occurs_of_isSome (ha : a ≠ []) (h : (m a).isSome = true) : occurs m a = true := by
  obtain ⟨c, a, rfl⟩ := List.exists_cons_of_ne_nil ha
  exact occurs_cons h

/-- A pattern that needs a mark where it matches starts with it. -/
theorem startsWithMark_of_imp {m' : Matcher Unit}
    (himp : ∀ cs, m cs ≠ none → (m' cs).isSome = true)
    (hmark : ∀ cs, (m' cs).isSome = true → (stageMarkAt cs).isSome = true) : StartsWithMark m := by
  intro a b rest h
  refine occurs_of_isSome (List.append_ne_nil_of_right_ne_nil a (List.cons_ne_nil _ _)) ?_
  rw [← stopsAtQuestion_stageMarkAt a b rest]
  exact hmark _ (himp _ h)

theorem StartsWithMark.or {m' : Matcher α} (h : StartsWithMark m) (h' : StartsWithMark m') :
    StartsWithMark fun cs => (m cs).or (m' cs) := by
  intro a b rest hmatch
  cases hm : m (a ++ '?' :: b) with
  | some x => exact h a b rest (by rw [hm]; exact Option.some_ne_none x)
  | none => exact h' a b rest (by simpa only [hm, Option.none_or] using hmatch)

theorem isSome_of_authorCommentAt (cs : List Char) (h : authorCommentAt cs ≠ none) :
    (phraseFold "<!--//".toList cs).isSome = true := by
  rw [phraseFold, Option.isSome_map, dropStartFold?_of_signs (forall_mem_of_all (by decide))]
  rw [authorCommentAt] at h
  cases hopen : dropStart? "<!--//".toList cs with
  | none =>
    rw [hopen] at h
    exact absurd rfl h
  | some rest => rfl

theorem startsWithMark_authorCommentAt : StartsWithMark authorCommentAt :=
  startsWithMark_of_imp isSome_of_authorCommentAt
    fun cs h => by simp only [isSome_stageMarkAt, h, Bool.true_or, Bool.or_true]

theorem startsWithMark_spacedCommentAt : StartsWithMark spacedCommentAt := by
  intro a b rest h
  cases a with
  | nil => exact absurd rfl h
  | cons c a =>
    rw [List.cons_append, spacedCommentAt] at h
    split at h
    next =>
      have hcomment : authorCommentAt (a ++ '?' :: b) ≠ none := by
        intro hnone
        rw [hnone] at h
        exact h rfl
      have htail := startsWithMark_authorCommentAt a b rest hcomment
      exact occurs_append [c] htail
    next => exact startsWithMark_authorCommentAt (c :: a) b rest h

theorem startsWithMark_blockOrCommentAt : StartsWithMark blockOrCommentAt := by
  refine StartsWithMark.or ?_ startsWithMark_spacedCommentAt
  exact startsWithMark_of_imp (fun cs h => Option.isSome_iff_ne_none.mpr h)
    fun cs h => by simp only [isSome_stageMarkAt, h, Bool.true_or]

/-- **A pattern that starts with a mark does not match inside of a quiet island.** -/
theorem not_straddles_of_startsWithMark (hm : StartsWithMark m)
    (hclose : ∀ cs, m ('>' :: cs) = none) (hi : Quiet i) (h : m b ≠ none) : ¬ Straddles i a b := by
  rintro ⟨u, v, w, z, -, hv, huv, -, rfl⟩
  have hmarked : ∀ t, v = t ++ ['?', '>'] → False := by
    rintro t rfl
    rw [List.append_assoc] at h
    have hoccurs := occurs_append u (hm t ('>' :: z) ['>'] h)
    rw [← huv, hi.unmarked] at hoccurs
    cases hoccurs
  obtain ⟨code, hcode, -⟩ := hi.closes
  rw [huv, ← List.append_assoc] at hcode
  rcases List.append_eq_append_iff.mp hcode with ⟨t, -, hvt⟩ | ⟨t, -, hvt⟩
  · exact hmarked t hvt
  · cases t with
    | nil => exact hmarked [] hvt.symm
    | cons c t =>
      -- only the last sign of the island is left
      have hv' : v = ['>'] := by
        obtain ⟨-, hrest⟩ := List.cons.inj hvt
        cases t with
        | nil => exact hrest.symm
        | cons d t =>
          obtain ⟨-, hnil⟩ := List.cons.inj hrest
          exact absurd (List.append_eq_nil_iff.mp hnil.symm).2 hv
      rw [hv'] at h
      exact h (hclose z)

end Starting

/-! ### Blocks and comments -/

theorem blockNameAt_endsWith : EndsWith blockNameAt ['>'] := by
  intro cs x n h
  obtain ⟨rest, hrest, hm⟩ := Option.bind_eq_some_iff.mp h
  obtain ⟨word, hword, rfl⟩ := dropStartFold?_eq_some_iff.mp hrest
  split at hm
  next hclose =>
    cases hm
    obtain ⟨tail, htail⟩ := startsWith_iff.mp hclose
    refine ⟨word ++ rest.takeWhile isBlank, '>', tail, List.mem_singleton_self _, ?_, ?_⟩
    · conv => lhs; rw [← List.takeWhile_append_dropWhile (p := isBlank) (l := rest), ← htail]
      simp
    · have hlen : word.length = 5 := hword.length
      simp only [List.length_append, hlen, List.length_singleton]
      omega
  next => cases hm

theorem blockTagAt_endsWith : EndsWith blockTagAt ['>'] := by
  intro cs x n h
  unfold blockTagAt at h
  split at h
  next cs =>
    obtain ⟨⟨y, k⟩, hk, heq⟩ := Option.map_eq_some_iff.mp h
    cases heq
    obtain ⟨w, c, rest, hc, rfl, rfl⟩ := blockNameAt_endsWith _ _ _ hk
    exact ⟨'<' :: '/' :: w, c, rest, hc, rfl, rfl⟩
  next cs _ =>
    obtain ⟨⟨y, k⟩, hk, heq⟩ := Option.map_eq_some_iff.mp h
    cases heq
    obtain ⟨w, c, rest, hc, rfl, rfl⟩ := blockNameAt_endsWith _ _ _ hk
    exact ⟨'<' :: w, c, rest, hc, rfl, rfl⟩
  next => cases h

theorem authorCommentAt_endsWith : EndsWith authorCommentAt ['>'] := by
  intro cs x n h
  obtain ⟨rest, hrest, hm⟩ := Option.bind_eq_some_iff.mp h
  obtain ⟨⟨comment, tail⟩, hcut, heq⟩ := Option.map_eq_some_iff.mp hm
  cases heq
  refine ⟨"<!--//".toList ++ comment ++ "--".toList, '>', tail, List.mem_singleton_self _, ?_, ?_⟩
  · rw [dropStart?_eq_some_iff.mp hrest, breakOn_eq_some hcut]
    simp
  · simp

theorem spacedCommentAt_endsWith : EndsWith spacedCommentAt ['>'] := by
  intro cs x n h
  cases cs with
  | nil => cases h
  | cons c cs =>
    rw [spacedCommentAt] at h
    split at h
    next =>
      obtain ⟨⟨y, k⟩, hk, heq⟩ := Option.map_eq_some_iff.mp h
      cases heq
      obtain ⟨w, d, rest, hd, rfl, rfl⟩ := authorCommentAt_endsWith _ _ _ hk
      exact ⟨c :: w, d, rest, hd, rfl, rfl⟩
    next => exact authorCommentAt_endsWith _ _ _ h

theorem blockOrCommentAt_endsWith : EndsWith blockOrCommentAt ['>'] :=
  blockTagAt_endsWith.or spacedCommentAt_endsWith

/-- Islands stay when the matches of a pattern are rewritten one after the other, if they stay when
one match is, whatever stands in front of it. -/
theorem holds_cutFrom {text : Piece α → List Char} (hplain : ∀ c, text (.plain c) = [c])
    (hwhole : ∀ {cs v n}, m cs = some (v, n) → ∃ a rest, a ≠ [] ∧ cs = a ++ rest ∧ n = a.length)
    {P : α → List Char → Prop}
    (hfound : ∀ {x a rest v}, m (a ++ rest) = some (v, a.length) → P v a →
      Holds is (x ++ (a ++ rest)) → Holds is (x ++ (text (.found v a) ++ rest)))
    (n : Nat) (hn : cs.length ≤ n) (hP : ∀ v a, Piece.found v a ∈ cutFrom m 0 cs → P v a)
    (h : Holds is (x ++ cs)) : Holds is (x ++ (cutFrom m 0 cs).flatMap text) := by
  -- what is written joins what stands in front
  induction n generalizing cs x with
  | zero =>
    rw [List.length_eq_zero_iff.mp (Nat.le_zero.mp hn)] at h ⊢
    exact h
  | succ n ih =>
    cases hmatch : m cs with
    | some found =>
      obtain ⟨v, k⟩ := found
      obtain ⟨a, rest, hne, rfl, rfl⟩ := hwhole hmatch
      rw [cutFrom_found hne hmatch] at hP ⊢
      have hpos := List.length_pos_iff.mpr hne
      rw [List.length_append] at hn
      have hstep := hfound hmatch (hP v a List.mem_cons_self) h
      rw [← List.append_assoc] at hstep
      have hrest := ih (by omega) (fun v b hmem => hP v b (List.mem_cons_of_mem _ hmem)) hstep
      rwa [List.append_assoc] at hrest
    | none =>
      cases cs with
      | nil => exact h
      | cons c cs =>
        have hcut : cutFrom m 0 (c :: cs) = .plain c :: cutFrom m 0 cs := by
          rw [cutFrom, hmatch]
        rw [hcut, List.flatMap_cons, hplain]
        rw [hcut] at hP
        rw [← List.singleton_append, ← List.append_assoc] at h
        have hrest := ih (Nat.le_of_succ_le_succ hn)
          (fun v a hmem => hP v a (List.mem_cons_of_mem _ hmem)) h
        rwa [List.append_assoc] at hrest

/-- **The text without blocks and comments holds the islands.** -/
theorem holds_dropBlocks (hquiet : ∀ i ∈ is, Quiet i)
    (hopen : ∀ source ∈ removedBlocks cs, contains openTag source = false) (h : Holds is cs) :
    Holds is (dropBlocks cs) := by
  refine holds_cutFrom (x := []) (P := fun _ a => contains openTag a = false) (fun _ => rfl)
    blockOrCommentAt_endsWith.exists_append (fun {x a rest v} hmatch ha h => ?_) cs.length le_rfl
    (fun v a hmem => ?_) h
  · obtain ⟨w, c, tail, hc, hcs, hlen⟩ := blockOrCommentAt_endsWith _ _ _ hmatch
    obtain ⟨rfl, -⟩ := List.append_inj hcs hlen
    refine h.cutOut (fun i hi => (hquiet i hi).closes) (fun i hi => ?_) ha fun d hd => ?_
    · exact not_straddles_of_startsWithMark startsWithMark_blockOrCommentAt (fun _ => rfl)
        (hquiet i hi) (hmatch.trans_ne (Option.some_ne_none _))
    · rw [List.getLast?_concat, List.mem_singleton.mp hc] at hd
      cases hd
      decide
  · obtain ⟨found, hfound, -, hsource⟩ := mem_foundFrom hmem 0
    rw [← hsource]
    exact hopen _ (List.mem_map_of_mem hfound)

end Stencil
