import Stencil.Markup.Directive.Expand
import Stencil.Proofs.Stages.Holding

/-!
# Islands and directives

Directives are replaced and islands are passed at once.  What is passed ends at the first closing
tag, so an island is passed as a whole when no other closing tag stands in it.

## Main definitions

* `EndsWith` — the matches of a pattern end with given signs.

## Main results

* `directiveAt_endsWith` — a directive ends with a brace or an angle bracket.
* `holds_compileDirectives` — the text with its directives replaced holds the islands.
-/

namespace Stencil

open Text Lexer

section Endings

variable {α β : Type} {m m' : Matcher α} {signs : List Char}

/-- Every match of the pattern ends with one of the signs. -/
def EndsWith (m : Matcher α) (signs : List Char) : Prop :=
  ∀ cs a n, m cs = some (a, n) →
    ∃ w c rest, c ∈ signs ∧ cs = (w ++ [c]) ++ rest ∧ n = (w ++ [c]).length

theorem EndsWith.or (h : EndsWith m signs) (h' : EndsWith m' signs) :
    EndsWith (fun cs => (m cs).or (m' cs)) signs := by
  intro cs a n hmatch
  rcases Option.or_eq_some_iff.mp hmatch with hm | ⟨-, hm⟩
  · exact h cs a n hm
  · exact h' cs a n hm

theorem EndsWith.afterPhrase (p : List Char) (h : EndsWith m signs) :
    EndsWith (afterPhrase p m) signs := by
  intro cs a n hmatch
  obtain ⟨rest, hrest, hm⟩ := Option.bind_eq_some_iff.mp hmatch
  obtain ⟨⟨a', k⟩, hk, heq⟩ := Option.map_eq_some_iff.mp hm
  cases heq
  obtain ⟨w, c, rest', hc, rfl, rfl⟩ := h _ _ _ hk
  refine ⟨p ++ w, c, rest', hc, ?_, ?_⟩
  · rw [dropStart?_eq_some_iff.mp hrest]
    simp only [List.append_assoc]
  · simp only [List.length_append, Nat.add_assoc]

theorem EndsWith.exists_append (h : EndsWith m signs) {cs : List Char} {v : α} {n : Nat}
    (hmatch : m cs = some (v, n)) : ∃ a rest, a ≠ [] ∧ cs = a ++ rest ∧ n = a.length := by
  obtain ⟨w, c, rest, -, hcs, hn⟩ := h _ _ _ hmatch
  exact ⟨w ++ [c], rest, List.append_ne_nil_of_right_ne_nil w (List.cons_ne_nil c []), hcs, hn⟩

end Endings

/-- A text in which a character is found is cut there. -/
theorem exists_takeWhile_append {x : Char} {cs : List Char}
    (h : (cs.takeWhile (· ≠ x)).length ≠ cs.length) :
    ∃ rest, cs = cs.takeWhile (· ≠ x) ++ x :: rest := by
  induction cs with
  | nil => exact absurd rfl h
  | cons c cs ih =>
    by_cases hc : c = x
    · subst hc
      exact ⟨cs, by simp⟩
    · have hread : (c :: cs).takeWhile (· ≠ x) = c :: cs.takeWhile (· ≠ x) := by
        simp [hc]
      rw [hread] at h ⊢
      obtain ⟨rest, hrest⟩ := ih fun heq => h (by rw [List.length_cons, List.length_cons, heq])
      exact ⟨rest, by rw [List.cons_append, ← hrest]⟩

theorem firstLine_append (cs : List Char) : ∃ rest, cs = firstLine cs ++ rest :=
  ⟨cs.dropWhile (· ≠ '\n'), List.takeWhile_append_dropWhile.symm⟩

/-- The signs that end a directive. -/
def directiveEnds : List Char := ['\x7d', '>']

theorem bracedAt_endsWith : EndsWith bracedAt directiveEnds := by
  intro cs a n h
  unfold bracedAt at h
  split at h
  next code =>
    simp only [] at h
    split at h
    next => cases h
    next hbody =>
      simp only [Bool.or_eq_true, decide_eq_true_eq, not_or] at hbody
      obtain ⟨rest, hrest⟩ := exists_takeWhile_append hbody.2
      cases h
      refine ⟨'@' :: code.takeWhile (· ≠ '\x7d'), '\x7d', rest, by decide, ?_, ?_⟩
      · simpa using hrest
      · simp
  next =>
    simp only [] at h
    split at h
    next => cases h
    next hbody =>
      simp only [Bool.or_eq_true, decide_eq_true_eq, not_or] at hbody
      obtain ⟨rest, hrest⟩ := exists_takeWhile_append hbody.1.2
      obtain ⟨tail, htail⟩ := firstLine_append cs
      cases h
      refine ⟨(firstLine cs).takeWhile (· ≠ '\x7d'), '\x7d', rest ++ tail, by decide, ?_, ?_⟩
      · conv => lhs; rw [htail, hrest]
        simp
      · simp

theorem verbAt_eq_some {cs rest : List Char} {verb : ResourceVerb} {width : Nat}
    (h : verbAt cs = some (verb, width, rest)) :
    ∃ word, (word, verb) ∈ resourceVerbs ∧ (rest.head?.map isPlainWord).getD false = false ∧
      cs = word ++ rest ∧ width = word.length := by
  obtain ⟨⟨word, verb'⟩, hmem, hword⟩ := List.exists_of_findSome?_eq_some h
  simp only [] at hword
  split at hword
  next rest' hdrop =>
    split at hword
    next => cases hword
    next hends =>
      cases hword
      exact ⟨word, hmem, Bool.eq_false_iff.mpr hends, dropStart?_eq_some_iff.mp hdrop, rfl⟩
  next => cases hword

theorem resourceTagAt_endsWith : EndsWith resourceTagAt directiveEnds := by
  intro cs a n h
  rw [resourceTagAt] at h
  split at h
  next verb width rest hverb =>
    split at h
    next text tail hcut =>
      simp only [] at h
      split at h
      next => cases h
      next =>
        obtain ⟨word, -, -, rfl, rfl⟩ := verbAt_eq_some hverb
        obtain ⟨line, hline⟩ := firstLine_append rest
        cases h
        refine ⟨word ++ text ++ ['/'], '>', tail ++ line, by decide, ?_, ?_⟩
        · conv => lhs; rw [hline, breakOn_eq_some hcut]
          simp
        · simp
          omega
    next => cases h
  next => cases h

theorem resourceCommentAt_endsWith : EndsWith resourceCommentAt directiveEnds := by
  intro cs a n h
  rw [resourceCommentAt] at h
  split at h
  next verb width rest hverb =>
    split at h
    next argument tail hargument =>
      split at h
      next text tail' hcut =>
        split at h
        next => cases h
        next =>
          obtain ⟨word, -, -, rfl, rfl⟩ := verbAt_eq_some hverb
          obtain ⟨line, hline⟩ := firstLine_append tail
          cases h
          refine ⟨word ++ '(' :: '\x22' :: (argument ++ ['\x22'] ++ text ++ ")--".toList), '>',
            tail' ++ line, by decide, ?_, ?_⟩
          · conv => lhs; rw [breakOn_eq_some hargument, hline, breakOn_eq_some hcut]
            simp
          · simp
            omega
      next => cases h
    next => cases h
  next => cases h

theorem controlAt_endsWith : EndsWith controlAt directiveEnds := by
  intro cs a n h
  rw [controlAt] at h
  split at h
  next args tail hcut =>
    split at h
    next => cases h
    next =>
      obtain ⟨line, hline⟩ := firstLine_append (cs.dropWhile isKeywordChar)
      cases h
      refine ⟨cs.takeWhile isKeywordChar ++ args ++ "--".toList, '>', tail ++ line, by decide,
        ?_, ?_⟩
      · conv =>
          lhs
          rw [← List.takeWhile_append_dropWhile (p := isKeywordChar) (l := cs), hline,
            breakOn_eq_some hcut]
        simp
      · simp
        omega
  next => cases h

/-- A directive ends with a brace or an angle bracket. -/
theorem directiveAt_endsWith : EndsWith directiveAt directiveEnds :=
  (bracedAt_endsWith.afterPhrase _).or <| (resourceTagAt_endsWith.afterPhrase _).or <|
    (resourceCommentAt_endsWith.afterPhrase _).or <|
      (resourceCommentAt_endsWith.afterPhrase _).or (controlAt_endsWith.afterPhrase _)

/-! ### Passing islands -/

variable {cs a b rest : List Char}

theorem islandsFrom_drop (n : Nat) (cs : List Char) :
    islandsFrom n cs = islandsFrom 0 (cs.drop n) := by
  induction cs generalizing n with
  | nil => cases n <;> rfl
  | cons c cs ih =>
    cases n with
    | zero => rfl
    | succ n => exact ih n

/-- No island opens in a text that is missed. -/
theorem islandsFrom_append (h : Misses (phrase openTag) a b) :
    islandsFrom 0 (a ++ b) = islandsFrom 0 b := by
  induction a with
  | nil => rfl
  | cons c a ih =>
    have hhead := Option.map_eq_none_iff.mp h.1
    rw [List.cons_append, islandsFrom, hhead, ih h.2]

/-- An island that closes once is passed as a whole. -/
theorem ClosesOnce.constructAt {i : List Char} (h : ClosesOnce i) (rest : List Char) :
    constructAt (i ++ rest) = some (.island, i.length) := by
  obtain ⟨code, rfl, hcode⟩ := h
  have hopen : dropStart? openTag (openTag ++ (code ++ closeTag) ++ rest) =
      some (code ++ (closeTag ++ rest)) := by
    rw [List.append_assoc, List.append_assoc, dropStart?_append]
  have hclose : breakOn closeTag (code ++ (closeTag ++ rest)) = some (code, rest) :=
    breakOn_append_self (by decide) hcode
  rw [Stencil.constructAt, islandAt, hopen, Option.map_some]
  simp only [hclose, List.length_append, Nat.add_assoc]

/-- The first island of a text that starts with one, and the rest. -/
theorem islandsFrom_opening (h : dropStart? openTag cs = some rest) :
    islandsFrom 0 cs = [] ∨
      ∃ i tail, i ≠ [] ∧ cs = i ++ tail ∧ islandsFrom 0 cs = i :: islandsFrom 0 tail := by
  cases cs with
  | nil => cases h
  | cons c cs =>
    rw [islandsFrom, h]
    cases hend : codeEnd 0 rest with
    | none => exact .inl (by simp only [hend])
    | some n =>
      have hpos : n + openTag.length = n + openTag.length - 1 + 1 := by
        simp [openTag]
      refine .inr ⟨(c :: cs).take (n + openTag.length), (c :: cs).drop (n + openTag.length), ?_,
        (List.take_append_drop _ _).symm, ?_⟩
      · rw [hpos, List.take_succ_cons]
        exact List.cons_ne_nil _ _
      · simp only [hend]
        rw [islandsFrom_drop (n + openTag.length - 1) cs, hpos, List.drop_succ_cons,
          Nat.add_sub_cancel]

theorem mem_foundFrom {α : Type} {x : α} {source : List Char} {pieces : List (Piece α)}
    (h : Piece.found x source ∈ pieces) (offset : Nat) :
    ∃ found ∈ foundFrom offset pieces, found.value = x ∧ found.source = source := by
  induction pieces generalizing offset with
  | nil => cases h
  | cons piece pieces ih =>
    cases piece with
    | plain c => exact ih (List.mem_of_ne_of_mem (by rintro ⟨⟩) h) _
    | found y t =>
      rcases List.mem_cons.mp h with heq | h
      · cases heq
        exact ⟨_, List.mem_cons_self, rfl, rfl⟩
      · obtain ⟨found, hfound, hvalue⟩ := ih h (offset + byteSize t)
        exact ⟨found, List.mem_cons_of_mem _ hfound, hvalue⟩

/-- Nothing is read past an island that opens, when a directive in front of it ends. -/
theorem misses_directive {w : List Char} {c : Char} (hc : c ∈ directiveEnds)
    (ha : contains openTag (w ++ [c]) = false) (b : List Char) :
    Misses (phrase openTag) (w ++ [c]) b := by
  refine misses_phrase ha (.inr fun d hd => ?_)
  have hall : ∀ c ∈ directiveEnds, c ∉ openTag.dropLast := forall_mem_of_all (by decide)
  rw [List.getLast?_concat] at hd
  cases hd
  exact hall c hc

/-- The text with its directives replaced holds the islands. -/
def KeepsIslands (resolve : Path → Option Path) (cs : List Char) : Prop :=
  ∀ offset verdicts,
    Holds (islandsFrom 0 cs) (expandPieces resolve offset (cutFrom constructAt 0 cs) verdicts).1

namespace KeepsIslands

variable {resolve : Path → Option Path}

/-- An island is passed. -/
theorem island {i : List Char} (hne : i ≠ []) (hcloses : ClosesOnce i)
    (hislands : islandsFrom 0 (i ++ rest) = i :: islandsFrom 0 rest)
    (h : KeepsIslands resolve rest) : KeepsIslands resolve (i ++ rest) := by
  intro offset verdicts
  rw [hislands, cutFrom_found hne (hcloses.constructAt rest), expandPieces]
  exact (h _ _).take i

/-- A directive is replaced. -/
theorem directive {d : Directive} (ha : a ≠ [])
    (hmatch : constructAt (a ++ rest) = some (.directive d, a.length))
    (hmisses : Misses (phrase openTag) a rest) (h : KeepsIslands resolve rest) :
    KeepsIslands resolve (a ++ rest) := by
  intro offset verdicts
  rw [islandsFrom_append hmisses, cutFrom_found ha hmatch, expandPieces]
  have hrest := h (offset + byteSize a) verdicts.tail
  cases hcode : d.codeUnder resolve (verdicts.head?.getD none) with
  | ok code => simpa only [hcode] using hrest.behind code
  | error fault => simpa only [hcode] using hrest

/-- Any other character is written. -/
theorem plain {c : Char} (hopen : dropStart? openTag (c :: cs) = none)
    (hmatch : constructAt (c :: cs) = none) (h : KeepsIslands resolve cs) :
    KeepsIslands resolve (c :: cs) := by
  intro offset verdicts
  rw [islandsFrom, hopen, cutFrom, hmatch, expandPieces]
  exact (h _ _).skip c

end KeepsIslands

/-- The text with its directives replaced holds the islands, when each is passed as a whole and none
opens in a directive. -/
theorem keepsIslands (resolve : Path → Option Path) (n : Nat) {cs : List Char}
    (hn : cs.length ≤ n) (hcloses : ∀ i ∈ islandsFrom 0 cs, ClosesOnce i)
    (hopen : ∀ d source, Piece.found (Construct.directive d) source ∈ cutFrom constructAt 0 cs →
      contains openTag source = false) : KeepsIslands resolve cs := by
  -- on the length: an island and a directive are passed at once
  induction n generalizing cs with
  | zero =>
    rw [List.length_eq_zero_iff.mp (Nat.le_zero.mp hn)]
    exact fun _ _ => .nil _
  | succ n ih =>
    have hshorter : ∀ {a rest : List Char}, a ≠ [] → cs = a ++ rest → rest.length ≤ n := by
      intro a rest ha hcs
      have hpos := List.length_pos_iff.mpr ha
      rw [hcs, List.length_append] at hn
      omega
    cases hisland : dropStart? openTag cs with
    | some tail =>
      rcases islandsFrom_opening hisland with hnone | ⟨i, rest, hne, rfl, hislands⟩
      · intro offset verdicts
        rw [hnone]
        exact .nil _
      · have hi : ClosesOnce i := hcloses i (hislands ▸ List.mem_cons_self)
        rw [hislands] at hcloses
        rw [cutFrom_found hne (hi.constructAt rest)] at hopen
        exact .island hne hi hislands (ih (hshorter hne rfl)
          (fun j hj => hcloses j (List.mem_cons_of_mem i hj))
          fun d source hmem => hopen d source (List.mem_cons_of_mem _ hmem))
    | none =>
      have hconstruct : constructAt cs = (directiveAt cs).map fun x => (.directive x.1, x.2) := by
        rw [constructAt, islandAt, hisland]
        rfl
      cases hdirective : directiveAt cs with
      | some found =>
        obtain ⟨d, k⟩ := found
        obtain ⟨w, e, rest, he, rfl, rfl⟩ := directiveAt_endsWith _ _ _ hdirective
        rw [hdirective, Option.map_some] at hconstruct
        have hne : w ++ [e] ≠ [] := List.append_ne_nil_of_right_ne_nil w (List.cons_ne_nil e [])
        rw [cutFrom_found hne hconstruct] at hopen
        have hmisses := misses_directive he (hopen d _ List.mem_cons_self) rest
        rw [islandsFrom_append hmisses] at hcloses
        exact .directive hne hconstruct hmisses (ih (hshorter hne rfl) hcloses
          fun d source hmem => hopen d source (List.mem_cons_of_mem _ hmem))
      | none =>
        rw [hdirective, Option.map_none] at hconstruct
        cases cs with
        | nil => exact fun _ _ => .nil _
        | cons c cs =>
          rw [cutFrom, hconstruct] at hopen
          rw [islandsFrom, hisland] at hcloses
          exact .plain hisland hconstruct (ih (hshorter (List.cons_ne_nil c []) rfl) hcloses
            fun d source hmem => hopen d source (List.mem_cons_of_mem _ hmem))

/-- **The text with its directives replaced holds the islands.** -/
theorem holds_compileDirectives (resolve : Path → Option Path) {cs : List Char}
    (hcloses : ∀ i ∈ islandsOf cs, ClosesOnce i)
    (hopen : ∀ d ∈ scanDirectives cs, contains openTag d.source = false) :
    Holds (islandsOf cs) (compileDirectives resolve cs).1 := by
  refine keepsIslands resolve cs.length le_rfl hcloses (fun d source hmem => ?_) 0 _
  obtain ⟨found, hfound, hvalue, hsource⟩ := mem_foundFrom hmem 0
  rw [← hsource]
  refine hopen ⟨found.offset, d, found.source⟩ (List.mem_filterMap.mpr ⟨found, hfound, ?_⟩)
  rw [hvalue]
  rfl

end Stencil
