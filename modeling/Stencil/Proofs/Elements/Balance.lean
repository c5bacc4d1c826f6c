import Stencil.Proofs.Elements.Closing
import Stencil.Proofs.Elements.Marks
import Stencil.Proofs.Nesting

/-!
# Balance of the statements around elements

Every element with control attributes is wrapped into statements, whatever the text is: elements may
cross each other, stay open, or be closed too often.  The text that comes out is told piece by
piece, by the closing tags of the elements.

## Main definitions

* `ScopePart` — kept text, an island around an attribute, the head of a statement, or a closing
  island.
* `partsAt ps i`, `parts ps` — what becomes of one piece, and of all of them.
* `Tells ps k n w` — what wrapping makes of `n` pieces.
* `pending ps live` — the statements that the open elements will close.

## Main results

* `wrapPieces_tells`, `compileScopes_eq` — the text that comes out and the findings, piece by piece.
* `balancedFrom_parts` — the statements around elements are balanced.
* `compileScopes_balanced` — all of it, and what is left without the islands.
-/

namespace Stencil

open Text

variable {x : List Char} {p : Piece Tag} {ps : List (Piece Tag)} {i k : Nat} {live : List Nat}

/-! ### What becomes of a text -/

/-- The tags of a text and the characters between them. -/
def tagPieces (cs : List Char) : List (Piece Tag) := cut tagAt cs

/-- The number of statements around the element that a piece opens. -/
def statementsAt (ps : List (Piece Tag)) (i : Nat) : Nat :=
  match ps[i]? with
  | some (.found _ source) => (headsOf source).length
  | _ => 0

/-- Where a piece stands, in bytes. -/
def offsetAt (ps : List (Piece Tag)) (i : Nat) : Nat :=
  byteSize ((ps.take i).flatMap Piece.source)

/-- A part of the text that comes out. -/
inductive ScopePart where
  /-- Text of the author. -/
  | kept (text : List Char) : ScopePart
  /-- An island around an attribute under a condition. -/
  | inline (code : List Char) : ScopePart
  /-- The island with the head of a statement around an element. -/
  | head (code : List Char) : ScopePart
  /-- The island that closes the statements around an element, if there are any. -/
  | close (statements : Nat) : ScopePart

namespace ScopePart

/-- The text of a part. -/
def text : ScopePart → List Char
  | kept text => text
  | inline code => island code
  | head code => island (code ++ " \x7b".toList)
  | close n => closeIsland n

/-- The text of the author in a part. -/
def own : ScopePart → List Char
  | kept text => text
  | _ => []

/-- The braces that a part opens and closes around elements. -/
def braces : ScopePart → List Nesting
  | head _ => [.opens]
  | close n => List.replicate n .closes
  | _ => []

end ScopePart

/-- The parts of an attribute under its condition. -/
def attributeParts : Piece (List Char × List Char) → List ScopePart
  | .plain c => [.kept [c]]
  | .found a _ =>
    [.inline ("if (".toList ++ bindVars a.2 ++ ") \x7b".toList), .kept a.1, .inline ['\x7d']]

/-- The parts of an opening tag without its control attributes. -/
def openTagParts (source : List Char) : List ScopePart :=
  (cut conditionalAttributeAt (removeMatches controlAttributeAt source)).flatMap attributeParts

/-- The heads of the statements around an element. -/
def headParts (source : List Char) : List ScopePart := (headsOf source).map .head

/-- What becomes of a piece.  An element that has no closing tag has no statements around it. -/
def partsAt (ps : List (Piece Tag)) (i : Nat) : List ScopePart :=
  match ps[i]? with
  | none => []
  | some (.plain c) => [.kept [c]]
  | some (.found tag source) =>
    if tag.isClosing then
      .kept source :: ((closedBy? ps i).map fun j => .close (statementsAt ps j)).toList
    else if isAlone tag.name source then
      headParts source ++ openTagParts source ++ [.close (statementsAt ps i)]
    else if (closerOf ps i).isSome then headParts source ++ openTagParts source
    else openTagParts source

/-- What becomes of all pieces. -/
def parts (ps : List (Piece Tag)) : List ScopePart := (List.range ps.length).flatMap (partsAt ps)

/-- The findings about the attributes of a piece. -/
def malformedAt (ps : List (Piece Tag)) (i : Nat) : List Finding :=
  match ps[i]? with
  | some (.found tag source) =>
    if tag.isClosing then [] else malformedLoops (offsetAt ps i) source
  | _ => []

/-- The finding about an element with statements around it and without a closing tag. -/
def unclosedAt? (ps : List (Piece Tag)) (i : Nat) : Option Finding :=
  match ps[i]? with
  | some (.found tag source) =>
    if opensElement tag.name (.found tag source) ∧ headsOf source ≠ [] ∧ closerOf ps i = none then
      some (unclosedElement (offsetAt ps i) source)
    else none
  | _ => none

section Parts

variable {tag : Tag} {source : List Char}

theorem partsAt_closing (hp : ps[k]? = some (.found tag source)) (hc : tag.isClosing = true) :
    partsAt ps k =
      .kept source :: ((closedBy? ps k).map fun j => .close (statementsAt ps j)).toList := by
  rw [partsAt, hp]
  exact if_pos hc

theorem partsAt_alone (hp : ps[k]? = some (.found tag source)) (hc : tag.isClosing = false)
    (ha : isAlone tag.name source = true) :
    partsAt ps k = headParts source ++ openTagParts source ++ [.close (statementsAt ps k)] := by
  rw [partsAt, hp]
  simp only [hc, ha, Bool.false_eq_true, if_false, if_true]

theorem partsAt_opening (hp : ps[k]? = some (.found tag source)) (hc : tag.isClosing = false)
    (ha : isAlone tag.name source = false) :
    partsAt ps k =
      if (closerOf ps k).isSome then headParts source ++ openTagParts source
      else openTagParts source := by
  rw [partsAt, hp]
  simp only [hc, ha, Bool.false_eq_true, if_false]

end Parts

/-! ### Wrapping -/

section Opened

variable (name : List Char) (offset : Nat) (source : List Char) (w : Wrapped)

theorem malformed_opened :
    (w.opened name offset source).malformed = malformedLoops offset source ++ w.malformed := by
  rw [Wrapped.opened]
  split
  · rfl
  · split <;> rfl

theorem closed_opened : (w.opened name offset source).closed = w.closed.erase name := by
  rw [Wrapped.opened]
  split
  next => rfl
  next h =>
    rw [List.erase_of_not_mem h]
    split <;> rfl

theorem out_opened : (w.opened name offset source).out =
    (if name ∈ w.closed then headIslands (headsOf source) else []) ++ openTagText source ++
      w.out := by
  rw [Wrapped.opened]
  split
  · rfl
  · split <;> rfl

theorem unclosed_opened : (w.opened name offset source).unclosed =
    w.unclosed ++ if name ∈ w.closed ∨ headsOf source = [] then []
      else [unclosedElement offset source] := by
  rw [Wrapped.opened]
  split
  next h => simp [h]
  next h =>
    split
    next he => simp [List.isEmpty_iff.mp he, Wrapped.before]
    next he =>
      rw [List.isEmpty_iff] at he
      rw [if_neg (by simp [he]; exact h)]

end Opened

variable {observed : List (List Char)}

/-- Nothing is closed only where no element of the name is open. -/
theorem closeLatest_eq_none {opened : List OpenElement} (h : closeLatest x opened = none) :
    opened.countP (fun e => e.name == x) = 0 := by
  induction opened with
  | nil => rfl
  | cons e opened ih =>
    rw [closeLatest] at h
    split at h
    next => cases h
    next he =>
      rw [List.countP_cons_of_neg (by simpa using he)]
      exact ih (Option.map_eq_none_iff.mp h)

/-- The element that is closed is taken out of the open ones. -/
theorem countP_closeLatest {opened others : List OpenElement} {n : Nat}
    (h : closeLatest x opened = some (n, others)) (y : List Char) :
    opened.countP (fun e => e.name == y) =
      others.countP (fun e => e.name == y) + if x = y then 1 else 0 := by
  induction opened generalizing n others with
  | nil => cases h
  | cons e opened ih =>
    rw [closeLatest] at h
    split at h
    next he =>
      cases h
      rw [List.countP_cons, he]
      simp
    next he =>
      obtain ⟨⟨m, others'⟩, hm, heq⟩ := Option.map_eq_some_iff.mp h
      cases heq
      rw [List.countP_cons, List.countP_cons, ih hm, Nat.add_right_comm]

/-- As many open elements of the name are closed in the pieces as there are closing tags left over
for them. -/
def Counts (observed : List (List Char)) (x : List Char) (ps : List (Piece Tag)) : Prop :=
  ∀ offset opened, (wrapPieces observed offset opened ps).closed.count x =
    min (opened.countP fun e => e.name == x) (drops x ps)

section Counting

variable {tag : Tag} {source : List Char} {rest : List (Piece Tag)}

/-- A closing tag of an observed name. -/
theorem Counts.closing (h : Counts observed x rest) (hobs : tag.name ∈ observed)
    (hc : tag.isClosing = true) : Counts observed x (.found tag source :: rest) := by
  intro offset opened
  have hcloses : closesElement x (.found tag source) = (tag.name == x) := by
    rw [closesElement, hc, Bool.true_and]
  have hopens : opensElement x (.found tag source) = false := by simp [opensElement, hc]
  rw [wrapPieces, drops, if_neg (not_not_intro hobs), hcloses, hopens]
  simp only [hc, if_true, beq_iff_eq, Bool.false_eq_true, if_false]
  cases hl : closeLatest tag.name opened with
  | none =>
    -- no open element of the name, so the tag is left over for none
    have hnone := closeLatest_eq_none hl
    have hrest := h (offset + byteSize source) opened
    simp only [Wrapped.before, hrest]
    split
    next heq =>
      rw [heq] at hnone
      omega
    next => rfl
  | some found =>
    obtain ⟨n, others⟩ := found
    have hcount := countP_closeLatest hl x
    have hrest := h (offset + byteSize source) others
    simp only [Wrapped.closing, List.count_cons, hrest, hcount, beq_iff_eq]
    split <;> simp

/-- An opening tag of an observed name. -/
theorem Counts.opening (h : Counts observed x rest) (hobs : tag.name ∈ observed)
    (hc : tag.isClosing = false) : Counts observed x (.found tag source :: rest) := by
  intro offset opened
  have hcloses : closesElement x (.found tag source) = false := by simp [closesElement, hc]
  have hopens : opensElement x (.found tag source) =
      (! isAlone tag.name source && tag.name == x) := by
    rw [opensElement, hc, Bool.not_false, Bool.true_and]
  rw [wrapPieces, drops, if_neg (not_not_intro hobs), hcloses, hopens]
  simp only [hc, Bool.false_eq_true, if_false]
  cases ha : isAlone tag.name source with
  | true =>
    simp only [if_true, Wrapped.alone]
    simpa using h (offset + byteSize source) opened
  | false =>
    have hrest := h (offset + byteSize source) (⟨tag.name, (headsOf source).length⟩ :: opened)
    simp only [Bool.false_eq_true, if_false, closed_opened, List.count_erase, hrest,
      List.countP_cons, Bool.not_false, Bool.true_and, beq_iff_eq]
    split <;> omega

/-- A tag of a name that is not observed. -/
theorem Counts.unobserved (h : Counts observed x rest) (hx : x ∈ observed)
    (hobs : tag.name ∉ observed) : Counts observed x (.found tag source :: rest) := by
  intro offset opened
  have hne : (tag.name == x) = false := beq_false_of_ne fun he => hobs (he ▸ hx)
  rw [wrapPieces, drops, if_pos hobs]
  simp only [closesElement, opensElement, hne, Bool.and_false, Bool.false_eq_true, if_false]
  exact h _ _

end Counting

theorem counts (hx : x ∈ observed) (ps : List (Piece Tag)) : Counts observed x ps := by
  induction ps with
  | nil =>
    intro offset opened
    simp [wrapPieces, drops]
  | cons p rest ih =>
    cases p with
    | plain c =>
      intro offset opened
      rw [wrapPieces]
      exact ih _ _
    | found tag source =>
      by_cases hobs : tag.name ∈ observed
      · cases hc : tag.isClosing with
        | true => exact ih.closing hobs hc
        | false => exact ih.opening hobs hc
      · exact ih.unobserved hx hobs

/-- The open elements of the observed names. -/
def elements (observed : List (List Char)) (ps : List (Piece Tag)) (live : List Nat) :
    List OpenElement :=
  (live.filter fun i => observed.contains (nameAtPiece ps i)).map fun i =>
    ⟨nameAtPiece ps i, statementsAt ps i⟩

theorem elements_cons_of_mem (h : nameAtPiece ps i ∈ observed) (live : List Nat) :
    elements observed ps (i :: live) =
      ⟨nameAtPiece ps i, statementsAt ps i⟩ :: elements observed ps live := by
  rw [elements, List.filter_cons_of_pos (by simpa using h)]
  rfl

theorem elements_cons_of_notMem (h : nameAtPiece ps i ∉ observed) (live : List Nat) :
    elements observed ps (i :: live) = elements observed ps live := by
  rw [elements, List.filter_cons_of_neg (by simpa using h)]
  rfl

/-- The element that a closing tag of an observed name closes. -/
theorem closeLatest_elements (hx : x ∈ observed) (live : List Nat) :
    closeLatest x (elements observed ps live) = (openOf ps x live).head?.map fun i =>
      (statementsAt ps i, elements observed ps (live.eraseP fun i => nameAtPiece ps i == x)) := by
  induction live with
  | nil => rfl
  | cons i live ih =>
    by_cases hi : nameAtPiece ps i = x
    · have hobs : nameAtPiece ps i ∈ observed := hi ▸ hx
      rw [elements_cons_of_mem hobs, closeLatest, if_pos hi, openOf,
        List.filter_cons_of_pos (by simpa using hi), List.eraseP_cons_of_pos (by simpa using hi)]
      rfl
    · rw [openOf, List.filter_cons_of_neg (by simpa using hi),
        List.eraseP_cons_of_neg (by simpa using hi), ← openOf]
      by_cases hobs : nameAtPiece ps i ∈ observed
      · rw [elements_cons_of_mem hobs, closeLatest, if_neg hi, ih, Option.map_map,
          elements_cons_of_mem hobs]
        rfl
      · rw [elements_cons_of_notMem hobs, ih, elements_cons_of_notMem hobs]

/-- An element of a name that is not observed takes no part. -/
theorem elements_eraseP (hx : x ∉ observed) (live : List Nat) :
    elements observed ps (live.eraseP fun i => nameAtPiece ps i == x) =
      elements observed ps live := by
  rw [elements, filter_eraseP_of_imp]
  · rfl
  · intro i hi
    rw [beq_iff_eq] at hi
    simpa [hi] using hx

theorem Unheeded.statementsAt (h : Unheeded observed ps) (hc : closerOf ps i = some k)
    (hi : nameAtPiece ps i ∉ observed) : Stencil.statementsAt ps i = 0 := by
  rw [closerOf] at hc
  split at hc
  next tag source heq =>
    split at hc
    next ho =>
      rw [nameAtPiece, heq] at hi
      simp only [opensElement, Bool.and_eq_true, Bool.not_eq_true'] at ho
      have hnone := (h tag source (List.mem_of_getElem? heq) ho.1.1 hi).1
      rw [Stencil.statementsAt, heq]
      simp [headsOf, hnone]
    next => cases hc
  next => cases hc

theorem text_headParts (source : List Char) :
    (headParts source).flatMap ScopePart.text = headIslands (headsOf source) := by
  rw [headParts, List.flatMap_map]
  rfl

theorem text_openTagParts (source : List Char) :
    (openTagParts source).flatMap ScopePart.text = openTagText source := by
  have hpart : (fun p => (attributeParts p).flatMap ScopePart.text) =
      Piece.render conditionalAttribute := by
    funext p
    cases p with
    | plain c => rfl
    | found a s =>
      simp [attributeParts, ScopePart.text, Piece.render, conditionalAttribute]
  rw [openTagParts, List.flatMap_assoc, hpart]
  rfl

theorem offsetAt_succ (hp : ps[k]? = some p) :
    offsetAt ps (k + 1) = offsetAt ps k + byteSize p.source := by
  obtain ⟨hk, rfl⟩ := List.getElem?_eq_some_iff.mp hp
  rw [offsetAt, offsetAt, List.take_add_one, hp, List.flatMap_append, byteSize_append]
  simp

/-- What wrapping makes of the `n` pieces from piece `k` on, piece by piece. -/
structure Tells (ps : List (Piece Tag)) (k n : Nat) (w : Wrapped) : Prop where
  out : w.out = (List.range' k n).flatMap fun i => (partsAt ps i).flatMap ScopePart.text
  malformed : w.malformed = (List.range' k n).flatMap (malformedAt ps)
  unclosed : w.unclosed = ((List.range' k n).filterMap (unclosedAt? ps)).reverse

theorem Tells.cons {n : Nat} {w w' : Wrapped} (h : Tells ps (k + 1) n w)
    (hout : w'.out = (partsAt ps k).flatMap ScopePart.text ++ w.out)
    (hmalformed : w'.malformed = malformedAt ps k ++ w.malformed)
    (hunclosed : w'.unclosed = w.unclosed ++ (unclosedAt? ps k).toList) :
    Tells ps k (n + 1) w' where
  out := by rw [hout, h.out, List.range'_succ, List.flatMap_cons]
  malformed := by rw [hmalformed, h.malformed, List.range'_succ, List.flatMap_cons]
  unclosed := by
    rw [hunclosed, h.unclosed, List.range'_succ, List.filterMap_cons]
    cases unclosedAt? ps k with
    | none => simp
    | some f => simp

/-- A character in front of the rest. -/
theorem Tells.plain {n : Nat} {w : Wrapped} {c : Char} (hp : ps[k]? = some (.plain c))
    (h : Tells ps (k + 1) n w) : Tells ps k (n + 1) (w.before [c]) := by
  refine h.cons ?_ ?_ ?_
  · rw [partsAt, hp]
    rfl
  · rw [malformedAt, hp]
    rfl
  · rw [unclosedAt?, hp]
    simp [Wrapped.before]

/-- A closing tag in front of the rest. -/
theorem Tells.closing {n : Nat} {w : Wrapped} {tag : Tag} {source : List Char}
    (hun : Unheeded observed ps) (ht : Tracks ps k live)
    (hp : ps[k]? = some (.found tag source)) (hc : tag.isClosing = true)
    (h : Tells ps (k + 1) n w) :
    Tells ps k (n + 1) (if tag.name ∉ observed then w.before source else
      match closeLatest tag.name (elements observed ps live) with
      | some (m, _) => w.closing tag.name source m
      | none => w.before source) := by
  have hcloses : closesElement tag.name (.found tag source) = true := by simp [closesElement, hc]
  have hclosed := ht.closedBy?_eq hp hcloses
  have hparts := partsAt_closing hp hc
  have hmalformed : malformedAt ps k = [] := by
    rw [malformedAt, hp]
    exact if_pos hc
  have hunclosed : unclosedAt? ps k = none := by
    rw [unclosedAt?, hp]
    simp [opensElement, hc]
  by_cases hobs : tag.name ∈ observed
  · rw [if_neg (not_not_intro hobs), closeLatest_elements hobs, ← hclosed]
    cases hj : closedBy? ps k with
    | none =>
      refine h.cons ?_ (by rw [hmalformed]; rfl) (by rw [hunclosed]; simp [Wrapped.before])
      rw [hparts, hj]
      simp [ScopePart.text, Wrapped.before]
    | some j =>
      refine h.cons ?_ (by rw [hmalformed]; rfl) (by rw [hunclosed]; simp [Wrapped.closing])
      rw [hparts, hj]
      simp [ScopePart.text, Wrapped.closing]
  · -- the element that is closed has no statements around it
    rw [if_pos hobs]
    refine h.cons ?_ (by rw [hmalformed]; rfl) (by rw [hunclosed]; simp [Wrapped.before])
    have hnone : ((closedBy? ps k).map fun j => ScopePart.close (statementsAt ps j)).toList.flatMap
        ScopePart.text = [] := by
      cases hj : closedBy? ps k with
      | none => rfl
      | some j =>
        have hcl := closedBy?_eq_some.mp hj
        have hname : nameAtPiece ps j = tag.name := by
          rw [hclosed] at hj
          simpa using (List.mem_filter.mp (List.mem_of_mem_head? hj)).2
        have hzero := hun.statementsAt hcl (hname ▸ hobs)
        simp [hzero, ScopePart.text, closeIsland]
    rw [hparts, List.flatMap_cons, hnone, List.append_nil]
    rfl

/-- An opening tag without content in front of the rest. -/
theorem Tells.alone {n : Nat} {w : Wrapped} {tag : Tag} {source : List Char}
    (hp : ps[k]? = some (.found tag source)) (hc : tag.isClosing = false)
    (ha : isAlone tag.name source = true) (h : Tells ps (k + 1) n w) :
    Tells ps k (n + 1) (w.alone (offsetAt ps k) source) := by
  refine h.cons ?_ ?_ ?_
  · rw [partsAt_alone hp hc ha, List.flatMap_append, List.flatMap_append, text_headParts,
      text_openTagParts, List.flatMap_singleton, statementsAt, hp]
    rfl
  · rw [malformedAt, hp]
    simp only [hc, Bool.false_eq_true, if_false]
    rfl
  · rw [unclosedAt?, hp]
    simp [opensElement, ha, Wrapped.alone]

/-- An opening tag of an element with content in front of the rest. -/
theorem Tells.opened {n : Nat} {w : Wrapped} {tag : Tag} {source : List Char}
    (hp : ps[k]? = some (.found tag source)) (hc : tag.isClosing = false)
    (ha : isAlone tag.name source = false)
    (hw : tag.name ∈ w.closed ↔ (closerOf ps k).isSome = true) (h : Tells ps (k + 1) n w) :
    Tells ps k (n + 1) (w.opened tag.name (offsetAt ps k) source) := by
  have ho : opensElement tag.name (.found tag source) = true := by simp [opensElement, hc, ha]
  refine h.cons ?_ ?_ ?_
  · rw [out_opened, partsAt_opening hp hc ha]
    simp only [hw]
    split <;> simp [text_headParts, text_openTagParts]
  · rw [malformed_opened, malformedAt, hp]
    simp only [hc, Bool.false_eq_true, if_false]
  · rw [unclosed_opened, unclosedAt?, hp]
    simp only [hw, ho, true_and]
    cases closerOf ps k with
    | none => by_cases hh : headsOf source = [] <;> simp [hh]
    | some c => simp

/-- An opening tag of a name that is not observed in front of the rest. -/
theorem Tells.unheeded {n : Nat} {w : Wrapped} {tag : Tag} {source : List Char}
    (hun : Unheeded observed ps) (hp : ps[k]? = some (.found tag source))
    (hc : tag.isClosing = false) (hobs : tag.name ∉ observed) (h : Tells ps (k + 1) n w) :
    Tells ps k (n + 1) (w.before source) := by
  obtain ⟨hnone, htext⟩ := hun tag source (List.mem_of_getElem? hp) hc hobs
  have hheads : headsOf source = [] := by rw [headsOf, hnone]; rfl
  refine h.cons ?_ ?_ ?_
  · have hown : (partsAt ps k).flatMap ScopePart.text = source := by
      rw [partsAt, hp]
      simp only [hc, Bool.false_eq_true, if_false, headParts, hheads, List.map_nil,
        List.nil_append, statementsAt, hp, List.length_nil]
      split
      · simp [text_openTagParts, htext, ScopePart.text, closeIsland]
      · split <;> rw [text_openTagParts, htext]
    rw [hown]
    rfl
  · rw [malformedAt, hp]
    simp [hc, malformedLoops, hnone, Wrapped.before]
  · rw [unclosedAt?, hp]
    simp [hheads, Wrapped.before]

/-- An element stays open without statements exactly when no closing tag is left over for it. -/
theorem mem_closed_iff {tag : Tag} {source : List Char} {opened : List OpenElement} {offset : Nat}
    {e : OpenElement} (hp : ps[k]? = some (.found tag source))
    (ho : opensElement tag.name (.found tag source) = true) (hobs : tag.name ∈ observed)
    (he : e.name = tag.name) :
    tag.name ∈ (wrapPieces observed offset (e :: opened) (ps.drop (k + 1))).closed ↔
      (closerOf ps k).isSome = true := by
  rw [← List.count_pos_iff, counts hobs, List.countP_cons_of_pos (by simp [he]), closerOf, hp]
  simp only [ho, if_true, Option.isSome_map, isSome_closerFrom]
  omega

/-- **What wrapping makes of a text, piece by piece.** -/
theorem wrapPieces_tells (hun : Unheeded observed ps) (rest : List (Piece Tag)) :
    ∀ {k live}, ps.drop k = rest → Tracks ps k live →
      Tells ps k rest.length
        (wrapPieces observed (offsetAt ps k) (elements observed ps live) rest) := by
  induction rest with
  | nil => exact fun _ _ => ⟨rfl, rfl, rfl⟩
  | cons p rest ih =>
    intro k live hdrop ht
    obtain ⟨hp, hrest⟩ := of_drop_eq_cons hdrop
    have hnext := ih hrest (ht.step hp)
    rw [offsetAt_succ hp] at hnext
    rw [List.length_cons]
    cases p with
    | plain c =>
      rw [wrapPieces]
      have hsize : byteSize (Piece.plain c : Piece Tag).source = c.utf8Size := by
        simp [byteSize_cons]
      rw [hsize] at hnext
      exact hnext.plain hp
    | found tag source =>
      rw [Piece.source_found] at hnext
      rw [wrapPieces]
      cases hc : tag.isClosing with
      | true =>
        rw [liveAfter, if_pos hc] at hnext
        have h := hnext.closing hun ht hp hc
        by_cases hobs : tag.name ∈ observed
        · rw [if_neg (not_not_intro hobs), closeLatest_elements hobs] at h ⊢
          cases hh : (openOf ps tag.name live).head? with
          | none =>
            rw [hh, eraseP_of_head?_eq_none hh] at h
            exact h
          | some j =>
            rw [hh] at h
            exact h
        · rw [if_pos hobs] at h ⊢
          rw [elements_eraseP hobs] at h
          exact h
      | false =>
        simp only [liveAfter, hc, Bool.false_eq_true, if_false] at hnext ⊢
        by_cases hobs : tag.name ∈ observed
        · rw [if_neg (not_not_intro hobs)]
          cases ha : isAlone tag.name source with
          | true =>
            simp only [ha, if_true] at hnext ⊢
            exact hnext.alone hp hc ha
          | false =>
            simp only [ha, Bool.false_eq_true, if_false] at hnext ⊢
            have ho : opensElement tag.name (.found tag source) = true := by
              simp [opensElement, hc, ha]
            have hname : nameAtPiece ps k = tag.name := by rw [nameAtPiece, hp]
            have hcount : statementsAt ps k = (headsOf source).length := by rw [statementsAt, hp]
            -- the opening tag asks the rest whether its element is closed there
            rw [elements_cons_of_mem (hname ▸ hobs), hname, hcount] at hnext
            refine hnext.opened hp hc ha ?_
            rw [← hrest]
            exact mem_closed_iff hp ho hobs rfl
        · rw [if_pos hobs]
          -- an element of the name is open, and none that wrapping knows of
          have helements : elements observed ps (if isAlone tag.name source = true then live
              else k :: live) = elements observed ps live := by
            split
            · rfl
            · exact elements_cons_of_notMem (by rw [nameAtPiece, hp]; exact hobs) live
          rw [helements] at hnext
          exact hnext.unheeded hun hp hc hobs

/-! ### The whole text -/

/-- **The text that comes out and the findings, piece by piece.** -/
theorem compileScopes_eq (cs : List Char) :
    compileScopes cs = ((parts (tagPieces cs)).flatMap ScopePart.text,
      (List.range (tagPieces cs).length).flatMap (malformedAt (tagPieces cs)) ++
        ((List.range (tagPieces cs).length).filterMap (unclosedAt? (tagPieces cs))).reverse) := by
  have h := wrapPieces_tells (unheeded (tagPieces cs)) (tagPieces cs) List.drop_zero
    (tracks_zero _)
  have hoffset : offsetAt (tagPieces cs) 0 = 0 := rfl
  have hlive : elements ((tagPieces cs).filterMap observedName?) (tagPieces cs) [] = [] := rfl
  rw [hoffset, hlive] at h
  rw [compileScopes, ← tagPieces]
  simp only [h.out, h.malformed, h.unclosed, parts, List.flatMap_assoc, List.range_eq_range']

/-! ### Balance -/

theorem balancedFrom_replicate_opens (d n : Nat) (w : List Nesting) :
    balancedFrom d (List.replicate n .opens ++ w) = balancedFrom (d + n) w := by
  induction n generalizing d with
  | zero => rfl
  | succ n ih =>
    rw [List.replicate_succ, List.cons_append, balancedFrom_opens, ih, Nat.add_right_comm]
    rfl

theorem balancedFrom_replicate_closes (d n : Nat) (w : List Nesting) :
    balancedFrom (d + n) (List.replicate n .closes ++ w) = balancedFrom d w := by
  induction n with
  | zero => rfl
  | succ n ih =>
    rw [List.replicate_succ, List.cons_append, ← Nat.add_assoc, balancedFrom_closes, ih]

theorem braces_headParts (source : List Char) :
    (headParts source).flatMap ScopePart.braces =
      List.replicate (headsOf source).length .opens := by
  rw [headParts]
  induction headsOf source with
  | nil => rfl
  | cons head heads ih =>
    rw [List.map_cons, List.flatMap_cons, ih, List.length_cons, List.replicate_succ]
    rfl

theorem braces_openTagParts (source : List Char) :
    (openTagParts source).flatMap ScopePart.braces = [] := by
  rw [openTagParts, List.flatMap_assoc]
  refine List.flatMap_eq_nil_iff.mpr fun p _ => ?_
  cases p with
  | plain c => rfl
  | found a s => rfl

/-- The number of statements that the open elements will close. -/
def pending (ps : List (Piece Tag)) : List Nat → Nat
  | [] => 0
  | i :: live => (if (closerOf ps i).isSome then statementsAt ps i else 0) + pending ps live

/-- The element that is closed takes its statements with it. -/
theorem pending_eraseP {q : Nat → Bool} (h : (live.filter q).head? = some i)
    (hc : (closerOf ps i).isSome = true) :
    pending ps live = statementsAt ps i + pending ps (live.eraseP q) := by
  induction live with
  | nil => cases h
  | cons j live ih =>
    cases hj : q j with
    | true =>
      rw [List.filter_cons_of_pos hj, List.head?_cons, Option.some.injEq] at h
      rw [List.eraseP_cons_of_pos hj, pending, h, if_pos hc]
    | false =>
      rw [List.filter_cons_of_neg (by simp [hj])] at h
      rw [List.eraseP_cons_of_neg (by simp [hj]), pending, pending, ih h, Nat.add_left_comm]

/-- Nothing is pending for elements that are never closed. -/
theorem pending_eq_zero (h : ∀ i ∈ live, closerOf ps i = none) : pending ps live = 0 := by
  induction live with
  | nil => rfl
  | cons i live ih =>
    rw [pending, h i List.mem_cons_self, ih fun j hj => h j (List.mem_cons_of_mem i hj)]
    rfl

/-- A piece opens and closes as many statements as it makes pending or closes of those. -/
theorem balancedFrom_partsAt (ht : Tracks ps k live) (hp : ps[k]? = some p) (w : List Nesting) :
    balancedFrom (pending ps live) ((partsAt ps k).flatMap ScopePart.braces ++ w) =
      balancedFrom (pending ps (liveAfter ps k live p)) w := by
  cases p with
  | plain c =>
    rw [partsAt, hp]
    rfl
  | found tag source =>
    have hcount : statementsAt ps k = (headsOf source).length := by rw [statementsAt, hp]
    rw [liveAfter]
    cases hc : tag.isClosing with
    | true =>
      have hcloses : closesElement tag.name (.found tag source) = true := by
        simp [closesElement, hc]
      rw [partsAt_closing hp hc, ht.closedBy?_eq hp hcloses, if_pos rfl]
      cases hj : (openOf ps tag.name live).head? with
      | none =>
        rw [eraseP_of_head?_eq_none hj]
        rfl
      | some j =>
        -- the closing tag closes what was pending for the innermost element of its name
        have hcloser := (ht.closerOf_eq hp hcloses).mpr hj
        have hsum := pending_eraseP hj (Option.isSome_iff_exists.mpr ⟨_, hcloser⟩)
        rw [hsum, Nat.add_comm]
        simp only [Option.map_some, Option.toList_some, List.flatMap_cons, List.flatMap_nil,
          ScopePart.braces, List.nil_append, List.append_nil]
        exact balancedFrom_replicate_closes _ _ w
    | false =>
      rw [if_neg Bool.false_ne_true]
      cases ha : isAlone tag.name source with
      | true =>
        rw [if_pos rfl, partsAt_alone hp hc ha, List.flatMap_append, List.flatMap_append,
          braces_headParts, braces_openTagParts, List.append_nil, hcount, List.append_assoc,
          balancedFrom_replicate_opens, List.flatMap_singleton]
        exact balancedFrom_replicate_closes _ _ w
      | false =>
        -- the heads stand there exactly when their element is closed later
        have hsum : pending ps (k :: live) =
            (if (closerOf ps k).isSome then (headsOf source).length else 0) +
              pending ps live := by
          rw [← hcount]
          rfl
        rw [if_neg Bool.false_ne_true, partsAt_opening hp hc ha, hsum]
        split
        · rw [List.flatMap_append, braces_headParts, braces_openTagParts, List.append_nil,
            balancedFrom_replicate_opens, Nat.add_comm]
        · rw [braces_openTagParts, Nat.zero_add]
          rfl

theorem balancedFrom_from (rest : List (Piece Tag)) :
    ∀ {k live}, ps.drop k = rest → Tracks ps k live →
      balancedFrom (pending ps live) ((List.range' k rest.length).flatMap fun i =>
        (partsAt ps i).flatMap ScopePart.braces) = true := by
  induction rest with
  | nil =>
    intro k live hdrop ht
    -- nothing is closed any more
    have hnone : ∀ i ∈ live, closerOf ps i = none := by
      intro i hi
      have hmem : i ∈ openOf ps (nameAtPiece ps i) live := List.mem_filter.mpr ⟨hi, by simp⟩
      obtain ⟨n, hn⟩ := List.mem_iff_getElem?.mp hmem
      rw [ht.closer hn, hdrop]
      rfl
    rw [pending_eq_zero hnone]
    rfl
  | cons p rest ih =>
    intro k live hdrop ht
    obtain ⟨hp, hrest⟩ := of_drop_eq_cons hdrop
    rw [List.length_cons, List.range'_succ, List.flatMap_cons, balancedFrom_partsAt ht hp]
    exact ih hrest (ht.step hp)

/-- **The statements around elements are balanced**, in every text. -/
theorem balancedFrom_parts (ps : List (Piece Tag)) :
    balancedFrom 0 ((parts ps).flatMap ScopePart.braces) = true := by
  have h := balancedFrom_from ps List.drop_zero (tracks_zero ps)
  rw [parts, List.flatMap_assoc, List.range_eq_range']
  exact h

/-! ### The text of the author -/

/-- A piece without control attributes and conditions of attributes. -/
def ownText : Piece Tag → List Char
  | .plain c => [c]
  | .found tag source =>
    if tag.isClosing then source
    else replaceMatches conditionalAttributeAt Prod.fst (removeMatches controlAttributeAt source)

theorem own_headParts (source : List Char) : (headParts source).flatMap ScopePart.own = [] := by
  rw [headParts, List.flatMap_map]
  exact List.flatMap_eq_nil_iff.mpr fun _ _ => rfl

theorem own_openTagParts (source : List Char) : (openTagParts source).flatMap ScopePart.own =
    replaceMatches conditionalAttributeAt Prod.fst (removeMatches controlAttributeAt source) := by
  have hpart : (fun p => (attributeParts p).flatMap ScopePart.own) = Piece.render Prod.fst := by
    funext p
    cases p with
    | plain c => rfl
    | found a s => simp [attributeParts, ScopePart.own, Piece.render]
  rw [openTagParts, List.flatMap_assoc, hpart]
  rfl

theorem own_partsAt (hp : ps[k]? = some p) : (partsAt ps k).flatMap ScopePart.own = ownText p := by
  cases p with
  | plain c =>
    rw [partsAt, hp]
    rfl
  | found tag source =>
    rw [ownText]
    cases hc : tag.isClosing with
    | true =>
      rw [partsAt_closing hp hc]
      cases closedBy? ps k <;> simp [ScopePart.own]
    | false =>
      cases ha : isAlone tag.name source with
      | true => simp [partsAt_alone hp hc ha, own_headParts, own_openTagParts, ScopePart.own]
      | false =>
        rw [partsAt_opening hp hc ha]
        split <;> simp [own_headParts, own_openTagParts]

theorem own_from (rest : List (Piece Tag)) : ∀ {k}, ps.drop k = rest →
    ((List.range' k rest.length).flatMap fun i => (partsAt ps i).flatMap ScopePart.own) =
      rest.flatMap ownText := by
  induction rest with
  | nil => exact fun _ => rfl
  | cons p rest ih =>
    intro k hdrop
    obtain ⟨hp, hrest⟩ := of_drop_eq_cons hdrop
    rw [List.length_cons, List.range'_succ, List.flatMap_cons, List.flatMap_cons, own_partsAt hp,
      ih hrest]

theorem defect_of_malformedAt {f : Finding} (h : f ∈ malformedAt ps i) :
    f.defect = .malformedLoop := by
  rw [malformedAt] at h
  split at h
  next tag source _ =>
    split at h
    next => cases h
    next =>
      obtain ⟨a, -, ha⟩ := List.mem_filterMap.mp h
      split at ha
      next =>
        cases ha
        rfl
      next => cases ha
  next => cases h

theorem defect_of_unclosedAt? {f : Finding} (h : unclosedAt? ps i = some f) :
    f.defect = .unbalancedTag := by
  rw [unclosedAt?] at h
  split at h
  next tag source _ =>
    split at h
    next =>
      cases h
      rfl
    next => cases h
  next => cases h

/-- **The statements around elements are balanced, whatever the text is.**  The text that comes out
consists of the parts of its pieces: the heads of an element stand in front of its opening tag,
unless it has no closing tag, and its closing island, with as many braces, directly behind its
closing tag.  No more is closed on the way than is open, and all of it in the end.  The closing tag
of an element is where the depth of its name returns to zero, and closes no other element.  The
elements with statements and without a closing tag are reported, from the last one, and only these.
Without the islands, the text is that of the author without control attributes. -/
theorem compileScopes_balanced (cs : List Char) :
    (compileScopes cs).1 = (parts (tagPieces cs)).flatMap ScopePart.text ∧
      (∀ w w', (parts (tagPieces cs)).flatMap ScopePart.braces = w ++ w' →
        w.count .closes ≤ w.count .opens) ∧
      ((parts (tagPieces cs)).flatMap ScopePart.braces).count .closes =
        ((parts (tagPieces cs)).flatMap ScopePart.braces).count .opens ∧
      (∀ i k, closedBy? (tagPieces cs) k = some i ↔ closerOf (tagPieces cs) i = some k) ∧
      ((compileScopes cs).2.filter fun f => f.defect == .unbalancedTag) =
        ((List.range (tagPieces cs).length).filterMap (unclosedAt? (tagPieces cs))).reverse ∧
      (parts (tagPieces cs)).flatMap ScopePart.own = (tagPieces cs).flatMap ownText := by
  have heq := compileScopes_eq cs
  generalize tagPieces cs = ps at heq ⊢
  have hbalanced := balancedFrom_parts ps
  refine ⟨by rw [heq], ?_, ?_, fun _ _ => closedBy?_eq_some, ?_, ?_⟩
  · intro w w' hw
    rw [hw] at hbalanced
    simpa using count_le_of_balancedFrom hbalanced
  · simpa using count_eq_of_balancedFrom hbalanced
  · -- the findings about loops are of the other kind
    have hmalformed : ((List.range ps.length).flatMap (malformedAt ps)).filter
        (fun f => f.defect == .unbalancedTag) = [] := by
      refine List.filter_eq_nil_iff.mpr fun f hf => ?_
      obtain ⟨i, -, hi⟩ := List.mem_flatMap.mp hf
      simp [defect_of_malformedAt hi]
    have hunclosed : ∀ f ∈ ((List.range ps.length).filterMap (unclosedAt? ps)).reverse,
        (f.defect == .unbalancedTag) = true := by
      intro f hf
      obtain ⟨i, -, hi⟩ := List.mem_filterMap.mp (List.mem_reverse.mp hf)
      simp [defect_of_unclosedAt? hi]
    rw [heq, List.filter_append, hmalformed, List.filter_eq_self.mpr hunclosed, List.nil_append]
  · rw [parts, List.flatMap_assoc, List.range_eq_range']
    exact own_from ps List.drop_zero

end Stencil
