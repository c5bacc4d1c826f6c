import Stencil.Markup.Scope

/-!
# Elements and their closing tags

The tag that closes an element is found by the depth of its name alone: elements of different names
may cross each other.  Reading the tags from left to right, the open elements of a name form a
stack, and a closing tag closes the innermost one.

## Main definitions

* `closerFrom x d ps` — the piece at which the depth of the name `x` returns to zero.
* `closerOf ps i`, `closedBy? ps k` — the closing tag of an element, and the element of a closing
  tag.
* `Tracks ps k live` — the elements that are open before piece `k`.

## Main results

* `isSome_closerFrom` — an element is closed when closing tags are left over for it.
* `Tracks.step` — what is tracked before a piece is tracked after it.
* `closerOf_inj`, `closedBy?_eq_some` — a closing tag closes one element.
-/

namespace Stencil

open Text

variable {x y : List Char} {p : Piece Tag} {ps rest : List (Piece Tag)} {d i j k : Nat}

/-! ### Elements and their closing tags -/

/-- Whether a piece is the opening tag of an element of the name that has content. -/
def opensElement (x : List Char) : Piece Tag → Bool
  | .plain _ => false
  | .found tag source => ! tag.isClosing && ! isAlone tag.name source && tag.name == x

/-- Whether a piece is a closing tag of the name. -/
def closesElement (x : List Char) : Piece Tag → Bool
  | .plain _ => false
  | .found tag _ => tag.isClosing && tag.name == x

/-- The number of the piece at which the depth of the name returns to zero, when `d` elements are
open inside of the one that is looked at. -/
def closerFrom (x : List Char) : Nat → List (Piece Tag) → Option Nat
  | _, [] => none
  | d, p :: rest =>
    if closesElement x p then
      if d = 0 then some 0 else (closerFrom x (d - 1) rest).map (· + 1)
    else (closerFrom x (if opensElement x p then d + 1 else d) rest).map (· + 1)

/-- The name of the tag that a piece is. -/
def nameAtPiece (ps : List (Piece Tag)) (i : Nat) : List Char :=
  match ps[i]? with
  | some (.found tag _) => tag.name
  | _ => []

/-- The closing tag of the element that a piece opens. -/
def closerOf (ps : List (Piece Tag)) (i : Nat) : Option Nat :=
  match ps[i]? with
  | some (.found tag source) =>
    if opensElement tag.name (.found tag source) then
      (closerFrom tag.name 0 (ps.drop (i + 1))).map (· + (i + 1))
    else none
  | _ => none

/-- The element that a closing tag closes. -/
def closedBy? (ps : List (Piece Tag)) (k : Nat) : Option Nat :=
  (List.range k).find? fun i => closerOf ps i == some k

/-! ### Depth -/

theorem closerFrom_closes_zero (h : closesElement x p = true) :
    closerFrom x 0 (p :: rest) = some 0 := by
  rw [closerFrom, if_pos h, if_pos rfl]

theorem closerFrom_closes_succ (h : closesElement x p = true) :
    closerFrom x (d + 1) (p :: rest) = (closerFrom x d rest).map (· + 1) := by
  rw [closerFrom, if_pos h, if_neg (Nat.succ_ne_zero d), Nat.add_sub_cancel]

theorem closerFrom_opens (hc : closesElement x p = false) (h : opensElement x p = true) :
    closerFrom x d (p :: rest) = (closerFrom x (d + 1) rest).map (· + 1) := by
  rw [closerFrom, if_neg (by simp [hc]), if_pos h]

theorem closerFrom_other (hc : closesElement x p = false) (h : opensElement x p = false) :
    closerFrom x d (p :: rest) = (closerFrom x d rest).map (· + 1) := by
  rw [closerFrom, if_neg (by simp [hc]), if_neg (by simp [h])]

/-- Only a closing tag is found at once, and only for the innermost element. -/
theorem closes_of_closerFrom (h : closerFrom x d (p :: rest) = some 0) :
    closesElement x p = true ∧ d = 0 := by
  rw [closerFrom] at h
  split at h
  next hc =>
    split at h
    next hd => exact ⟨hc, hd⟩
    next => simp at h
  next => simp at h

theorem opens_of_closes (h : closesElement x p = true) (y : List Char) :
    opensElement y p = false := by
  cases p with
  | plain c => rfl
  | found tag source =>
    rw [closesElement, Bool.and_eq_true] at h
    simp [opensElement, h.1]

theorem eq_of_closes (hx : closesElement x p = true) (hy : closesElement y p = true) : x = y := by
  cases p with
  | plain c => cases hx
  | found tag source =>
    simp only [closesElement, Bool.and_eq_true, beq_iff_eq] at hx hy
    exact hx.2.symm.trans hy.2

theorem eq_of_opens (hx : opensElement x p = true) (hy : opensElement y p = true) : x = y := by
  cases p with
  | plain c => cases hx
  | found tag source =>
    simp only [opensElement, Bool.and_eq_true, beq_iff_eq] at hx hy
    exact hx.2.symm.trans hy.2

/-- The number of closing tags of the name that close elements which are open before the pieces. -/
def drops (x : List Char) : List (Piece Tag) → Nat
  | [] => 0
  | p :: rest =>
    if closesElement x p then drops x rest + 1
    else if opensElement x p then drops x rest - 1
    else drops x rest

/-- As many open elements are closed as closing tags are left over for them. -/
theorem isSome_closerFrom (x : List Char) (d : Nat) (ps : List (Piece Tag)) :
    (closerFrom x d ps).isSome = true ↔ d < drops x ps := by
  induction ps generalizing d with
  | nil => simp [closerFrom, drops]
  | cons p rest ih =>
    rw [drops]
    by_cases hc : closesElement x p = true
    · rw [if_pos hc]
      cases d with
      | zero => simp [closerFrom_closes_zero hc]
      | succ d =>
        rw [closerFrom_closes_succ hc, Option.isSome_map, ih]
        omega
    · rw [Bool.not_eq_true] at hc
      rw [if_neg (by simp [hc])]
      by_cases ho : opensElement x p = true
      · rw [if_pos ho, closerFrom_opens hc ho, Option.isSome_map, ih]
        omega
      · rw [Bool.not_eq_true] at ho
        rw [if_neg (by simp [ho]), closerFrom_other hc ho, Option.isSome_map, ih]

/-! ### The elements that are open -/

section Lists

variable {α : Type} {q r : α → Bool} {l : List α} {a : α}

theorem filter_eraseP_self : (l.eraseP q).filter q = (l.filter q).tail := by
  induction l with
  | nil => rfl
  | cons b l ih =>
    cases hb : q b with
    | true => simp [hb]
    | false => simp [hb, ih]

theorem filter_eraseP_of_imp (h : ∀ b, q b = true → r b = false) :
    (l.eraseP q).filter r = l.filter r := by
  induction l with
  | nil => rfl
  | cons b l ih =>
    cases hb : q b with
    | true => simp [hb, h b hb]
    | false => simp [hb, List.filter_cons, ih]

theorem eraseP_of_head?_eq_none (h : (l.filter q).head? = none) : l.eraseP q = l := by
  rw [List.head?_eq_none_iff, List.filter_eq_nil_iff] at h
  exact List.eraseP_of_forall_not h

/-- Only the first member is taken out. -/
theorem head?_filter_of_eraseP (ha : a ∈ l) (hn : a ∉ l.eraseP q) :
    (l.filter q).head? = some a := by
  induction l with
  | nil => cases ha
  | cons b l ih =>
    cases hb : q b with
    | true =>
      rw [List.eraseP_cons_of_pos hb] at hn
      rw [List.filter_cons_of_pos hb, List.head?_cons]
      rcases List.mem_cons.mp ha with rfl | ha
      · rfl
      · exact absurd ha hn
    | false =>
      rw [List.eraseP_cons_of_neg (by simp [hb]), List.mem_cons, not_or] at hn
      rw [List.filter_cons_of_neg (by simp [hb])]
      rcases List.mem_cons.mp ha with heq | ha
      · exact absurd heq hn.1
      · exact ih ha hn.2

end Lists

/-- The open elements of a name, from the innermost one. -/
def openOf (ps : List (Piece Tag)) (x : List Char) (live : List Nat) : List Nat :=
  live.filter fun i => nameAtPiece ps i == x

/-- Before piece `k` the elements `live` are open, from the innermost one: each of them is closed
where the depth of its name returns to zero after it, and all others are closed already or never. -/
structure Tracks (ps : List (Piece Tag)) (k : Nat) (live : List Nat) : Prop where
  closer : ∀ {x d i}, (openOf ps x live)[d]? = some i →
    closerOf ps i = (closerFrom x d (ps.drop k)).map (· + k)
  gone : ∀ {i}, i < k → i ∉ live → ∀ {c}, closerOf ps i = some c → c < k

variable {live : List Nat}

theorem tracks_zero (ps : List (Piece Tag)) : Tracks ps 0 [] where
  closer h := by simp [openOf] at h
  gone h := absurd h (Nat.not_lt_zero _)

/-- The piece after `k` others, with the rest. -/
theorem drop_eq_cons (h : ps[k]? = some p) : ps.drop k = p :: ps.drop (k + 1) := by
  obtain ⟨hk, rfl⟩ := List.getElem?_eq_some_iff.mp h
  exact List.drop_eq_getElem_cons hk

theorem of_drop_eq_cons (h : ps.drop k = p :: rest) :
    ps[k]? = some p ∧ ps.drop (k + 1) = rest := by
  constructor
  · rw [← Nat.add_zero k, ← List.getElem?_drop, h]
    rfl
  · rw [← List.drop_drop, h]
    rfl

theorem map_map_add (o : Option Nat) (k : Nat) :
    (o.map (· + 1)).map (· + k) = o.map (· + (k + 1)) := by
  cases o with
  | none => rfl
  | some c => simp [Nat.add_comm, Nat.add_left_comm]

/-- A piece that opens nothing and closes nothing. -/
theorem Tracks.other (h : Tracks ps k live) (hp : ps[k]? = some p)
    (hc : ∀ x, closesElement x p = false) (ho : ∀ x, opensElement x p = false) :
    Tracks ps (k + 1) live where
  closer {x d i} hi := by
    rw [h.closer hi, drop_eq_cons hp, closerFrom_other (hc x) (ho x), map_map_add]
  gone {i} hi hnot {c} hcl := by
    rcases Nat.lt_succ_iff_lt_or_eq.mp hi with hlt | rfl
    · exact Nat.lt_succ_of_lt (h.gone hlt hnot hcl)
    · -- the piece itself opens nothing
      rw [closerOf, hp] at hcl
      cases p with
      | plain c => cases hcl
      | found tag source =>
        simp only [ho, Bool.false_eq_true, if_false] at hcl
        cases hcl

/-- An opening tag. -/
theorem Tracks.opens (h : Tracks ps k live) (hp : ps[k]? = some p)
    (ho : opensElement x p = true) : Tracks ps (k + 1) (k :: live) where
  closer {y d i} hi := by
    have hc : closesElement y p = false := by
      refine Bool.eq_false_iff.mpr fun hc => ?_
      rw [opens_of_closes hc x] at ho
      cases ho
    have hname : nameAtPiece ps k = x := by
      cases p with
      | plain c => cases ho
      | found tag source =>
        rw [nameAtPiece, hp]
        simp only [opensElement, Bool.and_eq_true, beq_iff_eq] at ho
        exact ho.2
    by_cases hxy : x = y
    · subst hxy
      rw [openOf, List.filter_cons_of_pos (by simp [hname])] at hi
      cases d with
      | zero =>
        -- the new element is the innermost one of its name
        cases hi
        cases p with
        | plain c => cases ho
        | found tag source =>
          have hx : tag.name = x := by
            simp only [opensElement, Bool.and_eq_true, beq_iff_eq] at ho
            exact ho.2
          rw [closerOf, hp]
          simp only [hx, ho, if_true]
      | succ d =>
        rw [List.getElem?_cons_succ] at hi
        rw [h.closer hi, drop_eq_cons hp, closerFrom_opens hc ho, map_map_add]
    · have hother : opensElement y p = false :=
        Bool.eq_false_iff.mpr fun ho' => hxy (eq_of_opens ho ho')
      rw [openOf, List.filter_cons_of_neg (by simp [hname, hxy])] at hi
      rw [h.closer hi, drop_eq_cons hp, closerFrom_other hc hother, map_map_add]
  gone {i} hi hnot {c} hcl := by
    rw [List.mem_cons, not_or] at hnot
    rcases Nat.lt_succ_iff_lt_or_eq.mp hi with hlt | heq
    · exact Nat.lt_succ_of_lt (h.gone hlt hnot.2 hcl)
    · exact absurd heq hnot.1

/-- Before a closing tag, the element that it closes is the innermost open one of its name. -/
theorem Tracks.closerOf_eq (h : Tracks ps k live) (hp : ps[k]? = some p)
    (hc : closesElement x p = true) :
    closerOf ps i = some k ↔ (openOf ps x live).head? = some i := by
  constructor
  · intro hi
    have hlt : i < k := by
      rw [closerOf] at hi
      split at hi
      · split at hi
        · obtain ⟨n, -, rfl⟩ := Option.map_eq_some_iff.mp hi
          omega
        · cases hi
      · cases hi
    -- it is open: what is gone has its closing tag before this one
    have hmem : i ∈ live :=
      Decidable.byContradiction fun hnot => Nat.lt_irrefl k (h.gone hlt hnot hi)
    have hmem : i ∈ openOf ps (nameAtPiece ps i) live := by
      rw [openOf, List.mem_filter]
      exact ⟨hmem, by simp⟩
    obtain ⟨d, hd⟩ := List.mem_iff_getElem?.mp hmem
    have hcl := h.closer hd
    rw [hi, drop_eq_cons hp] at hcl
    obtain ⟨n, hn, hnk⟩ := Option.map_eq_some_iff.mp hcl.symm
    -- no closing tag of the name comes between, so it is the innermost one
    obtain rfl : n = 0 := by omega
    obtain ⟨hy, rfl⟩ := closes_of_closerFrom hn
    rw [List.head?_eq_getElem?, eq_of_closes hc hy]
    exact hd
  · intro hi
    rw [List.head?_eq_getElem?] at hi
    rw [h.closer hi, drop_eq_cons hp, closerFrom_closes_zero hc, Option.map_some, Nat.zero_add]

/-- A closing tag. -/
theorem Tracks.closes (h : Tracks ps k live) (hp : ps[k]? = some p)
    (hc : closesElement x p = true) :
    Tracks ps (k + 1) (live.eraseP fun i => nameAtPiece ps i == x) where
  closer {y d i} hi := by
    by_cases hxy : x = y
    · subst hxy
      rw [openOf, filter_eraseP_self, List.getElem?_tail] at hi
      rw [h.closer hi, drop_eq_cons hp, closerFrom_closes_succ hc, map_map_add]
    · have hother : closesElement y p = false :=
        Bool.eq_false_iff.mpr fun hc' => hxy (eq_of_closes hc hc')
      rw [openOf, filter_eraseP_of_imp] at hi
      · rw [h.closer hi, drop_eq_cons hp, closerFrom_other hother (opens_of_closes hc y),
          map_map_add]
      · intro b hb
        rw [beq_iff_eq] at hb
        simp [hb, hxy]
  gone {i} hi hnot {c} hcl := by
    rcases Nat.lt_succ_iff_lt_or_eq.mp hi with hlt | rfl
    · by_cases hmem : i ∈ live
      · -- it was open before, so it is the one that is closed here
        rw [(h.closerOf_eq hp hc).mpr (head?_filter_of_eraseP hmem hnot)] at hcl
        cases hcl
        exact Nat.lt_succ_self _
      · exact Nat.lt_succ_of_lt (h.gone hlt hmem hcl)
    · rw [closerOf, hp] at hcl
      cases p with
      | plain c => cases hcl
      | found tag source =>
        simp only [opens_of_closes hc, Bool.false_eq_true, if_false] at hcl
        cases hcl

/-- The elements that are open after a piece. -/
def liveAfter (ps : List (Piece Tag)) (k : Nat) (live : List Nat) : Piece Tag → List Nat
  | .plain _ => live
  | .found tag source =>
    if tag.isClosing then live.eraseP fun i => nameAtPiece ps i == tag.name
    else if isAlone tag.name source then live
    else k :: live

/-- **What is tracked before a piece is tracked after it.** -/
theorem Tracks.step (h : Tracks ps k live) (hp : ps[k]? = some p) :
    Tracks ps (k + 1) (liveAfter ps k live p) := by
  cases p with
  | plain c => exact h.other hp (fun _ => rfl) fun _ => rfl
  | found tag source =>
    rw [liveAfter]
    split
    next hc => exact h.closes hp (by simp [closesElement, hc])
    next hc =>
      rw [Bool.not_eq_true] at hc
      split
      next ha =>
        exact h.other hp (fun _ => by simp [closesElement, hc]) fun _ => by simp [opensElement, ha]
      next ha =>
        rw [Bool.not_eq_true] at ha
        exact h.opens (x := tag.name) hp (by simp [opensElement, hc, ha])

theorem exists_tracks (ps : List (Piece Tag)) (hk : k ≤ ps.length) : ∃ live, Tracks ps k live := by
  induction k with
  | zero => exact ⟨[], tracks_zero ps⟩
  | succ k ih =>
    obtain ⟨live, h⟩ := ih (Nat.le_of_succ_le hk)
    exact ⟨_, h.step (List.getElem?_eq_getElem hk)⟩

theorem closerFrom_closes {c : Nat} (h : closerFrom x d ps = some c) :
    ∃ p, ps[c]? = some p ∧ closesElement x p = true := by
  induction ps generalizing d c with
  | nil => cases h
  | cons p rest ih =>
    rw [closerFrom] at h
    split at h
    next hc =>
      split at h
      next => exact ⟨p, by cases h; rfl, hc⟩
      next =>
        obtain ⟨n, hn, rfl⟩ := Option.map_eq_some_iff.mp h
        exact ih hn
    next =>
      obtain ⟨n, hn, rfl⟩ := Option.map_eq_some_iff.mp h
      exact ih hn

/-- The closing tag of an element is one, and comes after it. -/
theorem closerOf_closes {c : Nat} (h : closerOf ps i = some c) :
    i < c ∧ ∃ p x, ps[c]? = some p ∧ closesElement x p = true := by
  rw [closerOf] at h
  split at h
  next tag source heq =>
    split at h
    next =>
      obtain ⟨n, hn, rfl⟩ := Option.map_eq_some_iff.mp h
      obtain ⟨p, hp, hc⟩ := closerFrom_closes hn
      rw [List.getElem?_drop] at hp
      exact ⟨by omega, p, _, by rwa [Nat.add_comm], hc⟩
    next => cases h
  next => cases h

/-- **A closing tag closes one element.** -/
theorem closerOf_inj {c : Nat} (hi : closerOf ps i = some c) (hj : closerOf ps j = some c) :
    i = j := by
  obtain ⟨-, p, x, hp, hc⟩ := closerOf_closes hi
  obtain ⟨hlt, -⟩ := List.getElem?_eq_some_iff.mp hp
  obtain ⟨live, h⟩ := exists_tracks ps (Nat.le_of_lt hlt)
  rw [h.closerOf_eq hp hc] at hi hj
  exact Option.some.inj (hi.symm.trans hj)

theorem closedBy?_eq_some : closedBy? ps k = some i ↔ closerOf ps i = some k := by
  constructor
  · intro h
    simpa using List.find?_some h
  · intro h
    cases hc : closedBy? ps k with
    | none =>
      have hnot := List.find?_eq_none.mp hc i (List.mem_range.mpr (closerOf_closes h).1)
      exact absurd h (by simpa using hnot)
    | some j =>
      have hj : closerOf ps j = some k := by simpa using List.find?_some hc
      rw [closerOf_inj hj h]

/-- The element that a closing tag closes is the innermost open one of its name. -/
theorem Tracks.closedBy?_eq (h : Tracks ps k live) (hp : ps[k]? = some p)
    (hc : closesElement x p = true) : closedBy? ps k = (openOf ps x live).head? := by
  refine Option.ext fun i => ?_
  rw [closedBy?_eq_some]
  exact h.closerOf_eq hp hc

end Stencil
