import Stencil.Proofs.Binding

/-!
# Cutting texts that were put together

A text made of parts is searched and cut part by part, when no match reaches from one part into the
next.

## Main results

* `breakOn_append_of_apart` — searching a phrase behind a text that does not have it.
* `breakOn_append_self` — a phrase is found where it was put.
* `takeWhile_append_head`, `cutFrom_found`, `cutFrom_plain` — reading the first part.
-/

namespace Stencil

open Text Lexer

variable {p a rest : List Char}

/-- A phrase that a text does not have, nor reaches out of. -/
theorem breakOn_append_of_apart (hp : ∀ x ∈ p, isApart x = false) (hr : Apart rest)
    (ha : breakOn p a = none) :
    breakOn p (a ++ rest) = (breakOn p rest).map fun x => (a ++ x.1, x.2) := by
  induction a with
  | nil => simp
  | cons c a ih =>
    rw [breakOn_eq_none_cons] at ha
    have hs := startsWith_append_of_apart (a := c :: a) hp hr
    rw [ha.1, startsWith, Option.isSome_eq_false_iff, Option.isNone_iff_eq_none,
      List.cons_append] at hs
    rw [List.cons_append, breakOn, hs]
    simp only [ih ha.2, Option.map_map]
    rfl

/-- A text that ends in front of the phrase does not start with it, even when the phrase follows. -/
theorem startsWith_append_self {x c : Char} {p : List Char} (hx : x ∉ p)
    (h : startsWith (x :: p) (c :: a) = false) (rest : List Char) :
    startsWith (x :: p) (c :: a ++ (x :: p ++ rest)) = false := by
  refine Bool.eq_false_iff.mpr fun hs => ?_
  obtain ⟨t, ht⟩ := startsWith_iff.mp hs
  rcases List.append_eq_append_iff.mp ht with ⟨b, hb, hrest⟩ | ⟨b, hb, hrest⟩
  · have hs : startsWith (x :: p) (c :: a) = true := startsWith_iff.mpr ⟨b, hb.symm⟩
    rw [h] at hs
    cases hs
  · cases b with
    | nil =>
      have hs : startsWith (x :: p) (c :: a) = true := by
        rw [List.append_nil] at hb
        exact startsWith_iff.mpr ⟨[], by rw [List.append_nil, hb]⟩
      rw [h] at hs
      cases hs
    | cons d b =>
      -- the phrase would start again inside of itself
      have hd : x = d := (List.cons.inj hrest).1
      have hp : p = a ++ d :: b := (List.cons.inj hb).2
      refine hx ?_
      rw [hp, hd]
      exact List.mem_append_right _ List.mem_cons_self

/-- A phrase is found where it was put, when its first character does not return in it. -/
theorem breakOn_append_self {x : Char} {p : List Char} (hx : x ∉ p)
    (h : breakOn (x :: p) a = none) :
    breakOn (x :: p) (a ++ (x :: p ++ rest)) = some (a, rest) := by
  induction a with
  | nil =>
    have hd : dropStart? (x :: p) (x :: p ++ rest) = some rest := dropStart?_append _ _
    rw [List.nil_append, List.cons_append, breakOn]
    rw [List.cons_append] at hd
    rw [hd]
  | cons c a ih =>
    rw [breakOn_eq_none_cons] at h
    have hs := startsWith_append_self hx h.1 rest
    rw [startsWith, Option.isSome_eq_false_iff, Option.isNone_iff_eq_none, List.cons_append] at hs
    rw [List.cons_append, breakOn, hs, ih h.2]
    rfl

theorem breakOn_singleton {x : Char} (h : x ∉ a) : breakOn [x] a = none := by
  induction a with
  | nil => rfl
  | cons c a ih =>
    rw [List.mem_cons, not_or] at h
    rw [breakOn_eq_none_cons, startsWith_cons, decide_eq_false h.1]
    exact ⟨Bool.false_and _, ih h.2⟩

theorem notMem_of_breakOn {x : Char} {cs : List Char} (h : breakOn [x] cs = some (a, rest)) :
    x ∉ a := by
  induction cs generalizing a with
  | nil => cases h
  | cons c cs ih =>
    rw [breakOn, dropStart?] at h
    split at h
    next hc =>
      cases h
      exact List.not_mem_nil
    next hc =>
      obtain ⟨⟨a', rest'⟩, hcut, heq⟩ := Option.map_eq_some_iff.mp h
      cases heq
      rw [List.mem_cons, not_or]
      refine ⟨?_, ih hcut⟩
      rintro rfl
      rw [if_pos rfl] at hc
      cases hc

theorem takeWhile_append_head {q : Char → Bool} (ha : ∀ c ∈ a, q c = true)
    (hr : ∀ c, rest.head? = some c → q c = false) :
    (a ++ rest).takeWhile q = a ∧ (a ++ rest).dropWhile q = rest := by
  rw [List.takeWhile_append_of_pos ha, List.dropWhile_append_of_pos ha]
  cases rest with
  | nil => simp
  | cons c rest => simp [hr c rfl]

theorem cutFrom_found {α : Type} {m : Matcher α} {x : α} {cs : List Char} (hcs : cs ≠ [])
    (h : m (cs ++ rest) = some (x, cs.length)) :
    cutFrom m 0 (cs ++ rest) = .found x cs :: cutFrom m 0 rest := by
  have hskip : ∀ (n : Nat) (ds : List Char), cutFrom m n ds = cutFrom m 0 (ds.drop n) := by
    intro n ds
    induction ds generalizing n with
    | nil => cases n <;> rfl
    | cons d ds ih =>
      cases n with
      | zero => rfl
      | succ n => exact ih n
  obtain ⟨c, cs, rfl⟩ := List.exists_cons_of_ne_nil hcs
  rw [List.cons_append] at h
  rw [List.cons_append, cutFrom, h]
  simp only [List.length_cons, Nat.add_sub_cancel]
  rw [hskip, List.take_left, List.drop_left]

theorem cutFrom_plain {α : Type} {m : Matcher α}
    (h : ∀ c ∈ a, ∀ ds, m (c :: ds) = none) :
    cutFrom m 0 (a ++ rest) = a.map .plain ++ cutFrom m 0 rest := by
  induction a with
  | nil => rfl
  | cons c a ih =>
    rw [List.cons_append, cutFrom, h c List.mem_cons_self]
    rw [ih fun d hd => h d (List.mem_cons_of_mem c hd)]
    rfl

theorem filterMap_value_plain {α : Type} (cs : List Char) :
    (cs.map (Piece.plain (α := α))).filterMap Piece.value? = [] := by
  induction cs with
  | nil => rfl
  | cons c cs ih => exact ih

end Stencil
