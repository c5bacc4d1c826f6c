import Stencil.Markup.Form
import Stencil.Proofs.Cutting
import Stencil.Proofs.Elements.Marks

/-!
# Searching texts that were put together

A pattern that matches at no place of the first of two texts is searched in the second one.  A
phrase, case aside, matches at no place of a text that it does not occur in, unless a spelling of it
reaches out of that text.

## Main definitions

* `Misses` — the pattern matches at no place of a text that stands in front of another one.
* `FormOf` — a text spells a phrase, case aside.
* `Severs` — no spelling of a phrase reaches from one text into the next.

## Main results

* `Misses.cutFrom`, `Misses.findFirst?`, `Misses.findAll`, `Misses.occurs` — searching behind a text
  that is missed.
* `misses_phraseFold` — a phrase misses the texts that it does not occur in.
-/

namespace Stencil

open Text

section Misses

variable {α β : Type} {m : Matcher α} {m' : Matcher β} {a b rest : List Char}

/-- The pattern matches at no place of the first text, which stands in front of the second. -/
def Misses (m : Matcher α) : List Char → List Char → Prop
  | [], _ => True
  | c :: a, b => m (c :: (a ++ b)) = none ∧ Misses m a b

theorem misses_append : Misses m (a ++ b) rest ↔ Misses m a (b ++ rest) ∧ Misses m b rest := by
  induction a with
  | nil => simp [Misses]
  | cons c a ih => simp [Misses, ih, and_assoc]

theorem misses_nil : Misses m a [] ↔ occurs m a = false := by
  induction a with
  | nil => simp [Misses, occurs]
  | cons c a ih => simp [Misses, occurs, ih]

/-- What a pattern needs misses what the pattern misses. -/
theorem Misses.imp (h : Misses m' a b) (himp : ∀ cs, m' cs = none → m cs = none) :
    Misses m a b := by
  induction a with
  | nil => trivial
  | cons c a ih => exact ⟨himp _ h.1, ih h.2⟩

theorem Misses.cutFrom (h : Misses m a b) :
    cutFrom m 0 (a ++ b) = a.map .plain ++ cutFrom m 0 b := by
  induction a with
  | nil => rfl
  | cons c a ih =>
    rw [List.cons_append, Text.cutFrom, h.1, ih h.2]
    rfl

theorem Misses.findAll (h : Misses m a b) : findAll m (a ++ b) = findAll m b := by
  rw [Text.findAll, cut, h.cutFrom, List.filterMap_append, List.filterMap_map]
  have hplain : a.filterMap (Piece.value? ∘ Piece.plain (α := α)) = [] :=
    List.filterMap_eq_nil_iff.mpr fun _ _ => rfl
  rw [hplain]
  rfl

theorem Misses.occurs (h : Misses m a b) : occurs m (a ++ b) = occurs m b := by
  induction a with
  | nil => rfl
  | cons c a ih => simp [Text.occurs, h.1, ih h.2]

theorem Misses.findFirst? (h : Misses m a b) :
    findFirst? m (a ++ b) = (findFirst? m b).map fun x => (a ++ x.1, x.2) := by
  induction a with
  | nil => simp
  | cons c a ih =>
    rw [List.cons_append, Text.findFirst?, h.1]
    simp only [ih h.2, Option.map_map]
    rfl

/-- What stands at a place that matches is found there. -/
theorem findFirst?_found {x : α} (ha : a ≠ []) (h : m (a ++ b) = some (x, a.length)) :
    findFirst? m (a ++ b) = some ([], x, a, b) := by
  obtain ⟨c, a, rfl⟩ := List.exists_cons_of_ne_nil ha
  rw [List.cons_append] at h ⊢
  rw [Text.findFirst?, h]
  simp

/-- A match that ends inside of a text, the rest of which is missed. -/
theorem findAll_found {x : α} (ha : a ≠ []) (h : m (a ++ (b ++ rest)) = some (x, a.length))
    (hrest : Misses m b rest) : findAll m (a ++ (b ++ rest)) = x :: findAll m rest := by
  rw [← hrest.findAll, Text.findAll, cut, cutFrom_found ha h]
  rfl

/-- What a pattern finds, it finds somewhere in the text. -/
theorem exists_of_mem_cutFrom {cs source : List Char} {x : α} {n : Nat}
    (h : Piece.found x source ∈ Text.cutFrom m n cs) :
    ∃ c ds k, m (c :: ds) = some (x, k) ∧ source = c :: ds.take (k - 1) := by
  induction cs generalizing n with
  | nil => cases n <;> cases h
  | cons c cs ih =>
    cases n with
    | succ n => exact ih h
    | zero =>
      rw [Text.cutFrom] at h
      split at h
      next y k hm =>
        rcases List.mem_cons.mp h with heq | h
        · cases heq
          exact ⟨c, cs, k, hm, rfl⟩
        · exact ih h
      next => exact ih (List.mem_of_ne_of_mem (by rintro ⟨⟩) h)

theorem findFirst?_eq_none (h : Text.occurs m a = false) : Text.findFirst? m a = none := by
  have hmisses := (misses_nil.mpr h).findFirst?
  rw [List.append_nil] at hmisses
  rw [hmisses]
  rfl

theorem not_occurs_of_findFirst? (h : Text.findFirst? m a = none) : Text.occurs m a = false := by
  induction a with
  | nil => rfl
  | cons c a ih =>
    rw [Text.findFirst?] at h
    split at h
    next => cases h
    next hm => rw [Text.occurs, hm, ih (Option.map_eq_none_iff.mp h), Option.isSome_none,
      Bool.or_self]

/-- The first match stands where it was found. -/
theorem findFirst?_eq_some {cs before source : List Char} {x : α}
    (h : Text.findFirst? m cs = some (before, x, source, rest)) :
    cs = before ++ (source ++ rest) ∧
      ∃ n, m (source ++ rest) = some (x, n) ∧ source = (source ++ rest).take n := by
  induction cs generalizing before with
  | nil => cases h
  | cons c cs ih =>
    rw [Text.findFirst?] at h
    split at h
    next y n hm =>
      cases h
      rw [List.take_append_drop]
      exact ⟨rfl, n, hm, rfl⟩
    next =>
      obtain ⟨⟨before', x', source', rest'⟩, hfirst, heq⟩ := Option.map_eq_some_iff.mp h
      cases heq
      obtain ⟨hcs, hmatch⟩ := ih hfirst
      exact ⟨by rw [hcs, List.cons_append], hmatch⟩

/-- No match starts in front of the first one. -/
theorem misses_of_findFirst? {cs before source : List Char} {x : α}
    (h : Text.findFirst? m cs = some (before, x, source, rest)) :
    Misses m before (source ++ rest) := by
  induction cs generalizing before with
  | nil => cases h
  | cons c cs ih =>
    rw [Text.findFirst?] at h
    split at h
    next =>
      cases h
      trivial
    next hm =>
      obtain ⟨⟨before', x', source', rest'⟩, hfirst, heq⟩ := Option.map_eq_some_iff.mp h
      cases heq
      exact ⟨by rwa [← (findFirst?_eq_some hfirst).1], ih hfirst⟩

end Misses

section Exact

variable {p a b cs : List Char}

theorem contains_iff_isInfix : contains p cs = true ↔ p <:+: cs := by
  constructor
  · intro h
    obtain ⟨⟨before, rest⟩, hcut⟩ := Option.isSome_iff_exists.mp h
    rw [breakOn_eq_some hcut]
    exact List.infix_append before p rest
  · intro h
    refine Bool.of_not_eq_false fun hnone => ?_
    rw [contains, Option.isSome_eq_false_iff, Option.isNone_iff_eq_none] at hnone
    induction cs with
    | nil =>
      rw [List.infix_nil.mp h] at hnone
      cases hnone
    | cons c cs ih =>
      rw [breakOn_eq_none_cons] at hnone
      rcases List.infix_cons_iff.mp h with hfront | hinside
      · rw [startsWith_iff.mpr hfront] at hnone
        cases hnone.1
      · exact ih hinside hnone.2

/-- The two texts do not start with the phrase when the first does not, and the phrase cannot reach
from the first into the second. -/
theorem dropStart?_append_eq_none (ha : a ≠ [])
    (hs : (∀ d ∈ b.head?, d ∉ p.tail) ∨ ∀ d ∈ a.getLast?, d ∉ p.dropLast)
    (h : dropStart? p a = none) : dropStart? p (a ++ b) = none := by
  have hnot : ¬ p <+: a := by
    rw [← startsWith_iff, startsWith, h]
    exact Bool.false_ne_true
  refine Option.eq_none_iff_forall_ne_some.mpr fun rest hrest => ?_
  have hfront : p <+: a ++ b := ⟨rest, (dropStart?_eq_some_iff.mp hrest).symm⟩
  rcases List.prefix_or_prefix_of_prefix hfront (List.prefix_append a b) with hpa | ⟨t, ht⟩
  · exact hnot hpa
  · -- the first text ends inside of the phrase
    cases t with
    | nil =>
      rw [List.append_nil] at ht
      exact hnot (ht ▸ List.prefix_rfl)
    | cons d t =>
      obtain ⟨c, a, rfl⟩ := List.exists_cons_of_ne_nil ha
      rcases hs with hs | hs
      · have hb : b = d :: (t ++ rest) := by
          have happ := dropStart?_eq_some_iff.mp hrest
          rw [← ht, List.append_assoc] at happ
          exact List.append_cancel_left happ
        refine hs d (by rw [hb]; rfl) ?_
        rw [← ht, List.cons_append, List.tail_cons]
        exact List.mem_append_right a List.mem_cons_self
      · refine hs ((c :: a).getLast ha) (List.getLast?_eq_some_getLast ha) ?_
        rw [← ht, List.dropLast_append_of_ne_nil (List.cons_ne_nil d t)]
        exact List.mem_append_left _ (List.getLast_mem ha)

/-- A phrase that a text does not have, nor reaches out of. -/
theorem misses_phrase (ha : contains p a = false)
    (hs : (∀ d ∈ b.head?, d ∉ p.tail) ∨ ∀ d ∈ a.getLast?, d ∉ p.dropLast) :
    Misses (phrase p) a b := by
  induction a with
  | nil => trivial
  | cons c a ih =>
    rw [contains, Option.isSome_eq_false_iff, Option.isNone_iff_eq_none,
      breakOn_eq_none_cons, startsWith, Option.isSome_eq_false_iff, Option.isNone_iff_eq_none] at ha
    constructor
    · have hcons := dropStart?_append_eq_none (List.cons_ne_nil c a) hs ha.1
      rw [List.cons_append] at hcons
      rw [phrase, hcons]
      rfl
    · cases a with
      | nil => trivial
      | cons d a =>
        refine ih ?_ hs
        rw [contains, ha.2]
        rfl

theorem Misses.breakOn (h : Misses (phrase p) a b) :
    breakOn p (a ++ b) = (breakOn p b).map fun x => (a ++ x.1, x.2) := by
  induction a with
  | nil => simp
  | cons c a ih =>
    have hhead := Option.map_eq_none_iff.mp h.1
    rw [List.cons_append, Text.breakOn, hhead]
    simp only [ih h.2, Option.map_map]
    rfl

end Exact

section Phrases

variable {p q a b cs rest : List Char}

/-- The text spells the phrase, case aside.  The phrase is written small. -/
def FormOf (p q : List Char) : Prop := dropStartFold? p q = some []

instance : DecidableRel FormOf := fun p q =>
  inferInstanceAs (Decidable (dropStartFold? p q = some []))

/-- A text starts with a phrase when it starts with a spelling of it. -/
theorem dropStartFold?_eq_some_iff :
    dropStartFold? p cs = some rest ↔ ∃ q, FormOf p q ∧ cs = q ++ rest := by
  induction p generalizing cs with
  | nil =>
    constructor
    · rintro ⟨⟩
      exact ⟨[], rfl, rfl⟩
    · rintro ⟨q, hq, rfl⟩
      cases q with
      | nil => rfl
      | cons c q => cases hq
  | cons x p ih =>
    cases cs with
    | nil =>
      constructor
      · intro h
        cases h
      · rintro ⟨q, hq, hnil⟩
        rw [(List.append_eq_nil_iff.mp hnil.symm).1] at hq
        cases hq
    | cons c cs =>
      rw [dropStartFold?]
      constructor
      · intro h
        split at h
        next hc =>
          obtain ⟨q, hq, rfl⟩ := ih.mp h
          refine ⟨c :: q, ?_, rfl⟩
          rw [FormOf, dropStartFold?, if_pos hc]
          exact hq
        next => cases h
      · rintro ⟨q, hq, hcs⟩
        cases q with
        | nil => cases hq
        | cons d q =>
          obtain ⟨rfl, rfl⟩ := List.cons.inj hcs
          rw [FormOf, dropStartFold?] at hq
          split at hq
          next hc =>
            rw [if_pos hc]
            exact ih.mpr ⟨q, hq, rfl⟩
          next => cases hq

theorem FormOf.dropStartFold? (h : FormOf p q) (rest : List Char) :
    dropStartFold? p (q ++ rest) = some rest := dropStartFold?_eq_some_iff.mpr ⟨q, h, rfl⟩

/-- A phrase occurs where it is spelled. -/
theorem FormOf.occurs (h : FormOf p q) (hq : q ≠ []) (rest : List Char) :
    occurs (phraseFold p) (q ++ rest) = true := by
  obtain ⟨c, q, rfl⟩ := List.exists_cons_of_ne_nil hq
  have hdrop := h.dropStartFold? rest
  rw [List.cons_append] at hdrop ⊢
  exact occurs_cons (by rw [phraseFold, hdrop]; rfl)

theorem FormOf.length (h : FormOf p q) : q.length = p.length := by
  induction p generalizing q with
  | nil =>
    cases q with
    | nil => rfl
    | cons c q => cases h
  | cons x p ih =>
    cases q with
    | nil => cases h
    | cons c q =>
      rw [FormOf, Text.dropStartFold?] at h
      split at h
      next => rw [List.length_cons, List.length_cons, ih h]
      next => cases h

/-- Every character of a spelling is a form of one of the phrase. -/
theorem FormOf.exists_isFormOf (h : FormOf p q) : ∀ c ∈ q, ∃ x ∈ p, isFormOf x c = true := by
  induction p generalizing q with
  | nil =>
    cases q with
    | nil => simp
    | cons c q => cases h
  | cons x p ih =>
    cases q with
    | nil => simp
    | cons c q =>
      rw [FormOf, Text.dropStartFold?] at h
      split at h
      next hc =>
        intro d hd
        rcases List.mem_cons.mp hd with rfl | hd
        · exact ⟨x, List.mem_cons_self, hc⟩
        · obtain ⟨y, hy, hyd⟩ := ih h d hd
          exact ⟨y, List.mem_cons_of_mem x hy, hyd⟩
      next => cases h

theorem dropStartFold?_append (p q cs : List Char) :
    dropStartFold? (p ++ q) cs = (dropStartFold? p cs).bind (dropStartFold? q) := by
  induction p generalizing cs with
  | nil => rfl
  | cons x p ih =>
    cases cs with
    | nil => rfl
    | cons c cs =>
      rw [List.cons_append, Text.dropStartFold?, Text.dropStartFold?]
      split
      next => exact ih cs
      next => rfl

/-- Phrases side by side are spelled side by side. -/
theorem formOf_append : FormOf (p ++ q) cs ↔ ∃ a b, cs = a ++ b ∧ FormOf p a ∧ FormOf q b := by
  rw [FormOf, dropStartFold?_append, Option.bind_eq_some_iff]
  constructor
  · rintro ⟨b, hp, hq⟩
    obtain ⟨a, ha, rfl⟩ := dropStartFold?_eq_some_iff.mp hp
    exact ⟨a, b, rfl, ha, hq⟩
  · rintro ⟨a, b, rfl, ha, hb⟩
    exact ⟨b, ha.dropStartFold? b, hb⟩

theorem toNat_asciiLower {c : Char} (h : 65 ≤ c.toNat ∧ c.toNat ≤ 90) :
    (asciiLower c).toNat = c.toNat + 32 := by
  have hvalid : (c.toNat + 32).isValidChar := .inl (by omega)
  rw [asciiLower, if_pos h, Char.ofNat, dif_pos hvalid]
  rfl

theorem asciiLower_of_not {c : Char} (h : ¬(65 ≤ c.toNat ∧ c.toNat ≤ 90)) : asciiLower c = c := by
  rw [asciiLower, if_neg h]

/-- A sign in front of the letters is only spelled as itself. -/
theorem eq_of_isFormOf {x c : Char} (hx : x.toNat < 65) (h : isFormOf x c = true) : c = x := by
  have hk : x ≠ 'k' := by
    rintro rfl
    exact absurd hx (by decide)
  have hs : x ≠ 's' := by
    rintro rfl
    exact absurd hx (by decide)
  simp only [isFormOf, hk, hs, decide_false, Bool.false_and, Bool.or_false, decide_eq_true_eq] at h
  by_cases hc : 65 ≤ c.toNat ∧ c.toNat ≤ 90
  · have hsmall := toNat_asciiLower hc
    rw [h] at hsmall
    omega
  · rwa [asciiLower_of_not hc] at h

/-- A phrase that starts with a sign is spelled with that sign. -/
theorem FormOf.eq_cons {x : Char} (hx : x.toNat < 65) (h : FormOf (x :: p) q) :
    ∃ rest, q = x :: rest ∧ FormOf p rest := by
  cases q with
  | nil => cases h
  | cons c q =>
    rw [FormOf, Text.dropStartFold?] at h
    split at h
    next hc => exact ⟨q, by rw [eq_of_isFormOf hx hc], h⟩
    next => cases h

/-- Without `k` and `s`, which have further forms, a phrase is its spellings in small letters. -/
theorem FormOf.map_asciiLower (hp : ∀ x ∈ p, x ≠ 'k' ∧ x ≠ 's') (h : FormOf p q) :
    q.map asciiLower = p := by
  induction p generalizing q with
  | nil => rw [List.length_eq_zero_iff.mp h.length, List.map_nil]
  | cons x p ih =>
    cases q with
    | nil => cases h
    | cons c q =>
      rw [FormOf, Text.dropStartFold?] at h
      split at h
      next hc =>
        have hx := hp x List.mem_cons_self
        simp only [isFormOf, hx, decide_false, Bool.false_and, Bool.or_false,
          decide_eq_true_eq] at hc
        rw [List.map_cons, hc, ih (fun y hy => hp y (List.mem_cons_of_mem x hy)) h]
      next => cases h

theorem asciiLower_asciiLower (c : Char) : asciiLower (asciiLower c) = asciiLower c := by
  by_cases hc : 65 ≤ c.toNat ∧ c.toNat ≤ 90
  · have hsmall := toNat_asciiLower hc
    exact asciiLower_of_not fun h => by omega
  · rw [asciiLower_of_not hc, asciiLower_of_not hc]

/-- Without `k` and `s` a phrase is found in a text as it is in the small letters of the text. -/
theorem dropStartFold?_map (hp : ∀ x ∈ p, x ≠ 'k' ∧ x ≠ 's') (cs : List Char) :
    dropStartFold? p (cs.map asciiLower) = (dropStartFold? p cs).map (List.map asciiLower) := by
  induction p generalizing cs with
  | nil => rfl
  | cons x p ih =>
    cases cs with
    | nil => rfl
    | cons c cs =>
      have hform : isFormOf x (asciiLower c) = isFormOf x c := by
        simp only [isFormOf, hp x List.mem_cons_self, decide_false, Bool.false_and, Bool.or_false,
          asciiLower_asciiLower]
      rw [List.map_cons, dropStartFold?, dropStartFold?, hform]
      split
      next => exact ih (fun y hy => hp y (List.mem_cons_of_mem x hy)) cs
      next => rfl

theorem occurs_phraseFold_map (hp : ∀ x ∈ p, x ≠ 'k' ∧ x ≠ 's') :
    occurs (phraseFold p) (cs.map asciiLower) = occurs (phraseFold p) cs := by
  induction cs with
  | nil => rfl
  | cons c cs ih =>
    have hhead := dropStartFold?_map hp (c :: cs)
    rw [List.map_cons] at hhead
    simp [occurs, phraseFold, hhead, ih]

/-- No spelling of the phrase reaches from the first text into the second. -/
def Severs (p a b : List Char) : Prop :=
  (∀ x ∈ p.tail, ∀ d ∈ b.head?, isFormOf x d = false) ∨
    (∀ x ∈ p.dropLast, ∀ d ∈ a.getLast?, isFormOf x d = false)

/-- The two texts do not start with the phrase when the first does not. -/
theorem dropStartFold?_append_of_severs (ha : a ≠ []) (hs : Severs p a b)
    (h : dropStartFold? p a = none) : dropStartFold? p (a ++ b) = none := by
  induction a generalizing p with
  | nil => exact absurd rfl ha
  | cons c a ih =>
    cases p with
    | nil => cases h
    | cons x p =>
      rw [dropStartFold?] at h
      rw [List.cons_append, dropStartFold?]
      split
      next hc =>
        rw [if_pos hc] at h
        cases p with
        | nil => cases h
        | cons y p =>
          cases a with
          | nil =>
            -- the first text ends inside of the phrase
            cases b with
            | nil => rfl
            | cons d b =>
              rcases hs with hs | hs
              · have hd := hs y List.mem_cons_self d rfl
                rw [List.nil_append, dropStartFold?, if_neg (by rw [hd]; exact Bool.false_ne_true)]
              · have hx := hs x List.mem_cons_self c rfl
                rw [hx] at hc
                cases hc
          | cons d a =>
            refine ih (List.cons_ne_nil d a) ?_ h
            rcases hs with hs | hs
            · exact .inl fun z hz => hs z (List.mem_cons_of_mem y hz)
            · exact .inr fun z hz => hs z (List.mem_cons_of_mem x hz)
      next => rfl

theorem Severs.tail {c : Char} (ha : a ≠ []) (h : Severs p (c :: a) b) : Severs p a b := by
  rcases h with h | h
  · exact .inl h
  · refine .inr fun x hx d hd => h x hx d ?_
    obtain ⟨e, a, rfl⟩ := List.exists_cons_of_ne_nil ha
    exact hd

/-- A phrase that a text does not have, nor reaches out of. -/
theorem misses_phraseFold (ha : occurs (phraseFold p) a = false) (hs : Severs p a b) :
    Misses (phraseFold p) a b := by
  induction a with
  | nil => trivial
  | cons c a ih =>
    rw [occurs, Bool.or_eq_false_iff, Option.isSome_eq_false_iff, Option.isNone_iff_eq_none,
      phraseFold, Option.map_eq_none_iff] at ha
    refine ⟨?_, ?_⟩
    · have hcons := dropStartFold?_append_of_severs (List.cons_ne_nil c a) hs ha.1
      rw [List.cons_append] at hcons
      rw [phraseFold, hcons]
      rfl
    · cases a with
      | nil => trivial
      | cons d a => exact ih ha.2 (hs.tail (List.cons_ne_nil d a))

/-- A phrase misses a text that its first character is not in. -/
theorem misses_phraseFold_of_head {x : Char} (h : ∀ c ∈ a, isFormOf x c = false) :
    Misses (phraseFold (x :: p)) a b := by
  induction a with
  | nil => trivial
  | cons c a ih =>
    refine ⟨?_, ih fun d hd => h d (List.mem_cons_of_mem c hd)⟩
    rw [phraseFold, dropStartFold?, h c List.mem_cons_self]
    rfl

/-- A text is not read to its end when the next character is not in the phrase. -/
theorem dropStartFold?_append_of_notMem (h : ∀ x ∈ p, ∀ d ∈ b.head?, isFormOf x d = false) :
    dropStartFold? p (a ++ b) = (dropStartFold? p a).map (· ++ b) := by
  induction p generalizing a with
  | nil => rfl
  | cons x p ih =>
    cases a with
    | nil =>
      cases b with
      | nil => rfl
      | cons d b =>
        have hd := h x List.mem_cons_self d rfl
        simp [dropStartFold?, hd]
    | cons c a =>
      rw [List.cons_append, dropStartFold?, dropStartFold?]
      split
      next => exact ih fun y hy => h y (List.mem_cons_of_mem x hy)
      next => rfl

/-- How a text starts is told by as many characters as the phrase has. -/
theorem dropStartFold?_append_of_le (h : p.length ≤ a.length) :
    dropStartFold? p (a ++ b) = (dropStartFold? p a).map (· ++ b) := by
  induction p generalizing a with
  | nil => rfl
  | cons x p ih =>
    cases a with
    | nil => cases h
    | cons c a =>
      rw [List.cons_append, dropStartFold?, dropStartFold?]
      split
      next => exact ih (Nat.le_of_succ_le_succ h)
      next => rfl

/-- What stands behind a text as long as the phrase does not count. -/
theorem misses_phraseFold_append (h : p.length ≤ b.length) :
    Misses (phraseFold p) a (b ++ rest) ↔ Misses (phraseFold p) a b := by
  induction a with
  | nil => rfl
  | cons c a ih =>
    have hle : p.length ≤ (c :: (a ++ b)).length := by
      rw [List.length_cons, List.length_append]
      omega
    have hdrop := dropStartFold?_append_of_le (b := rest) hle
    rw [List.cons_append, List.append_assoc] at hdrop
    rw [Misses, Misses, ih, phraseFold, phraseFold, hdrop]
    simp

/-- What a phrase finds is a spelling of it. -/
theorem formOf_of_findFirst? {before source : List Char} {x : Unit}
    (h : findFirst? (phraseFold p) cs = some (before, x, source, rest)) : FormOf p source := by
  obtain ⟨-, n, hmatch, hsource⟩ := findFirst?_eq_some h
  obtain ⟨tail, hdrop, heq⟩ := Option.map_eq_some_iff.mp hmatch
  obtain ⟨word, hword, hsplit⟩ := dropStartFold?_eq_some_iff.mp hdrop
  have hn : n = word.length := by rw [hword.length, ← (Prod.mk.inj heq).2]
  rwa [hsource, hsplit, hn, List.take_left]

/-- What occurs at the start of a text occurs in the text. -/
theorem occurs_phraseFold_append (h : occurs (phraseFold p) a = true) :
    occurs (phraseFold p) (a ++ b) = true := by
  induction a with
  | nil => cases h
  | cons c a ih =>
    rw [occurs, Bool.or_eq_true] at h
    rcases h with h | h
    · refine occurs_cons ?_
      rw [phraseFold, Option.isSome_map, Option.isSome_iff_exists] at h ⊢
      obtain ⟨rest, hrest⟩ := h
      obtain ⟨q, hq, hcs⟩ := dropStartFold?_eq_some_iff.mp hrest
      refine ⟨rest ++ b, dropStartFold?_eq_some_iff.mpr ⟨q, hq, ?_⟩⟩
      rw [← List.append_assoc, ← hcs]
      rfl
    · rw [List.cons_append, occurs, ih h, Bool.or_true]

/-- A phrase of signs has no other form. -/
theorem dropStartFold?_of_signs (h : ∀ x ∈ p, x.toNat < 65) :
    Text.dropStartFold? p cs = dropStart? p cs := by
  induction p generalizing cs with
  | nil => rfl
  | cons x p ih =>
    cases cs with
    | nil => rfl
    | cons c cs =>
      have hx := h x List.mem_cons_self
      rw [Text.dropStartFold?, dropStart?, ih fun y hy => h y (List.mem_cons_of_mem x hy)]
      by_cases hc : x = c
      · subst hc
        have hform : isFormOf x x = true := by
          have hlower : asciiLower x = x := asciiLower_of_not (by omega)
          simp [isFormOf, hlower]
        rw [if_pos hform, if_pos rfl]
      · rw [if_neg hc, if_neg fun hform => hc (eq_of_isFormOf hx hform).symm]

end Phrases

end Stencil
