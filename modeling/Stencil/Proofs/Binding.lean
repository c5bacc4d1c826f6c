import Stencil.Proofs.Lexing

/-!
# Binding code in parts

Code that is put together from parts is bound part by part, when the parts are separated by
characters that belong to no name and every part ends outside of its literals.  Binding adds no
quote, no comment and no separator, so what holds of the places between the parts before it holds
after it.

## Main results

* `bindVars_around` — parts around a separator are bound apart.
* `uninterrupted_bindVars`, `foldl_next_bindVars` — binding keeps where code stands.
* `notMem_bindVars`, `breakOn_bindFrom` — binding adds no separator.
-/

namespace Stencil

open Text Lexer

variable {mode : Quoting} {before cs xs ys sep : List Char}

/-! ### What binding keeps -/

theorem bindFrom_cons (mode : Quoting) (before : List Char) (c : Char) (cs : List Char) :
    bindFrom mode before (c :: cs) =
      c :: ((if mode = .code ∧ c = '$' ∧ startsBound cs ∧ ¬ endsQualified before then contextPath
        else []) ++ bindFrom (mode.next c) (c :: before) cs) := by
  rw [bindFrom]
  split
  · rfl
  · rfl

/-- What is put in starts no literal. -/
theorem foldl_next_contextPath : contextPath.foldl Quoting.next .code = .code := by decide

/-- Binding keeps the first character. -/
theorem head?_bindFrom (mode : Quoting) (before cs : List Char) :
    (bindFrom mode before cs).head? = cs.head? := by
  cases cs with
  | nil => rfl
  | cons c cs => rw [bindFrom_cons, List.head?_cons, List.head?_cons]

/-- A reader of bound code stands where it would in the code. -/
theorem foldl_next_bindFrom (mode : Quoting) (before cs : List Char) :
    (bindFrom mode before cs).foldl Quoting.next mode = cs.foldl Quoting.next mode := by
  induction cs generalizing mode before with
  | nil => rfl
  | cons c cs ih =>
    rw [bindFrom_cons, List.foldl_cons, List.foldl_cons, List.foldl_append]
    split
    next h =>
      -- a dollar sign leads into no literal
      have hnext : mode.next c = .code := by
        rw [h.1, h.2.1]
        rfl
      have ih := ih (mode.next c) (c :: before)
      rw [hnext] at ih ⊢
      rw [foldl_next_contextPath, ih]
    next => exact ih _ _

/-- Only the first two characters tell whether code goes on. -/
theorem goesOn_congr {c : Char} {ds : List Char} (h : cs.head? = ds.head?) :
    goesOn (c :: cs) = goesOn (c :: ds) := by
  have two : ∀ p ∈ interruptions, p.length ≤ 2 := by decide
  have key : ∀ p ∈ interruptions, startsWith p (c :: cs) = startsWith p (c :: ds) := by
    intro p hp
    match p, two p hp with
    | [], _ => rfl
    | [x], _ => rw [startsWith_cons, startsWith_cons]; rfl
    | [x, y], _ =>
      rw [startsWith_cons, startsWith_cons]
      congr 1
      cases cs with
      | nil =>
        cases ds with
        | nil => rfl
        | cons d ds => cases h
      | cons d cs =>
        cases ds with
        | nil => cases h
        | cons e ds =>
          cases h
          rw [startsWith_cons, startsWith_cons]
          rfl
  rw [goesOn, goesOn, Bool.eq_iff_iff, List.all_eq_true, List.all_eq_true]
  exact forall₂_congr fun p hp => by rw [key p hp]

/-- What is put in has no comment in it. -/
theorem uninterrupted_contextPath (h : uninterrupted .code cs = true) :
    uninterrupted .code (contextPath ++ cs) = true := by
  have hstart : ∀ c ∈ contextPath, ∀ ds, goesOn (c :: ds) = true := by
    intro c hc ds
    simp only [contextPath, List.mem_cons, List.not_mem_nil, or_false] at hc
    rcases hc with rfl | rfl | rfl | rfl | rfl | rfl | rfl <;> rfl
  -- the part of it that is left is followed by the code
  suffices hs : ∀ w : List Char, (∀ c ∈ w, c ∈ contextPath) → uninterrupted .code (w ++ cs) = true
    from hs contextPath fun _ hc => hc
  intro w
  induction w with
  | nil => exact fun _ => h
  | cons c w ih =>
    intro hw
    have hnext : Quoting.code.next c = .code := by
      have hb : ∀ c ∈ contextPath, Quoting.code.next c = .code :=
        forall_mem_of_all (by decide)
      exact hb c (hw c List.mem_cons_self)
    rw [List.cons_append, uninterrupted_cons, hnext]
    exact ⟨fun _ => hstart c (hw c List.mem_cons_self) _,
      ih fun d hd => hw d (List.mem_cons_of_mem c hd)⟩

/-- Binding adds no comment. -/
theorem uninterrupted_bindFrom (h : uninterrupted mode cs = true) (before : List Char) :
    uninterrupted mode (bindFrom mode before cs) = true := by
  induction cs generalizing mode before with
  | nil => rfl
  | cons c cs ih =>
    rw [uninterrupted_cons] at h
    have ih := ih h.2 (c :: before)
    rw [bindFrom_cons]
    split
    next hb =>
      obtain ⟨rfl, rfl, -⟩ := hb
      have hgo : goesOn ('$' :: (contextPath ++ bindFrom .code ('$' :: before) cs)) = true := rfl
      exact uninterrupted_cons.mpr ⟨fun _ => hgo, uninterrupted_contextPath ih⟩
    next =>
      rw [List.nil_append, uninterrupted_cons, goesOn_congr (head?_bindFrom _ _ cs)]
      exact ⟨h.1, ih⟩

/-- Code that is bound on its own stands where it would. -/
theorem foldl_next_bindVars (cs : List Char) :
    (bindVars cs).foldl Quoting.next .code = cs.foldl Quoting.next .code :=
  foldl_next_bindFrom .code [] cs

theorem uninterrupted_bindVars (h : uninterrupted .code cs = true) :
    uninterrupted .code (bindVars cs) = true :=
  uninterrupted_bindFrom h []

theorem mem_bindFrom {c : Char} (h : c ∈ bindFrom mode before cs) : c ∈ cs ∨ c ∈ contextPath := by
  induction cs generalizing mode before with
  | nil => cases h
  | cons d cs ih =>
    rw [bindFrom_cons, List.mem_cons, List.mem_append] at h
    rcases h with rfl | h | h
    · exact .inl List.mem_cons_self
    · split at h
      · exact .inr h
      · cases h
    · exact (ih h).imp_left (List.mem_cons_of_mem d)

/-- A character that is not put in comes from the code. -/
theorem notMem_bindVars {c : Char} (h : c ∉ cs) (hc : c ∉ contextPath) : c ∉ bindVars cs :=
  fun hmem => (mem_bindFrom hmem).elim h hc

theorem breakOn_eq_none_cons {p : List Char} {c : Char} :
    breakOn p (c :: cs) = none ↔ startsWith p (c :: cs) = false ∧ breakOn p cs = none := by
  rw [breakOn, startsWith]
  cases dropStart? p (c :: cs) with
  | some rest => simp
  | none => simp

theorem breakOn_eq_none_append {x : Char} {p w : List Char} (hw : x ∉ w)
    (h : breakOn (x :: p) cs = none) : breakOn (x :: p) (w ++ cs) = none := by
  induction w with
  | nil => exact h
  | cons c w ih =>
    have hc : x ≠ c := fun he => hw (he ▸ List.mem_cons_self)
    rw [List.cons_append, breakOn_eq_none_cons, startsWith_cons, decide_eq_false hc]
    exact ⟨Bool.false_and _, ih fun hx => hw (List.mem_cons_of_mem c hx)⟩

theorem startsWith_pair {x y c : Char} :
    startsWith [x, y] (c :: cs) = decide (x = c ∧ cs.head? = some y) := by
  rw [startsWith_cons, Bool.decide_and]
  congr 1
  cases cs with
  | nil => rfl
  | cons d cs =>
    by_cases h : y = d
    · simp [startsWith, dropStart?, h]
    · simp [startsWith, dropStart?, h, Ne.symm h]

/-- Binding adds no pair of characters that starts with none of those it puts in. -/
theorem breakOn_bindFrom {x y : Char} (hx : x ∉ '$' :: contextPath)
    (h : breakOn [x, y] cs = none) : breakOn [x, y] (bindFrom mode before cs) = none := by
  induction cs generalizing mode before with
  | nil => exact h
  | cons c cs ih =>
    rw [breakOn_eq_none_cons] at h
    rw [bindFrom_cons]
    split
    next hb =>
      -- the pair starts neither with the dollar sign nor in what is put in
      rw [hb.2.1, ← List.cons_append]
      exact breakOn_eq_none_append hx (ih h.2)
    next =>
      rw [List.nil_append, breakOn_eq_none_cons, startsWith_pair, head?_bindFrom, ← startsWith_pair]
      exact ⟨h.1, ih h.2⟩

/-- Binding adds none of the characters that it does not put in. -/
theorem count_bindFrom {x : Char} (hx : x ∉ contextPath) :
    (bindFrom mode before cs).count x = cs.count x := by
  induction cs generalizing mode before with
  | nil => rfl
  | cons c cs ih =>
    rw [bindFrom_cons, List.count_cons, List.count_append, ih, List.count_cons]
    split
    · rw [List.count_eq_zero_of_not_mem hx, Nat.zero_add]
    · rw [List.count_nil, Nat.zero_add]

/-- Binding keeps the last character. -/
theorem getLast?_bindFrom (mode : Quoting) (before cs : List Char) :
    (bindFrom mode before cs).getLast? = cs.getLast? := by
  induction cs generalizing mode before with
  | nil => rfl
  | cons c cs ih =>
    rw [bindFrom_cons, List.getLast?_cons, List.getLast?_append, ih, List.getLast?_cons]
    -- behind the last character nothing is put in: no name starts there
    cases cs with
    | nil => simp [startsBound]
    | cons d cs => simp [List.getLast?_cons]

/-! ### Binding part by part -/

/-- The characters that no name goes on with. -/
def EndsNames (ys : List Char) : Prop := ∀ d, ys.head? = some d → isNamePart d = false

theorem startsBound_append (hy : EndsNames ys) : startsBound (xs ++ ys) = startsBound xs := by
  match xs with
  | [] =>
    match ys, hy with
    | [], _ => rfl
    | [d], hy =>
      have hd := hy d rfl
      rw [isNamePart, isAsciiAlnum] at hd
      simp_all [startsBound]
    | d :: e :: ys, hy =>
      have hd := hy d rfl
      rw [isNamePart, isAsciiAlnum] at hd
      simp_all [startsBound]
  | [c] =>
    cases ys with
    | nil => rfl
    | cons d ys =>
      have hd := hy d rfl
      rw [isNamePart] at hd
      simp_all [startsBound]
  | c :: d :: xs => rfl

/-- What comes first is bound as it is on its own. -/
theorem bindFrom_append (hy : EndsNames ys) :
    bindFrom mode before (xs ++ ys) = bindFrom mode before xs ++
      bindFrom (xs.foldl Quoting.next mode) (xs.reverse ++ before) ys := by
  induction xs generalizing mode before with
  | nil => rfl
  | cons c xs ih =>
    rw [List.cons_append, bindFrom_cons, bindFrom_cons, startsBound_append hy, ih]
    simp

/-- A text, given backwards, after which no name is qualified. -/
def Unqualified (before : List Char) : Prop := before.head? ≠ some '\\' ∧ before.head? ≠ some ':'

theorem endsQualified_cons (c : Char) (cs : List Char) :
    endsQualified (c :: cs) = decide (c = '\\' ∨ c = ':' ∧ cs.head? = some ':') := by
  unfold endsQualified
  split
  next heq => simp [(List.cons.inj heq).1]
  next heq =>
    obtain ⟨rfl, rfl⟩ := List.cons.inj heq
    rfl
  next h₁ h₂ =>
    have hc : c ≠ '\\' := fun he => h₁ cs (by rw [he])
    refine (decide_eq_false ?_).symm
    rintro (he | ⟨rfl, he⟩)
    · exact hc he
    · cases cs with
      | nil => cases he
      | cons d cs =>
        cases he
        exact h₂ cs rfl

theorem endsQualified_append (h : Unqualified before) :
    endsQualified (xs ++ before) = endsQualified xs := by
  cases xs with
  | nil =>
    cases before with
    | nil => rfl
    | cons c before =>
      have hc : c ≠ '\\' ∧ c ≠ ':' := by simpa [Unqualified] using h
      rw [List.nil_append, endsQualified_cons, decide_eq_false]
      · rfl
      · rintro (he | he)
        · exact hc.1 he
        · exact hc.2 he.1
  | cons c xs =>
    rw [List.cons_append, endsQualified_cons, endsQualified_cons]
    cases xs with
    | cons d xs => rfl
    | nil => simp [h.2]

/-- What comes last is bound as it is on its own. -/
theorem bindFrom_before (h : Unqualified before) :
    bindFrom mode (xs ++ before) cs = bindFrom mode xs cs := by
  induction cs generalizing mode xs with
  | nil => rfl
  | cons c cs ih =>
    have ih : bindFrom (mode.next c) (c :: (xs ++ before)) cs =
        bindFrom (mode.next c) (c :: xs) cs := @ih (mode.next c) (c :: xs)
    rw [bindFrom_cons, bindFrom_cons, endsQualified_append h, ih]

/-- A separator: characters without a dollar sign and quotes, which no name goes on with and after
which no name is qualified. -/
structure Separates (sep : List Char) : Prop where
  bare : ∀ c ∈ sep, isBare c = true ∧ c ≠ '$'
  endsNames : ∀ d, sep.head? = some d → isNamePart d = false
  unqualified : Unqualified sep.reverse
  ne_nil : sep ≠ []

/-- Bare text without a dollar sign stays. -/
theorem bindFrom_bare (h : ∀ c ∈ sep, isBare c = true ∧ c ≠ '$') :
    bindFrom .code before (sep ++ cs) = sep ++ bindFrom .code (sep.reverse ++ before) cs := by
  induction sep generalizing before with
  | nil => rfl
  | cons c sep ih =>
    obtain ⟨hb, hc⟩ := h c List.mem_cons_self
    have hnext : Quoting.code.next c = .code :=
      foldl_next_of_bare (a := [c]) (by simpa using hb)
    rw [List.cons_append, bindFrom_cons, if_neg fun hi => hc hi.2.1, hnext,
      ih fun d hd => h d (List.mem_cons_of_mem c hd)]
    simp

theorem unqualified_append (h : Unqualified xs) (hx : xs ≠ []) : Unqualified (xs ++ before) := by
  cases xs with
  | nil => exact absurd rfl hx
  | cons c xs => exact h

/-- What follows a separator is bound as on its own. -/
theorem bindFrom_separator (h : Separates sep) :
    bindFrom .code before (sep ++ cs) = sep ++ bindVars cs := by
  have hu : Unqualified (sep.reverse ++ before) :=
    unqualified_append h.unqualified (by simpa using h.ne_nil)
  have hb : bindFrom .code ([] ++ (sep.reverse ++ before)) cs = bindVars cs :=
    bindFrom_before hu
  rw [bindFrom_bare h.bare, ← hb, List.nil_append]

/-- **Parts around a separator are bound apart**, when the first one ends outside of its
literals. -/
theorem bindVars_around (h : Separates sep) (hx : xs.foldl Quoting.next .code = .code) :
    bindVars (xs ++ (sep ++ ys)) = bindVars xs ++ (sep ++ bindVars ys) := by
  have hends : EndsNames (sep ++ ys) := by
    intro d hd
    obtain ⟨c, sep', rfl⟩ := List.exists_cons_of_ne_nil h.ne_nil
    exact h.endsNames d hd
  rw [bindVars, bindFrom_append hends, hx, bindFrom_separator h]
  rfl

end Stencil
