import Stencil.Markup.Directive.Expand

/-!
# Balance of control comments

The control comments that get code are read from left to right as a word of brackets.  Openers and
closers match, whatever the template: an opener that stays open is left out together with every
closer that has nothing to close.  A branch is kept when some block is open where it stands, even
if that block is left out in the end, so the word encloses a branch only when the innermost block
around it is closed later.

## Main definitions

* `Keyword.role`, `Directive.role?` — the bracket that a control comment stands for.
* `balancedFrom d w` — `w` closes `d` open blocks and every block that it opens itself.
* `closedLater k w` — `w` closes the block that `k` blocks have been opened in.
* `Emission` — a directive under the verdict on its nesting; `emissions`, `emittedWord`.

## Main results

* `compileDirectives_eq` — a compiled text, put together from its emissions.
* `emitted_word_balanced` — the word is balanced, what has no code is reported, and a branch is
  enclosed exactly when the innermost open block is closed later.
-/

namespace Stencil

open Text

/-! ### Words of brackets -/

/-- The bracket that a keyword stands for. -/
def Keyword.role : Keyword → Nesting
  | opener _ => .opens
  | closer => .closes
  | _ => .inside

/-- The bracket that a control comment stands for. -/
def Directive.role? : Directive → Option Nesting
  | control keyword _ => (Assoc.get? keywords keyword).map Keyword.role
  | _ => none

/-- `balancedFrom d w` says that the word closes `d` blocks that are open before it, and every
block that it opens, and nothing else. -/
def balancedFrom : Nat → List Nesting → Bool
  | d, [] => d == 0
  | d, .opens :: w => balancedFrom (d + 1) w
  | 0, .closes :: _ => false
  | d + 1, .closes :: w => balancedFrom d w
  | d, .inside :: w => balancedFrom d w

@[simp] theorem balancedFrom_nil (d : Nat) : balancedFrom d [] = (d == 0) := by
  simp [balancedFrom]

@[simp] theorem balancedFrom_opens (d : Nat) (w : List Nesting) :
    balancedFrom d (.opens :: w) = balancedFrom (d + 1) w := by
  simp [balancedFrom]

@[simp] theorem balancedFrom_closes (d : Nat) (w : List Nesting) :
    balancedFrom (d + 1) (.closes :: w) = balancedFrom d w := rfl

@[simp] theorem balancedFrom_inside (d : Nat) (w : List Nesting) :
    balancedFrom d (.inside :: w) = balancedFrom d w := by
  simp [balancedFrom]

/-- A word that is balanced in the end has closed no more on the way than is open. -/
theorem count_le_of_balancedFrom {d : Nat} {w w' : List Nesting}
    (h : balancedFrom d (w ++ w') = true) : w.count .closes ≤ d + w.count .opens := by
  induction w generalizing d with
  | nil => exact Nat.zero_le _
  | cons n w ih =>
    cases n with
    | opens =>
      rw [List.cons_append, balancedFrom_opens] at h
      have hw := ih h
      simp only [List.count_cons, beq_iff_eq, reduceCtorEq, if_false, if_true]
      omega
    | inside =>
      rw [List.cons_append, balancedFrom_inside] at h
      simpa [List.count_cons] using ih h
    | closes =>
      cases d with
      | zero => cases h
      | succ d =>
        have hw := ih h
        simp only [List.count_cons, beq_iff_eq, reduceCtorEq, if_false, if_true]
        omega

/-- A balanced word closes as much as it opens, and what is open before it. -/
theorem count_eq_of_balancedFrom {d : Nat} {w : List Nesting} (h : balancedFrom d w = true) :
    w.count .closes = d + w.count .opens := by
  induction w generalizing d with
  | nil =>
    rw [balancedFrom_nil, beq_iff_eq] at h
    rw [h]
    rfl
  | cons n w ih =>
    cases n with
    | opens =>
      rw [balancedFrom_opens] at h
      have hw := ih h
      simp only [List.count_cons, beq_iff_eq, reduceCtorEq, if_false, if_true]
      omega
    | inside =>
      rw [balancedFrom_inside] at h
      simpa [List.count_cons] using ih h
    | closes =>
      cases d with
      | zero => cases h
      | succ d =>
        have hw := ih h
        simp only [List.count_cons, beq_iff_eq, reduceCtorEq, if_false, if_true]
        omega

/-- `closedLater k w` says that comments which follow `k` blocks inside of an open block close that
block. -/
def closedLater : Nat → List (Option Nesting) → Bool
  | _, [] => false
  | k, some .opens :: w => closedLater (k + 1) w
  | 0, some .closes :: _ => true
  | k + 1, some .closes :: w => closedLater k w
  | k, _ :: w => closedLater k w

/-! ### The verdicts -/

/-- An opener is kept when the comments after it close one block more. -/
theorem imbalancesFrom_opens (d : Nat) (ns : List (Option Nesting)) :
    imbalancesFrom d (some .opens :: ns) =
      if (imbalancesFrom (d + 1) ns).2 = 0 then
        (some .neverClosed :: (imbalancesFrom (d + 1) ns).1, 0)
      else (none :: (imbalancesFrom (d + 1) ns).1, (imbalancesFrom (d + 1) ns).2 - 1) := by
  rw [imbalancesFrom]
  split <;> simp_all

/-- The blocks that comments close were open before them. -/
theorem imbalancesFrom_le (ns : List (Option Nesting)) (d : Nat) : (imbalancesFrom d ns).2 ≤ d := by
  induction ns generalizing d with
  | nil => simp [imbalancesFrom]
  | cons n ns ih =>
    rcases n with _ | n
    · exact ih d
    · cases n with
      | opens =>
        have h := ih (d + 1)
        rw [imbalancesFrom_opens]
        split <;> simp only [] <;> omega
      | closes =>
        cases d with
        | zero => exact ih 0
        | succ d => exact Nat.succ_le_succ (ih d)
      | inside => cases d <;> exact ih _

/-- The block that `k` blocks have been opened in is closed exactly when the comments after it
close more than `k` blocks. -/
theorem lt_imbalancesFrom_iff (ns : List (Option Nesting)) (d k : Nat) :
    k < (imbalancesFrom d ns).2 ↔ k < d ∧ closedLater k ns = true := by
  induction ns generalizing d k with
  | nil => simp [imbalancesFrom, closedLater]
  | cons n ns ih =>
    rcases n with _ | n
    · simpa [imbalancesFrom, closedLater] using ih d k
    · cases n with
      | opens =>
        -- an opener takes one of the blocks that are closed later
        have h := ih (d + 1) (k + 1)
        rw [imbalancesFrom_opens, closedLater, ← Nat.succ_lt_succ_iff (b := d), ← h]
        split <;> simp only [] <;> omega
      | closes =>
        cases d with
        | zero =>
          have h := imbalancesFrom_le ns 0
          simp only [imbalancesFrom]
          omega
        | succ d =>
          cases k with
          | zero => simp [imbalancesFrom, closedLater]
          | succ k => simpa [imbalancesFrom, closedLater] using ih d k
      | inside =>
        cases d with
        | zero => simpa [imbalancesFrom, closedLater] using ih 0 k
        | succ d => simpa [imbalancesFrom, closedLater] using ih (d + 1) k

/-- There is a verdict on every comment. -/
@[simp] theorem length_imbalancesFrom (ns : List (Option Nesting)) (d : Nat) :
    (imbalancesFrom d ns).1.length = ns.length := by
  induction ns generalizing d with
  | nil => simp [imbalancesFrom]
  | cons n ns ih =>
    rcases n with _ | n
    · simpa [imbalancesFrom] using ih d
    · cases n with
      | opens =>
        rw [imbalancesFrom_opens]
        split <;> simp [ih]
      | closes => cases d <;> simpa [imbalancesFrom] using ih _
      | inside => cases d <;> simpa [imbalancesFrom] using ih _

/-! ### Emissions -/

/-- A directive of a text with the verdict on its nesting. -/
structure Emission where
  /-- The directive and its place. -/
  found : Found Directive
  /-- Why it breaks the nesting, if it does. -/
  verdict : Option Imbalance

namespace Emission

variable (resolve : Path → Option Path)

/-- What the directive does to the blocks around it. -/
def nesting? (e : Emission) : Option Nesting := e.found.value.nesting?

/-- The code of the directive, or why it has none. -/
def code (e : Emission) : Except Fault (List Char) := e.found.value.codeUnder resolve e.verdict

/-- The bracket of a control comment that has code. -/
def bracket? (e : Emission) : Option Nesting :=
  match e.code resolve with
  | .ok _ => e.found.value.role?
  | .error _ => none

/-- The finding about a directive that has no code. -/
def finding? (e : Emission) : Option Finding :=
  match e.code resolve with
  | .ok _ => none
  | .error fault => some ⟨fault.defect, e.found.offset, e.found.source, some fault.help⟩

/-- A directive that breaks the nesting stands for nothing. -/
theorem bracket?_of_verdict (e : Emission) (i : Imbalance) (h : e.verdict = some i) :
    e.bracket? resolve = none := by
  rw [bracket?, code, h, Directive.codeUnder]

/-- A comment with code that is in order stands for what it does to the blocks around it; what does
nothing to them stands for nothing, and a branch may lack a part of its own. -/
theorem bracket?_of_verdict_none (e : Emission) (h : e.verdict = none) :
    e.bracket? resolve = e.nesting? ∨
      (e.nesting? = some .inside ∧ e.bracket? resolve = none) := by
  rw [bracket?, code, h, nesting?, Directive.codeUnder]
  cases hd : e.found.value with
  | control keyword args =>
    simp only [Directive.code, Directive.nesting?, Directive.role?, controlCode, controlNesting?]
    cases Assoc.get? keywords keyword with
    | none => simp
    | some k =>
      cases k with
      | opener block =>
        by_cases ha : hasArgument args = true <;>
          simp [Keyword.code, Keyword.nesting?, Keyword.role, ha]
      | closer => simp [Keyword.code, Keyword.nesting?, Keyword.role]
      | otherwiseIf =>
        by_cases ha : hasArgument args = true <;>
          simp [Keyword.code, Keyword.nesting?, Keyword.role, ha]
      | label breaks isDefault =>
        simp only [Keyword.code, Keyword.nesting?, Option.bind_some]
        split <;> simp [Keyword.role]
      | otherwise => simp [Keyword.code, Keyword.nesting?, Keyword.role]
      | breakOut => simp [Keyword.code, Keyword.nesting?, Keyword.role]
  | _ => simp [Directive.role?, Directive.nesting?]; split <;> rfl

end Emission

/-- The verdicts on the directives of a text. -/
def verdicts (cs : List Char) : List (Option Imbalance) :=
  imbalances ((scanDirectives cs).map fun found => found.value.nesting?)

@[simp] theorem length_verdicts (cs : List Char) :
    (verdicts cs).length = (scanDirectives cs).length := by
  rw [verdicts, imbalances, length_imbalancesFrom, List.length_map]

/-- The directives of a text with the verdicts on their nesting. -/
def emissions (cs : List Char) : List Emission :=
  ((scanDirectives cs).zip (verdicts cs)).map fun p => ⟨p.1, p.2⟩

theorem map_found_emissions (cs : List Char) :
    (emissions cs).map Emission.found = scanDirectives cs := by
  rw [emissions, List.map_map]
  exact List.map_fst_zip (Nat.le_of_eq (length_verdicts cs).symm)

theorem map_verdict_emissions (cs : List Char) :
    (emissions cs).map Emission.verdict = verdicts cs := by
  rw [emissions, List.map_map]
  exact List.map_snd_zip (Nat.le_of_eq (length_verdicts cs))

/-- The brackets of the control comments that have code, in order. -/
def emittedWord (resolve : Path → Option Path) (es : List Emission) : List Nesting :=
  es.filterMap (Emission.bracket? resolve)

/-! ### The word of a text -/

/-- The verdicts on the emissions are those on comments that follow `d` open blocks. -/
def Judged (d : Nat) (es : List Emission) : Prop :=
  es.map Emission.verdict = (imbalancesFrom d (es.map Emission.nesting?)).1

/-- The number of blocks that emissions close of those that are open before them. -/
def closedBy (d : Nat) (es : List Emission) : Nat :=
  (imbalancesFrom d (es.map Emission.nesting?)).2

theorem judged_emissions (cs : List Char) : Judged 0 (emissions cs) := by
  have hn : (emissions cs).map Emission.nesting? =
      (scanDirectives cs).map fun found => found.value.nesting? := by
    rw [← map_found_emissions, List.map_map]
    rfl
  rw [Judged, map_verdict_emissions, hn]
  rfl

variable (resolve : Path → Option Path)

/-- One emission changes the number of blocks that are closed later as its bracket says, and a
branch that is kept has an open block around it. -/
theorem Judged.cons {d : Nat} {e : Emission} {es : List Emission} (h : Judged d (e :: es)) :
    ∃ d', Judged d' es ∧
      ((e.bracket? resolve = none ∧ closedBy d (e :: es) = closedBy d' es) ∨
      (e.bracket? resolve = some .inside ∧ closedBy d (e :: es) = closedBy d' es ∧ 0 < d') ∨
      (e.bracket? resolve = some .opens ∧ closedBy d (e :: es) + 1 = closedBy d' es) ∨
      (e.bracket? resolve = some .closes ∧ closedBy d (e :: es) = closedBy d' es + 1)) := by
  have hb := e.bracket?_of_verdict_none resolve
  have hv := e.bracket?_of_verdict resolve
  -- the verdict says how the count of closed blocks changes, the bracket follows the verdict
  simp only [Judged, closedBy, List.map_cons] at h ⊢
  cases hn : e.nesting? with
  | none =>
    simp only [hn, imbalancesFrom, List.cons.injEq] at h hb ⊢
    exact ⟨d, h.2, .inl ⟨by simpa using hb h.1, rfl⟩⟩
  | some n =>
    cases n with
    | opens =>
      rw [hn] at h hb
      rw [imbalancesFrom_opens] at h ⊢
      refine ⟨d + 1, ?_⟩
      split at h
      next hc =>
        rw [List.cons.injEq] at h
        exact ⟨h.2, .inl ⟨hv _ h.1, by rw [if_pos hc, hc]⟩⟩
      next hc =>
        rw [List.cons.injEq] at h
        refine ⟨h.2, .inr (.inr (.inl ⟨by simpa using hb h.1, ?_⟩))⟩
        rw [if_neg hc]
        exact Nat.sub_add_cancel (Nat.pos_of_ne_zero hc)
    | closes =>
      rw [hn] at h hb
      cases d with
      | zero =>
        simp only [imbalancesFrom, List.cons.injEq] at h ⊢
        exact ⟨0, h.2, .inl ⟨hv _ h.1, rfl⟩⟩
      | succ d =>
        simp only [imbalancesFrom, List.cons.injEq] at h ⊢
        exact ⟨d, h.2, .inr (.inr (.inr ⟨by simpa using hb h.1, rfl⟩))⟩
    | inside =>
      rw [hn] at h hb
      cases d with
      | zero =>
        simp only [imbalancesFrom, List.cons.injEq] at h ⊢
        exact ⟨0, h.2, .inl ⟨hv _ h.1, rfl⟩⟩
      | succ d =>
        simp only [imbalancesFrom, List.cons.injEq] at h ⊢
        refine ⟨d + 1, h.2, ?_⟩
        rcases hb h.1 with hb | ⟨-, hb⟩
        · exact .inr (.inl ⟨hb, rfl, Nat.succ_pos d⟩)
        · exact .inl ⟨hb, rfl⟩

/-- The brackets that are kept close the blocks that they open and those that are closed later. -/
theorem Judged.balancedFrom {d : Nat} {es : List Emission} (h : Judged d es) :
    balancedFrom (closedBy d es) (emittedWord resolve es) = true := by
  induction es generalizing d with
  | nil => simp [closedBy, emittedWord, imbalancesFrom]
  | cons e es ih =>
    obtain ⟨d', hj, hc | hc | hc | hc⟩ := h.cons resolve
    all_goals
      have ih := ih hj
      rw [emittedWord, List.filterMap_cons, hc.1]
    · rwa [hc.2]
    · rwa [hc.2.1, balancedFrom_inside]
    · rwa [balancedFrom_opens, hc.2]
    · rwa [hc.2, balancedFrom_closes]

/-- Before any point, as many more blocks are opened than closed as are closed after it. -/
theorem Judged.append {d : Nat} {pre post : List Emission} (h : Judged d (pre ++ post)) :
    ∃ d', Judged d' post ∧
      closedBy d (pre ++ post) + (emittedWord resolve pre).count .opens =
        (emittedWord resolve pre).count .closes + closedBy d' post := by
  induction pre generalizing d with
  | nil => exact ⟨d, h, by simp [emittedWord]⟩
  | cons e pre ih =>
    rw [List.cons_append] at h ⊢
    obtain ⟨d₁, hj, hc⟩ := h.cons resolve
    obtain ⟨d', hpost, hcount⟩ := ih hj
    refine ⟨d', hpost, ?_⟩
    rcases hc with hc | hc | hc | hc <;> rw [emittedWord, List.filterMap_cons, hc.1] <;>
      simp only [List.count_cons_self, List.count_cons_of_ne, ne_eq, reduceCtorEq,
        not_false_eq_true] <;>
      rw [emittedWord] at hcount <;> omega

/-! ### The compiled text -/

/-- The pieces of a text with the directives replaced by texts. -/
def weave : List (Piece Construct) → List (List Char) → List Char
  | [], _ => []
  | .plain c :: rest, texts => c :: weave rest texts
  | .found .island source :: rest, texts => source ++ weave rest texts
  | .found (.directive _) _ :: rest, texts => texts.headD [] ++ weave rest texts.tail

/-- The code of a directive, nothing when it has none. -/
def Emission.text (e : Emission) : List Char :=
  match e.code resolve with
  | .ok code => code
  | .error _ => []

/-- A construct with its place, if it is a directive. -/
def directiveFound? (found : Found Construct) : Option (Found Directive) :=
  found.value.directive?.map fun d =>
    { offset := found.offset, value := d, source := found.source }

theorem expandPieces_eq (offset : Nat) (pieces : List (Piece Construct))
    (vs : List (Option Imbalance))
    (hvs : vs.length = ((foundFrom offset pieces).filterMap directiveFound?).length) :
    expandPieces resolve offset pieces vs =
      let es := (((foundFrom offset pieces).filterMap directiveFound?).zip vs).map
        fun p => Emission.mk p.1 p.2
      (weave pieces (es.map (Emission.text resolve)),
        es.filterMap (Emission.finding? resolve)) := by
  induction pieces generalizing offset vs with
  | nil => simp [expandPieces, weave, foundFrom]
  | cons piece rest ih =>
    cases piece with
    | plain c =>
      rw [expandPieces, ih _ vs hvs]
      rfl
    | found value source =>
      cases value with
      | island =>
        rw [expandPieces, ih _ vs hvs]
        rfl
      | directive d =>
        cases vs with
        | nil => simp [foundFrom, directiveFound?, Construct.directive?] at hvs
        | cons v vs =>
          -- one verdict belongs to each directive
          have hrest : vs.length =
              ((foundFrom (offset + byteSize source) rest).filterMap directiveFound?).length := by
            simpa [foundFrom, directiveFound?, Construct.directive?] using hvs
          rw [expandPieces, List.tail_cons, ih _ vs hrest]
          simp only [foundFrom, List.filterMap_cons, directiveFound?, Construct.directive?,
            Option.map_some, List.zip_cons_cons, List.map_cons, List.head?_cons, Option.getD_some,
            Emission.finding?, Emission.text, Emission.code, weave, List.headD_cons, List.tail_cons]
          cases d.codeUnder resolve v <;> rfl

/-- The directives with their places do to the blocks around them what the directives do. -/
theorem map_nesting?_foundFrom (pieces : List (Piece Construct)) (offset : Nat) :
    ((foundFrom offset pieces).filterMap directiveFound?).map (fun found => found.value.nesting?) =
      ((pieces.filterMap Piece.value?).filterMap Construct.directive?).map Directive.nesting? := by
  induction pieces generalizing offset with
  | nil => rfl
  | cons piece rest ih =>
    cases piece with
    | plain c => exact ih _
    | found value source =>
      cases value with
      | island => exact ih _
      | directive d => exact congrArg (d.nesting? :: ·) (ih _)

/-- A compiled text is its source with every directive replaced by its code, and a directive
without code is reported where it stands. -/
theorem compileDirectives_eq (cs : List Char) :
    compileDirectives resolve cs =
      (weave (cut constructAt cs) ((emissions cs).map (Emission.text resolve)),
        (emissions cs).filterMap (Emission.finding? resolve)) := by
  rw [compileDirectives, ← map_nesting?_foundFrom (cut constructAt cs) 0]
  exact expandPieces_eq resolve 0 (cut constructAt cs) (verdicts cs) (length_verdicts cs)

/-! ### Balance -/

/-- Whether the directive is a control comment. -/
def Directive.isControl : Directive → Bool
  | control _ _ => true
  | _ => false

/-- A control comment with code stands for a bracket. -/
theorem Emission.isSome_bracket? {e : Emission} {code : List Char}
    (he : e.found.value.isControl = true) (hcode : e.code resolve = .ok code) :
    (e.bracket? resolve).isSome = true := by
  rw [bracket?, hcode]
  cases hd : e.found.value with
  | control keyword args =>
    rw [Emission.code, hd] at hcode
    cases hv : e.verdict with
    | some i => rw [hv] at hcode; cases hcode
    | none =>
      rw [hv, Directive.codeUnder, Directive.code, controlCode] at hcode
      cases hk : Assoc.get? keywords keyword with
      | none => rw [hk] at hcode; cases hcode
      | some k => simp [Directive.role?, hk]
  | _ => rw [hd] at he; cases he

/-- **The control comments with code form a balanced word.**  A compiled text is woven from its
emissions, every control comment with code is a letter of the word, and every other one is
reported at its own offset.  The word closes exactly the blocks that it opens.  A branch with code
is enclosed by a block of the word, one that is opened before it and closed after it, exactly when
the innermost block open at the branch is closed later. -/
theorem emitted_word_balanced (cs : List Char) :
    compileDirectives resolve cs =
        (weave (cut constructAt cs) ((emissions cs).map (Emission.text resolve)),
          (emissions cs).filterMap (Emission.finding? resolve)) ∧
      (emissions cs).map Emission.found = scanDirectives cs ∧
      (∀ e ∈ emissions cs, e.found.value.isControl = true →
        (∃ code n, e.code resolve = .ok code ∧ e.bracket? resolve = some n) ∨
          ∃ f ∈ (compileDirectives resolve cs).2,
            f.offset = e.found.offset ∧ f.text = e.found.source) ∧
      balancedFrom 0 (emittedWord resolve (emissions cs)) = true ∧
      ∀ pre e post, emissions cs = pre ++ e :: post → e.bracket? resolve = some .inside →
        ((emittedWord resolve pre).count .closes < (emittedWord resolve pre).count .opens ↔
          closedLater 0 (post.map Emission.nesting?) = true) := by
  have heq := compileDirectives_eq resolve cs
  have hj := judged_emissions cs
  refine ⟨heq, map_found_emissions cs, ?_, ?_, ?_⟩
  · intro e he hcontrol
    cases hcode : e.code resolve with
    | ok code =>
      have hsome := Emission.isSome_bracket? resolve hcontrol hcode
      obtain ⟨n, hn⟩ := Option.isSome_iff_exists.mp hsome
      exact .inl ⟨code, n, rfl, hn⟩
    | error fault =>
      refine .inr ⟨⟨fault.defect, e.found.offset, e.found.source, some fault.help⟩, ?_, rfl, rfl⟩
      rw [heq]
      refine List.mem_filterMap.mpr ⟨e, he, ?_⟩
      rw [Emission.finding?, hcode]
  · have h := hj.balancedFrom resolve
    rwa [closedBy, Nat.le_zero.mp (imbalancesFrom_le _ 0)] at h
  · intro pre e post hes hb
    rw [hes] at hj
    -- before the first comment nothing is open, so nothing is closed later
    have hzero : closedBy 0 (pre ++ e :: post) = 0 := Nat.le_zero.mp (imbalancesFrom_le _ 0)
    obtain ⟨d, hd, hcount⟩ := hj.append resolve
    obtain ⟨d', hd', hc⟩ := hd.cons resolve
    simp only [hb, reduceCtorEq, false_and, Option.some.injEq, false_or, or_false, true_and] at hc
    have hlater := lt_imbalancesFrom_iff (post.map Emission.nesting?) d' 0
    rw [← closedBy, ← hc.1] at hlater
    rw [hzero, Nat.zero_add] at hcount
    rw [hcount]
    constructor
    · intro h
      exact (hlater.mp (by omega)).2
    · intro h
      have := hlater.mpr ⟨hc.2, h⟩
      omega

/-- A branch in a block that is never closed keeps its code and is enclosed by nothing. -/
theorem branch_of_unclosed_block_not_enclosed :
    (compileDirectives (fun _ => none) "<!--@if($a)-->x<!--@else-->y".toList).1 =
        "x<?tpl \x7delse\x7b ?>y".toList ∧
      emittedWord (fun _ => none) (emissions "<!--@if($a)-->x<!--@else-->y".toList) =
        [.inside] := by
  decide +kernel

end Stencil
