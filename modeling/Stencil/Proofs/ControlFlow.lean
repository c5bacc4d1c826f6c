import Stencil.Markup.Directive.Expand
import Stencil.Proofs.Cutting
import Stencil.Proofs.Heads
import Stencil.Proofs.Islands

/-!
# Control flow in comments

A tree of blocks is printed with control comments around its parts.  Each comment is compiled on its
own, into an island with one side of a brace, and only all of them together are statements again:
those of the tree.

## Main definitions

* `Blocks`, `Branches` — the trees; a loop is left only inside of one.
* `Blocks.marks` — the texts and comments of a tree in order, and `Blocks.source`, its text.
* `Blocks.stmts` — the statements of a tree.
* `Settled d ns` — comments that close what they open, after `d` open blocks.

## Main results

* `compileDirectives_marks` — texts and comments are compiled one by one.
* `Blocks.settled` — the comments of a tree break no nesting.
* `Blocks.yields` — the code of a tree gives its statements.
* `parseProgram_of_blocks` — a printed tree is compiled without findings, into its statements.
-/

namespace Stencil

open Text Lexer Stencil.Parser

/-! ### Trees of blocks -/

/-- Text in which no directive starts. -/
structure PlainText where
  /-- The characters. -/
  chars : List Char
  noTag : '<' ∉ chars
  noBrace : '\x7b' ∉ chars

/-- The text may stand in a comment: it is one line and does not end the comment. -/
def FitsComment (cs : List Char) : Prop := '\n' ∉ cs ∧ breakOn "-->".toList cs = none

/-- A keyword that closes a block. -/
structure Closer where
  /-- The keyword. -/
  word : List Char
  closes : Assoc.get? keywords word = some .closer

mutual

/-- Texts and blocks side by side.  The index tells whether they stand in a loop. -/
inductive Blocks : Bool → Type where
  /-- Nothing more. -/
  | done {inLoop : Bool} : Blocks inLoop
  /-- Text. -/
  | text {inLoop : Bool} (text : PlainText) (rest : Blocks inLoop) : Blocks inLoop
  /-- A block under a condition, with its other branches. -/
  | ifBlock {inLoop : Bool} (cond : Condition FitsComment) (body : Blocks inLoop)
      (more : Branches inLoop) (closer : Closer) (rest : Blocks inLoop) : Blocks inLoop
  /-- A loop under a condition. -/
  | whileBlock {inLoop : Bool} (cond : Condition FitsComment) (body : Blocks true) (closer : Closer)
      (rest : Blocks inLoop) : Blocks inLoop
  /-- A counting loop. -/
  | forBlock {inLoop : Bool} (init cond step : LoopPart FitsComment) (body : Blocks true)
      (closer : Closer) (rest : Blocks inLoop) : Blocks inLoop
  /-- Leaves the loop. -/
  | breakOut (rest : Blocks true) : Blocks true

/-- The branches of an `if` after its first one. -/
inductive Branches : Bool → Type where
  /-- No other branch. -/
  | done {inLoop : Bool} : Branches inLoop
  /-- A branch under another condition. -/
  | elseIf {inLoop : Bool} (cond : Condition FitsComment) (body : Blocks inLoop)
      (more : Branches inLoop) : Branches inLoop
  /-- The last branch. -/
  | otherwise {inLoop : Bool} (body : Blocks inLoop) : Branches inLoop

end

/-! ### Printing -/

/-- A text or a control comment. -/
inductive Mark where
  /-- Text. -/
  | text (text : PlainText) : Mark
  /-- A comment with its keyword and the text after it. -/
  | comment (keyword args : List Char) : Mark

/-- The argument of a counting loop. -/
def loopArgument (init cond step : LoopPart FitsComment) : List Char :=
  argument (init.code ++ (';' :: (cond.code ++ (';' :: step.code))))

mutual

/-- The texts and comments of a tree. -/
def Blocks.marks : {inLoop : Bool} → Blocks inLoop → List Mark
  | _, .done => []
  | _, .text text rest => .text text :: rest.marks
  | _, .ifBlock cond body more closer rest =>
    .comment "if".toList (argument cond.code) ::
      (body.marks ++ (more.marks ++ (.comment closer.word [] :: rest.marks)))
  | _, .whileBlock cond body closer rest =>
    .comment "while".toList (argument cond.code) ::
      (body.marks ++ (.comment closer.word [] :: rest.marks))
  | _, .forBlock init cond step body closer rest =>
    .comment "for".toList (loopArgument init cond step) ::
      (body.marks ++ (.comment closer.word [] :: rest.marks))
  | _, .breakOut rest => .comment "break".toList [] :: rest.marks

/-- The texts and comments of branches. -/
def Branches.marks : {inLoop : Bool} → Branches inLoop → List Mark
  | _, .done => []
  | _, .elseIf cond body more =>
    .comment "elseif".toList (argument cond.code) :: (body.marks ++ more.marks)
  | _, .otherwise body => .comment "else".toList [] :: body.marks

end

/-- The source of a text or comment. -/
def Mark.source : Mark → List Char
  | text t => t.chars
  | comment keyword args => "<!--@".toList ++ (keyword ++ (args ++ "-->".toList))

/-- The source of a tree. -/
def Blocks.source {inLoop : Bool} (t : Blocks inLoop) : List Char := t.marks.flatMap Mark.source

/-! ### Meaning -/

mutual

/-- The statements of a tree. -/
def Blocks.stmts : {inLoop : Bool} → Blocks inLoop → List Stmt
  | _, .done => []
  | _, .text text rest => joinText text.chars rest.stmts
  | _, .ifBlock cond body more _ rest =>
    .cond (.mk cond.expr body.stmts :: more.conditional) more.last :: rest.stmts
  | _, .whileBlock cond body _ rest => .whileLoop cond.expr body.stmts :: rest.stmts
  | _, .forBlock init cond step body _ rest =>
    .forLoop init.exprs cond.exprs.getLast? step.exprs body.stmts :: rest.stmts
  | _, .breakOut rest => .breakOut :: rest.stmts

/-- The branches under a condition. -/
def Branches.conditional : {inLoop : Bool} → Branches inLoop → List Branch
  | _, .done => []
  | _, .elseIf cond body more => .mk cond.expr body.stmts :: more.conditional
  | _, .otherwise _ => []

/-- The statements of the last branch, if it is without a condition. -/
def Branches.last : {inLoop : Bool} → Branches inLoop → Option (List Stmt)
  | _, .done => none
  | _, .elseIf _ _ more => more.last
  | _, .otherwise body => some body.stmts

end

/-! ### Finding the comments -/

variable {p a rest : List Char}

theorem isApart_commentEnd : ∀ x ∈ "-->".toList, isApart x = false :=
  forall_mem_of_all (by decide)

/-- The end of a comment is found behind an argument. -/
theorem breakOn_argument {code : List Char} (h : FitsComment code) (rest : List Char) :
    breakOn "-->".toList (argument code ++ ("-->".toList ++ rest)) =
      some (argument code, rest) := by
  have hclose : breakOn "-->".toList (')' :: ("-->".toList ++ rest)) = some ([')'], rest) := rfl
  have hbody : breakOn "-->".toList (code ++ (')' :: ("-->".toList ++ rest))) = _ :=
    breakOn_append_of_apart isApart_commentEnd (apart_cons (by decide)) h.2
  rw [hclose] at hbody
  have hopen (cs : List Char) : breakOn "-->".toList ('(' :: cs) =
      (breakOn "-->".toList cs).map fun x => ('(' :: x.1, x.2) := rfl
  have hargs : argument code ++ ("-->".toList ++ rest) =
      '(' :: (code ++ (')' :: ("-->".toList ++ rest))) := by
    simp [argument]
  rw [hargs, hopen, hbody]
  rfl

/-- The text after a keyword: nothing, or an argument that fits into a comment. -/
def IsArgument (args : List Char) : Prop :=
  args = [] ∨ ∃ code, args = argument code ∧ FitsComment code

theorem IsArgument.breakOn {args : List Char} (h : IsArgument args) (rest : List Char) :
    Text.breakOn "-->".toList (args ++ ("-->".toList ++ rest)) = some (args, rest) := by
  obtain rfl | ⟨code, rfl, hc⟩ := h
  · rfl
  · exact breakOn_argument hc rest

theorem IsArgument.notMem {args : List Char} (h : IsArgument args) : '\n' ∉ args := by
  obtain rfl | ⟨code, rfl, hc⟩ := h
  · simp
  · simpa [argument] using hc.1

/-- No keyword goes on with an argument or with the end of the comment. -/
theorem IsArgument.head {args : List Char} (h : IsArgument args) (rest : List Char) :
    ∀ c, (args ++ ("-->".toList ++ rest)).head? = some c → isKeywordChar c = false := by
  obtain rfl | ⟨code, rfl, -⟩ := h
  · rintro _ ⟨⟩
    decide
  · rintro _ ⟨⟩
    decide

theorem mem_of_get? {κ α : Type} [DecidableEq κ] {m : Assoc κ α} {k : κ} {v : α}
    (h : Assoc.get? m k = some v) : (k, v) ∈ m := by
  induction m with
  | nil => cases h
  | cons e m ih =>
    obtain ⟨k', v'⟩ := e
    rw [Assoc.get?] at h
    split at h
    next hk =>
      cases h
      rw [hk]
      exact List.mem_cons_self
    next => exact List.mem_cons_of_mem _ (ih h)

theorem isKeywordChar_keywords :
    ∀ x ∈ keywords, x.1 ≠ [] ∧ ∀ c ∈ x.1, isKeywordChar c = true := by
  have h : ∀ x ∈ keywords, x.1 ≠ [] ∧ x.1.all isKeywordChar = true :=
    forall_mem_of_all (by decide)
  exact fun x hx => ⟨(h x hx).1, List.all_eq_true.mp (h x hx).2⟩

/-- **A control comment is found as it was printed.** -/
theorem constructAt_comment {keyword args : List Char} {k : Keyword}
    (hk : Assoc.get? keywords keyword = some k) (hargs : IsArgument args) (rest : List Char) :
    constructAt ((Mark.comment keyword args).source ++ rest) =
      some (.directive (.control keyword args), (Mark.comment keyword args).source.length) := by
  obtain ⟨hne, hchars⟩ := isKeywordChar_keywords _ (mem_of_get? hk)
  have hsource : (Mark.comment keyword args).source ++ rest =
      "<!--@".toList ++ (keyword ++ (args ++ ("-->".toList ++ rest))) := by
    simp [Mark.source]
  obtain ⟨htake, hdrop⟩ := takeWhile_append_head hchars (hargs.head rest)
  -- the comment ends on its first line, where its end is looked for
  have hline : firstLine (args ++ ("-->".toList ++ rest)) =
      args ++ ("-->".toList ++ firstLine rest) := by
    have hline : ∀ c ∈ args ++ "-->".toList, decide (c ≠ '\n') = true := by
      intro c hc
      rw [decide_eq_true_iff]
      rintro rfl
      rcases List.mem_append.mp hc with hc | hc
      · exact hargs.notMem hc
      · exact absurd hc (by decide)
    rw [firstLine, ← List.append_assoc, List.takeWhile_append_of_pos hline, List.append_assoc]
    rfl
  have hcontrol : controlAt (keyword ++ (args ++ ("-->".toList ++ rest))) =
      some (.control keyword args, keyword.length + args.length + 3) := by
    simp only [controlAt, htake, hdrop, hline, hargs.breakOn]
    rw [List.isEmpty_eq_false_iff.mpr hne]
    rfl
  -- every other construct starts differently
  have hisland (w : List Char) : islandAt ("<!--@".toList ++ w) = none := rfl
  have hbrace (w : List Char) : afterPhrase ['\x7b'] bracedAt ("<!--@".toList ++ w) = none := rfl
  have htag (w : List Char) : afterPhrase ['<'] resourceTagAt ("<!--@".toList ++ w) = none := rfl
  have hhash (w : List Char) :
      afterPhrase "<!--#".toList resourceCommentAt ("<!--@".toList ++ w) = none := rfl
  have hpercent (w : List Char) :
      afterPhrase "<!--%".toList resourceCommentAt ("<!--@".toList ++ w) = none := rfl
  rw [hsource, constructAt, hisland]
  simp only [directiveAt, hbrace, htag, hhash, hpercent, Option.none_or]
  rw [afterPhrase, dropStart?_append, Option.bind_some, hcontrol]
  have hlength : "<!--@".toList.length + (keyword.length + args.length + 3) =
      (Mark.comment keyword args).source.length := by
    simp [Mark.source]
    omega
  simp only [Option.map_some, hlength]

/-- No directive starts in plain text. -/
theorem constructAt_plain {c : Char} (h : c ≠ '<') (h' : c ≠ '\x7b') (cs : List Char) :
    constructAt (c :: cs) = none := by
  have hdrop {x : Char} (hx : x ≠ c) (q : List Char) : dropStart? (x :: q) (c :: cs) = none := by
    rw [dropStart?, if_neg hx]
  have htag (q : List Char) : dropStart? ('<' :: q) (c :: cs) = none := hdrop h.symm q
  -- islands, tags and comments start with the one character, directives with the other
  have hphrase {α : Type} (x : Char) (hx : x ≠ c) (q : List Char) (m : Matcher α) :
      afterPhrase (x :: q) m (c :: cs) = none := by
    rw [afterPhrase, hdrop hx]
    rfl
  have hisland : islandAt (c :: cs) = none := by
    rw [islandAt, openTag, htag]
    rfl
  have hdirective : directiveAt (c :: cs) = none := by
    have h₁ := hphrase '\x7b' h'.symm [] bracedAt
    have h₂ := hphrase '<' h.symm [] resourceTagAt
    have h₃ : afterPhrase "<!--#".toList resourceCommentAt (c :: cs) = none :=
      hphrase '<' h.symm "!--#".toList resourceCommentAt
    have h₄ : afterPhrase "<!--%".toList resourceCommentAt (c :: cs) = none :=
      hphrase '<' h.symm "!--%".toList resourceCommentAt
    have h₅ : afterPhrase "<!--@".toList controlAt (c :: cs) = none :=
      hphrase '<' h.symm "!--@".toList controlAt
    rw [directiveAt, h₁, h₂, h₃, h₄, h₅]
    rfl
  rw [constructAt, hisland, hdirective]
  rfl

/-! ### Compiling text by text and comment by comment -/

namespace Mark

/-- What a text or comment is cut into. -/
def pieces : Mark → List (Piece Construct)
  | text t => t.chars.map .plain
  | comment keyword args =>
    [.found (.directive (.control keyword args)) (comment keyword args).source]

/-- What a comment does to the blocks around it; a text is no comment. -/
def nesting? : Mark → Option (Option Nesting)
  | text _ => none
  | comment keyword args => some (controlNesting? keyword args)

/-- What a text or comment is compiled to. -/
def code : Mark → List Char
  | text t => t.chars
  | comment keyword args =>
    match controlCode keyword args with
    | .ok code => code
    | .error _ => []

/-- A comment with a keyword, an argument that fits, and code. -/
def Sound : Mark → Prop
  | text _ => True
  | comment keyword args => IsArgument args ∧ (Assoc.get? keywords keyword).isSome ∧
    ∃ code, controlCode keyword args = .ok code

end Mark

/-- What the comments among texts do to the blocks around them. -/
def nestings (ms : List Mark) : List (Option Nesting) := ms.filterMap Mark.nesting?

theorem nestings_append (ms ms' : List Mark) : nestings (ms ++ ms') = nestings ms ++ nestings ms' :=
  List.filterMap_append

theorem nestings_text (text : PlainText) (ms : List Mark) :
    nestings (.text text :: ms) = nestings ms := rfl

theorem nestings_comment {keyword args : List Char} {n : Option Nesting} (ms : List Mark)
    (h : controlNesting? keyword args = n) :
    nestings (.comment keyword args :: ms) = n :: nestings ms := by
  rw [← h]
  rfl

/-- The text is cut into its texts and comments. -/
theorem cut_marks {ms : List Mark} (h : ∀ m ∈ ms, m.Sound) :
    cut constructAt (ms.flatMap Mark.source) = ms.flatMap Mark.pieces := by
  rw [cut]
  induction ms with
  | nil => rfl
  | cons m ms ih =>
    have ih := ih fun x hx => h x (List.mem_cons_of_mem m hx)
    rw [List.flatMap_cons, List.flatMap_cons, ← ih]
    cases m with
    | text t =>
      refine cutFrom_plain fun c hc ds => constructAt_plain ?_ ?_ ds
      · rintro rfl
        exact t.noTag hc
      · rintro rfl
        exact t.noBrace hc
    | comment keyword args =>
      obtain ⟨hargs, hk, -⟩ := h _ List.mem_cons_self
      obtain ⟨k, hk⟩ := Option.isSome_iff_exists.mp hk
      exact cutFrom_found (by simp [Mark.source]) (constructAt_comment hk hargs _)

theorem nestings_marks (ms : List Mark) :
    ((((ms.flatMap Mark.pieces).filterMap Piece.value?).filterMap Construct.directive?).map
      Directive.nesting?) = nestings ms := by
  induction ms with
  | nil => rfl
  | cons m ms ih =>
    rw [List.flatMap_cons, List.filterMap_append, List.filterMap_append, List.map_append, ih]
    cases m with
    | text t =>
      have hplain : (t.chars.map (Piece.plain (α := Construct))).filterMap Piece.value? = [] := by
        rw [List.filterMap_map]
        exact List.filterMap_eq_nil_iff.mpr fun _ _ => rfl
      simp [Mark.pieces, nestings_text, hplain]
    | comment keyword args => rfl

variable (resolve : Path → Option Path)

theorem expandPieces_plain (offset : Nat) (cs : List Char) (rest : List (Piece Construct))
    (verdicts : List (Option Imbalance)) :
    expandPieces resolve offset (cs.map .plain ++ rest) verdicts =
      (cs ++ (expandPieces resolve (offset + byteSize cs) rest verdicts).1,
        (expandPieces resolve (offset + byteSize cs) rest verdicts).2) := by
  induction cs generalizing offset with
  | nil => rfl
  | cons c cs ih =>
    rw [List.map_cons, List.cons_append, expandPieces, ih, byteSize_cons, Nat.add_assoc]
    rfl

/-- Comments that break no nesting are replaced by their code, and nothing is reported. -/
theorem expandPieces_marks {ms : List Mark} (h : ∀ m ∈ ms, m.Sound) (offset : Nat) :
    expandPieces resolve offset (ms.flatMap Mark.pieces)
      (List.replicate (nestings ms).length none) = (ms.flatMap Mark.code, []) := by
  induction ms generalizing offset with
  | nil => rfl
  | cons m ms ih =>
    have ih := ih fun x hx => h x (List.mem_cons_of_mem m hx)
    rw [List.flatMap_cons, List.flatMap_cons]
    cases m with
    | text t =>
      rw [nestings_text, Mark.pieces, expandPieces_plain, ih]
      rfl
    | comment keyword args =>
      obtain ⟨-, -, code, hcode⟩ := h _ List.mem_cons_self
      have hunder : (Directive.control keyword args).codeUnder resolve none = .ok code := hcode
      rw [nestings_comment ms rfl, List.length_cons, List.replicate_succ, Mark.pieces,
        List.singleton_append, expandPieces, List.tail_cons, ih]
      simp only [List.head?_cons, Option.getD_some, hunder, Mark.code, hcode]

/-- **Texts and comments are compiled one by one**, when the comments break no nesting. -/
theorem compileDirectives_marks {ms : List Mark} (h : ∀ m ∈ ms, m.Sound)
    (hn : imbalances (nestings ms) = List.replicate (nestings ms).length none) :
    compileDirectives resolve (ms.flatMap Mark.source) = (ms.flatMap Mark.code, []) := by
  rw [compileDirectives, cut_marks h]
  simp only [nestings_marks, hn]
  exact expandPieces_marks resolve h 0

/-! ### The nesting of a tree -/

/-- After `d` open blocks, comments close exactly what they open: whatever follows them, they break
no nesting and do not change the verdicts on it. -/
def Settled (d : Nat) (ns : List (Option Nesting)) : Prop :=
  ∀ rest, imbalancesFrom d (ns ++ rest) =
    (List.replicate ns.length none ++ (imbalancesFrom d rest).1, (imbalancesFrom d rest).2)

variable {d : Nat} {ns ns' : List (Option Nesting)}

theorem settled_nil (d : Nat) : Settled d [] := fun _ => rfl

theorem Settled.append (h : Settled d ns) (h' : Settled d ns') : Settled d (ns ++ ns') := by
  intro rest
  rw [List.append_assoc, h, h', List.length_append, ← List.replicate_append_replicate,
    List.append_assoc]

/-- A branch inside of a block. -/
theorem settled_inside (d : Nat) : Settled (d + 1) [some .inside] := fun _ => rfl

/-- A block, and what follows it. -/
theorem Settled.block (h : Settled (d + 1) ns) (h' : Settled d ns') :
    Settled d (some .opens :: (ns ++ (some .closes :: ns'))) := by
  intro rest
  have hrest : imbalancesFrom (d + 1) (ns ++ (some .closes :: ns') ++ rest) =
      (List.replicate ns.length none ++ (none :: (List.replicate ns'.length none ++
        (imbalancesFrom d rest).1)), (imbalancesFrom d rest).2 + 1) := by
    rw [List.append_assoc, h, List.cons_append, imbalancesFrom, h']
  rw [List.cons_append, imbalancesFrom, hrest]
  simp only [List.length_cons, List.length_append, List.replicate_succ]
  rw [← List.replicate_append_replicate, List.replicate_succ]
  simp

/-- Outside of all blocks, comments that close what they open break no nesting. -/
theorem Settled.imbalances_eq (h : Settled 0 ns) :
    imbalances ns = List.replicate ns.length none := by
  have h := h []
  rw [List.append_nil] at h
  rw [imbalances, h]
  simp [imbalancesFrom]

theorem Closer.nesting (closer : Closer) : controlNesting? closer.word [] = some .closes := by
  rw [controlNesting?, closer.closes]
  rfl

mutual

/-- The comments of a tree break no nesting; a break stands in a loop, so in some block. -/
theorem Blocks.settled : ∀ {inLoop : Bool} (t : Blocks inLoop) {d : Nat},
    (inLoop = true → 0 < d) → Settled d (nestings t.marks)
  | _, .done, d, _ => settled_nil d
  | _, .text text rest, d, hd => by
    rw [Blocks.marks, nestings_text]
    exact rest.settled hd
  | _, .ifBlock cond body more closer rest, d, hd => by
    rw [Blocks.marks, nestings_comment _ (n := some .opens) rfl, nestings_append, nestings_append,
      nestings_comment _ closer.nesting, ← List.append_assoc]
    -- the branches stand in the block of the first one
    have hbody := (body.settled fun _ => Nat.succ_pos d).append (more.settled d)
    exact hbody.block (rest.settled hd)
  | _, .whileBlock cond body closer rest, d, hd => by
    rw [Blocks.marks, nestings_comment _ (n := some .opens) rfl, nestings_append,
      nestings_comment _ closer.nesting]
    exact (body.settled fun _ => Nat.succ_pos d).block (rest.settled hd)
  | _, .forBlock init cond step body closer rest, d, hd => by
    rw [Blocks.marks, nestings_comment _ (n := some .opens) rfl, nestings_append,
      nestings_comment _ closer.nesting]
    exact (body.settled fun _ => Nat.succ_pos d).block (rest.settled hd)
  | _, .breakOut rest, d, hd => by
    -- a break is inside of a block, which is the loop around it
    obtain ⟨k, rfl⟩ := Nat.exists_eq_succ_of_ne_zero (Nat.ne_of_gt (hd rfl))
    rw [Blocks.marks, nestings_comment _ (n := some .inside) rfl]
    exact (settled_inside k).append (rest.settled hd)

theorem Branches.settled : ∀ {inLoop : Bool} (t : Branches inLoop) (d : Nat),
    Settled (d + 1) (nestings t.marks)
  | _, .done, d => settled_nil (d + 1)
  | _, .elseIf cond body more, d => by
    rw [Branches.marks, nestings_comment _ (n := some .inside) rfl, nestings_append]
    have hbody := (body.settled fun _ => Nat.succ_pos d).append (more.settled d)
    exact (settled_inside d).append hbody
  | _, .otherwise body, d => by
    rw [Branches.marks, nestings_comment _ (n := some .inside) rfl]
    exact (settled_inside d).append (body.settled fun _ => Nat.succ_pos d)

end

/-- The comments of a whole tree break no nesting. -/
theorem Blocks.imbalances_eq (t : Blocks false) :
    imbalances (nestings t.marks) = List.replicate (nestings t.marks).length none :=
  (t.settled fun h => by cases h).imbalances_eq

/-! ### The code of a tree -/

variable {code : List Char} {ts us r : List Token} {stop : Stop}

/-- Two texts that fit into a comment fit into one, side by side. -/
theorem FitsComment.append {b : List Char} (ha : FitsComment a) (hb : FitsComment b) :
    FitsComment (a ++ (';' :: b)) := by
  have hsep : breakOn "-->".toList (';' :: b) = none := by
    rw [breakOn_eq_none_cons]
    exact ⟨rfl, hb.2⟩
  refine ⟨?_, ?_⟩
  · rw [List.mem_append, List.mem_cons]
    rintro (h | h | h)
    · exact ha.1 h
    · exact absurd h (by decide)
    · exact hb.1 h
  · rw [breakOn_append_of_apart isApart_commentEnd (apart_cons (by decide)) ha.2, hsep]
    rfl

theorem sound_argument {keyword : List Char} (hk : (Assoc.get? keywords keyword).isSome)
    (hcode : ∃ out, controlCode keyword (argument code) = .ok out) (h : FitsComment code) :
    (Mark.comment keyword (argument code)).Sound := ⟨.inr ⟨code, rfl, h⟩, hk, hcode⟩

theorem Closer.code_eq (closer : Closer) :
    controlCode closer.word [] = .ok (island ['\x7d']) := by
  rw [controlCode, closer.closes]
  rfl

theorem Closer.sound (closer : Closer) : (Mark.comment closer.word []).Sound :=
  ⟨.inl rfl, by rw [closer.closes]; rfl, _, closer.code_eq⟩

theorem LoopPart.sound (init cond step : LoopPart FitsComment) :
    (Mark.comment "for".toList (loopArgument init cond step)).Sound :=
  sound_argument rfl ⟨_, rfl⟩ (init.fits.append (cond.fits.append step.fits))

mutual

/-- Every comment of a tree is found and has code. -/
theorem Blocks.sound : ∀ {inLoop : Bool} (t : Blocks inLoop), ∀ m ∈ t.marks, m.Sound
  | _, .done => by simp [Blocks.marks]
  | _, .text text rest => by
    rw [Blocks.marks, List.forall_mem_cons]
    exact ⟨trivial, rest.sound⟩
  | _, .ifBlock cond body more closer rest => by
    rw [Blocks.marks, List.forall_mem_cons, List.forall_mem_append, List.forall_mem_append,
      List.forall_mem_cons]
    exact ⟨sound_argument rfl ⟨_, rfl⟩ cond.fits, body.sound, more.sound, closer.sound, rest.sound⟩
  | _, .whileBlock cond body closer rest => by
    rw [Blocks.marks, List.forall_mem_cons, List.forall_mem_append, List.forall_mem_cons]
    exact ⟨sound_argument rfl ⟨_, rfl⟩ cond.fits, body.sound, closer.sound, rest.sound⟩
  | _, .forBlock init cond step body closer rest => by
    rw [Blocks.marks, List.forall_mem_cons, List.forall_mem_append, List.forall_mem_cons]
    exact ⟨LoopPart.sound init cond step, body.sound, closer.sound, rest.sound⟩
  | _, .breakOut rest => by
    rw [Blocks.marks, List.forall_mem_cons]
    exact ⟨⟨.inl rfl, rfl, _, rfl⟩, rest.sound⟩

theorem Branches.sound : ∀ {inLoop : Bool} (t : Branches inLoop), ∀ m ∈ t.marks, m.Sound
  | _, .done => by simp [Branches.marks]
  | _, .elseIf cond body more => by
    rw [Branches.marks, List.forall_mem_cons, List.forall_mem_append]
    exact ⟨sound_argument rfl ⟨_, rfl⟩ cond.fits, body.sound, more.sound⟩
  | _, .otherwise body => by
    rw [Branches.marks, List.forall_mem_cons]
    exact ⟨⟨.inl rfl, rfl, _, rfl⟩, body.sound⟩

end

/-- The code of a comment that opens a block, a loop over entries aside. -/
theorem code_opener (block : Block) (hb : block ≠ .foreachBlock)
    (h : code.foldl Quoting.next .code = .code) :
    (Mark.comment block.word (argument code)).code =
      island (block.word ++ argument (bindVars code) ++ ['\x7b']) := by
  have hword : bindVars block.word = block.word ∧
      block.word.foldl Quoting.next .code = .code := by
    cases block <;> exact ⟨rfl, rfl⟩
  have hbind := bindVars_argument hword.2 h
  rw [hword.1] at hbind
  rw [← hbind]
  cases block with
  | foreachBlock => exact absurd rfl hb
  | ifBlock | switchBlock | forBlock | whileBlock => rfl

theorem code_elseif (h : code.foldl Quoting.next .code = .code) :
    (Mark.comment "elseif".toList (argument code)).code =
      island ('\x7d' :: ("elseif".toList ++ argument (bindVars code) ++ ['\x7b'])) := by
  have hbind := bindVars_argument (rfl : [].foldl Quoting.next .code = .code) h
  rw [List.nil_append] at hbind
  have hcode : (Mark.comment "elseif".toList (argument code)).code =
      island ('\x7d' :: "elseif".toList ++ bindVars (argument code) ++ ['\x7b']) := rfl
  rw [hcode, hbind]
  rfl

theorem Closer.mark_code (closer : Closer) :
    (Mark.comment closer.word []).code = island ['\x7d'] := by
  rw [Mark.code, closer.code_eq]

/-- The code of a comment that opens a counting loop. -/
theorem LoopPart.code_eq (init cond step : LoopPart FitsComment) :
    (Mark.comment "for".toList (loopArgument init cond step)).code =
      island ("for".toList ++ argument (bindVars init.code ++
        (';' :: (bindVars cond.code ++ (';' :: bindVars step.code)))) ++ ['\x7b']) := by
  obtain ⟨_, hi, -⟩ := exprsOf?_parses init.stands
  obtain ⟨_, hc, -⟩ := exprsOf?_parses cond.stands
  obtain ⟨_, hs, -⟩ := exprsOf?_parses step.stands
  have hrest := foldl_next_semicolon hc.outside hs.outside
  have h := code_opener .forBlock (by decide) (foldl_next_semicolon hi.outside hrest)
  rw [bindVars_semicolon hi.outside, bindVars_semicolon hc.outside] at h
  exact h

/-! ### The statements of a tree -/

theorem notNext_terminator : NotNext isWordToken (.terminator :: us) := notNext_cons rfl

/-- An island with the closing brace. -/
theorem reads_close (h : Reads .text rest us) :
    Reads .text (island ['\x7d'] ++ rest) (.sign .braceClose :: .terminator :: us) :=
  (Spells.nil.own rfl : Spells ['\x7d'] [.sign .braceClose]).reads_island h

/-- A loop: its head, the text of its body, and the island that closes it. -/
theorem Yields.loop {head cs : List Char} {wrap : List Stmt → Stmt} {B K : List Stmt}
    (hspell : Spells head (ts ++ [.sign .braceOpen])) (hhead : IsHead ts wrap)
    (hwrap : startsText [wrap B] = false)
    (hbody : ∀ {tail r}, Yields .atBrace tail [] r → Yields .atBrace (cs ++ tail) B r)
    (hrest : Yields stop rest K r) :
    Yields stop (island head ++ (cs ++ (island ['\x7d'] ++ rest))) (wrap B :: K) r := by
  obtain ⟨us, hus, hK⟩ := hrest.reads
  have hclose := hbody (yields_close (reads_close hus))
  exact Yields.block hspell hhead hwrap hclose notNext_terminator (gives_terminator hK)

/-- An `if`: its head, the text of its first branch, and what closes that branch. -/
theorem Yields.cond {cs : List Char} {vs : List Token} {e : Expr} {B K : List Stmt}
    {bs : List Branch} {o : Option (List Stmt)} (h : Spells code ts)
    (hcond : Stands parseExpr extendsExpr ts e)
    (hbody : Yields .atBrace cs B (.sign .braceClose :: vs))
    (hmore : Gives branches 1 vs (bs, o) (.terminator :: us))
    (hK : Gives (listUntil stop) 2 us K r) :
    Yields stop (island ("if".toList ++ argument code ++ ['\x7b']) ++ cs)
      (.cond (.mk e B :: bs) o :: K) r := by
  obtain ⟨ws, hws, hB⟩ := hbody.body
  have hreads := (spells_word firm_if.spells h).reads_island hws
  have hstmt := gives_cond hcond hB.statement hmore
  simp only [List.cons_append, List.append_assoc, List.nil_append] at hreads
  refine yields_of_island hreads ?_ rfl
  refine gives_cons _ hstmt (List.cons_ne_nil _ _) (by cases stop <;> rfl) ?_ (gives_terminator hK)
  have h₁ := hmore.le
  have h₂ := hB.block.le
  simp only [List.length_cons, List.length_append] at h₁ h₂ ⊢
  omega

/-- A branch under a condition, and what closes it. -/
theorem Yields.elseIf {cs : List Char} {vs : List Token} {e : Expr} {B : List Stmt}
    {bs : List Branch} {o : Option (List Stmt)} (h : Spells code ts)
    (hcond : Stands parseExpr extendsExpr ts e)
    (hbody : Yields .atBrace cs B (.sign .braceClose :: vs))
    (hmore : Gives branches 1 vs (bs, o) r) :
    ∃ ws, Yields .atBrace
        (island ('\x7d' :: ("elseif".toList ++ argument code ++ ['\x7b'])) ++ cs) []
        (.sign .braceClose :: ws) ∧ Gives branches 1 ws (.mk e B :: bs, o) r := by
  obtain ⟨us, hus, hB⟩ := hbody.body
  have hreads := ((spells_word firm_elseif.spells h).own (c := '\x7d') rfl).reads_island hus
  simp only [List.cons_append, List.append_assoc, List.nil_append] at hreads
  exact ⟨_, yields_close hreads, gives_branches_elseif hcond hB.statement hmore⟩

/-- The last branch, and what closes it. -/
theorem Yields.otherwise {cs : List Char} {B : List Stmt}
    (hbody : Yields .atBrace cs B (.sign .braceClose :: r)) :
    ∃ ws, Yields .atBrace (island ('\x7d' :: ("else".toList ++ ['\x7b'])) ++ cs) []
      (.sign .braceClose :: ws) ∧ Gives branches 1 ws ([], some B) r := by
  obtain ⟨us, hus, hB⟩ := hbody.body
  have hspell : Spells ('\x7d' :: ("else".toList ++ ['\x7b'])) _ :=
    (firm_else.spells.append_own rfl Spells.nil).own rfl
  exact ⟨_, yields_close (hspell.reads_island hus), gives_branches_else hB⟩

mutual

/-- **The code of a tree gives its statements**, in front of those of the text after it. -/
theorem Blocks.yields : ∀ {inLoop : Bool} (t : Blocks inLoop) {stop : Stop} {tail : List Char}
    {K : List Stmt} {r : List Token}, startsText K = false → Yields stop tail K r →
      Yields stop (t.marks.flatMap Mark.code ++ tail) (t.stmts ++ K) r
  | _, .done, _, _, _, _, _, h => h
  | _, .text text rest, _, _, _, _, hK, h => by
    rw [Blocks.marks, List.flatMap_cons, List.append_assoc, Blocks.stmts,
      ← joinText_append text.chars rest.stmts hK]
    exact (rest.yields hK h).text (inert_of_notMem text.noTag)
  | _, .ifBlock cond body more closer rest, _, _, _, _, hK, h => by
    obtain ⟨ts, hts, hcond⟩ := exprOf?_stands cond.stands
    -- from right to left: what follows the block, the other branches, the first branch
    obtain ⟨us, hus, hrest⟩ := (rest.yields hK h).reads
    obtain ⟨vs, hvs, hmore⟩ := more.yields hus
    have hcode := code_opener .ifBlock (by decide) hts.outside
    have hbody := body.yields rfl hvs
    rw [List.append_nil] at hbody
    have hyields := Yields.cond hts.whole hcond hbody hmore hrest
    simp only [Blocks.marks, List.flatMap_cons, List.flatMap_append, List.append_assoc,
      closer.mark_code]
    exact hcode ▸ hyields
  | _, .whileBlock cond body closer rest, _, _, _, _, hK, h => by
    obtain ⟨ts, hts, hcond⟩ := exprOf?_stands cond.stands
    have hcode := code_opener .whileBlock (by decide) hts.outside
    have hyields := Yields.loop (spells_word firm_while.spells hts.whole) (isHead_while hcond) rfl
      (fun h => List.append_nil body.stmts ▸ body.yields rfl h) (rest.yields hK h)
    simp only [Blocks.marks, List.flatMap_cons, List.flatMap_append, List.append_assoc,
      closer.mark_code]
    exact hcode ▸ hyields
  | _, .forBlock init cond step body closer rest, _, _, _, _, hK, h => by
    obtain ⟨ts, hts, hhead⟩ := LoopPart.head init cond step
    have hspell : Spells ("for".toList ++ _ ++ ['\x7b'])
        (.word "for" :: ts ++ [.sign .braceOpen]) :=
      (firm_for.spells.append hts (apart_cons (by decide)) (List.cons_ne_nil _ _)).append_own rfl
        Spells.nil
    have hcode := LoopPart.code_eq init cond step
    have hyields := Yields.loop hspell (isHead_for hhead) rfl
      (fun h => List.append_nil body.stmts ▸ body.yields rfl h) (rest.yields hK h)
    simp only [Blocks.marks, List.flatMap_cons, List.flatMap_append, List.append_assoc,
      closer.mark_code]
    exact hcode ▸ hyields
  | _, .breakOut rest, _, _, _, _, hK, h => (rest.yields hK h).break

/-- The code of branches, in front of the island that closes them. -/
theorem Branches.yields : ∀ {inLoop : Bool} (t : Branches inLoop) {rest : List Char}
    {us : List Token}, Reads .text rest us →
      ∃ vs, Yields .atBrace (t.marks.flatMap Mark.code ++ (island ['\x7d'] ++ rest)) []
        (.sign .braceClose :: vs) ∧ Gives branches 1 vs (t.conditional, t.last) (.terminator :: us)
  | _, .done, _, _, h =>
    ⟨_, yields_close (reads_close h), gives_branches_nil notNext_terminator⟩
  | _, .elseIf cond body more, _, _, h => by
    obtain ⟨ts, hts, hcond⟩ := exprOf?_stands cond.stands
    obtain ⟨vs, hvs, hmore⟩ := more.yields h
    have hbody := body.yields rfl hvs
    rw [List.append_nil] at hbody
    have hyields := Yields.elseIf hts.whole hcond hbody hmore
    simp only [Branches.marks, List.flatMap_cons, List.flatMap_append, List.append_assoc]
    rw [code_elseif hts.outside]
    exact hyields
  | _, .otherwise body, _, _, h => by
    have hbody := body.yields rfl (yields_close (reads_close h))
    rw [List.append_nil] at hbody
    rw [Branches.marks, List.flatMap_cons, List.append_assoc]
    exact Yields.otherwise hbody

end

/-- **A printed tree is compiled without findings, and its code is parsed into the statements of the
tree.** -/
theorem parseProgram_of_blocks (name : String) (t : Blocks false) :
    ∃ out, compileDirectives resolve t.source = (out, []) ∧
      parseProgram name out = .ok { name, body := t.stmts } := by
  refine ⟨_, compileDirectives_marks resolve t.sound t.imbalances_eq, ?_⟩
  have h := t.yields rfl Yields.nil
  rw [List.append_nil, List.append_nil] at h
  exact parseProgram_of_yields name h

end Stencil
