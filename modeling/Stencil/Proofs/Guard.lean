import Mathlib.Data.List.Infix
import Stencil.Proofs.Parsing.Places
import Stencil.Proofs.Reaching
import Stencil.Proofs.Spelling
import Stencil.Template.Render

/-!
# The guard of compiled code

Compiled code starts with a statement that ends the program where the constant of the application is
not defined.  The constant stands there between single quotes as it is, so the guard asks for the
constant exactly when its name is one that is read back from between single quotes.

## Main definitions

* `StandsQuoted` — texts that stand for themselves between single quotes.
* `guard` — the statement of the guard.

## Main results

* `standsQuoted_iff` — what is read back from between single quotes.
* `parseProgram_guarded` — the guard in front of code that parses.
* `Program.run_guarded` — a guarded program, where the constant is defined and where it is not.
* `Compiler.compile_guarded` — the guard of compiled templates.
-/

namespace Stencil

open Text Lexer Stencil.Parser

/-! ### Texts between quotes -/

/-- The text stands for itself between single quotes: it has none, no two backslashes side by side,
and no backslash at its end. -/
structure StandsQuoted (cs : List Char) : Prop where
  noQuote : '\x27' ∉ cs
  noPair : ¬ ['\\', '\\'] <:+: cs
  noEnd : cs.getLast? ≠ some '\\'

instance (cs : List Char) : Decidable (StandsQuoted cs) :=
  decidable_of_iff ('\x27' ∉ cs ∧ ¬ ['\\', '\\'] <:+: cs ∧ cs.getLast? ≠ some '\\')
    ⟨fun ⟨h₁, h₂, h₃⟩ => ⟨h₁, h₂, h₃⟩, fun ⟨h₁, h₂, h₃⟩ => ⟨h₁, h₂, h₃⟩⟩

variable {c d : Char} {cs rest : List Char}

theorem StandsQuoted.tail (h : StandsQuoted (c :: cs)) : StandsQuoted cs where
  noQuote hmem := h.noQuote (List.mem_cons_of_mem c hmem)
  noPair hin := h.noPair (List.infix_cons hin)
  noEnd hend := by
    cases cs with
    | nil => cases hend
    | cons d cs => exact h.noEnd (by rw [List.getLast?_cons_cons, hend])

/-- A character in front of a text that stands for itself. -/
theorem StandsQuoted.cons (h : StandsQuoted cs) (hquote : c ≠ '\x27')
    (hback : c = '\\' → cs ≠ [] ∧ cs.head? ≠ some '\\') : StandsQuoted (c :: cs) where
  noQuote hmem := by
    rcases List.mem_cons.mp hmem with hc | hmem
    · exact hquote hc.symm
    · exact h.noQuote hmem
  noPair hin := by
    rcases List.infix_cons_iff.mp hin with hpre | hin
    · obtain ⟨hc, t, ht⟩ := List.cons_prefix_cons.mp hpre
      exact (hback hc.symm).2 (by rw [← ht]; rfl)
    · exact h.noPair hin
  noEnd hend := by
    cases cs with
    | nil => exact (hback (Option.some.inj hend)).1 rfl
    | cons d cs => exact h.noEnd (by rw [← hend, List.getLast?_cons_cons])

theorem unescape_single (d : Char) : unescape '\x27' d =
    if d = '\\' then ['\\'] else if d = '\x27' then [d] else ['\\', d] := by
  unfold unescape
  rfl

theorem readQuoted_quote (quote : Char) (rest : List Char) :
    readQuoted quote (quote :: rest) = some ([], 1) := by
  cases rest <;> simp [readQuoted]

/-- A text that stands for itself is read back. -/
theorem readQuoted_of_standsQuoted (rest : List Char) : ∀ {cs : List Char}, StandsQuoted cs →
    readQuoted '\x27' (cs ++ '\x27' :: rest) = some (cs, cs.length + 1)
  | [], _ => readQuoted_quote _ rest
  | [c], h => by
    have hquote : c ≠ '\x27' := fun hc => h.noQuote (hc ▸ List.mem_cons_self)
    have hback : c ≠ '\\' := fun hc => h.noEnd (hc ▸ rfl)
    rw [List.singleton_append, readQuoted, if_neg hquote, if_neg hback, readQuoted_quote]
    rfl
  | c :: d :: cs, h => by
    have hquote : c ≠ '\x27' := fun hc => h.noQuote (hc ▸ List.mem_cons_self)
    rw [List.cons_append, List.cons_append, readQuoted, if_neg hquote]
    by_cases hback : c = '\\'
    · -- the backslash escapes neither itself nor the quote, so both characters stay
      subst hback
      have hd : d ≠ '\\' := by
        rintro rfl
        exact h.noPair ⟨[], cs, rfl⟩
      have hd' : d ≠ '\x27' := fun hq => h.tail.noQuote (hq ▸ List.mem_cons_self)
      have hescape : unescape '\x27' d = ['\\', d] := by
        rw [unescape_single, if_neg hd, if_neg hd']
      rw [if_pos rfl, readQuoted_of_standsQuoted rest h.tail.tail, Option.map_some, hescape]
      rfl
    · rw [if_neg hback, ← List.cons_append, readQuoted_of_standsQuoted rest h.tail]
      rfl

/-- A literal is longer than its content. -/
theorem length_lt_of_readQuoted {quote : Char} {x : List Char × Nat}
    (h : readQuoted quote cs = some x) : x.1.length < x.2 := by
  fun_induction readQuoted quote cs generalizing x with
  | case1 => cases h
  | case2 => cases h; exact Nat.zero_lt_one
  | case3 => cases h
  | case4 => cases h; exact Nat.zero_lt_one
  | case5 d cs _ ih =>
    obtain ⟨y, hy, rfl⟩ := Option.map_eq_some_iff.mp h
    have hlt := ih hy
    have hescape : (unescape quote d).length ≤ 2 := by
      unfold unescape
      split_ifs <;> try simp
      split <;> simp
    simp only [List.length_append]
    omega
  | case6 c d cs _ _ ih =>
    obtain ⟨y, hy, rfl⟩ := Option.map_eq_some_iff.mp h
    have hlt := ih hy
    simp only [List.length_cons]
    omega

/-- Only a text that stands for itself is read back. -/
theorem standsQuoted_of_readQuoted (rest : List Char) : ∀ cs : List Char,
    readQuoted '\x27' (cs ++ '\x27' :: rest) = some (cs, cs.length + 1) → StandsQuoted cs
  | [], _ => ⟨List.not_mem_nil, by simp, by simp⟩
  | [c], h => by
    rw [List.singleton_append, readQuoted] at h
    split_ifs at h with hquote hback
    · cases h
    · obtain ⟨y, -, hy⟩ := Option.map_eq_some_iff.mp h
      subst hback
      cases hy
    · have hnil : StandsQuoted [] := by decide
      exact hnil.cons hquote fun hc => absurd hc hback
  | c :: d :: cs, h => by
    rw [List.cons_append, List.cons_append, readQuoted] at h
    split_ifs at h with hquote hback
    · cases h
    · obtain ⟨⟨content, n⟩, hy, heq⟩ := Option.map_eq_some_iff.mp h
      obtain ⟨hcontent, hn⟩ := Prod.mk.inj heq
      have hlt := length_lt_of_readQuoted hy
      subst hback
      rw [unescape_single] at hcontent
      simp only [List.length_cons] at hn hlt
      split_ifs at hcontent with hd hd'
      · -- an escaped backslash is one character of the content, so a second one is missing
        have hlen := congrArg List.length hcontent
        simp only [List.length_append, List.length_cons, List.length_nil] at hlen
        omega
      · exact absurd (List.cons.inj hcontent).1 (hd' ▸ by decide)
      · have hrest : cs = content := (List.cons.inj (List.cons.inj hcontent).2).2.symm
        subst hrest
        have hcs := standsQuoted_of_readQuoted rest cs (by rw [hy]; congr; omega)
        have hdcs := hcs.cons hd' fun hc => absurd hc hd
        exact hdcs.cons hquote fun _ => ⟨List.cons_ne_nil _ _, by simpa using hd⟩
    · obtain ⟨⟨content, n⟩, hy, heq⟩ := Option.map_eq_some_iff.mp h
      obtain ⟨hcontent, hn⟩ := Prod.mk.inj heq
      have hrest := (List.cons.inj hcontent).2
      have hdcs := standsQuoted_of_readQuoted rest (d :: cs) (by
        rw [List.cons_append, hy, hrest, Nat.succ.inj hn, List.length_cons, List.length_cons])
      exact hdcs.cons hquote fun hc => absurd hc hback

/-- **The texts that are read back from between single quotes** are those that stand for
themselves. -/
theorem standsQuoted_iff (rest : List Char) :
    StandsQuoted cs ↔ readQuoted '\x27' (cs ++ '\x27' :: rest) = some (cs, cs.length + 1) :=
  ⟨readQuoted_of_standsQuoted rest, standsQuoted_of_readQuoted rest cs⟩

/-! ### The guard and its code -/

/-- What the guard asks: whether the constant is missing. -/
def unguarded (constant : String) : Expr :=
  .unary .not (.call "defined" [.literal (.string constant)])

/-- The statement in front of compiled code. -/
def guard (constant : String) : Stmt := .cond [.mk (unguarded constant) [.exit]] none

/-- The tokens of the guard. -/
def guardTokens (constant : String) : List Token :=
  .word "if" :: .sign .parenOpen :: ((unguarded constant).tokens ++ .sign .parenClose ::
    [.word "exit", .terminator])

/-- The code of the guard, for a constant with these characters. -/
def guardCode (constant : List Char) : List Char :=
  "if (!defined('".toList ++ constant ++ "')) exit;".toList

theorem Compiler.prologue_eq (c : Compiler) : c.prologue = island (guardCode c.entryConstant) := rfl

/-- The lexer reads the constant back. -/
theorem spells_guard {constant : List Char} (h : StandsQuoted constant) :
    Spells (guardCode constant) (guardTokens (String.ofList constant)) := by
  have hif : Spells "if".toList [.word "if"] := spells_name (.name ⟨by decide, by decide⟩)
  have hdefined : Spells "defined".toList [.word "defined"] :=
    spells_name (.name ⟨by decide, by decide⟩)
  have hexit : Spells "exit".toList [.word "exit"] := spells_name (.name ⟨by decide, by decide⟩)
  have hnot : ∀ cs, step .code '!' ("defined".toList ++ cs) =
      .ok { token := some (.sign .not), width := 1, mode := .code } := fun _ => rfl
  intro rest us hr hus
  -- from right to left, as every token depends on what follows it
  have hread := hexit.append_own (c := ';') rfl Spells.nil hr hus
  replace hread := (reads_blank (c := ' ') (by decide)).mpr hread
  replace hread := (hread.own (c := ')') rfl).own (c := ')') rfl
  replace hread := reads_single (readQuoted_of_standsQuoted _ h) hread
  replace hread := hdefined (apart_cons (by decide)) (hread.own (c := '(') rfl)
  replace hread := (Reads.of_step (hnot _) hread).own (c := '(') rfl
  replace hread := hif (apart_cons (by decide)) ((reads_blank (c := ' ') (by decide)).mpr hread)
  have htext : guardCode constant ++ rest = "if".toList ++ ' ' :: '(' :: '!' ::
      ("defined".toList ++ '(' :: '\x27' :: (constant ++ '\x27' :: ')' :: ')' :: ' ' ::
        ("exit".toList ++ [';'] ++ rest))) := by
    unfold guardCode
    simp only [List.append_assoc]
    rfl
  rw [htext]
  exact hread

/-- In front of code, the guard is one statement. -/
theorem gives_guard (constant : String) (us : List Token) :
    Gives statement 1 (guardTokens constant ++ .terminator :: us) [guard constant]
      (.terminator :: us) := by
  have hname : IsQualified "defined".toList := .name ⟨by decide, by decide⟩
  have hprintable : (unguarded constant).Printable := ⟨hname, by decide, trivial, trivial⟩
  have hexit : Gives statement 1 (.word "exit" :: .terminator :: .terminator :: us) [.exit]
      (.terminator :: us) := by
    refine ⟨by simp only [List.length_cons]; omega, fun {n} hn ls hls => ?_⟩
    obtain ⟨k, rfl⟩ : ∃ k, n = k + 1 := ⟨n - 1, by omega⟩
    obtain ⟨a, b, rest, rfl, hrest⟩ := tokens_cons hls
    obtain ⟨c, d, rest', rfl, hrest'⟩ := tokens_cons hrest
    exact ⟨rest', rfl, hrest'⟩
  have hnone : Gives branches 1 (.terminator :: us) ([], none) (.terminator :: us) :=
    gives_branches_nil (notNext_cons rfl)
  have h := gives_cond (Expr.stands_tokens hprintable) hexit hnone
  simpa only [guard, guardTokens, List.cons_append, List.append_assoc, List.nil_append] using h

/-- **The guard in front of code that parses** is a statement in front of the other ones. -/
theorem parseProgram_guarded {constant body : List Char} {name : String} {program : Program}
    (hconstant : StandsQuoted constant) (hbody : parseProgram name body = .ok program) :
    parseProgram name (island (guardCode constant) ++ body) =
      .ok ⟨name, guard (String.ofList constant) :: program.body⟩ := by
  rw [parseProgram] at hbody
  split at hbody
  next => cases hbody
  next ts hlex =>
  split at hbody
  next => cases hbody
  next K hparse =>
  cases hbody
  have hreads := (spells_guard hconstant).reads_island (reads_of_lexFrom hlex)
  obtain ⟨ls, hls, htokens⟩ := hreads 0
  obtain ⟨r, hK⟩ := parses_statements hparse
  have hdepth : ls.length = (guardTokens (String.ofList constant)).length + 1 + ts.length := by
    have hlen := congrArg List.length htokens
    simp only [List.length_map, List.length_append, List.length_cons] at hlen
    omega
  obtain ⟨k, hk⟩ : ∃ k, depthBound ls = k + 2 := ⟨12 * ls.length + 10, rfl⟩
  have hguard := (gives_guard (String.ofList constant) (ts.map Lexeme.token)).parses (n := k + 1)
    (by
      simp only [depthBound] at hk
      simp only [List.length_append, List.length_cons, List.length_map]
      omega)
  -- the end of the island is no statement
  have hend :
      Parses (statement k) (.terminator :: ts.map Lexeme.token) [] (ts.map Lexeme.token) := by
    intro us hus
    obtain ⟨j, rfl⟩ : ∃ j, k = j + 1 := ⟨k - 1, by simp only [depthBound] at hk; omega⟩
    obtain ⟨a, b, rest, rfl, hrest⟩ := tokens_cons hus
    exact ⟨rest, rfl, hrest⟩
  have hbody := hK (n := k) (by simp only [depthBound] at hk ⊢; omega)
  have hrest : Parses (listUntil .atEnd (k + 1)) _ ([] ++ K) r :=
    parses_cons hend (List.cons_ne_nil _ _) rfl hbody
  have hall :
      Parses (listUntil .atEnd (k + 2)) _ ([guard (String.ofList constant)] ++ ([] ++ K)) r :=
    parses_cons hguard (by simp) rfl hrest
  obtain ⟨rs, hrs, -⟩ := hall ls htokens
  have hwhole : parseStatements ls = .ok (guard (String.ofList constant) :: K) := by
    rw [parseStatements, hk]
    rw [listUntil] at hrs
    rw [hrs]
    rfl
  rw [parseProgram, lex, hls]
  simp only [hwhole]

/-! ### Guarded programs -/

section Running

variable {σ : Type} {host : Host σ} {constant name : String} {body : List Stmt}

theorem exec_guard (st : State σ) :
    (guard constant).exec host st =
      .ok (if st.context.isDefined constant then .normal else .exit) st := by
  have hcond : (unguarded constant).eval host st =
      .ok (.bool (!st.context.isDefined constant)) st := rfl
  rw [guard, Stmt.exec, execBranches, Run.bind_of_ok hcond]
  cases st.context.isDefined constant <;> rfl

/-- **A guarded program** does nothing where the constant is not defined, and is the program behind
the guard where it is. -/
theorem Program.run_guarded (context : Context) (s : σ) :
    (⟨name, guard constant :: body⟩ : Program).run host context s =
      if context.isDefined constant then (⟨name, body⟩ : Program).run host context s
      else (.ok "", context, s) := by
  have hexec : (guard constant).exec host { context, locals := [], out := "", host := s } = _ :=
    exec_guard _
  rw [Program.run]
  cases h : context.isDefined constant with
  | true =>
    simp only [h, if_true] at hexec
    rw [execBlock_cons_of_normal hexec]
    rfl
  | false =>
    simp only [h, Bool.false_eq_true, if_false] at hexec
    rw [execBlock_cons_of_ne hexec (by decide)]
    rfl

end Running

/-! ### Compiled templates -/

theorem exists_eq_ok {ε α : Type} {x : Except ε α} (h : x.isOk = true) : ∃ a, x = .ok a := by
  cases x with
  | ok a => exact ⟨a, rfl⟩
  | error e => cases h

namespace Compiler

/-- **The guard protects every compiled template** whose constant stands for itself between quotes:
the whole code parses when the code behind the guard does; where the constant is not defined, it
writes nothing and changes nothing, and where it is, it does what the code behind the guard
does. -/
theorem compile_guarded (c : Compiler) (t : FileTree) (path webPath source : List Char)
    (hconstant : StandsQuoted c.entryConstant) {name : String} {program : Program}
    (hbody : parseProgram name
      ((c.compile t path webPath source).code.drop c.prologue.length) = .ok program) :
    c.prologue <+: (c.compile t path webPath source).code ∧
      ∃ whole, parseProgram name (c.compile t path webPath source).code = .ok whole ∧
        ∀ {σ : Type} (host : Host σ) (context : Context) (s : σ),
          (context.isDefined (String.ofList c.entryConstant) = false →
            whole.run host context s = (.ok "", context, s)) ∧
          (context.isDefined (String.ofList c.entryConstant) = true →
            whole.run host context s = program.run host context s) := by
  obtain ⟨body, hcode⟩ : ∃ body, (c.compile t path webPath source).code = c.prologue ++ body :=
    ⟨_, rfl⟩
  rw [hcode, List.drop_left] at hbody
  rw [hcode]
  refine ⟨List.prefix_append _ _, _, parseProgram_guarded hconstant hbody, ?_⟩
  intro σ host context s
  refine ⟨fun h => ?_, fun h => ?_⟩
  · rw [Program.run_guarded, h]
    rfl
  · rw [Program.run_guarded, if_pos h]
    rfl

/-- A compiler for an application whose constant is this. -/
def forConstant (constant : String) : Compiler :=
  { root := "/app".toList, rulesetDir := [], entryConstant := constant.toList }

/-- The guard of `a{$b}` asks for `__XTPL__`. -/
theorem compile_guarded_echo :
    StandsQuoted (forConstant "__XTPL__").entryConstant ∧
      ∃ whole, parseProgram "page"
          ((forConstant "__XTPL__").compile {} [] [] "a\x7b$b\x7d".toList).code = .ok whole ∧
        ∀ {σ : Type} (host : Host σ) (context : Context) (s : σ),
          context.isDefined "__XTPL__" = false →
            whole.run host context s = (.ok "", context, s) := by
  have hconstant : StandsQuoted (forConstant "__XTPL__").entryConstant := by decide +kernel
  have hparses : (parseProgram "page"
      (((forConstant "__XTPL__").compile {} [] [] "a\x7b$b\x7d".toList).code.drop
        (forConstant "__XTPL__").prologue.length)).isOk = true := by decide +kernel
  obtain ⟨program, hbody⟩ := exists_eq_ok hparses
  obtain ⟨-, whole, hwhole, hruns⟩ :=
    compile_guarded (forConstant "__XTPL__") {} [] [] "a\x7b$b\x7d".toList hconstant hbody
  have hname : String.ofList (forConstant "__XTPL__").entryConstant = "__XTPL__" :=
    String.ofList_toList
  rw [hname] at hruns
  exact ⟨hconstant, whole, hwhole, fun host context s h => (hruns host context s).1 h⟩

/-- The constant `it's` is accepted, but its guard makes code unreadable that parses without it. -/
theorem apostrophe_guard_not_parsed :
    (Config.check { entryConstant := "it's" }).isOk = true ∧
      (parseProgram "page" (((forConstant "it's").compile {} [] [] "x".toList).code.drop
        (forConstant "it's").prologue.length)).isOk = true ∧
      (parseProgram "page" ((forConstant "it's").compile {} [] [] "x".toList).code).isOk =
        false := by
  decide +kernel

end Compiler

end Stencil
