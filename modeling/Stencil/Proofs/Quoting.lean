import Stencil.Proofs.BoundTokens
import Stencil.Proofs.Spelling

/-!
# Quoted text

Three readers go over a string literal, each with its own rules for backslashes: quoting writes it,
the lexer cuts it out of the code, and binding passes over it in search of variables.  They agree
on where the literal ends and on what it stands for, whatever text is quoted and whatever code
follows.

## Main results

* `lexFrom_quoteLiteral` — the lexer reads the text back and goes on exactly behind the literal.
* `bindsNothing_quoteLiteral` — no variable is bound in the literal, and behind it code is read as
  if it were not there.
* `quoteLiteral_atomic` — both together.
-/

namespace Stencil

open Text Lexer

variable {a before rest : List Char} {c : Char} {mode mode' : Mode}

/-- A text that is one token is read as it, and the lexer goes on with what follows, also when that
cannot be read. -/
theorem lexFrom_token {token : Token}
    (h : step mode c (a ++ rest) =
      .ok { token := some token, width := (c :: a).length, mode := mode' }) (pos : Nat) :
    lexFrom mode 0 pos (c :: a ++ rest) =
      (lexFrom mode' 0 (pos + byteSize (c :: a)) rest).map
        ({ token, start := pos, stop := pos + byteSize (c :: a) } :: ·) := by
  have htake : (c :: (a ++ rest)).take (c :: a).length = c :: a := List.take_left
  rw [List.cons_append, lexFrom_of_step h, lexFrom_skip, htake, List.length_cons,
    Nat.add_sub_cancel, List.take_left, List.drop_left, byteSize_cons, Nat.add_assoc]
  cases lexFrom mode' 0 (pos + (c.utf8Size + byteSize a)) rest with
  | error e => rfl
  | ok ls => rfl

theorem lexFrom_quoteLiteral (s rest : List Char) (pos : Nat) :
    lexFrom .code 0 pos (quoteLiteral s ++ rest) =
      (lexFrom .code 0 (pos + byteSize (quoteLiteral s)) rest).map
        ({ token := .string (String.ofList s), start := pos,
           stop := pos + byteSize (quoteLiteral s) } :: ·) := by
  have hstep := step_single (readQuoted_quoted s rest)
  rw [List.append_cons] at hstep
  have hwidth : (s.flatMap quoteChar).length + 2 =
      ('\x27' :: (s.flatMap quoteChar ++ ['\x27'])).length := by simp
  rw [hwidth] at hstep
  exact lexFrom_token hstep pos

/-- The content of a literal with its closing quote, and nothing behind it. -/
theorem readQuoted_content (s : List Char) :
    readQuoted '\x27' (s.flatMap quoteChar ++ ['\x27']) =
      some (s, (s.flatMap quoteChar ++ ['\x27']).length) := by
  rw [readQuoted_quoted, List.length_append, List.length_singleton]

/-- A reader that comes to a literal outside of literals stands outside of them behind it. -/
theorem foldl_next_quoteLiteral (s : List Char) :
    (quoteLiteral s).foldl Quoting.next .code = .code := by
  have hquoted := foldl_next_of_readQuoted (readQuoted_content s) (by decide)
  rwa [List.take_length] at hquoted

/-- Nothing is put into a literal, wherever it stands in code. -/
theorem bindsNothing_quoteLiteral (s : List Char) : BindsNothing .code before (quoteLiteral s) := by
  have hquote : BindsNothing .code before ['\x27'] := bindsNothing_of_notMem (by decide)
  have hcontent : BindsNothing (.quoted '\x27') ('\x27' :: before) _ :=
    bindsNothing_quoted (readQuoted_content s)
  rw [List.take_length] at hcontent
  exact hquote.append hcontent

/-- **A quoted text is one literal.**  For every text and all code behind it, the lexer in an island
reads one token, the text, and goes on exactly where that code starts, with what it reads there and
with its errors.  Binding leaves the literal as it is, alone and at every place in code, and goes on
behind it outside of literals. -/
theorem quoteLiteral_atomic (s rest : List Char) (pos : Nat) :
    lexFrom .code 0 pos (quoteLiteral s ++ rest) =
        (lexFrom .code 0 (pos + byteSize (quoteLiteral s)) rest).map
          ({ token := .string (String.ofList s), start := pos,
             stop := pos + byteSize (quoteLiteral s) } :: ·) ∧
      bindVars (quoteLiteral s) = quoteLiteral s ∧
      ∀ before, bindFrom .code before (quoteLiteral s ++ rest) =
        quoteLiteral s ++ bindFrom .code ((quoteLiteral s).reverse ++ before) rest := by
  have hbind : ∀ before cs, bindFrom .code before (quoteLiteral s ++ cs) =
      quoteLiteral s ++ bindFrom .code ((quoteLiteral s).reverse ++ before) cs := by
    intro before cs
    rw [bindsNothing_quoteLiteral s cs, foldl_next_quoteLiteral]
  refine ⟨lexFrom_quoteLiteral s rest pos, ?_, fun before => hbind before rest⟩
  have h := hbind [] []
  rwa [List.append_nil, bindFrom, List.append_nil] at h

/-- A text that ends in a backslash, between quotes, a variable and the end of an island. -/
example : quoteLiteral "'$a' ?>\\".toList = "'\\'$a\\' ?>\\\\'".toList ∧
    (lexFrom .code 0 0 (quoteLiteral "'$a' ?>\\".toList ++ "?>".toList)).map
      (·.map Lexeme.token) = .ok [.string "'$a' ?>\\", .terminator] := by
  constructor
  · decide +kernel
  · decide +kernel

end Stencil
