import Stencil.Proofs.Assignment.Building
import Stencil.Proofs.Elements.Documents
import Stencil.Proofs.Rounds

/-!
# Loops behind the guard that there are entries

The loop of an element stands behind a guard, `if (list && count(list))`.  The guard and the loop
ask different questions of the same value: whether it is true, how many elements it has, and which
entries.  A value that fails the guard has no entries, and looking at a collection changes nothing;
so the loop does the same without the guard.

A guard may hold where there is nothing to go through, as it does for the number 1: then the loop
has no round.

## Main definitions

* `Expr.IsCollection` — variables, their members, and their elements under literal keys.
* `Stmt.guarded` — a loop over entries behind its guard.
* `Document.Repeats` — documents that start with an element under a loop over entries.

## Main results

* `Value.entries_eq_nil_of_guard` — a value that fails the guard has no entries.
* `exec_guarded` — the guard does not change what a loop does.
* `loop_guard_invisible` — what the loop of an element does, with its guard or without it.
-/

namespace Stencil

open Lexer Stencil.Parser

variable {σ : Type} {host : Host σ} {st : State σ} {v : Value} {list value e : Expr}
  {key : Option Expr} {body : List Stmt}

/-! ### Three ways to be empty -/

namespace Value

/-- Whether the guard of a loop holds of a value: the value is true, and so is its count. -/
def guard (v : Value) : Bool := v.isTruthy && decide (Int64.ofNat v.count ≠ 0)

theorem entries_eq_nil_of_not_isArray (h : v.isArray = false) : v.entries = [] := by
  cases v with
  | list _ | map _ => cases h
  | _ => rfl

theorem entries_eq_nil_of_count (h : v.count = 0) : v.entries = [] := by
  cases v with
  | list vs => rw [List.length_eq_zero_iff.mp h, entries, numbered]
  | map es => rw [List.length_eq_zero_iff.mp h, entries, List.map_nil]
  | _ => rfl

theorem entries_eq_nil_of_not_isTruthy (h : v.isTruthy = false) : v.entries = [] := by
  cases v with
  | list vs =>
    cases vs with
    | nil => rfl
    | cons _ _ => cases h
  | map es =>
    cases es with
    | nil => rfl
    | cons _ _ => cases h
  | _ => rfl

/-- Up to the number of words there are, a count that is zero as a word is zero. -/
theorem ofNat_eq_zero {n : Nat} (hn : n < UInt64.size) (h : Int64.ofNat n = 0) : n = 0 := by
  have hbits : (BitVec.ofNat 64 n).toNat = 0 := congrArg (fun i => i.toBitVec.toNat) h
  rwa [BitVec.toNat_ofNat, Nat.mod_eq_of_lt hn] at hbits

/-- **A value that fails the guard has no entries.** -/
theorem entries_eq_nil_of_guard (hn : v.count < UInt64.size) (h : v.guard = false) :
    v.entries = [] := by
  rcases Bool.and_eq_false_iff.mp h with htruthy | hcount
  · exact entries_eq_nil_of_not_isTruthy htruthy
  · exact entries_eq_nil_of_count (ofNat_eq_zero hn (not_not.mp (of_decide_eq_false hcount)))

end Value

/-! ### Collections -/

/-- Expressions for the collection of a loop: variables, members of them, and elements under literal
keys. -/
inductive Expr.IsCollection : Expr → Prop
  | var (name : String) : IsCollection (.var name)
  | member {base : Expr} (name : String) (h : base.IsCollection) : IsCollection (.member base name)
  | index {base : Expr} (key : Value) (h : base.IsCollection) :
      IsCollection (.index base (.literal key))

/-- A collection has a value in every state, and looking at it changes nothing. -/
theorem Expr.IsCollection.eval (h : e.IsCollection) (host : Host σ) (st : State σ) :
    ∃ v, e.eval host st = .ok v st := by
  induction h with
  | var name =>
    rw [Expr.eval, Run.readVar, get_bind_eq]
    split
    · exact ⟨_, rfl⟩
    · exact ⟨_, rfl⟩
  | member name _ ih =>
    obtain ⟨v, hv⟩ := ih
    rw [Expr.eval, Run.bind_of_ok hv]
    exact ⟨_, rfl⟩
  | index key _ ih =>
    obtain ⟨v, hv⟩ := ih
    rw [Expr.eval, Run.bind_of_ok hv]
    exact ⟨_, rfl⟩

/-! ### The guard -/

/-- The statement `if (list && count(list)) foreach (list as key => value) { body }`. -/
def Stmt.guarded (list : Expr) (key : Option Expr) (value : Expr) (body : List Stmt) : Stmt :=
  .cond [.mk (.binary .and list (.call "count" [list])) [.foreach list key value body]] none

/-- The call of the count, where no function of the host stands in its way. -/
theorem eval_count (he : e.eval host st = .ok v st) (hcount : host.functions "count" = none) :
    (Expr.call "count" [e]).eval host st = .ok (.int (Int64.ofNat v.count)) st := by
  have hall : evalAll host [e] st = .ok [v] st := by
    rw [evalAll, Run.bind_of_ok he]
    rfl
  have hcall : host.call "count" [v] = Run.ofExcept (.ok (.int (Int64.ofNat v.count))) := by
    show host.callFunction "count" [v] = _
    rw [Host.callFunction, hcount]
    rfl
  rw [Expr.eval, Run.bind_of_ok hall, hcall]
  rfl

theorem eval_guard (he : list.eval host st = .ok v st) (hcount : host.functions "count" = none) :
    (Expr.binary .and list (.call "count" [list])).eval host st = .ok (.bool v.guard) st := by
  rw [Expr.eval, Run.bind_of_ok he, Value.guard]
  cases v.isTruthy with
  | false => rfl
  | true =>
    rw [if_pos rfl, Run.bind_of_ok (eval_count he hcount), Bool.true_and]
    rfl

/-- A loop over nothing does nothing. -/
theorem exec_foreach_nil (he : list.eval host st = .ok v st) (hv : v.entries = []) :
    (Stmt.foreach list key value body).exec host st = .ok .normal st := by
  rw [exec_foreach he, hv, eachRound]
  rfl

/-- **The guard does not change what a loop does.** -/
theorem exec_guarded (he : list.eval host st = .ok v st) (hn : v.count < UInt64.size)
    (hcount : host.functions "count" = none) :
    (Stmt.guarded list key value body).exec host st =
      (Stmt.foreach list key value body).exec host st := by
  rw [Stmt.guarded, Stmt.exec, execBranches, Run.bind_of_ok (eval_guard he hcount)]
  cases hguard : v.guard with
  | true => exact execBlock_singleton _
  | false =>
    rw [exec_foreach_nil he (Value.entries_eq_nil_of_guard hn hguard)]
    rfl

/-! ### Elements -/

/-- The document starts with an element under a loop over the entries of `list`: `body` is what one
round executes, and `K` what comes after the element. -/
inductive Document.Repeats :
    Document → Expr → Option Expr → Expr → List Stmt → List Stmt → Prop
  | alone {tag : OpenTag} {e : Ending} {h} {rest : Document} {l : Collection} {vars : EntryVars}
      {controls : List Control} (hcontrols : tag.controls = .entries l vars :: controls) :
      Repeats (.alone tag e h rest) l.expr vars.key? vars.target
        (mergeTexts (around controls [.text (String.ofList (tag.kept e))]))
        (mergeTexts rest.stmts)
  | paired {tag : OpenTag} {hvoid} {content : Document} {closing : ElementName} {hsame}
      {rest : Document} {l : Collection} {vars : EntryVars} {controls : List Control}
      (hcontrols : tag.controls = .entries l vars :: controls) :
      Repeats (.paired tag hvoid content closing hsame rest) l.expr vars.key? vars.target
        (mergeTexts (around controls (.text (String.ofList (tag.kept .plain)) ::
          (content.stmts ++ [.text (String.ofList (closingTag closing))]))))
        (mergeTexts rest.stmts)

variable {t : Document} {K : List Stmt}

/-- An element under a loop is the guarded loop, in front of the rest. -/
theorem Document.Repeats.mergeTexts_stmts (h : t.Repeats list key value body K) :
    mergeTexts t.stmts = Stmt.guarded list key value body :: K := by
  cases h with
  | alone hcontrols =>
    rw [Document.stmts, hcontrols]
    rfl
  | paired hcontrols =>
    rw [Document.stmts, hcontrols]
    rfl

/-- **The guard of a loop is invisible.**  In every state the collection has a value, and, as long
as words are enough to count its elements, the loop behind its guard does what the loop does without
it: its outcome and the state afterwards are the same.  It goes through the entries of the value one
by one, and there are none, and the body never runs, when the value is no array or is empty.  The
code of an element under a loop is that loop. -/
theorem loop_guard_invisible (hlist : list.IsCollection)
    (hcount : host.functions "count" = none) (key : Option Expr) (value : Expr)
    (body : List Stmt) (st : State σ) :
    ∃ v, list.eval host st = .ok v st ∧ (v.count < UInt64.size →
      (Stmt.guarded list key value body).exec host st =
        (Stmt.foreach list key value body).exec host st ∧
      EntryByEntry host.limit (bindEntry host key value) (execBlock host body) host.limit v.entries
        st ((Stmt.guarded list key value body).exec host st) ∧
      (v.isArray = false ∨ v.count = 0 → v.entries = [] ∧
        (Stmt.guarded list key value body).exec host st = .ok .normal st) ∧
      ∀ (t : Document) K, t.Repeats list key value body K → ∀ name, ∃ out program,
        compileScopes t.source = (out, []) ∧ parseProgram name out = .ok program ∧
        execBlock host program.body st =
          execBlock host (.foreach list key value body :: K) st) := by
  obtain ⟨v, hv⟩ := hlist.eval host st
  refine ⟨v, hv, fun hn => ?_⟩
  have hguard : (Stmt.guarded list key value body).exec host st = _ := exec_guarded hv hn hcount
  refine ⟨hguard, ?_, ?_, ?_⟩
  · rw [hguard, exec_foreach hv]
    exact eachRound_entryByEntry _ _ _ _
  · intro hempty
    have hentries : v.entries = [] := by
      rcases hempty with hscalar | hzero
      · exact Value.entries_eq_nil_of_not_isArray hscalar
      · exact Value.entries_eq_nil_of_count hzero
    exact ⟨hentries, hguard.trans (exec_foreach_nil hv hentries)⟩
  · intro t K ht name
    refine ⟨t.code, _, compileScopes_document t, parseProgram_code name t, ?_⟩
    rw [ht.mergeTexts_stmts]
    exact execBlock_cons_congr K hguard

/-! ### Two items, and none -/

/-- The state in which the variable `l` of the context has the value. -/
def withItems (v : Value) : State Unit := { untouched with context := { vars := [("l", v)] } }

/-- The element is written for each of two items, and for the number 5, which passes the guard but
has no entries, it is not written. -/
theorem loop_guard_invisible_items :
    let host : Host Unit := { bareHost with limit := 2 }
    let list := Expr.member (.var "__ctx") "l"
    let value := Expr.member (.var "__ctx") "v"
    let items := Value.list [.int 1, .string "2"]
    list.IsCollection ∧ host.functions "count" = none ∧ items.count < UInt64.size ∧
      (Value.int 5).guard = true ∧
      (Stmt.guarded list none value [.text "<li>x</li>"]).exec host (withItems (.int 5)) =
        .ok .normal (withItems (.int 5)) ∧
      ∃ out program, compileScopes "<li loop=\x22$l=>$v\x22>x</li>".toList = (out, []) ∧
        parseProgram "items" out = .ok program ∧
        execBlock host program.body (withItems items) = .ok .normal
          { withItems items with
            context := { vars := [("l", items), ("v", .string "2")] }
            out := "<li>x</li><li>x</li>" } := by
  intro host list value items
  have hlist : list.IsCollection := .member "l" (.var "__ctx")
  have hcount : host.functions "count" = none := rfl
  -- the element as a document
  let name : ElementName := ⟨"li".toList, none, by decide, forall_mem_of_all (by decide), nofun⟩
  let collection : Collection := ⟨"$l".toList, list, rfl, rfl, by unfold FitsAttribute; decide⟩
  let binder : Binder := ⟨"$v".toList, value, rfl, by unfold FitsAttribute; decide⟩
  let tag : OpenTag := ⟨name, [.control (.entries collection (.value binder (by decide)))]⟩
  let t : Document := .paired tag rfl (.text "x".toList (by decide) .done) name rfl .done
  have hsource : t.source = "<li loop=\x22$l=>$v\x22>x</li>".toList := by decide
  have hbody : mergeTexts [.text (String.ofList (tag.kept .plain)),
      .text (String.ofList "x".toList), .text (String.ofList (closingTag name))] =
        [.text "<li>x</li>"] := by
    rw [mergeTexts_text, mergeTexts_text, mergeTexts_text]
    exact congrArg (fun s => [Stmt.text s]) (by decide +kernel)
  have ht : t.Repeats list none value [.text "<li>x</li>"] [] := by
    have hcontrols : tag.controls = [.entries collection (.value binder (by decide))] := rfl
    rw [← hbody]
    exact .paired hcontrols
  obtain ⟨v, hv, hnothing⟩ := loop_guard_invisible hlist hcount none value [.text "<li>x</li>"]
    (withItems (.int 5))
  cases hv
  obtain ⟨-, -, hscalar, -⟩ := hnothing (by decide)
  obtain ⟨v, hv, hitems⟩ := loop_guard_invisible hlist hcount none value [.text "<li>x</li>"]
    (withItems items)
  cases hv
  obtain ⟨-, -, -, helement⟩ := hitems (by decide)
  obtain ⟨out, program, hcompiled, hparsed, hexec⟩ := helement t [] ht "items"
  rw [hsource] at hcompiled
  refine ⟨hlist, hcount, by decide, rfl, (hscalar (.inl rfl)).2, out, program, hcompiled, hparsed,
    hexec.trans ?_⟩
  rfl

end Stencil
