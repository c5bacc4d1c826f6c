import Stencil.Proofs.Sequencing

/-!
# Rounds of a loop over entries

A loop over entries takes them one by one, in their order: it binds an entry and runs the body once.
It goes on as long as the body ends normally or with `continue`, there are entries left, and the
limit on its rounds allows another one.

## Main definitions

* `Rounds` — complete rounds, one for each entry of a list.
* `EndsBehind` — how the loop ends behind its complete rounds.
* `EntryByEntry` — complete rounds for the first entries, and then the end.

## Main results

* `eachRound_of_rounds` — a loop with a complete round for every entry ends normally.
* `eachRound_entryByEntry` — every loop goes entry by entry.
* `exec_foreach` — the statement is the loop over the entries of its subject.
-/

namespace Stencil

variable {σ : Type} {bind : Value → Value → Run σ Unit} {body : Run σ Flow}
  {limit n : Nat} {entries rest : List (Value × Value)} {st st' : State σ}

/-- From the first state to the second one there is a complete round for each of the entries, one
after the other: the entry is bound, and the body runs once and does not leave the loop. -/
inductive Rounds (bind : Value → Value → Run σ Unit) (body : Run σ Flow) :
    List (Value × Value) → State σ → State σ → Prop
  | nil {st : State σ} : Rounds bind body [] st st
  | cons {k v : Value} {rest : List (Value × Value)} {flow : Flow} {st st₁ st₂ st' : State σ}
      (hbind : bind k v st = .ok () st₁) (hbody : body st₁ = .ok flow st₂)
      (hflow : flow = .normal ∨ flow = .continueOn) (h : Rounds bind body rest st₂ st') :
      Rounds bind body ((k, v) :: rest) st st'

/-- How a loop ends in a state, with so many rounds and these entries left: there is no entry, or no
round is left for it, or binding it fails, or the body fails or leaves the loop. -/
inductive EndsBehind (limit : Nat) (bind : Value → Value → Run σ Unit) (body : Run σ Flow) :
    Nat → List (Value × Value) → State σ → EStateM.Result TemplateError (State σ) Flow → Prop
  | done {n : Nat} {st : State σ} : EndsBehind limit bind body n [] st (.ok .normal st)
  | limit {e : Value × Value} {rest : List (Value × Value)} {st : State σ} :
      EndsBehind limit bind body 0 (e :: rest) st (.error (.runtime (.iterationLimit limit)) st)
  | unbound {n : Nat} {k v : Value} {rest : List (Value × Value)} {err : TemplateError}
      {st st₁ : State σ} (hbind : bind k v st = .error err st₁) :
      EndsBehind limit bind body (n + 1) ((k, v) :: rest) st (.error err st₁)
  | fails {n : Nat} {k v : Value} {rest : List (Value × Value)} {err : TemplateError}
      {st st₁ st₂ : State σ} (hbind : bind k v st = .ok () st₁)
      (hbody : body st₁ = .error err st₂) :
      EndsBehind limit bind body (n + 1) ((k, v) :: rest) st (.error err st₂)
  | breaks {n : Nat} {k v : Value} {rest : List (Value × Value)} {st st₁ st₂ : State σ}
      (hbind : bind k v st = .ok () st₁) (hbody : body st₁ = .ok .breakOut st₂) :
      EndsBehind limit bind body (n + 1) ((k, v) :: rest) st (.ok .normal st₂)
  | exits {n : Nat} {k v : Value} {rest : List (Value × Value)} {st st₁ st₂ : State σ}
      (hbind : bind k v st = .ok () st₁) (hbody : body st₁ = .ok .exit st₂) :
      EndsBehind limit bind body (n + 1) ((k, v) :: rest) st (.ok .exit st₂)

/-- A loop, with so many rounds left, has a complete round for each of its first entries, in their
order, and then ends: behind the last entry, at the limit, or in the round of the next entry. -/
def EntryByEntry (limit : Nat) (bind : Value → Value → Run σ Unit) (body : Run σ Flow) (n : Nat)
    (entries : List (Value × Value)) (st : State σ)
    (r : EStateM.Result TemplateError (State σ) Flow) : Prop :=
  ∃ done rest st', entries = done ++ rest ∧ done.length ≤ n ∧ Rounds bind body done st st' ∧
    EndsBehind limit bind body (n - done.length) rest st' r

/-- A complete round, and the loop goes on with the rest. -/
theorem eachRound_cons {k v : Value} {flow : Flow} {st₁ st₂ : State σ}
    (hbind : bind k v st = .ok () st₁) (hbody : body st₁ = .ok flow st₂)
    (hflow : flow = .normal ∨ flow = .continueOn) :
    eachRound limit bind body (n + 1) ((k, v) :: rest) st =
      eachRound limit bind body n rest st₂ := by
  rw [eachRound, Run.bind_of_ok hbind, Run.bind_of_ok hbody]
  rcases hflow with rfl | rfl
  · rfl
  · rfl

/-- A loop with complete rounds for its first entries goes on with the rest. -/
theorem eachRound_append (h : Rounds bind body entries st st') :
    eachRound limit bind body (entries.length + n) (entries ++ rest) st =
      eachRound limit bind body n rest st' := by
  induction h with
  | nil => rw [List.length_nil, Nat.zero_add, List.nil_append]
  | cons hbind hbody hflow _ ih =>
    rw [List.length_cons, Nat.add_right_comm, List.cons_append, eachRound_cons hbind hbody hflow,
      ih]

/-- A loop with a complete round for every entry ends normally. -/
theorem eachRound_of_rounds (h : Rounds bind body entries st st') (hn : entries.length ≤ n) :
    eachRound limit bind body n entries st = .ok .normal st' := by
  obtain ⟨m, rfl⟩ := Nat.exists_eq_add_of_le hn
  have happend : eachRound limit bind body (entries.length + m) (entries ++ []) st =
      eachRound limit bind body m [] st' := eachRound_append h
  rw [List.append_nil] at happend
  rw [happend, eachRound]
  rfl

theorem EntryByEntry.now {r : EStateM.Result TemplateError (State σ) Flow}
    (h : EndsBehind limit bind body n entries st r) :
    EntryByEntry limit bind body n entries st r :=
  ⟨[], entries, st, rfl, Nat.zero_le n, .nil, h⟩

theorem EntryByEntry.later {k v : Value} {flow : Flow} {st₁ st₂ : State σ}
    {r : EStateM.Result TemplateError (State σ) Flow} (hbind : bind k v st = .ok () st₁)
    (hbody : body st₁ = .ok flow st₂) (hflow : flow = .normal ∨ flow = .continueOn)
    (h : EntryByEntry limit bind body n rest st₂ r) :
    EntryByEntry limit bind body (n + 1) ((k, v) :: rest) st r := by
  obtain ⟨done, left, st', rfl, hlength, hrounds, hends⟩ := h
  refine ⟨(k, v) :: done, left, st', rfl, Nat.succ_le_succ hlength,
    .cons hbind hbody hflow hrounds, ?_⟩
  rwa [List.length_cons, Nat.add_sub_add_right]

/-- **Every loop goes entry by entry.** -/
theorem eachRound_entryByEntry (limit n : Nat) (entries : List (Value × Value)) (st : State σ) :
    EntryByEntry limit bind body n entries st (eachRound limit bind body n entries st) := by
  induction entries generalizing n st with
  | nil =>
    rw [eachRound]
    exact .now .done
  | cons entry entries ih =>
    obtain ⟨k, v⟩ := entry
    cases n with
    | zero =>
      rw [eachRound]
      exact .now .limit
    | succ n =>
      cases hbind : bind k v st with
      | error err st₁ =>
        rw [eachRound, Run.bind_of_error hbind]
        exact .now (.unbound hbind)
      | ok u st₁ =>
        cases hbody : body st₁ with
        | error err st₂ =>
          rw [eachRound, Run.bind_of_ok hbind, Run.bind_of_error hbody]
          exact .now (.fails hbind hbody)
        | ok flow st₂ =>
          cases flow with
          | normal =>
            rw [eachRound_cons hbind hbody (.inl rfl)]
            exact (ih n st₂).later hbind hbody (.inl rfl)
          | continueOn =>
            rw [eachRound_cons hbind hbody (.inr rfl)]
            exact (ih n st₂).later hbind hbody (.inr rfl)
          | breakOut =>
            rw [eachRound, Run.bind_of_ok hbind, Run.bind_of_ok hbody]
            exact .now (.breaks hbind hbody)
          | exit =>
            rw [eachRound, Run.bind_of_ok hbind, Run.bind_of_ok hbody]
            exact .now (.exits hbind hbody)

/-- The loop over the entries of a value goes through them as they are before its first round. -/
theorem exec_foreach {host : Host σ} {subject value : Expr} {key : Option Expr}
    {statements : List Stmt} {v : Value} (h : subject.eval host st = .ok v st) :
    (Stmt.foreach subject key value statements).exec host st =
      eachRound host.limit (bindEntry host key value) (execBlock host statements) host.limit
        v.entries st := by
  rw [Stmt.exec, Run.bind_of_ok h]

end Stencil
