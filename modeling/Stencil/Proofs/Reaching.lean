import Stencil.Proofs.Relating

/-!
# What the run of a program comes to

Statements pass up how they ended, and each form of statement absorbs this or passes it on.  Here it
is told without that value which statements a run executes: the bodies that a statement runs, and
from which states, are described by rules, and a statement is executed when the statements in front
of it, or the earlier rounds and arms around it, have ended so that it comes next.

## Main definitions

* `Stmt.encloses` — the statements that `break` and `continue` affect: loops and switches.
* `Opens host s st body st'` — the statement `s`, run from `st`, runs `body` from `st'`.
* `Comes host into t body st` — the statements, run from `st`, come to the statement `t`, which
  stands directly among them or in bodies of statements that `into` allows.
* `Exits`, `Strays` — an `exit` is executed, or a `break` or `continue` outside of every loop and
  switch.

## Main results

* `Stmt.exec_cases` — a statement that does not end normally is a jump or runs a body that is left
  by one.
* `execBlock_eq_iff` — statements end with a jump exactly when they come to one that leaves them;
  `exits_iff`, `strays_iff` are its cases.
-/

namespace Stencil

variable {σ : Type}

/-- Whether the statement is a loop or a switch. -/
def Stmt.encloses : Stmt → Bool
  | .foreach .. | .forLoop .. | .whileLoop .. | .switch .. => true
  | _ => false

/-- The statement that ends like this. -/
def Flow.statement? : Flow → Option Stmt
  | .normal => none
  | .breakOut => some .breakOut
  | .continueOn => some .continueOn
  | .exit => some .exit

/-- What ends the body of the statement like this ends the statement like this, too: an `exit` ends
everything, the other ones all but loops and switches. -/
def Flow.Leaves : Flow → Stmt → Prop
  | .exit, _ => True
  | _, s => s.encloses = false

/-! ### Bodies -/

/-- The branches, or else the last body, are decided for a body. -/
inductive Chooses (host : Host σ) (otherwise : Option (List Stmt)) :
    List Branch → State σ → List Stmt → State σ → Prop
  | taken {cond : Expr} {body : List Stmt} {rest : List Branch} {v : Value} {st st' : State σ}
      (hcond : cond.eval host st = .ok v st') (hv : v.isTruthy = true) :
      Chooses host otherwise (.mk cond body :: rest) st body st'
  | next {cond : Expr} {skipped body : List Stmt} {rest : List Branch} {v : Value}
      {st st₁ st' : State σ} (hcond : cond.eval host st = .ok v st₁) (hv : v.isTruthy = false)
      (h : Chooses host otherwise rest st₁ body st') :
      Chooses host otherwise (.mk cond skipped :: rest) st body st'
  | last {body : List Stmt} {st : State σ} (h : otherwise = some body) :
      Chooses host otherwise [] st body st

/-- A loop under a condition, with so many rounds left, begins a round in the second state. -/
inductive BeginsRound (cond : Run σ Bool) (body : Run σ Flow) (step : Run σ Unit) :
    Nat → State σ → State σ → Prop
  | now {n : Nat} {st st' : State σ} (hcond : cond st = .ok true st') :
      BeginsRound cond body step (n + 1) st st'
  | later {n : Nat} {flow : Flow} {st st₁ st₂ st₃ st' : State σ} (hcond : cond st = .ok true st₁)
      (hbody : body st₁ = .ok flow st₂) (hflow : flow = .normal ∨ flow = .continueOn)
      (hstep : step st₂ = .ok () st₃) (h : BeginsRound cond body step n st₃ st') :
      BeginsRound cond body step (n + 1) st st'

/-- A loop over entries, with so many rounds left, begins a round in the second state. -/
inductive BeginsEntry (bind : Value → Value → Run σ Unit) (body : Run σ Flow) :
    Nat → List (Value × Value) → State σ → State σ → Prop
  | now {n : Nat} {k v : Value} {rest : List (Value × Value)} {st st' : State σ}
      (hbind : bind k v st = .ok () st') : BeginsEntry bind body (n + 1) ((k, v) :: rest) st st'
  | later {n : Nat} {k v : Value} {rest : List (Value × Value)} {flow : Flow}
      {st st₁ st₂ st' : State σ} (hbind : bind k v st = .ok () st₁)
      (hbody : body st₁ = .ok flow st₂) (hflow : flow = .normal ∨ flow = .continueOn)
      (h : BeginsEntry bind body n rest st₂ st') :
      BeginsEntry bind body (n + 1) ((k, v) :: rest) st st'

/-- A switch that starts behind the first `n` arms begins an arm, itself or because it fell through
from the one before. -/
inductive BeginsArm (host : Host σ) : Nat → List Arm → State σ → List Stmt → State σ → Prop
  | skip {n : Nat} {arm : Arm} {rest : List Arm} {body : List Stmt} {st st' : State σ}
      (h : BeginsArm host n rest st body st') : BeginsArm host (n + 1) (arm :: rest) st body st'
  | now {label : Option Expr} {body : List Stmt} {rest : List Arm} {st : State σ} :
      BeginsArm host 0 (.mk label body :: rest) st body st
  | later {label : Option Expr} {before body : List Stmt} {rest : List Arm} {st st₁ st' : State σ}
      (hbefore : execBlock host before st = .ok .normal st₁)
      (h : BeginsArm host 0 rest st₁ body st') :
      BeginsArm host 0 (.mk label before :: rest) st body st'

/-- The statement, run from the first state, runs the body from the second one. -/
inductive Opens (host : Host σ) : Stmt → State σ → List Stmt → State σ → Prop
  | cond {branches : List Branch} {otherwise : Option (List Stmt)} {body : List Stmt}
      {st st' : State σ} (h : Chooses host otherwise branches st body st') :
      Opens host (.cond branches otherwise) st body st'
  | foreach {subject value : Expr} {key : Option Expr} {body : List Stmt} {v : Value}
      {st st₁ st' : State σ} (hsubject : subject.eval host st = .ok v st₁)
      (h : BeginsEntry (bindEntry host key value) (execBlock host body) host.limit v.entries
        st₁ st') :
      Opens host (.foreach subject key value body) st body st'
  | forLoop {init step : List Expr} {cond : Option Expr} {body : List Stmt} {vs : List Value}
      {st st₁ st' : State σ} (hinit : evalAll host init st = .ok vs st₁)
      (h : BeginsRound (evalCond host cond) (execBlock host body) (discard (evalAll host step))
        host.limit st₁ st') :
      Opens host (.forLoop init cond step body) st body st'
  | whileLoop {cond : Expr} {body : List Stmt} {st st' : State σ}
      (h : BeginsRound (evalCond host (some cond)) (execBlock host body) (pure ()) host.limit
        st st') :
      Opens host (.whileLoop cond body) st body st'
  | switch {subject : Expr} {arms : List Arm} {n : Nat} {body : List Stmt} {v : Value}
      {st st₁ st₂ st' : State σ} (hsubject : subject.eval host st = .ok v st₁)
      (hstart : startingArm host v arms st₁ = .ok (some n) st₂)
      (h : BeginsArm host n arms st₂ body st') :
      Opens host (.switch subject arms) st body st'

/-- The statements, run from the state, come to the statement `t`; on the way to it they enter only
bodies of statements of which `into` holds. -/
inductive Comes (host : Host σ) (into : Stmt → Prop) (t : Stmt) : List Stmt → State σ → Prop
  | here {rest : List Stmt} {st : State σ} : Comes host into t (t :: rest) st
  | inside {s : Stmt} {rest body : List Stmt} {st st' : State σ} (hinto : into s)
      (hopen : Opens host s st body st') (h : Comes host into t body st') :
      Comes host into t (s :: rest) st
  | later {s : Stmt} {rest : List Stmt} {st st' : State σ} (hs : s.exec host st = .ok .normal st')
      (h : Comes host into t rest st') : Comes host into t (s :: rest) st

/-- The statements, run from the state, execute an `exit`. -/
def Exits (host : Host σ) (body : List Stmt) (st : State σ) : Prop :=
  Comes host (fun _ => True) .exit body st

/-- The statements, run from the state, execute a `break` or `continue` outside of all their loops
and switches. -/
def Strays (host : Host σ) (body : List Stmt) (st : State σ) : Prop :=
  Comes host (fun s => s.encloses = false) .breakOut body st ∨
    Comes host (fun s => s.encloses = false) .continueOn body st

/-! ### Statements that do not end normally -/

section Inversion

variable {host : Host σ} {flow : Flow} {st st₁ : State σ}

theorem discard_eq_ok {α : Type} {m : Run σ α} :
    discard m st = .ok () st₁ ↔ ∃ a, m st = .ok a st₁ := by
  rw [discard_eq, Run.bind_eq_ok]
  simp only [Run.pure_eq_ok]
  grind

theorem execBranches_cases {otherwise : Option (List Stmt)} {last : Run σ Flow}
    (hlast : ∀ st, last st = .ok flow st₁ →
      ∃ body, otherwise = some body ∧ execBlock host body st = .ok flow st₁)
    {branches : List Branch} (h : execBranches host last branches st = .ok flow st₁) :
    ∃ body st', Chooses host otherwise branches st body st' ∧
      execBlock host body st' = .ok flow st₁ := by
  induction branches generalizing st with
  | nil =>
    rw [execBranches] at h
    obtain ⟨body, hbody, hexec⟩ := hlast st h
    exact ⟨body, st, .last hbody, hexec⟩
  | cons branch rest ih =>
    rcases branch with ⟨cond, body⟩
    rw [execBranches, Run.bind_eq_ok] at h
    obtain ⟨v, st₂, hcond, h⟩ := h
    cases hv : v.isTruthy with
    | true =>
      rw [if_pos hv] at h
      exact ⟨body, st₂, .taken hcond hv, h⟩
    | false =>
      rw [if_neg (by simp [hv])] at h
      obtain ⟨chosen, st', hchosen, hexec⟩ := ih h
      exact ⟨chosen, st', .next hcond hv hchosen, hexec⟩

theorem whileRounds_cases {limit n : Nat} {cond : Run σ Bool} {body : Run σ Flow}
    {step : Run σ Unit} (h : whileRounds limit cond body step n st = .ok flow st₁)
    (hflow : flow ≠ .normal) :
    flow = .exit ∧ ∃ st', BeginsRound cond body step n st st' ∧ body st' = .ok .exit st₁ := by
  induction n generalizing st with
  | zero =>
    rw [whileRounds, Run.bind_eq_ok] at h
    obtain ⟨_ | _, st₂, -, h⟩ := h
    · exact absurd (Run.pure_eq_ok.mp h).1.symm hflow
    · cases h
  | succ n ih =>
    rw [whileRounds, Run.bind_eq_ok] at h
    obtain ⟨_ | _, st₂, hcond, h⟩ := h
    · exact absurd (Run.pure_eq_ok.mp h).1.symm hflow
    · obtain ⟨ended, st₃, hbody, h⟩ := Run.bind_eq_ok.mp h
      cases ended with
      | breakOut => exact absurd (Run.pure_eq_ok.mp h).1.symm hflow
      | exit =>
        obtain ⟨rfl, rfl⟩ := Run.pure_eq_ok.mp h
        exact ⟨rfl, st₂, .now hcond, hbody⟩
      | normal =>
        obtain ⟨_, st₄, hstep, h⟩ := Run.bind_eq_ok.mp h
        obtain ⟨rfl, st', hround, hexit⟩ := ih h
        exact ⟨rfl, st', .later hcond hbody (.inl rfl) hstep hround, hexit⟩
      | continueOn =>
        obtain ⟨_, st₄, hstep, h⟩ := Run.bind_eq_ok.mp h
        obtain ⟨rfl, st', hround, hexit⟩ := ih h
        exact ⟨rfl, st', .later hcond hbody (.inr rfl) hstep hround, hexit⟩

theorem eachRound_cases {limit n : Nat} {bind : Value → Value → Run σ Unit} {body : Run σ Flow}
    {entries : List (Value × Value)} (h : eachRound limit bind body n entries st = .ok flow st₁)
    (hflow : flow ≠ .normal) :
    flow = .exit ∧ ∃ st', BeginsEntry bind body n entries st st' ∧ body st' = .ok .exit st₁ := by
  induction entries generalizing n st with
  | nil =>
    rw [eachRound] at h
    exact absurd (Run.pure_eq_ok.mp h).1.symm hflow
  | cons entry rest ih =>
    rcases entry with ⟨k, v⟩
    cases n with
    | zero =>
      rw [eachRound] at h
      cases h
    | succ n =>
      rw [eachRound, Run.bind_eq_ok] at h
      obtain ⟨_, st₂, hbind, h⟩ := h
      obtain ⟨ended, st₃, hbody, h⟩ := Run.bind_eq_ok.mp h
      cases ended with
      | breakOut => exact absurd (Run.pure_eq_ok.mp h).1.symm hflow
      | exit =>
        obtain ⟨rfl, rfl⟩ := Run.pure_eq_ok.mp h
        exact ⟨rfl, st₂, .now hbind, hbody⟩
      | normal =>
        obtain ⟨rfl, st', hround, hexit⟩ := ih h
        exact ⟨rfl, st', .later hbind hbody (.inl rfl) hround, hexit⟩
      | continueOn =>
        obtain ⟨rfl, st', hround, hexit⟩ := ih h
        exact ⟨rfl, st', .later hbind hbody (.inr rfl) hround, hexit⟩

theorem execArms_cases {n : Nat} {arms : List Arm} (h : execArms host n arms st = .ok flow st₁)
    (hflow : flow ≠ .normal) :
    flow = .exit ∧ ∃ body st', BeginsArm host n arms st body st' ∧
      execBlock host body st' = .ok .exit st₁ := by
  induction arms generalizing n st with
  | nil =>
    rw [execArms] at h
    exact absurd (Run.pure_eq_ok.mp h).1.symm hflow
  | cons arm rest ih =>
    cases n with
    | succ n =>
      rw [execArms] at h
      obtain ⟨rfl, body, st', harm, hexit⟩ := ih h
      exact ⟨rfl, body, st', .skip harm, hexit⟩
    | zero =>
      rcases arm with ⟨label, body⟩
      rw [execArms, Run.bind_eq_ok] at h
      obtain ⟨ended, st₂, hbody, h⟩ := h
      cases ended with
      | normal =>
        obtain ⟨rfl, last, st', harm, hexit⟩ := ih h
        exact ⟨rfl, last, st', .later hbody harm, hexit⟩
      | exit =>
        obtain ⟨rfl, rfl⟩ := Run.pure_eq_ok.mp h
        exact ⟨rfl, body, st, .now, hbody⟩
      | breakOut => exact absurd (Run.pure_eq_ok.mp h).1.symm hflow
      | continueOn => exact absurd (Run.pure_eq_ok.mp h).1.symm hflow

/-- A statement that does not end normally is a jump, or it runs a body that ends like this, and
what ends the body so ends the statement, too. -/
theorem Stmt.exec_cases {s : Stmt} (h : s.exec host st = .ok flow st₁) (hflow : flow ≠ .normal) :
    flow.statement? = some s ∨ ∃ body st', Opens host s st body st' ∧
      execBlock host body st' = .ok flow st₁ ∧ flow.Leaves s := by
  cases s with
  | text _ | echo _ | expr _ =>
    simp only [Stmt.exec] at h
    obtain ⟨_, st₂, -, h⟩ := Run.bind_eq_ok.mp h
    exact absurd (Run.pure_eq_ok.mp h).1.symm hflow
  | cond branches otherwise =>
    right
    have hleaves : flow.Leaves (.cond branches otherwise) := by cases flow <;> trivial
    cases otherwise with
    | none =>
      rw [Stmt.exec] at h
      have hlast : ∀ st, (pure .normal : Run σ Flow) st = .ok flow st₁ →
          ∃ body, none = some body ∧ execBlock host body st = .ok flow st₁ := fun st hst =>
        absurd (Run.pure_eq_ok.mp hst).1.symm hflow
      obtain ⟨body, st', hbody, hexec⟩ := execBranches_cases hlast h
      exact ⟨body, st', .cond hbody, hexec, hleaves⟩
    | some last =>
      rw [Stmt.exec] at h
      obtain ⟨body, st', hbody, hexec⟩ :=
        execBranches_cases (fun st hst => ⟨last, rfl, hst⟩) h
      exact ⟨body, st', .cond hbody, hexec, hleaves⟩
  | foreach subject key value body =>
    right
    rw [Stmt.exec, Run.bind_eq_ok] at h
    obtain ⟨v, st₂, hsubject, h⟩ := h
    obtain ⟨rfl, st', hround, hexit⟩ := eachRound_cases h hflow
    exact ⟨body, st', .foreach hsubject hround, hexit, trivial⟩
  | forLoop init cond step body =>
    right
    rw [Stmt.exec, Run.bind_eq_ok] at h
    obtain ⟨_, st₂, hinit, h⟩ := h
    obtain ⟨vs, hinit⟩ := discard_eq_ok.mp hinit
    obtain ⟨rfl, st', hround, hexit⟩ := whileRounds_cases h hflow
    exact ⟨body, st', .forLoop hinit hround, hexit, trivial⟩
  | whileLoop cond body =>
    right
    rw [Stmt.exec] at h
    obtain ⟨rfl, st', hround, hexit⟩ := whileRounds_cases h hflow
    exact ⟨body, st', .whileLoop hround, hexit, trivial⟩
  | switch subject arms =>
    right
    rw [Stmt.exec, Run.bind_eq_ok] at h
    obtain ⟨v, st₂, hsubject, h⟩ := h
    obtain ⟨start, st₃, hstart, h⟩ := Run.bind_eq_ok.mp h
    cases start with
    | none => exact absurd (Run.pure_eq_ok.mp h).1.symm hflow
    | some n =>
      obtain ⟨rfl, body, st', harm, hexit⟩ := execArms_cases h hflow
      exact ⟨body, st', .switch hsubject hstart harm, hexit, trivial⟩
  | breakOut | continueOn | exit =>
    left
    rw [Stmt.exec] at h
    obtain ⟨rfl, -⟩ := Run.pure_eq_ok.mp h
    rfl

end Inversion

/-! ### Bodies that are left -/

section Leaving

variable {host : Host σ} {flow : Flow} {st st' st₁ : State σ}

theorem Chooses.exec {otherwise : Option (List Stmt)} {last : Run σ Flow} {branches : List Branch}
    {body : List Stmt} (h : Chooses host otherwise branches st body st')
    (hlast : ∀ body, otherwise = some body → last = execBlock host body)
    (hbody : execBlock host body st' = .ok flow st₁) :
    execBranches host last branches st = .ok flow st₁ := by
  induction h with
  | taken hcond hv => rw [execBranches, Run.bind_of_ok hcond, if_pos hv, hbody]
  | next hcond hv _ ih =>
    rw [execBranches, Run.bind_of_ok hcond, if_neg (by simp [hv])]
    exact ih hbody
  | last hsome => rw [execBranches, hlast _ hsome, hbody]

theorem BeginsRound.exec {limit n : Nat} {cond : Run σ Bool} {body : Run σ Flow}
    {step : Run σ Unit} (h : BeginsRound cond body step n st st')
    (hbody : body st' = .ok .exit st₁) : whileRounds limit cond body step n st = .ok .exit st₁ := by
  induction h with
  | now hcond =>
    rw [whileRounds, Run.bind_of_ok hcond, if_pos rfl, Run.bind_of_ok hbody]
    rfl
  | later hcond hround hflow hstep _ ih =>
    rw [whileRounds, Run.bind_of_ok hcond, if_pos rfl, Run.bind_of_ok hround]
    rcases hflow with rfl | rfl <;> exact (Run.bind_of_ok hstep).trans (ih hbody)

theorem BeginsEntry.exec {limit n : Nat} {bind : Value → Value → Run σ Unit} {body : Run σ Flow}
    {entries : List (Value × Value)} (h : BeginsEntry bind body n entries st st')
    (hbody : body st' = .ok .exit st₁) :
    eachRound limit bind body n entries st = .ok .exit st₁ := by
  induction h with
  | now hbind =>
    rw [eachRound, Run.bind_of_ok hbind, Run.bind_of_ok hbody]
    rfl
  | later hbind hround hflow _ ih =>
    rw [eachRound, Run.bind_of_ok hbind, Run.bind_of_ok hround]
    rcases hflow with rfl | rfl <;> exact ih hbody

theorem BeginsArm.exec {n : Nat} {arms : List Arm} {body : List Stmt}
    (h : BeginsArm host n arms st body st') (hbody : execBlock host body st' = .ok .exit st₁) :
    execArms host n arms st = .ok .exit st₁ := by
  induction h with
  | skip _ ih =>
    rw [execArms]
    exact ih hbody
  | now =>
    rw [execArms, Run.bind_of_ok hbody]
    rfl
  | later hbefore _ ih =>
    rw [execArms, Run.bind_of_ok hbefore]
    exact ih hbody

/-- What ends a body so that it ends the statement, too, is how the statement ends. -/
theorem Opens.exec {s : Stmt} {body : List Stmt} (h : Opens host s st body st')
    (hbody : execBlock host body st' = .ok flow st₁) (hflow : flow ≠ .normal)
    (hleaves : flow.Leaves s) : s.exec host st = .ok flow st₁ := by
  -- out of loops and switches leads `exit` alone
  have hexit : s.encloses = true → flow = .exit := by
    intro hs
    cases flow with
    | exit => rfl
    | normal => exact absurd rfl hflow
    | breakOut | continueOn => exact absurd (hs.symm.trans hleaves) (by decide)
  cases h with
  | @cond branches otherwise _ _ _ h =>
    cases otherwise with
    | none =>
      rw [Stmt.exec]
      exact h.exec (by simp) hbody
    | some last =>
      rw [Stmt.exec]
      exact h.exec (by simp) hbody
  | foreach hsubject h =>
    cases hexit rfl
    rw [Stmt.exec, Run.bind_of_ok hsubject]
    exact h.exec hbody
  | forLoop hinit h =>
    cases hexit rfl
    rw [Stmt.exec, Run.bind_of_ok (discard_eq_ok.mpr ⟨_, hinit⟩)]
    exact h.exec hbody
  | whileLoop h =>
    cases hexit rfl
    rw [Stmt.exec]
    exact h.exec hbody
  | switch hsubject hstart h =>
    cases hexit rfl
    rw [Stmt.exec, Run.bind_of_ok hsubject, Run.bind_of_ok hstart]
    exact h.exec hbody

end Leaving

/-! ### Statements that are come to -/

section Coming

variable {host : Host σ} {flow : Flow} {t : Stmt} {st st' st₁ : State σ}

theorem Chooses.sizeOf_lt {otherwise : Option (List Stmt)} {branches : List Branch}
    {body : List Stmt} (h : Chooses host otherwise branches st body st') :
    sizeOf body < sizeOf branches + sizeOf otherwise := by
  induction h with
  | taken _ _ =>
    simp only [List.cons.sizeOf_spec, Branch.mk.sizeOf_spec]
    omega
  | next _ _ _ ih =>
    simp only [List.cons.sizeOf_spec]
    omega
  | last hsome =>
    rw [hsome, Option.some.sizeOf_spec]
    omega

theorem BeginsArm.sizeOf_lt {n : Nat} {arms : List Arm} {body : List Stmt}
    (h : BeginsArm host n arms st body st') : sizeOf body < sizeOf arms := by
  induction h with
  | skip _ ih | later _ _ ih =>
    simp only [List.cons.sizeOf_spec]
    omega
  | now =>
    simp only [List.cons.sizeOf_spec, Arm.mk.sizeOf_spec]
    omega

/-- A body is smaller than the statement that it stands in. -/
theorem Opens.sizeOf_lt {s : Stmt} {body : List Stmt} (h : Opens host s st body st') :
    sizeOf body < sizeOf s := by
  cases h with
  | cond h =>
    have := h.sizeOf_lt
    simp only [Stmt.cond.sizeOf_spec]
    omega
  | switch _ _ h =>
    have := h.sizeOf_lt
    simp only [Stmt.switch.sizeOf_spec]
    omega
  | foreach _ _ | forLoop _ _ | whileLoop _ =>
    simp only [Stmt.foreach.sizeOf_spec, Stmt.forLoop.sizeOf_spec, Stmt.whileLoop.sizeOf_spec]
    omega

theorem execBlock_cons_of_normal {s : Stmt} {rest : List Stmt}
    (h : s.exec host st = .ok .normal st') :
    execBlock host (s :: rest) st = execBlock host rest st' := by
  rw [execBlock, Run.bind_of_ok h]

theorem execBlock_cons_of_ne {s : Stmt} {rest : List Stmt} (h : s.exec host st = .ok flow st₁)
    (hflow : flow ≠ .normal) : execBlock host (s :: rest) st = .ok flow st₁ := by
  rw [execBlock, Run.bind_of_ok h]
  cases flow with
  | normal => exact absurd rfl hflow
  | _ => rfl

theorem Flow.ne_normal (ht : flow.statement? = some t) : flow ≠ .normal := by
  rintro rfl
  cases ht

theorem Stmt.exec_jump (ht : flow.statement? = some t) : t.exec host st = .ok flow st := by
  cases flow <;> cases ht <;> rfl

theorem comes_of_execBlock (ht : flow.statement? = some t) (body : List Stmt) {st st₁ : State σ}
    (h : execBlock host body st = .ok flow st₁) : Comes host flow.Leaves t body st := by
  have hne := Flow.ne_normal ht
  match body with
  | [] =>
    rw [execBlock] at h
    exact absurd (Run.pure_eq_ok.mp h).1.symm hne
  | s :: rest =>
    have hs := h
    rw [execBlock, Run.bind_eq_ok] at hs
    obtain ⟨ended, st₂, hexec, hrest⟩ := hs
    by_cases hended : ended = .normal
    · subst hended
      exact .later hexec (comes_of_execBlock ht rest hrest)
    · -- the statement ends like all of them
      rw [execBlock_cons_of_ne hexec hended] at h
      cases h
      rcases s.exec_cases hexec hne with hself | ⟨inner, st', hopen, hinner, hleaves⟩
      · cases ht.symm.trans hself
        exact .here
      · have hlt := hopen.sizeOf_lt
        exact .inside hleaves hopen (comes_of_execBlock ht inner hinner)
termination_by sizeOf body
decreasing_by all_goals simp only [List.cons.sizeOf_spec]; omega

theorem Comes.execBlock {body : List Stmt} (h : Comes host flow.Leaves t body st)
    (ht : flow.statement? = some t) : ∃ st₁, execBlock host body st = .ok flow st₁ := by
  have hne := Flow.ne_normal ht
  induction h with
  | here => exact ⟨_, execBlock_cons_of_ne (Stmt.exec_jump ht) hne⟩
  | inside hinto hopen _ ih =>
    obtain ⟨st₁, hbody⟩ := ih
    exact ⟨st₁, execBlock_cons_of_ne (hopen.exec hbody hne hinto) hne⟩
  | later hs _ ih =>
    obtain ⟨st₁, hrest⟩ := ih
    exact ⟨st₁, (execBlock_cons_of_normal hs).trans hrest⟩

/-- **Statements end with a jump exactly when they come to one**, in bodies of statements that it
leaves. -/
theorem execBlock_eq_iff {body : List Stmt} (ht : flow.statement? = some t) :
    (∃ st₁, execBlock host body st = .ok flow st₁) ↔ Comes host flow.Leaves t body st :=
  ⟨fun ⟨_, h⟩ => comes_of_execBlock ht body h, fun h => h.execBlock ht⟩

/-- Statements execute an `exit` exactly when they end with it. -/
theorem exits_iff {body : List Stmt} :
    Exits host body st ↔ ∃ st₁, execBlock host body st = .ok .exit st₁ := by
  have hexit : _ ↔ Comes host Flow.exit.Leaves .exit body st := execBlock_eq_iff rfl
  exact hexit.symm

/-- Statements stray exactly when they end with a `break` or `continue`. -/
theorem strays_iff {body : List Stmt} :
    Strays host body st ↔ ∃ st₁, execBlock host body st = .ok .breakOut st₁ ∨
      execBlock host body st = .ok .continueOn st₁ := by
  have hbreak : _ ↔ Comes host Flow.breakOut.Leaves .breakOut body st := execBlock_eq_iff rfl
  have hcontinue : _ ↔ Comes host Flow.continueOn.Leaves .continueOn body st :=
    execBlock_eq_iff rfl
  rw [exists_or]
  exact (or_congr hbreak hcontinue).symm

end Coming

end Stencil
