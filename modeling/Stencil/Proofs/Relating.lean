import Stencil.Script.Eval

/-!
# Relations between programs

The evaluator builds every program from a few steps: results, failures, steps in sequence, reading
and writing the own state, and asking the host.  A relation between runs on two hosts that holds of
these steps and is kept by sequence therefore holds of all programs.  The two hosts may be one, and
the relation may speak of the first run only.

## Main definitions

* `Relates R A B` — the relation `R` between runs holds of the single steps on the hosts `A` and
  `B`, and is kept when steps follow each other.

## Main results

* `Relates.eval`, `Relates.exec`, `Relates.execBlock` — then it holds of all expressions,
  statements and blocks.
-/

namespace Stencil

variable {σ τ : Type}

/-- The relation holds of the single steps on two hosts and is kept by steps in sequence. -/
structure Relates (R : (α : Type) → Run σ α → Run τ α → Prop) (A : Host σ) (B : Host τ) : Prop where
  functions : A.functions = B.functions
  limit : A.limit = B.limit
  pure : ∀ {α : Type} (a : α), R α (Pure.pure a) (Pure.pure a)
  fail : ∀ {α : Type} (e : RuntimeError), R α (Run.fail e) (Run.fail e)
  bind : ∀ {α β : Type} {m : Run σ α} {m' : Run τ α} {f : α → Run σ β} {f' : α → Run τ β},
    R α m m' → (∀ a, R β (f a) (f' a)) → R β (m >>= f) (m' >>= f')
  ask : ∀ f : Context → Value,
    R Value (do Pure.pure (f (← get).context)) (do Pure.pure (f (← get).context))
  write : ∀ text : String, R Unit (Run.write text) (Run.write text)
  readVar : ∀ name : String, R Value (Run.readVar name) (Run.readVar name)
  store : ∀ (p : Place) (v : Value), R Unit (Run.store p v) (Run.store p v)
  record : ∀ event : ResourceEvent, R Value (Run.record A event) (Run.record B event)
  render : ∀ dir file : String, R Value (Run.render A dir file) (Run.render B dir file)

/-! ### Steps in sequence -/

section Sequence

variable {ε α β : Type} {m : EStateM ε σ α} {f : α → EStateM ε σ β} {s s₁ : σ}

theorem bind_eq (m : EStateM ε σ α) (f : α → EStateM ε σ β) (s : σ) :
    (m >>= f) s = match m s with
      | .ok a s => f a s
      | .error e s => .error e s := by
  change EStateM.bind m f s = _
  unfold EStateM.bind
  cases m s <;> rfl

theorem Run.bind_of_ok {a : α} (h : m s = .ok a s₁) : (m >>= f) s = f a s₁ := by rw [bind_eq, h]

theorem Run.bind_of_error {e : ε} (h : m s = .error e s₁) : (m >>= f) s = .error e s₁ := by
  rw [bind_eq, h]

theorem Run.bind_eq_ok {b : β} :
    (m >>= f) s = .ok b s₁ ↔ ∃ a s', m s = .ok a s' ∧ f a s' = .ok b s₁ := by
  rw [bind_eq]
  cases m s with
  | ok a s' =>
    refine ⟨fun h => ⟨a, s', rfl, h⟩, ?_⟩
    rintro ⟨_, _, ⟨⟩, h⟩
    exact h
  | error e s' => simp

theorem Run.pure_eq_ok {a b : α} : (pure a : EStateM ε σ α) s = .ok b s₁ ↔ a = b ∧ s = s₁ := by
  change EStateM.Result.ok a s = .ok b s₁ ↔ _
  simp

end Sequence

/-- A step that starts by reading the state goes on with it. -/
theorem get_bind_eq {ε β : Type} (f : σ → EStateM ε σ β) (s : σ) : (get >>= f) s = f s s := rfl

theorem discard_eq {α : Type} (m : Run σ α) : discard m = m >>= fun _ => pure () := by
  funext st
  rw [bind_eq]
  change EStateM.map _ m st = _
  unfold EStateM.map
  cases m st <;> rfl

theorem render_eq (A : Host σ) (dir file : String) (st : State σ) :
    Run.render A dir file st = match A.render dir file st.context st.host with
      | (.ok out, context, s) => .ok (.string out) { st with context, host := s }
      | (.error e, context, s) => .error e { st with context, host := s } := by
  rcases A with ⟨functions, limit, render, record⟩
  unfold Run.render
  rw [get_bind_eq]
  simp only [bind_eq]
  generalize render dir file st.context st.host = x
  rcases x with ⟨e | out, context, s⟩ <;> rfl

namespace Relates

variable {R : (α : Type) → Run σ α → Run τ α → Prop} {A : Host σ} {B : Host τ} {α β : Type}
  {m : Run σ α} {m' : Run τ α}

theorem map (h : Relates R A B) (g : α → β) (hm : R α m m') :
    R β (do Pure.pure (g (← m))) (do Pure.pure (g (← m'))) :=
  h.bind hm fun a => h.pure (g a)

theorem discard (h : Relates R A B) (hm : R α m m') : R Unit (discard m) (discard m') := by
  rw [discard_eq, discard_eq]
  exact h.bind hm fun _ => h.pure ()

theorem ofExcept (h : Relates R A B) (x : Except RuntimeError α) :
    R α (Run.ofExcept x) (Run.ofExcept x) := by
  cases x with
  | ok a => exact h.pure a
  | error e => exact h.fail e

/-! ### Loops -/

section Loops

variable {cond : Run σ Bool} {cond' : Run τ Bool} {body : Run σ Flow} {body' : Run τ Flow}
  {step : Run σ Unit} {step' : Run τ Unit}

theorem whileRounds (h : Relates R A B) (limit : Nat) (hcond : R Bool cond cond')
    (hbody : R Flow body body') (hstep : R Unit step step') (n : Nat) :
    R Flow (whileRounds limit cond body step n) (whileRounds limit cond' body' step' n) := by
  induction n with
  | zero =>
    unfold Stencil.whileRounds
    apply h.bind hcond
    intro holds
    cases holds
    · exact h.pure _
    · exact h.fail _
  | succ n ih =>
    unfold Stencil.whileRounds
    apply h.bind hcond
    intro holds
    cases holds with
    | false => exact h.pure _
    | true =>
      apply h.bind hbody
      intro flow
      cases flow with
      | breakOut => exact h.pure _
      | exit => exact h.pure _
      | normal => exact h.bind hstep fun _ => ih
      | continueOn => exact h.bind hstep fun _ => ih

theorem eachRound (h : Relates R A B) (limit : Nat) {bind : Value → Value → Run σ Unit}
    {bind' : Value → Value → Run τ Unit} (hbind : ∀ k v, R Unit (bind k v) (bind' k v))
    (hbody : R Flow body body') (n : Nat) (entries : List (Value × Value)) :
    R Flow (eachRound limit bind body n entries) (eachRound limit bind' body' n entries) := by
  induction entries generalizing n with
  | nil =>
    unfold Stencil.eachRound
    exact h.pure _
  | cons entry rest ih =>
    cases n with
    | zero =>
      unfold Stencil.eachRound
      exact h.fail _
    | succ n =>
      unfold Stencil.eachRound
      apply h.bind (hbind entry.1 entry.2)
      intro _
      apply h.bind hbody
      intro flow
      cases flow with
      | breakOut => exact h.pure _
      | exit => exact h.pure _
      | normal => exact ih n
      | continueOn => exact ih n

end Loops

/-! ### Calls -/

theorem loadFile (h : Relates R A B) (args : List Value) :
    R Value (Run.loadFile A args) (Run.loadFile B args) := by
  unfold Run.loadFile
  split
  · split
    · exact h.record _
    · exact h.fail _
  · exact h.fail _

theorem unloadFile (h : Relates R A B) (args : List Value) :
    R Value (Run.unloadFile A args) (Run.unloadFile B args) := by
  unfold Run.unloadFile
  split
  · exact h.record _
  · exact h.fail _

theorem callFunction (h : Relates R A B) (name : String) (args : List Value) :
    R Value (A.callFunction name args) (B.callFunction name args) := by
  unfold Host.callFunction
  rw [h.functions]
  cases B.functions name with
  | some f => exact h.ofExcept _
  | none =>
    cases callBuiltin? name args with
    | some result => exact h.ofExcept _
    | none => exact h.fail _

theorem callMethod (h : Relates R A B) (name : String) (args : List Value) :
    R Value (A.callMethod name args) (B.callMethod name args) := by
  unfold Host.callMethod
  rw [h.functions]
  cases B.functions name with
  | some f => exact h.ofExcept _
  | none => exact h.fail _

theorem call (h : Relates R A B) (name : String) (args : List Value) :
    R Value (A.call name args) (B.call name args) := by
  unfold Host.call
  split
  · exact h.render _ _
  · exact h.loadFile args
  · exact h.unloadFile args
  · exact h.record _
  · exact h.record _
  · exact h.record _
  · exact h.record _
  · exact h.ask fun context => .string context.requestUri
  · exact h.ask fun context => .bool (context.isDefined (argText args 0))
  · exact h.callFunction name args

/-! ### Expressions -/

mutual

theorem eval (h : Relates R A B) : ∀ e : Expr, R Value (e.eval A) (e.eval B)
  | .literal v => by
    unfold Expr.eval
    exact h.pure v
  | .var name => by
    unfold Expr.eval
    exact h.readVar name
  | .const name => by
    unfold Expr.eval
    exact h.ask fun context => (context.constant? name).getD .null
  | .member base name => by
    unfold Expr.eval
    exact h.map _ (h.eval base)
  | .index base key => by
    unfold Expr.eval
    apply h.bind (h.eval base)
    intro v
    exact h.map _ (h.eval key)
  | .append _ => by
    unfold Expr.eval
    exact h.fail _
  | .call name args => by
    unfold Expr.eval
    exact h.bind (h.evalAll args) fun vs => h.call name vs
  | .method target name args => by
    unfold Expr.eval
    apply h.bind (h.eval target)
    intro v
    exact h.bind (h.evalAll args) fun vs => h.callMethod name (v :: vs)
  | .array items => by
    unfold Expr.eval
    exact h.map _ (h.evalItems items)
  | .unary op operand => by
    unfold Expr.eval
    exact h.map _ (h.eval operand)
  | .binary op left right => by
    have hl := h.eval left
    have hr := h.eval right
    cases op with
    | and =>
      simp only [Expr.eval]
      apply h.bind hl
      intro v
      split
      · exact h.map _ hr
      · exact h.pure _
    | or =>
      simp only [Expr.eval]
      apply h.bind hl
      intro v
      split
      · exact h.pure _
      · exact h.map _ hr
    | _ =>
      simp only [Expr.eval]
      apply h.bind hl
      intro v
      exact h.bind hr fun w => h.ofExcept _
  | .assign op target value => by
    have ht := h.eval target
    have hp := h.place target
    simp only [Expr.eval]
    apply h.bind (h.eval value)
    intro v
    cases op.binary? with
    | none =>
      apply h.bind (h.pure v)
      intro new
      exact h.bind hp fun p => h.bind (h.store p new) fun _ => h.pure new
    | some operator =>
      apply h.bind ht
      intro old
      apply h.bind (h.ofExcept _)
      intro new
      exact h.bind hp fun p => h.bind (h.store p new) fun _ => h.pure new
  | .step target up before => by
    simp only [Expr.eval]
    apply h.bind (h.eval target)
    intro old
    apply h.bind (h.place target)
    intro p
    exact h.bind (h.store p _) fun _ => h.pure _
  | .choice cond yes no => by
    unfold Expr.eval
    apply h.bind (h.eval cond)
    intro v
    split
    · exact h.eval yes
    · exact h.eval no
  | .fallback cond no => by
    unfold Expr.eval
    apply h.bind (h.eval cond)
    intro v
    split
    · exact h.pure v
    · exact h.eval no

theorem place (h : Relates R A B) : ∀ e : Expr, R Place (e.place A) (e.place B)
  | .var name => by
    unfold Expr.place
    split
    · exact h.fail _
    · exact h.pure _
  | .member base name => by
    have hbase := h.place base
    cases base with
    | var root =>
      unfold Expr.place
      split
      · exact h.pure _
      · exact h.pure _
    | _ =>
      simp only [Expr.place] at hbase ⊢
      exact h.map _ hbase
  | .index base key => by
    simp only [Expr.place]
    apply h.bind (h.eval key)
    intro k
    exact h.map _ (h.place base)
  | .append base => by
    simp only [Expr.place]
    exact h.map _ (h.place base)
  | .literal _ | .const _ | .call .. | .method .. | .array _ | .unary .. | .binary .. | .assign ..
  | .step .. | .choice .. | .fallback .. => by
    simp only [Expr.place]
    exact h.fail _

theorem evalAll (h : Relates R A B) :
    ∀ es : List Expr, R (List Value) (evalAll A es) (evalAll B es)
  | [] => by
    unfold Stencil.evalAll
    exact h.pure []
  | e :: rest => by
    unfold Stencil.evalAll
    apply h.bind (h.eval e)
    intro v
    exact h.map _ (h.evalAll rest)

theorem evalItems (h : Relates R A B) :
    ∀ items : List Item, R (List (Option Value × Value)) (evalItems A items) (evalItems B items)
  | [] => by
    unfold Stencil.evalItems
    exact h.pure []
  | .plain e :: rest => by
    unfold Stencil.evalItems
    apply h.bind (h.eval e)
    intro v
    exact h.map _ (h.evalItems rest)
  | .keyed key e :: rest => by
    unfold Stencil.evalItems
    apply h.bind (h.eval key)
    intro k
    apply h.bind (h.eval e)
    intro v
    exact h.map _ (h.evalItems rest)

end

theorem assignTo (h : Relates R A B) (target : Expr) (v : Value) :
    R Unit (target.assignTo A v) (target.assignTo B v) :=
  h.bind (h.place target) fun p => h.store p v

theorem bindEntry (h : Relates R A B) (key : Option Expr) (value : Expr) (k v : Value) :
    R Unit (bindEntry A key value k v) (bindEntry B key value k v) := by
  unfold Stencil.bindEntry
  cases key with
  | none => exact h.assignTo value v
  | some target => exact h.bind (h.assignTo target k) fun _ => h.assignTo value v

theorem evalCond (h : Relates R A B) (cond : Option Expr) :
    R Bool (evalCond A cond) (evalCond B cond) := by
  cases cond with
  | none => exact h.pure true
  | some e => exact h.map _ (h.eval e)

theorem echoAll (h : Relates R A B) (es : List Expr) : R Unit (echoAll A es) (echoAll B es) := by
  induction es with
  | nil => exact h.pure ()
  | cons e rest ih =>
    apply h.bind (h.eval e)
    intro v
    exact h.bind (h.write v.text) fun _ => ih

/-! ### Statements -/

theorem matchingArm (h : Relates R A B) (subject : Value) (arms : List Arm) :
    R (Option Nat) (matchingArm A subject arms) (matchingArm B subject arms) := by
  induction arms with
  | nil => exact h.pure none
  | cons arm rest ih =>
    rcases arm with ⟨label | label, body⟩
    · exact h.map _ ih
    · apply h.bind (h.eval label)
      intro v
      split
      · exact h.pure _
      · exact h.map _ ih

theorem startingArm (h : Relates R A B) (subject : Value) (arms : List Arm) :
    R (Option Nat) (startingArm A subject arms) (startingArm B subject arms) := by
  unfold Stencil.startingArm
  apply h.bind (h.matchingArm subject arms)
  intro found
  cases found with
  | none => exact h.pure _
  | some n => exact h.pure _

mutual

theorem exec (h : Relates R A B) : ∀ s : Stmt, R Flow (s.exec A) (s.exec B)
  | .text s => by
    unfold Stmt.exec
    exact h.bind (h.write s) fun _ => h.pure _
  | .echo es => by
    unfold Stmt.exec
    exact h.bind (h.echoAll es) fun _ => h.pure _
  | .expr e => by
    unfold Stmt.exec
    exact h.bind (h.discard (h.eval e)) fun _ => h.pure _
  | .cond branches none => by
    unfold Stmt.exec
    exact h.execBranches (h.pure .normal) branches
  | .cond branches (some body) => by
    unfold Stmt.exec
    exact h.execBranches (h.execBlock body) branches
  | .foreach subject key value body => by
    unfold Stmt.exec
    rw [h.limit]
    apply h.bind (h.eval subject)
    intro v
    exact h.eachRound _ (h.bindEntry key value) (h.execBlock body) _ _
  | .forLoop init cond step body => by
    unfold Stmt.exec
    rw [h.limit]
    apply h.bind (h.discard (h.evalAll init))
    intro _
    exact h.whileRounds _ (h.evalCond cond) (h.execBlock body) (h.discard (h.evalAll step)) _
  | .whileLoop cond body => by
    unfold Stmt.exec
    rw [h.limit]
    exact h.whileRounds _ (h.evalCond (some cond)) (h.execBlock body) (h.pure ()) _
  | .switch subject arms => by
    unfold Stmt.exec
    apply h.bind (h.eval subject)
    intro v
    apply h.bind (h.startingArm v arms)
    intro start
    cases start with
    | none => exact h.pure _
    | some n => exact h.execArms n arms
  | .breakOut | .continueOn | .exit => by
    unfold Stmt.exec
    exact h.pure _

theorem execBlock (h : Relates R A B) :
    ∀ body : List Stmt, R Flow (execBlock A body) (execBlock B body)
  | [] => by
    unfold Stencil.execBlock
    exact h.pure _
  | s :: rest => by
    unfold Stencil.execBlock
    apply h.bind (h.exec s)
    intro flow
    cases flow with
    | normal => exact h.execBlock rest
    | _ => exact h.pure _

theorem execBranches (h : Relates R A B) {otherwise : Run σ Flow} {otherwise' : Run τ Flow}
    (ho : R Flow otherwise otherwise') :
    ∀ branches : List Branch,
      R Flow (execBranches A otherwise branches) (execBranches B otherwise' branches)
  | [] => by
    unfold Stencil.execBranches
    exact ho
  | .mk cond body :: rest => by
    unfold Stencil.execBranches
    apply h.bind (h.eval cond)
    intro v
    split
    · exact h.execBlock body
    · exact h.execBranches ho rest

theorem execArms (h : Relates R A B) :
    ∀ (n : Nat) (arms : List Arm), R Flow (execArms A n arms) (execArms B n arms)
  | _, [] => by
    unfold Stencil.execArms
    exact h.pure _
  | n + 1, _ :: rest => by
    unfold Stencil.execArms
    exact h.execArms n rest
  | 0, .mk _ body :: rest => by
    unfold Stencil.execArms
    apply h.bind (h.execBlock body)
    intro flow
    cases flow with
    | normal => exact h.execArms 0 rest
    | _ => exact h.pure _

end

end Relates

end Stencil
