import Stencil.Proofs.Simulation

/-!
# Programs as code

The evaluator of programs recurses through the hosts that it is given, and its loops count down
the rounds that are left.  To speak of everything that happens in a run, the same programs are
written once more as *code*: a tree of what they do with their own state, of what they ask of
their host, and of their loops, which have no end of their own.  Run on a host, the code of a
program is the program.

## Main definitions

* `Code` — what a program does, told apart from the host that it does it on.
* `Code.round`, `Code.nextRound`, `Code.nextEntry` — a round of a loop, and how loops go on.
* `Code.run` — code run on a host.
* `Expr.code`, `Stmt.code`, `Program.code` — the code of programs, given the registered functions.

## Main results

* `Code.run_rounds`, `Code.run_entries` — a loop goes on as its next round says.
* `Program.run_code` — the code of a program, run on a host, is the program run on it.
-/

namespace Stencil

/-- What a program does, told apart from the host that it does it on.  A form whose value has a type
of its own takes along what becomes of this value, so that code of every type can have every
form. -/
inductive Code : Type → Type 1 where
  /-- A step that concerns the program alone. -/
  | own {α : Type} (f : Own α) : Code α
  /-- Records a resource. -/
  | record {α : Type} (event : ResourceEvent) (f : Value → α) : Code α
  /-- Renders another template. -/
  | render {α : Type} (dir file : String) (f : Value → α) : Code α
  /-- Two steps, one after the other. -/
  | bind {α β : Type} (m : Code α) (f : α → Code β) : Code β
  /-- Counts one more round of a loop that has begun `i` of them, or ends the program. -/
  | tick {α : Type} (i : Nat) (f : Unit → α) : Code α
  /-- The body of a loop, once. -/
  | pass {α : Type} (m : Code α) : Code α
  /-- What a loop does before and after its body. -/
  | around {α : Type} (m : Code α) : Code α
  /-- A loop that goes on while a condition holds, entered. -/
  | whileLoop {α : Type} (cond : Code Bool) (body : Code Flow) (step : Code Unit)
      (f : Flow → α) : Code α
  /-- The same loop after `i` rounds. -/
  | rounds {α : Type} (i : Nat) (cond : Code Bool) (body : Code Flow) (step : Code Unit)
      (f : Flow → α) : Code α
  /-- A loop over entries, entered. -/
  | eachLoop {α : Type} (take : Value → Value → Code Unit) (body : Code Flow)
      (all : List (Value × Value)) (f : Flow → α) : Code α
  /-- The same loop after `i` rounds, with the entries that are left. -/
  | entries {α : Type} (i : Nat) (take : Value → Value → Code Unit) (body : Code Flow)
      (left : List (Value × Value)) (f : Flow → α) : Code α

namespace Code

variable {α β σ : Type}

instance : Monad Code where
  pure a := own fun context locals out => (.ok a, context, locals, out)
  bind := bind

/-- Stops the program. -/
def fail (e : RuntimeError) : Code α :=
  own fun context locals out => (.error (.runtime e), context, locals, out)

/-- Goes on with a result, or stops the program. -/
def ofExcept : Except RuntimeError α → Code α
  | .ok a => pure a
  | .error e => fail e

/-- A value that is read off the context. -/
def ask (f : Context → Value) : Code Value :=
  own fun context locals out => (.ok (f context), context, locals, out)

/-- Writes text. -/
def write (s : String) : Code Unit :=
  own fun context locals out => (.ok (), context, locals, out ++ s)

/-- The value of a variable. -/
def readVar (name : String) : Code Value :=
  own fun context locals out =>
    (.ok (if name = contextName then .map context.vars else (Assoc.get? locals name).getD .null),
      context, locals, out)

/-- Stores a value in a place. -/
def store (p : Place) (v : Value) : Code Unit :=
  own fun context locals out =>
    let st : State Unit := ⟨context, locals, out, ()⟩
    let w := Value.write v p.path (st.root p.root)
    let st := st.setRoot w.1 p.root
    (if w.2 then .ok () else .error (.runtime .invalidAssignment), st.context, st.locals, st.out)

/-- One round of a loop that has begun `i` of them: the round is counted before anything else is
done, and the loop goes on unless its body leaves it. -/
def round (i : Nat) (opening : Code Unit) (body : Code Flow) (closing : Code Unit)
    (f : Flow → α) (again : Code α) : Code α := do
  tick i id
  around opening
  match ← pass body with
  | .breakOut => pure (f .normal)
  | .exit => pure (f .exit)
  | _ => do
    around closing
    again

/-- What a loop under a condition does after `i` rounds. -/
def nextRound (i : Nat) (cond : Code Bool) (body : Code Flow) (step : Code Unit) (f : Flow → α) :
    Code α := do
  if ← around cond then round i (pure ()) body step f (rounds (i + 1) cond body step f)
  else pure (f .normal)

/-- What a loop over entries does after `i` rounds. -/
def nextEntry (i : Nat) (take : Value → Value → Code Unit) (body : Code Flow) :
    List (Value × Value) → (Flow → α) → Code α
  | [], f => pure (f .normal)
  | (k, v) :: left, f => round i (take k v) body (pure ()) f (entries (i + 1) take body left f)

/-- Code run on a host, whose limit bounds the loops. -/
def run {α : Type} (host : Host σ) : Code α → Run σ α
  | own f => Run.own f
  | record event f => f <$> Run.record host event
  | render dir file f => f <$> Run.render host dir file
  | bind m f => m.run host >>= fun a => (f a).run host
  | tick i f => if i < host.limit then pure (f ()) else Run.fail (.iterationLimit host.limit)
  | pass m => m.run host
  | around m => m.run host
  | whileLoop cond body step f =>
    f <$> whileRounds host.limit (cond.run host) (body.run host) (step.run host) host.limit
  | rounds i cond body step f =>
    f <$> whileRounds host.limit (cond.run host) (body.run host) (step.run host) (host.limit - i)
  | eachLoop take body all f =>
    f <$> eachRound host.limit (fun k v => (take k v).run host) (body.run host) host.limit all
  | entries i take body left f =>
    f <$> eachRound host.limit (fun k v => (take k v).run host) (body.run host) (host.limit - i)
      left

end Code

/-! ### The code of programs -/

section Coding

variable (functions : String → Option (List Value → Except RuntimeError Value))

/-- The code of the call to load a file. -/
def codeLoadFile (args : List Value) : Code Value :=
  match args with
  | .map entries :: _ =>
    match ResourceRequest.ofMap? entries with
    | some request => .record (.load request) id
    | none => .fail (.badArguments "load_file" "a map with a `target`")
  | _ => .fail (.badArguments "load_file" "a map with a `target`")

/-- The code of the call to unload a file. -/
def codeUnloadFile (args : List Value) : Code Value :=
  match args with
  | .map entries :: _ =>
    .record (.unload (entryText entries "target") (entryText entries "targetie")
      (entryText entries "media")) id
  | _ => .fail (.badArguments "unload_file" "a map with a `target`")

/-- The code of a call of a registered function, or else of a pure one. -/
def codeFunction (name : String) (args : List Value) : Code Value :=
  match functions name with
  | some f => .ofExcept (f args)
  | none =>
    match callBuiltin? name args with
    | some result => .ofExcept result
    | none => .fail (.unknownFunction name)

/-- The code of a function call. -/
def codeCall (name : String) (args : List Value) : Code Value :=
  match name with
  | "include" => .render (argText args 0) (argText args 1) id
  | "load_file" => codeLoadFile args
  | "unload_file" => codeUnloadFile args
  | "load_js_plugin" => .record (.jsPlugin (argText args 0)) id
  | "load_lang" => .record (.lang (argText args 0)) id
  | "compile_xml_filter" => .record (.xmlFilter (argText args 0) (argText args 1)) id
  | "load_ruleset" => .record (.ruleset (argText args 0)) id
  | "request_uri" => .ask fun context => .string context.requestUri
  | "defined" => .ask fun context => .bool (context.isDefined (argText args 0))
  | _ => codeFunction functions name args

/-- The code of a method call. -/
def codeMethod (name : String) (args : List Value) : Code Value :=
  match functions name with
  | some f => .ofExcept (f args)
  | none => .fail (.unknownFunction name)

mutual

/-- The code of an expression. -/
def Expr.code : Expr → Code Value
  | .literal v => pure v
  | .var name => .readVar name
  | .const name => .ask fun context => (context.constant? name).getD .null
  | .member base name => do pure ((← base.code).member name)
  | .index base key => do
    let v ← base.code
    pure (v.index (← key.code))
  | .append _ => .fail .appendRead
  | .call name args => do codeCall functions name (← codeAll args)
  | .method target name args => do
    let v ← target.code
    codeMethod functions name (v :: (← codeAll args))
  | .array items => do pure (Value.ofItems (← codeItems items))
  | .unary op operand => do pure ((← operand.code).applyUnary op)
  | .binary .and left right => do
    if (← left.code).isTruthy then pure (.bool (← right.code).isTruthy)
    else pure (.bool false)
  | .binary .or left right => do
    if (← left.code).isTruthy then pure (.bool true)
    else pure (.bool (← right.code).isTruthy)
  | .binary op left right => do
    let v ← left.code
    let w ← right.code
    .ofExcept (Value.applyBinary op v w)
  | .assign op target value => do
    let v ← value.code
    let new ← match op.binary? with
      | none => pure v
      | some operator => do .ofExcept (Value.applyBinary operator (← target.code) v)
    .store (← target.codePlace) new
    pure new
  | .step target up before => do
    let old ← target.code
    let new := Value.stepped up old
    .store (← target.codePlace) new
    pure (if before then new else old)
  | .choice cond yes no => do
    if (← cond.code).isTruthy then yes.code else no.code
  | .fallback cond no => do
    let v ← cond.code
    if v.isTruthy then pure v else no.code

/-- The code that finds the place an expression denotes. -/
def Expr.codePlace : Expr → Code Place
  | .var name =>
    if name = contextName then .fail .invalidAssignment else pure ⟨.local name, []⟩
  | .member (.var root) name =>
    if root = contextName then pure ⟨.context name, []⟩ else pure ⟨.local root, [.key name]⟩
  | .member base name => do pure ((← base.codePlace).extend (.key name))
  | .index base key => do
    let k := (← key.code).toKey
    pure ((← base.codePlace).extend (.key k))
  | .append base => do pure ((← base.codePlace).extend .append)
  | _ => .fail .invalidAssignment

/-- The code of expressions, from left to right. -/
def codeAll : List Expr → Code (List Value)
  | [] => pure []
  | e :: rest => do
    let v ← e.code
    pure (v :: (← codeAll rest))

/-- The code of the items of an array literal. -/
def codeItems : List Item → Code (List (Option Value × Value))
  | [] => pure []
  | .plain e :: rest => do
    let v ← e.code
    pure ((none, v) :: (← codeItems rest))
  | .keyed key e :: rest => do
    let k ← key.code
    let v ← e.code
    pure ((some k, v) :: (← codeItems rest))

end

/-- The code that assigns a value to an expression. -/
def Expr.codeAssign (target : Expr) (v : Value) : Code Unit := do
  .store (← target.codePlace functions) v

/-- The code that binds an entry to the variables of a loop. -/
def codeBind (key : Option Expr) (value : Expr) (k v : Value) : Code Unit := do
  match key with
  | some target => target.codeAssign functions k
  | none => pure ()
  value.codeAssign functions v

/-- The code of the condition of a loop. -/
def codeCond : Option Expr → Code Bool
  | some e => do pure (← e.code functions).isTruthy
  | none => pure true

/-- The code that writes the values of expressions. -/
def codeEcho : List Expr → Code Unit
  | [] => pure ()
  | e :: rest => do
    .write (← e.code functions).text
    codeEcho rest

/-- The code that finds the first arm whose label is loosely equal to the subject. -/
def codeMatch (subject : Value) : List Arm → Code (Option Nat)
  | [] => pure none
  | .mk none _ :: rest => do pure ((← codeMatch subject rest).map (· + 1))
  | .mk (some label) _ :: rest => do
    if Value.looseEq (← label.code functions) subject then pure (some 0)
    else pure ((← codeMatch subject rest).map (· + 1))

/-- The code that finds the arm with which a switch starts. -/
def codeStart (subject : Value) (arms : List Arm) : Code (Option Nat) := do
  match ← codeMatch functions subject arms with
  | some n => pure (some n)
  | none => pure (arms.findIdx? Arm.isDefault)

mutual

/-- The code of a statement. -/
def Stmt.code : Stmt → Code Flow
  | .text s => do
    .write s
    pure .normal
  | .echo es => do
    codeEcho functions es
    pure .normal
  | .expr e => do
    let _ ← e.code functions
    pure .normal
  | .cond branches none => codeBranches (pure .normal) branches
  | .cond branches (some body) => codeBranches (codeBlock body) branches
  | .foreach subject key value body => do
    let entries := (← subject.code functions).entries
    .eachLoop (codeBind functions key value) (codeBlock body) entries id
  | .forLoop init cond step body => do
    let _ ← codeAll functions init
    .whileLoop (codeCond functions cond) (codeBlock body) (do let _ ← codeAll functions step)
      id
  | .whileLoop cond body =>
    .whileLoop (codeCond functions (some cond)) (codeBlock body) (pure ()) id
  | .switch subject arms => do
    match ← codeStart functions (← subject.code functions) arms with
    | some n => codeArms n arms
    | none => pure .normal
  | .breakOut => pure .breakOut
  | .continueOn => pure .continueOn
  | .exit => pure .exit

/-- The code of statements, up to the first one that does not end normally. -/
def codeBlock : List Stmt → Code Flow
  | [] => pure .normal
  | s :: rest => do
    match ← s.code with
    | .normal => codeBlock rest
    | flow => pure flow

/-- The code of branches, with what follows when no condition holds. -/
def codeBranches (otherwise : Code Flow) : List Branch → Code Flow
  | [] => otherwise
  | .mk cond body :: rest => do
    if (← cond.code functions).isTruthy then codeBlock body else codeBranches otherwise rest

/-- The code of the arms after the first `n` ones. -/
def codeArms : Nat → List Arm → Code Flow
  | _, [] => pure .normal
  | n + 1, _ :: rest => codeArms n rest
  | 0, .mk _ body :: rest => do
    match ← codeBlock body with
    | .normal => codeArms 0 rest
    | .exit => pure .exit
    | _ => pure .normal

end

/-- The code of a program. -/
def Program.code (program : Program) : Code Flow := codeBlock functions program.body

end Coding

/-! ### Code run on a host -/

namespace Code

variable {α β σ : Type} (host : Host σ)

@[simp] theorem run_pure (a : α) : (pure a : Code α).run host = pure a := rfl

@[simp] theorem run_bind (m : Code α) (f : α → Code β) :
    (m >>= f).run host = m.run host >>= fun a => (f a).run host := rfl

@[simp] theorem run_fail (e : RuntimeError) : (fail e : Code α).run host = Run.fail e := rfl

@[simp] theorem run_ofExcept (x : Except RuntimeError α) :
    (ofExcept x).run host = Run.ofExcept x := by
  cases x <;> rfl

@[simp] theorem run_ask (f : Context → Value) :
    (ask f).run host = (do pure (f (← get).context)) := rfl

@[simp] theorem run_write (s : String) : (write s).run host = Run.write s := rfl

@[simp] theorem run_readVar (name : String) : (readVar name).run host = Run.readVar name := by
  funext st
  unfold Run.readVar
  rw [get_bind_eq]
  unfold readVar Code.run Run.own
  by_cases hname : name = contextName
  · simp only [hname, if_true]
    rfl
  · simp only [hname, if_false]
    rfl

@[simp] theorem run_store (p : Place) (v : Value) : (store p v).run host = Run.store p v :=
  (Follows.store_eq_own p v).symm

/-- A round is refused at the limit, and otherwise leads to the next one. -/
theorem run_round (i : Nat) (opening : Code Unit) (body : Code Flow) (closing : Code Unit)
    (f : Flow → α) (again : Code α) :
    (round i opening body closing f again).run host =
      if i < host.limit then do
        opening.run host
        match ← body.run host with
        | .breakOut => pure (f .normal)
        | .exit => pure (f .exit)
        | _ => do
          closing.run host
          again.run host
      else Run.fail (.iterationLimit host.limit) := by
  unfold round
  simp only [run_bind, Code.run]
  by_cases hi : i < host.limit
  · simp only [hi, if_true, pure_bind]
    congr 1
    funext _
    congr 1
    funext flow
    cases flow <;> rfl
  · simp only [hi, if_false]
    rfl

theorem map_fail (f : α → β) (e : RuntimeError) :
    f <$> (Run.fail e : Run σ α) = Run.fail e := rfl

/-- A loop under a condition goes on as its next round says. -/
theorem run_rounds (i : Nat) (cond : Code Bool) (body : Code Flow) (step : Code Unit)
    (f : Flow → α) :
    (rounds i cond body step f).run host = (nextRound i cond body step f).run host := by
  simp only [nextRound, run_bind, Code.run]
  by_cases hi : i < host.limit
  · obtain ⟨n, hn⟩ : ∃ n, host.limit - i = n + 1 := ⟨host.limit - (i + 1), by omega⟩
    have hnext : host.limit - (i + 1) = n := by omega
    rw [hn, whileRounds, map_bind]
    congr 1
    funext holds
    cases holds
    · rfl
    · simp only [if_true, run_round, hi, run_pure, pure_bind, Code.run, hnext, map_bind]
      congr 1
      funext flow
      cases flow <;> simp only [map_pure, map_bind]
  · have hn : host.limit - i = 0 := by omega
    rw [hn, whileRounds, map_bind]
    congr 1
    funext holds
    cases holds
    · rfl
    · simp only [if_true, run_round, hi, if_false, map_fail]

/-- A loop over entries goes on as its next round says. -/
theorem run_entries (i : Nat) (take : Value → Value → Code Unit) (body : Code Flow)
    (left : List (Value × Value)) (f : Flow → α) :
    (entries i take body left f).run host = (nextEntry i take body left f).run host := by
  rcases left with _ | ⟨⟨k, v⟩, left⟩
  · simp only [nextEntry, Code.run, eachRound, run_pure, map_pure]
  by_cases hi : i < host.limit
  · obtain ⟨n, hn⟩ : ∃ n, host.limit - i = n + 1 := ⟨host.limit - (i + 1), by omega⟩
    have hnext : host.limit - (i + 1) = n := by omega
    simp only [nextEntry, Code.run, run_round, hi, if_true, run_pure, pure_bind, hn, hnext,
      eachRound, map_bind]
    congr 1
    funext _
    congr 1
    funext flow
    cases flow <;> simp only [map_pure]
  · have hn : host.limit - i = 0 := by omega
    simp only [nextEntry, Code.run, run_round, hi, if_false, hn, eachRound, map_fail]

end Code

section Running

variable {α σ : Type} (host : Host σ)

open Code

theorem run_codeLoadFile (args : List Value) :
    (codeLoadFile args).run host = Run.loadFile host args := by
  unfold codeLoadFile Run.loadFile
  rcases args with _ | ⟨v, rest⟩
  · rfl
  · cases v with
    | map entries =>
      dsimp only
      cases ResourceRequest.ofMap? entries <;> rfl
    | _ => rfl

theorem run_codeUnloadFile (args : List Value) :
    (codeUnloadFile args).run host = Run.unloadFile host args := by
  unfold codeUnloadFile Run.unloadFile
  rcases args with _ | ⟨v, rest⟩
  · rfl
  · cases v <;> rfl

theorem run_codeFunction (name : String) (args : List Value) :
    (codeFunction host.functions name args).run host = host.callFunction name args := by
  unfold codeFunction Host.callFunction
  cases host.functions name with
  | some f => simp only [run_ofExcept]
  | none =>
    cases callBuiltin? name args with
    | some result => simp only [run_ofExcept]
    | none => rfl

theorem run_codeMethod (name : String) (args : List Value) :
    (codeMethod host.functions name args).run host = host.callMethod name args := by
  unfold codeMethod Host.callMethod
  cases host.functions name with
  | some f => simp only [run_ofExcept]
  | none => rfl

theorem run_codeCall (name : String) (args : List Value) :
    (codeCall host.functions name args).run host = host.call name args := by
  fun_cases codeCall host.functions name args
  · exact id_map (Run.render host _ _)
  · exact run_codeLoadFile host args
  · exact run_codeUnloadFile host args
  · rfl
  · rfl
  · rfl
  · rfl
  · rfl
  · rfl
  · unfold Host.call
    split <;> first | contradiction | exact run_codeFunction host _ args

mutual

theorem Expr.run_code : ∀ e : Expr, (e.code host.functions).run host = e.eval host
  | .literal v => by
    simp only [Expr.code, Expr.eval, run_pure]
  | .var name => by
    simp only [Expr.code, Expr.eval, run_readVar]
  | .const name => by
    simp only [Expr.code, Expr.eval, run_ask]
  | .member base name => by
    simp only [Expr.code, Expr.eval, run_bind, run_pure, base.run_code]
  | .index base key => by
    simp only [Expr.code, Expr.eval, run_bind, run_pure, base.run_code, key.run_code]
  | .append _ => by
    simp only [Expr.code, Expr.eval, run_fail]
  | .call name args => by
    simp only [Expr.code, Expr.eval, run_bind, run_codeAll args, run_codeCall]
  | .method target name args => by
    simp only [Expr.code, Expr.eval, run_bind, target.run_code, run_codeAll args, run_codeMethod]
  | .array items => by
    simp only [Expr.code, Expr.eval, run_bind, run_pure, run_codeItems items]
  | .unary op operand => by
    simp only [Expr.code, Expr.eval, run_bind, run_pure, operand.run_code]
  | .binary op left right => by
    have hl := left.run_code
    have hr := right.run_code
    cases op with
    | and | or =>
      simp only [Expr.code, Expr.eval, run_bind, hl]
      congr 1
      funext v
      split <;> simp only [run_bind, run_pure, hr]
    | _ => simp only [Expr.code, Expr.eval, run_bind, run_ofExcept, hl, hr]
  | .assign op target value => by
    have ht := target.run_code
    have hp := target.run_codePlace
    simp only [Expr.code, Expr.eval, run_bind, value.run_code]
    congr 1
    funext v
    cases op.binary? <;>
      simp only [run_bind, run_pure, run_ofExcept, run_store, ht, hp]
  | .step target up before => by
    simp only [Expr.code, Expr.eval, run_bind, run_pure, run_store, target.run_code,
      target.run_codePlace]
  | .choice cond yes no => by
    simp only [Expr.code, Expr.eval, run_bind, cond.run_code]
    congr 1
    funext v
    split
    · exact yes.run_code
    · exact no.run_code
  | .fallback cond no => by
    simp only [Expr.code, Expr.eval, run_bind, cond.run_code]
    congr 1
    funext v
    split
    · exact run_pure host v
    · exact no.run_code

theorem Expr.run_codePlace :
    ∀ e : Expr, (e.codePlace host.functions).run host = e.place host
  | .var name => by
    unfold Expr.codePlace Expr.place
    split <;> rfl
  | .member base name => by
    have hbase := base.run_codePlace
    cases base with
    | var root =>
      unfold Expr.codePlace Expr.place
      split <;> rfl
    | _ =>
      simp only [Expr.codePlace, Expr.place] at hbase ⊢
      simp only [run_bind, run_pure, hbase]
  | .index base key => by
    simp only [Expr.codePlace, Expr.place, run_bind, run_pure, key.run_code, base.run_codePlace]
  | .append base => by
    simp only [Expr.codePlace, Expr.place, run_bind, run_pure, base.run_codePlace]
  | .literal _ | .const _ | .call .. | .method .. | .array _ | .unary .. | .binary .. | .assign ..
  | .step .. | .choice .. | .fallback .. => by
    simp only [Expr.codePlace, Expr.place, run_fail]

theorem run_codeAll : ∀ es : List Expr, (codeAll host.functions es).run host = evalAll host es
  | [] => by
    simp only [codeAll, evalAll, run_pure]
  | e :: rest => by
    simp only [codeAll, evalAll, run_bind, run_pure, e.run_code, run_codeAll rest]

theorem run_codeItems :
    ∀ items : List Item, (codeItems host.functions items).run host = evalItems host items
  | [] => by
    simp only [codeItems, evalItems, run_pure]
  | .plain e :: rest => by
    simp only [codeItems, evalItems, run_bind, run_pure, e.run_code, run_codeItems rest]
  | .keyed key e :: rest => by
    simp only [codeItems, evalItems, run_bind, run_pure, key.run_code, e.run_code,
      run_codeItems rest]

end

theorem Expr.run_codeAssign (target : Expr) (v : Value) :
    (target.codeAssign host.functions v).run host = target.assignTo host v := by
  simp only [Expr.codeAssign, Expr.assignTo, run_bind, run_store, target.run_codePlace]

theorem run_codeBind (key : Option Expr) (value : Expr) (k v : Value) :
    (codeBind host.functions key value k v).run host = bindEntry host key value k v := by
  unfold codeBind bindEntry
  cases key <;> simp only [run_bind, Expr.run_codeAssign]

theorem run_codeCond (cond : Option Expr) :
    (codeCond host.functions cond).run host = evalCond host cond := by
  cases cond <;> simp only [codeCond, evalCond, run_bind, run_pure, Expr.run_code]

theorem run_codeEcho (es : List Expr) :
    (codeEcho host.functions es).run host = echoAll host es := by
  induction es with
  | nil => rfl
  | cons e rest ih => simp only [codeEcho, echoAll, run_bind, run_write, e.run_code, ih]

theorem run_codeMatch (subject : Value) (arms : List Arm) :
    (codeMatch host.functions subject arms).run host = matchingArm host subject arms := by
  induction arms with
  | nil => rfl
  | cons arm rest ih =>
    rcases arm with ⟨label | label, body⟩
    · simp only [codeMatch, matchingArm, run_bind, run_pure, ih]
    · simp only [codeMatch, matchingArm, run_bind, label.run_code]
      congr 1
      funext v
      split <;> simp only [run_bind, run_pure, ih]

theorem run_codeStart (subject : Value) (arms : List Arm) :
    (codeStart host.functions subject arms).run host = startingArm host subject arms := by
  unfold codeStart startingArm
  simp only [run_bind, run_codeMatch]
  congr 1
  funext found
  cases found <;> rfl

mutual

theorem Stmt.run_code : ∀ s : Stmt, (s.code host.functions).run host = s.exec host
  | .text s => by
    simp only [Stmt.code, Stmt.exec, run_bind, run_write, run_pure]
  | .echo es => by
    simp only [Stmt.code, Stmt.exec, run_bind, run_codeEcho, run_pure]
  | .expr e => by
    simp only [Stmt.code, Stmt.exec, run_bind, run_pure, e.run_code, discard_eq, bind_assoc,
      pure_bind]
  | .cond branches none => by
    unfold Stmt.code Stmt.exec
    exact run_codeBranches (run_pure host _) branches
  | .cond branches (some body) => by
    unfold Stmt.code Stmt.exec
    exact run_codeBranches (run_codeBlock body) branches
  | .foreach subject key value body => by
    simp only [Stmt.code, Stmt.exec, run_bind, Code.run, subject.run_code, run_codeBind,
      run_codeBlock body, id_map]
  | .forLoop init cond step body => by
    simp only [Stmt.code, Stmt.exec, run_bind, run_pure, Code.run, run_codeAll, run_codeCond,
      run_codeBlock body, discard_eq, bind_assoc, pure_bind, id_map]
  | .whileLoop cond body => by
    simp only [Stmt.code, Stmt.exec, Code.run, run_pure, run_codeCond, run_codeBlock body, id_map]
  | .switch subject arms => by
    simp only [Stmt.code, Stmt.exec, run_bind, subject.run_code, run_codeStart]
    congr 1
    funext v
    congr 1
    funext start
    cases start with
    | none => exact run_pure host _
    | some n => exact run_codeArms n arms
  | .breakOut | .continueOn | .exit => by
    simp only [Stmt.code, Stmt.exec, run_pure]

theorem run_codeBlock :
    ∀ body : List Stmt, (codeBlock host.functions body).run host = execBlock host body
  | [] => by
    simp only [codeBlock, execBlock, run_pure]
  | s :: rest => by
    simp only [codeBlock, execBlock, run_bind, s.run_code]
    congr 1
    funext flow
    cases flow with
    | normal => exact run_codeBlock rest
    | _ => exact run_pure host _

theorem run_codeBranches {otherwise : Code Flow} {otherwise' : Run σ Flow}
    (ho : otherwise.run host = otherwise') :
    ∀ branches : List Branch,
      (codeBranches host.functions otherwise branches).run host =
        execBranches host otherwise' branches
  | [] => by
    simpa only [codeBranches, execBranches] using ho
  | .mk cond body :: rest => by
    simp only [codeBranches, execBranches, run_bind, cond.run_code]
    congr 1
    funext v
    split
    · exact run_codeBlock body
    · exact run_codeBranches ho rest

theorem run_codeArms :
    ∀ (n : Nat) (arms : List Arm),
      (codeArms host.functions n arms).run host = execArms host n arms
  | _, [] => by
    simp only [codeArms, execArms, run_pure]
  | n + 1, _ :: rest => by
    simp only [codeArms, execArms]
    exact run_codeArms n rest
  | 0, .mk _ body :: rest => by
    simp only [codeArms, execArms, run_bind, run_codeBlock body]
    congr 1
    funext flow
    cases flow with
    | normal => exact run_codeArms 0 rest
    | _ => exact run_pure host _

end

/-- **The code of a program, run on a host, is the program run on it.** -/
theorem Program.run_code (program : Program) :
    (program.code host.functions).run host = execBlock host program.body :=
  run_codeBlock host program.body

end Running

end Stencil
