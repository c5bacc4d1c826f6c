import Stencil.Script.Builtin
import Stencil.Script.Machine
import Stencil.Script.Operator
import Stencil.Script.Parser.Stmt

/-!
# Running programs

## Main definitions

* `Host.call`, `Host.callMethod` — function and method calls on values.
* `Expr.eval`, `Expr.place` — the value of an expression, and the place it denotes.
* `Stmt.exec` — the effect of a statement.
* `Program.run` — a program run on a context: its output or failure, and the context afterwards.
-/

namespace Stencil

variable {σ : Type}

/-! ### Calls -/

/-- The text of an argument, empty when there is none. -/
def argText (args : List Value) (n : Nat) : String :=
  match args[n]? with
  | some v => v.text
  | none => ""

/-- Records a resource, with null as the value of the call. -/
def Run.record (host : Host σ) (event : ResourceEvent) : Run σ Value := do
  modify fun st => { st with host := host.record event st.host }
  pure .null

/-- The output of another template, which shares the context. -/
def Run.render (host : Host σ) (dir file : String) : Run σ Value := do
  let st ← get
  match host.render dir file st.context st.host with
  | (result, context, hostState) =>
    set { st with context, host := hostState }
    match result with
    | .ok out => pure (.string out)
    | .error e => throw e

/-- The call to load a file. -/
def Run.loadFile (host : Host σ) (args : List Value) : Run σ Value :=
  match args with
  | .map entries :: _ =>
    match ResourceRequest.ofMap? entries with
    | some request => Run.record host (.load request)
    | none => Run.fail (.badArguments "load_file" "a map with a `target`")
  | _ => Run.fail (.badArguments "load_file" "a map with a `target`")

/-- The call to unload a file. -/
def Run.unloadFile (host : Host σ) (args : List Value) : Run σ Value :=
  match args with
  | .map entries :: _ =>
    Run.record host
      (.unload (entryText entries "target") (entryText entries "targetie")
        (entryText entries "media"))
  | _ => Run.fail (.badArguments "unload_file" "a map with a `target`")

/-- A call of a registered function, or else of a pure one. -/
def Host.callFunction (host : Host σ) (name : String) (args : List Value) : Run σ Value :=
  match host.functions name with
  | some f => Run.ofExcept (f args)
  | none =>
    match callBuiltin? name args with
    | some result => Run.ofExcept result
    | none => Run.fail (.unknownFunction name)

/-- A function call: the functions that reach the context and the resources come before the
registered ones, and those before the pure ones. -/
def Host.call (host : Host σ) (name : String) (args : List Value) : Run σ Value :=
  match name with
  | "include" => Run.render host (argText args 0) (argText args 1)
  | "load_file" => Run.loadFile host args
  | "unload_file" => Run.unloadFile host args
  | "load_js_plugin" => Run.record host (.jsPlugin (argText args 0))
  | "load_lang" => Run.record host (.lang (argText args 0))
  | "compile_xml_filter" => Run.record host (.xmlFilter (argText args 0) (argText args 1))
  | "load_ruleset" => Run.record host (.ruleset (argText args 0))
  | "request_uri" => do pure (.string (← get).context.requestUri)
  | "defined" => do pure (.bool ((← get).context.isDefined (argText args 0)))
  | _ => host.callFunction name args

/-- A method call: a registered function with the target as its first argument. -/
def Host.callMethod (host : Host σ) (name : String) (args : List Value) : Run σ Value :=
  match host.functions name with
  | some f => Run.ofExcept (f args)
  | none => Run.fail (.unknownFunction name)

/-! ### Expressions -/

mutual

/-- The value of an expression. -/
def Expr.eval (host : Host σ) : Expr → Run σ Value
  | .literal v => pure v
  | .var name => Run.readVar name
  | .const name => do pure (((← get).context.constant? name).getD .null)
  | .member base name => do pure ((← base.eval host).member name)
  | .index base key => do
    let v ← base.eval host
    pure (v.index (← key.eval host))
  | .append _ => Run.fail .appendRead
  | .call name args => do host.call name (← evalAll host args)
  | .method target name args => do
    let v ← target.eval host
    host.callMethod name (v :: (← evalAll host args))
  | .array items => do pure (Value.ofItems (← evalItems host items))
  | .unary op operand => do pure ((← operand.eval host).applyUnary op)
  | .binary .and left right => do
    if (← left.eval host).isTruthy then pure (.bool (← right.eval host).isTruthy)
    else pure (.bool false)
  | .binary .or left right => do
    if (← left.eval host).isTruthy then pure (.bool true)
    else pure (.bool (← right.eval host).isTruthy)
  | .binary op left right => do
    let v ← left.eval host
    let w ← right.eval host
    Run.ofExcept (Value.applyBinary op v w)
  | .assign op target value => do
    let v ← value.eval host
    -- the value is evaluated before the place is looked at
    let new ← match op.binary? with
      | none => pure v
      | some operator => do Run.ofExcept (Value.applyBinary operator (← target.eval host) v)
    Run.store (← target.place host) new
    pure new
  | .step target up before => do
    let old ← target.eval host
    let new := Value.stepped up old
    Run.store (← target.place host) new
    pure (if before then new else old)
  | .choice cond yes no => do
    if (← cond.eval host).isTruthy then yes.eval host else no.eval host
  | .fallback cond no => do
    let v ← cond.eval host
    if v.isTruthy then pure v else no.eval host

/-- The place an expression denotes; keys are evaluated from the last one to the first. -/
def Expr.place (host : Host σ) : Expr → Run σ Place
  | .var name =>
    if name = contextName then Run.fail .invalidAssignment else pure ⟨.local name, []⟩
  | .member (.var root) name =>
    if root = contextName then pure ⟨.context name, []⟩ else pure ⟨.local root, [.key name]⟩
  | .member base name => do pure ((← base.place host).extend (.key name))
  | .index base key => do
    let k := (← key.eval host).toKey
    pure ((← base.place host).extend (.key k))
  | .append base => do pure ((← base.place host).extend .append)
  | _ => Run.fail .invalidAssignment

/-- The values of expressions, from left to right. -/
def evalAll (host : Host σ) : List Expr → Run σ (List Value)
  | [] => pure []
  | e :: rest => do
    let v ← e.eval host
    pure (v :: (← evalAll host rest))

/-- The keys and values of the items of an array literal, from left to right. -/
def evalItems (host : Host σ) : List Item → Run σ (List (Option Value × Value))
  | [] => pure []
  | .plain e :: rest => do
    let v ← e.eval host
    pure ((none, v) :: (← evalItems host rest))
  | .keyed key e :: rest => do
    let k ← key.eval host
    let v ← e.eval host
    pure ((some k, v) :: (← evalItems host rest))

end

/-- Assigns a value to the expression. -/
def Expr.assignTo (host : Host σ) (target : Expr) (v : Value) : Run σ Unit := do
  Run.store (← target.place host) v

/-- Binds an entry of an array to the variables of a loop. -/
def bindEntry (host : Host σ) (key : Option Expr) (value : Expr) (k v : Value) : Run σ Unit := do
  match key with
  | some target => target.assignTo host k
  | none => pure ()
  value.assignTo host v

/-- Whether the condition of a loop holds; a missing one does. -/
def evalCond (host : Host σ) : Option Expr → Run σ Bool
  | some e => do pure (← e.eval host).isTruthy
  | none => pure true

/-- Writes the values of expressions, each before the next one is evaluated. -/
def echoAll (host : Host σ) : List Expr → Run σ Unit
  | [] => pure ()
  | e :: rest => do
    Run.write (← e.eval host).text
    echoAll host rest

/-! ### Statements -/

/-- The number of the first arm whose label is loosely equal to the subject. -/
def matchingArm (host : Host σ) (subject : Value) : List Arm → Run σ (Option Nat)
  | [] => pure none
  | .mk none _ :: rest => do pure ((← matchingArm host subject rest).map (· + 1))
  | .mk (some label) _ :: rest => do
    if Value.looseEq (← label.eval host) subject then pure (some 0)
    else pure ((← matchingArm host subject rest).map (· + 1))

/-- The number of the arm with which a switch starts: the first one that fits, or else the first
default. -/
def startingArm (host : Host σ) (subject : Value) (arms : List Arm) : Run σ (Option Nat) := do
  match ← matchingArm host subject arms with
  | some n => pure (some n)
  | none => pure (arms.findIdx? Arm.isDefault)

mutual

/-- The effect of a statement. -/
def Stmt.exec (host : Host σ) : Stmt → Run σ Flow
  | .text s => do
    Run.write s
    pure .normal
  | .echo es => do
    echoAll host es
    pure .normal
  | .expr e => do
    discard (e.eval host)
    pure .normal
  | .cond branches none => execBranches host (pure .normal) branches
  | .cond branches (some body) => execBranches host (execBlock host body) branches
  | .foreach subject key value body => do
    let entries := (← subject.eval host).entries
    eachRound host.limit (bindEntry host key value) (execBlock host body) host.limit entries
  | .forLoop init cond step body => do
    discard (evalAll host init)
    whileRounds host.limit (evalCond host cond) (execBlock host body)
      (discard (evalAll host step)) host.limit
  | .whileLoop cond body =>
    whileRounds host.limit (evalCond host (some cond)) (execBlock host body) (pure ()) host.limit
  | .switch subject arms => do
    match ← startingArm host (← subject.eval host) arms with
    | some n => execArms host n arms
    | none => pure .normal
  | .breakOut => pure .breakOut
  | .continueOn => pure .continueOn
  | .exit => pure .exit

/-- The effect of statements, up to the first one that does not end normally. -/
def execBlock (host : Host σ) : List Stmt → Run σ Flow
  | [] => pure .normal
  | s :: rest => do
    match ← s.exec host with
    | .normal => execBlock host rest
    | flow => pure flow

/-- The effect of the first branch whose condition holds, or else of `otherwise`. -/
def execBranches (host : Host σ) (otherwise : Run σ Flow) : List Branch → Run σ Flow
  | [] => otherwise
  | .mk cond body :: rest => do
    if (← cond.eval host).isTruthy then execBlock host body
    else execBranches host otherwise rest

/-- The effect of the arms after the first `n` ones; leaving an arm ends the switch. -/
def execArms (host : Host σ) : Nat → List Arm → Run σ Flow
  | _, [] => pure .normal
  | n + 1, _ :: rest => execArms host n rest
  | 0, .mk _ body :: rest => do
    match ← execBlock host body with
    | .normal => execArms host 0 rest
    | .exit => pure .exit
    | _ => pure .normal

end

/-- A program run on a context: its output, or why it stopped, and the context and the state of
the host afterwards. -/
def Program.run (host : Host σ) (program : Program) (context : Context) (state : σ) :
    Except TemplateError String × Context × σ :=
  match execBlock host program.body { context, locals := [], out := "", host := state } with
  | .ok _ st => (.ok st.out, st.context, st.host)
  | .error e st => (.error e, st.context, st.host)

end Stencil
