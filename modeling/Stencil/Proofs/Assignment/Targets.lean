import Stencil.Proofs.Assignment.Accesses
import Stencil.Proofs.Simulation
import Stencil.Script.Eval

/-!
# Assignment to a target

A target is a chain of members, elements and append forms that starts at a variable.  Its keys are
expressions that leave the state as it is.  Under the values of its keys a target denotes accesses
from a root, and both evaluating it and assigning to it are about these alone.

## Main definitions

* `Run.Quiet`, `Run.Agrees` — steps that leave every state as it is, and that give the same in two
  states.
* `Expr.IsTarget` — the expressions that can be assigned to and have quiet keys.
* `Expr.Denotes` — the root and the accesses of a target under the values of its keys.
* `Expr.Assigned` — what a state after an assignment has to do with the state before it.

## Main results

* `Expr.eval_of_denotes`, `Expr.place_of_denotes` — the value and the place of a target.
* `Expr.assignTo_atomic` — an assignment fails and changes nothing, or it sets the element of the
  target and leaves everything else.
-/

namespace Stencil

variable {σ α : Type} {host : Host σ} {st : State σ}

/-! ### Steps that change nothing -/

/-- The step leaves every state as it is, whether it fails or not. -/
def Run.Quiet (m : Run σ α) : Prop :=
  ∀ st, (∃ a, m st = .ok a st) ∨ ∃ e, m st = .error e st

/-- The step gives the same in both states and changes neither. -/
def Run.Agrees (m : Run σ α) (st st' : State σ) : Prop :=
  (∃ a, m st = .ok a st ∧ m st' = .ok a st') ∨ ∃ e, m st = .error e st ∧ m st' = .error e st'

variable {β : Type} {m : Run σ α} {f : α → Run σ β}

theorem Run.quiet_pure (a : α) : (pure a : Run σ α).Quiet := fun _ => .inl ⟨a, rfl⟩

theorem Run.Quiet.bind (hm : m.Quiet) (hf : ∀ a, (f a).Quiet) : (m >>= f).Quiet := by
  intro st
  rcases hm st with ⟨a, ha⟩ | ⟨e, he⟩
  · rw [Run.bind_of_ok ha]
    exact hf a st
  · exact .inr ⟨e, Run.bind_of_error he⟩

theorem Expr.quiet_literal (v : Value) : ((Expr.literal v).eval host).Quiet := by
  rw [Expr.eval]
  exact Run.quiet_pure v

theorem Expr.quiet_var (name : String) : ((Expr.var name).eval host).Quiet := by
  intro st
  rw [Expr.eval, Run.readVar, get_bind_eq]
  split <;> exact .inl ⟨_, rfl⟩

theorem Expr.quiet_index {base key : Expr} (hb : (base.eval host).Quiet)
    (hk : (key.eval host).Quiet) : ((Expr.index base key).eval host).Quiet := by
  rw [Expr.eval]
  exact hb.bind fun v => hk.bind fun k => Run.quiet_pure _

/-! ### Targets -/

/-- The expressions that can be assigned to: chains of members, elements and append forms that start
at a variable, with quiet keys. -/
inductive Expr.IsTarget (host : Host σ) : Expr → Prop
  | local {name : String} (h : name ≠ contextName) : IsTarget host (.var name)
  | context {name : String} : IsTarget host (.member (.var contextName) name)
  | member {base : Expr} {name : String} (h : IsTarget host base)
      (hname : IsQualified name.toList) : IsTarget host (.member base name)
  | index {base key : Expr} (h : IsTarget host base) (hkey : (key.eval host).Quiet) :
      IsTarget host (.index base key)
  | append {base : Expr} (h : IsTarget host base) : IsTarget host (.append base)

/-- The keys of a target. -/
def Expr.keys : Expr → List Expr
  | .member base _ => base.keys
  | .index base key => base.keys ++ [key]
  | .append base => base.keys
  | _ => []

/-- The target starts at the root and goes along the accesses, when its keys are evaluated in the
state. -/
inductive Expr.Denotes (host : Host σ) (st : State σ) : Expr → Root → List Access → Prop
  | local {name : String} (h : name ≠ contextName) : Denotes host st (.var name) (.local name) []
  | context {name : String} :
      Denotes host st (.member (.var contextName) name) (.context name) []
  | member {base : Expr} {root : Root} {as : List Access} {name : String}
      (h : Denotes host st base root as) (hname : IsQualified name.toList) :
      Denotes host st (.member base name) root (as ++ [.member name])
  | index {base key : Expr} {root : Root} {as : List Access} {k : Value}
      (h : Denotes host st base root as) (hkey : key.eval host st = .ok k st) :
      Denotes host st (.index base key) root (as ++ [.key k])
  | append {base : Expr} {root : Root} {as : List Access} (h : Denotes host st base root as) :
      Denotes host st (.append base) root (as ++ [.append])

theorem Value.accessAll_append (v : Value) (as bs : List Access) :
    v.accessAll (as ++ bs) = (v.accessAll as).bind (Value.accessAll · bs) := by
  induction as generalizing v with
  | nil => rfl
  | cons a as ih =>
    show (v.access a).bind (fun w => w.accessAll (as ++ bs)) = _
    show _ = ((v.access a).bind fun w => w.accessAll as).bind _
    cases v.access a with
    | error e => rfl
    | ok w => exact ih w

/-- Reading fails only at an append form. -/
theorem Value.accessAll_eq_error {v : Value} {as : List Access} {err : RuntimeError}
    (h : v.accessAll as = .error err) : err = .appendRead := by
  induction as generalizing v with
  | nil => cases h
  | cons a as ih =>
    cases a with
    | append =>
      cases h
      rfl
    | member name => exact ih (v := v.member name) h
    | key k => exact ih (v := v.index k) h

namespace Expr

variable {e base : Expr} {root : Root} {as : List Access}

/-- The value of a target is what its accesses read. -/
theorem eval_of_denotes (h : e.Denotes host st root as) :
    e.eval host st = (Run.ofExcept ((st.root root).accessAll as) : Run σ Value) st := by
  induction h with
  | @«local» name h =>
    rw [eval, Run.readVar, get_bind_eq, if_neg h]
    rfl
  | @context name =>
    have hvars : (Expr.var contextName).eval host st = .ok (.map st.context.vars) st := by
      rw [eval, Run.readVar, get_bind_eq, if_pos rfl]
      rfl
    rw [eval, Run.bind_of_ok hvars]
    rfl
  | @member base root as name h hname ih =>
    rw [eval, Value.accessAll_append]
    cases hv : (st.root root).accessAll as with
    | ok v =>
      rw [hv] at ih
      rw [Run.bind_of_ok ih]
      rfl
    | error err =>
      rw [hv] at ih
      exact Run.bind_of_error ih
  | @index base key root as k h hkey ih =>
    rw [eval, Value.accessAll_append]
    cases hv : (st.root root).accessAll as with
    | ok v =>
      rw [hv] at ih
      rw [Run.bind_of_ok ih, Run.bind_of_ok hkey]
      rfl
    | error err =>
      rw [hv] at ih
      exact Run.bind_of_error ih
  | @append base root as h ih =>
    rw [eval, Value.accessAll_append]
    cases hv : (st.root root).accessAll as with
    | ok v => rfl
    | error err =>
      rw [Value.accessAll_eq_error hv]
      rfl

theorem place_member (h : base ≠ .var contextName) (name : String) :
    (Expr.member base name).place host =
      (do pure ((← base.place host).extend (.key name)) : Run σ Place) := by
  by_cases hvar : ∃ root, base = .var root
  · obtain ⟨root, rfl⟩ := hvar
    have hroot : root ≠ contextName := fun heq => h (congrArg Expr.var heq)
    rw [place, place, if_neg hroot, if_neg hroot]
    rfl
  · rw [place]
    exact fun root heq => hvar ⟨root, heq⟩

/-- The place of a target is its root and the steps of its accesses. -/
theorem place_of_denotes (h : e.Denotes host st root as) :
    e.place host st = .ok ⟨root, as.map Access.step⟩ st := by
  induction h with
  | @«local» name h =>
    rw [place, if_neg h]
    rfl
  | @context name =>
    rw [place, if_pos rfl]
    rfl
  | @member base root as name h hname ih =>
    have hbase : base ≠ .var contextName := by
      rintro rfl
      cases h with
      | «local» h => exact h rfl
    rw [place_member hbase, Run.bind_of_ok ih, List.map_append]
    rfl
  | @index base key root as k h hkey ih =>
    rw [place, Run.bind_of_ok hkey, Run.bind_of_ok ih, List.map_append]
    rfl
  | @append base root as h ih =>
    rw [place, Run.bind_of_ok ih, List.map_append]
    rfl

/-- A target denotes something, or one of its keys fails and so does its place. -/
theorem denotes_or_fails (h : e.IsTarget host) (st : State σ) :
    (∃ root as, e.Denotes host st root as) ∨
      ∃ err, e.place host st = .error err st ∧
        ∃ key ∈ e.keys, key.eval host st = .error err st := by
  induction h with
  | «local» h => exact .inl ⟨_, _, .local h⟩
  | context => exact .inl ⟨_, _, .context⟩
  | @member base name h hname ih =>
    rcases ih with ⟨root, as, hd⟩ | ⟨err, hplace, hkey⟩
    · exact .inl ⟨root, _, hd.member hname⟩
    · refine .inr ⟨err, ?_, hkey⟩
      have hbase : base ≠ .var contextName := by
        rintro rfl
        cases h with
        | «local» h => exact h rfl
      rw [place_member hbase]
      exact Run.bind_of_error hplace
  | @index base key h hkey ih =>
    rcases hkey st with ⟨k, hk⟩ | ⟨err, herr⟩
    · rcases ih with ⟨root, as, hd⟩ | ⟨err, hplace, key', hmem, hkey'⟩
      · exact .inl ⟨root, _, hd.index hk⟩
      · refine .inr ⟨err, ?_, key', List.mem_append_left _ hmem, hkey'⟩
        rw [place, Run.bind_of_ok hk]
        exact Run.bind_of_error hplace
    · refine .inr ⟨err, ?_, key, List.mem_append_right _ List.mem_cons_self, herr⟩
      rw [place]
      exact Run.bind_of_error herr
  | @append base h ih =>
    rcases ih with ⟨root, as, hd⟩ | ⟨err, hplace, hkey⟩
    · exact .inl ⟨root, _, hd.append⟩
    · refine .inr ⟨err, ?_, hkey⟩
      rw [place]
      exact Run.bind_of_error hplace

/-- The names along the accesses of a target can be spelled. -/
theorem Denotes.named (h : e.Denotes host st root as) : ∀ a ∈ as, a.Named := by
  induction h with
  | «local» | context => exact fun _ ha => absurd ha List.not_mem_nil
  | member _ hname ih =>
    exact List.forall_mem_append.mpr ⟨ih, List.forall_mem_singleton.mpr hname⟩
  | index _ _ ih => exact List.forall_mem_append.mpr ⟨ih, List.forall_mem_singleton.mpr trivial⟩
  | append _ ih => exact List.forall_mem_append.mpr ⟨ih, List.forall_mem_singleton.mpr trivial⟩

end Expr

/-! ### Assignments -/

theorem State.root_setRoot_self (st : State σ) (v : Value) (root : Root) :
    (st.setRoot v root).root root = v := by
  cases root with
  | context name =>
    show ((st.context.set name v).get? name).getD .null = v
    rw [Context.get?_set_self]
    rfl
  | «local» name =>
    show (Assoc.get? (Assoc.insert st.locals name v) name).getD .null = v
    rw [Assoc.get?_insert_self]
    rfl

theorem State.root_setRoot_of_ne (st : State σ) (v : Value) {root other : Root} (h : other ≠ root) :
    (st.setRoot v root).root other = st.root other := by
  cases root with
  | context name =>
    cases other with
    | context other =>
      have hne : name ≠ other := fun heq => h (congrArg Root.context heq.symm)
      exact congrArg (Option.getD · _) (Context.get?_set_of_ne _ hne _)
    | «local» other => rfl
  | «local» name =>
    cases other with
    | context other => rfl
    | «local» other =>
      have hne : name ≠ other := fun heq => h (congrArg Root.local heq.symm)
      exact congrArg (Option.getD · _) (Assoc.get?_insert_of_ne _ hne _)

/-- Storing at a place sets its root to what the walk leaves of it. -/
theorem Run.store_eq (p : Place) (new : Value) (st : State σ) :
    Run.store p new st =
      if (Value.write new p.path (st.root p.root)).2 then
        .ok () (st.setRoot (Value.write new p.path (st.root p.root)).1 p.root)
      else .error (.runtime .invalidAssignment)
        (st.setRoot (Value.write new p.path (st.root p.root)).1 p.root) := by
  rw [Run.store, get_bind_eq]
  generalize Value.write new p.path (st.root p.root) = written
  rcases written with ⟨w, _ | _⟩ <;> rfl

/-- Setting a variable that is not null to its value changes nothing. -/
theorem State.setRoot_root {root : Root} (h : st.root root ≠ .null) :
    st.setRoot (st.root root) root = st := by
  cases root with
  | context name =>
    cases hv : st.context.get? name with
    | none => exact absurd (by rw [State.root, hv]; rfl) h
    | some v =>
      show { st with context := st.context.set name ((st.context.get? name).getD .null) } = st
      rw [hv, Context.set, Option.getD_some, Assoc.insert_of_get? hv]
  | «local» name =>
    cases hv : Assoc.get? st.locals name with
    | none => exact absurd (by rw [State.root, hv]; rfl) h
    | some v =>
      show { st with
        locals := Assoc.insert st.locals name ((Assoc.get? st.locals name).getD .null) } = st
      rw [hv, Option.getD_some, Assoc.insert_of_get? hv]

/-- An assignment whose walk is refused leaves the state as it was. -/
theorem Run.store_of_not_reached {p : Place} {new : Value}
    (h : (Value.write new p.path (st.root p.root)).2 = false) :
    Run.store p new st = .error (.runtime .invalidAssignment) st := by
  have hne : st.root p.root ≠ .null := by
    intro hnull
    rw [hnull, Value.write_null_reached] at h
    cases h
  rw [Run.store_eq, h, Value.write_of_not_reached h, State.setRoot_root hne]
  rfl

namespace Expr

/-- The target denotes the accesses `as` from `root`, and the value `w` of the root after the
assignment of `new` has one element set, at the end of `route`; apart from that it is the value
before it, with the elements that the append steps have added. -/
structure Assigned (host : Host σ) (target : Expr) (new : Value) (st : State σ) (root : Root)
    (as : List Access) (route : List Slot) (w : Value) : Prop where
  denotes : target.Denotes host st root as
  walk : Value.Walk new (as.map Access.step) route (st.root root) w
  /-- The element of the target is the new value. -/
  element : w.at? route = some new
  /-- Without an append form the target reads back, as long as its keys have the values that they
  had before the assignment. -/
  reads : .append ∉ as → target.Denotes host (st.setRoot w root) root as →
    target.eval host (st.setRoot w root) = .ok new (st.setRoot w root)
  /-- Each append form has added one element. -/
  appended : ∀ before after, as = before ++ .append :: after →
    ∃ r₁ s r₂ x c, route = r₁ ++ s :: r₂ ∧ r₁.length = before.length ∧ w.at? r₁ = some c ∧
      c.element? s = some x ∧ Value.Appended x (((st.root root).at? r₁).getD .null) c
  /-- The other variables have their values. -/
  others : ∀ other, other ≠ root → (st.setRoot w root).root other = st.root other
  /-- The elements off the route are what they were. -/
  elements : ∀ addr, ¬ addr <+: route → ¬ route <+: addr → w.at? addr = (st.root root).at? addr
  /-- What starts at another variable or leaves the route evaluates to what it did. -/
  evaluates : ∀ e other bs, Denotes host st e other bs →
    Denotes host (st.setRoot w root) e other bs →
    (other = root → Value.Leaves route bs w) →
    Run.Agrees (e.eval host) st (st.setRoot w root)
  /-- The maps keep the order of their entries. -/
  keys_prefix : ∀ addr es, (st.root root).at? addr = some (.map es) → ¬ route <+: addr →
    ∃ es', w.at? addr = some (.map es') ∧ Assoc.keys es <+: Assoc.keys es'

theorem agrees_of_denotes {e : Expr} {root : Root} {as : List Access} {st' : State σ}
    (h : e.Denotes host st root as) (h' : e.Denotes host st' root as)
    (heq : (st'.root root).accessAll as = (st.root root).accessAll as) :
    Run.Agrees (e.eval host) st st' := by
  have hst := eval_of_denotes h
  have hst' := eval_of_denotes h'
  rw [heq] at hst'
  cases hv : (st.root root).accessAll as with
  | ok v =>
    rw [hv] at hst hst'
    exact .inl ⟨v, hst, hst'⟩
  | error err =>
    rw [hv] at hst hst'
    exact .inr ⟨_, hst, hst'⟩

theorem assigned_of_walk {target : Expr} {new : Value} {root : Root} {as : List Access}
    {route : List Slot} {w : Value} (hd : target.Denotes host st root as)
    (hwalk : Value.Walk new (as.map Access.step) route (st.root root) w)
    (hw : (st.root root).WithinWords) : Assigned host target new st root as route w where
  denotes := hd
  walk := hwalk
  element := hwalk.at?_route
  reads happend hd' := by
    rw [eval_of_denotes hd', State.root_setRoot_self,
      hwalk.accessAll_eq_new hw hd.named happend]
    rfl
  appended before after has := by
    rw [has, List.map_append, List.map_cons] at hwalk
    simpa only [List.length_map] using hwalk.appended hw
  others other hne := State.root_setRoot_of_ne st w hne
  elements addr hon hbelow := hwalk.at?_of_off hon hbelow
  evaluates e other bs he he' hleaves := by
    refine agrees_of_denotes he he' ?_
    by_cases hroot : other = root
    · subst hroot
      rw [State.root_setRoot_self]
      exact hwalk.accessAll_of_leaves (hleaves rfl)
    · rw [State.root_setRoot_of_ne st w hroot]
  keys_prefix addr es hat hr := hwalk.keys_prefix hat hr

/-- **Assignment is atomic.**  Either it fails, because a step of the target cannot be taken or
because a key fails, and leaves the state exactly as it was; or it sets one variable, whose value
has the element of the target set and is otherwise what it was. -/
theorem assignTo_atomic {target : Expr} (h : target.IsTarget host) (st : State σ)
    (hw : ∀ root, (st.root root).WithinWords) (new : Value) :
    (∃ err, target.assignTo host new st = .error err st ∧
      (err = .runtime .invalidAssignment ∨
        ∃ key ∈ target.keys, key.eval host st = .error err st)) ∨
    ∃ root as route w, target.assignTo host new st = .ok () (st.setRoot w root) ∧
      Assigned host target new st root as route w := by
  unfold assignTo
  rcases denotes_or_fails h st with ⟨root, as, hd⟩ | ⟨err, hplace, hkey⟩
  · rw [Run.bind_of_ok (place_of_denotes hd)]
    cases hreached : (Value.write new (as.map Access.step) (st.root root)).2 with
    | false => exact .inl ⟨_, Run.store_of_not_reached hreached, .inl rfl⟩
    | true =>
      obtain ⟨route, hwalk⟩ := Value.walk_of_reached hreached
      refine .inr ⟨root, as, route, _, ?_, assigned_of_walk hd hwalk (hw root)⟩
      rw [Run.store_eq, hreached]
      rfl
  · exact .inl ⟨err, Run.bind_of_error hplace, .inr hkey⟩

end Expr

/-! ### A list with one item -/

/-- A host without functions and templates. -/
def bareHost : Host Unit where
  functions _ := none
  limit := 0
  render _ _ context host := (.ok "", context, host)
  record _ host := host

/-- The state in which the variable `a` is a list with one item. -/
def oneItem (v : Value) : State Unit :=
  { context := {}, locals := [("a", .list [v])], out := "", host := () }

theorem withinWords_oneItem {v : Value} (hv : v.isArray = false) (root : Root) :
    ((oneItem v).root root).WithinWords := by
  have hlist : (Value.list [v]).WithinWords :=
    Value.withinWords_list (show (1 : Int) ≤ Int64.maxValue.toInt by decide)
      (List.forall_mem_singleton.mpr (Value.withinWords_of_not_isArray hv))
  cases root with
  | context name => exact Value.withinWords_null
  | «local» name =>
    show ((if "a" = name then some (Value.list [v]) else none).getD .null).WithinWords
    split
    · exact hlist
    · exact Value.withinWords_null

/-- The target `$a[1]->b[]` creates a map and a list on its way. -/
theorem assignTo_atomic_nested :
    let target := Expr.append (.member (.index (.var "a") (.literal (.int 1))) "b")
    target.IsTarget bareHost ∧ (∀ root, ((oneItem (.int 0)).root root).WithinWords) ∧
    target.assignTo bareHost (.int 5) (oneItem (.int 0)) = .ok ()
      { oneItem (.int 0) with locals := [("a", .list [.int 0, .map [("b", .list [.int 5])]])] } ∧
    ∃ root as route w, target.Assigned bareHost (.int 5) (oneItem (.int 0)) root as route w := by
  have hb : IsQualified "b".toList := .name ⟨by decide, by decide⟩
  have ha : (Expr.var "a").IsTarget bareHost := .local (by decide)
  have htarget := ((ha.index (Expr.quiet_literal (.int 1))).member hb).append
  refine ⟨htarget, withinWords_oneItem rfl, rfl, ?_⟩
  rcases Expr.assignTo_atomic htarget (oneItem (.int 0)) (withinWords_oneItem rfl) (.int 5) with
    ⟨err, herr, -⟩ | ⟨root, as, route, w, -, h⟩
  · cases herr
  · exact ⟨root, as, route, w, h⟩

/-- A key is evaluated before the assignment: after `$a[$a[0]] = 5` on the list of a zero the key is
another one, and the target reads null.  And a key can fail itself, as in `$a[1 / 0] = 5`. -/
theorem own_key_reads_null :
    let own := Expr.index (.var "a") (.index (.var "a") (.literal (.int 0)))
    let failing := Expr.index (.var "a") (.binary .divide (.literal (.int 1)) (.literal (.int 0)))
    (own.IsTarget bareHost ∧ (∀ root, ((oneItem (.int 0)).root root).WithinWords) ∧
      own.assignTo bareHost (.int 5) (oneItem (.int 0)) = .ok () (oneItem (.int 5)) ∧
      own.eval bareHost (oneItem (.int 5)) = .ok .null (oneItem (.int 5))) ∧
    failing.IsTarget bareHost ∧
      failing.assignTo bareHost (.int 5) (oneItem (.int 0)) =
        .error (.runtime .divisionByZero) (oneItem (.int 0)) := by
  have ha : (Expr.var "a").IsTarget bareHost := .local (by decide)
  have hquiet : ((Expr.binary .divide (.literal (.int 1)) (.literal (.int 0))).eval
      bareHost).Quiet := fun st => .inr ⟨.runtime .divisionByZero, rfl⟩
  exact ⟨⟨ha.index (Expr.quiet_index (Expr.quiet_var "a") (Expr.quiet_literal _)),
    withinWords_oneItem rfl, rfl, rfl⟩, ha.index hquiet, rfl⟩

end Stencil
