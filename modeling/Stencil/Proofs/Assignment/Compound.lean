import Stencil.Proofs.Assignment.Targets

/-!
# Assignments that read their target

A compound assignment and a step read the element of their target and write it back.  They walk the
target twice: reading evaluates its keys from the first one to the last, and the place is found by
evaluating them again, from the last one to the first.  The two walks end at the same element when
the keys leave the state as it is; a key that counts itself on is counted twice.

## Main definitions

* `Expr.ReadsAs`, `Expr.PlacesAs` — a target with the values that its keys have when it is read, and
  when its place is found.
* `Expr.Binds` — a target with the values of its keys in one state, which they leave as it is.

## Main results

* `Expr.eval_compound`, `Expr.eval_step` — which element is read, and which one is written.
* `Expr.binds_once` — a target whose keys leave the state alone is read and written at the same
  element, as if its keys had been bound before.
* `key_counted_twice` — `$a[$i++] += 10` reads one element and writes the next one.
-/

namespace Stencil

variable {σ : Type} {host : Host σ} {st st₁ st₂ st₃ : State σ}

namespace Expr

/-! ### The two walks -/

/-- Reading the target from the first state evaluates its keys, from the first one to the last, to
those of the bound target and ends in the second state. -/
inductive ReadsAs (host : Host σ) : State σ → Expr → Expr → State σ → Prop
  | var (st : State σ) (name : String) : ReadsAs host st (.var name) (.var name) st
  | member {st st₁ : State σ} {base bound : Expr} (h : ReadsAs host st base bound st₁)
      (name : String) : ReadsAs host st (.member base name) (.member bound name) st₁
  | index {st st₁ st₂ : State σ} {base bound key : Expr} {k : Value}
      (h : ReadsAs host st base bound st₁) (hkey : key.eval host st₁ = .ok k st₂) :
      ReadsAs host st (.index base key) (.index bound (.literal k)) st₂

/-- Finding the place of the target from the first state evaluates its keys, from the last one to
the first, to those of the bound target and ends in the second state. -/
inductive PlacesAs (host : Host σ) : State σ → Expr → Expr → State σ → Prop
  | local (st : State σ) {name : String} (h : name ≠ contextName) :
      PlacesAs host st (.var name) (.var name) st
  | context (st : State σ) (name : String) :
      PlacesAs host st (.member (.var contextName) name) (.member (.var contextName) name) st
  | member {st st₁ : State σ} {base bound : Expr} (h : PlacesAs host st base bound st₁)
      (name : String) : PlacesAs host st (.member base name) (.member bound name) st₁
  | index {st st₁ st₂ : State σ} {base bound key : Expr} {k : Value}
      (hkey : key.eval host st = .ok k st₁) (h : PlacesAs host st₁ base bound st₂) :
      PlacesAs host st (.index base key) (.index bound (.literal k)) st₂

variable {target bound read written base value : Expr} {v : Value}

theorem PlacesAs.base_ne (h : PlacesAs host st base bound st₁) :
    base ≠ .var contextName ∧ bound ≠ .var contextName := by
  cases h with
  | «local» _ h =>
    have hne : ∀ {name}, name ≠ contextName → Expr.var name ≠ .var contextName :=
      fun h heq => h (Expr.var.inj heq)
    exact ⟨hne h, hne h⟩
  | context | member | index => exact ⟨nofun, nofun⟩

/-- The target is read where the bound target stands in the first state. -/
theorem eval_of_readsAs (h : ReadsAs host st target bound st₁) :
    ∃ v, bound.eval host st = .ok v st ∧ target.eval host st = .ok v st₁ := by
  induction h with
  | var name =>
    have hquiet : (eval host (.var name)).Quiet := quiet_var name
    obtain ⟨v, hv⟩ | ⟨e, he⟩ := hquiet st
    · exact ⟨v, hv, hv⟩
    · rw [eval, Run.readVar, get_bind_eq] at he
      split at he <;> cases he
  | member h name ih =>
    obtain ⟨v, hbound, htarget⟩ := ih
    refine ⟨v.member name, ?_, ?_⟩
    · rw [eval, Run.bind_of_ok hbound]
      rfl
    · rw [eval, Run.bind_of_ok htarget]
      rfl
  | @index _ _ _ _ _ k h hkey ih =>
    obtain ⟨v, hbound, htarget⟩ := ih
    refine ⟨v.index k, ?_, ?_⟩
    · rw [eval, Run.bind_of_ok hbound, eval]
      rfl
    · rw [eval, Run.bind_of_ok htarget, Run.bind_of_ok hkey]
      rfl

/-- The place of the target is that of the bound target, which is the same in all states. -/
theorem place_of_placesAs (h : PlacesAs host st target bound st₁) :
    ∃ p, target.place host st = .ok p st₁ ∧ ∀ s, bound.place host s = .ok p s := by
  induction h with
  | @«local» st name h =>
    have hplace : ∀ s, (Expr.var name).place host s = .ok ⟨.local name, []⟩ s := fun s => by
      rw [place, if_neg h]
      rfl
    exact ⟨_, hplace st, hplace⟩
  | context st name =>
    have hplace : ∀ s, (Expr.member (.var contextName) name).place host s =
        .ok ⟨.context name, []⟩ s := fun s => by
      rw [place, if_pos rfl]
      rfl
    exact ⟨_, hplace st, hplace⟩
  | member h name ih =>
    obtain ⟨p, htarget, hbound⟩ := ih
    refine ⟨p.extend (.key name), ?_, fun s => ?_⟩
    · rw [place_member h.base_ne.1, Run.bind_of_ok htarget]
      rfl
    · rw [place_member h.base_ne.2, Run.bind_of_ok (hbound s)]
      rfl
  | @index _ _ _ _ _ _ k hkey h ih =>
    obtain ⟨p, htarget, hbound⟩ := ih
    refine ⟨p.extend (.key k.toKey), ?_, fun s => ?_⟩
    · rw [place, Run.bind_of_ok hkey, Run.bind_of_ok htarget]
      rfl
    · have hliteral : (Expr.literal k).eval host s = .ok k s := by
        rw [eval]
        rfl
      rw [place, Run.bind_of_ok hliteral, Run.bind_of_ok (hbound s)]
      rfl

/-! ### Both walks together -/

/-- Storing where the target is found is assigning to the bound target. -/
theorem store_of_placesAs {α : Type} (h : PlacesAs host st target bound st₁) (new : Value) (a : α) :
    (do
      Run.store (← target.place host) new
      pure a : Run σ α) st =
      (do
        bound.assignTo host new
        pure a : Run σ α) st₁ := by
  obtain ⟨p, htarget, hbound⟩ := place_of_placesAs h
  have hassign : bound.assignTo host new st₁ = Run.store p new st₁ := by
    rw [assignTo, Run.bind_of_ok (hbound st₁)]
  rw [Run.bind_of_ok htarget]
  cases hstore : Run.store p new st₁ with
  | ok u st' => rw [Run.bind_of_ok hstore, Run.bind_of_ok (hassign.trans hstore)]
  | error e st' => rw [Run.bind_of_error hstore, Run.bind_of_error (hassign.trans hstore)]

/-- **A compound assignment** reads its target after its value, as the keys are then, and writes it
as they are when they are evaluated once more. -/
theorem eval_compound {op : AssignOp} {operator : BinaryOp} (hop : op.binary? = some operator)
    (hvalue : value.eval host st = .ok v st₁) (hread : ReadsAs host st₁ target read st₂)
    (hwritten : PlacesAs host st₂ target written st₃) :
    ∃ old, read.eval host st₁ = .ok old st₁ ∧
      (Expr.assign op target value).eval host st = match Value.applyBinary operator old v with
        | .ok new => (do written.assignTo host new; pure new : Run σ Value) st₃
        | .error e => .error (.runtime e) st₂ := by
  obtain ⟨old, hold, htarget⟩ := eval_of_readsAs hread
  refine ⟨old, hold, ?_⟩
  rw [eval, Run.bind_of_ok hvalue, hop]
  dsimp only
  rw [Run.bind_of_ok htarget]
  cases Value.applyBinary operator old v with
  | error e => rfl
  | ok new => exact store_of_placesAs hwritten new new

/-- **A step** reads its target as the keys are, and writes it as they are when they are evaluated
once more. -/
theorem eval_step (hread : ReadsAs host st target read st₁)
    (hwritten : PlacesAs host st₁ target written st₂) (up before : Bool) :
    ∃ old, read.eval host st = .ok old st ∧
      (Expr.step target up before).eval host st =
        (do
          written.assignTo host (Value.stepped up old)
          pure (if before then Value.stepped up old else old) : Run σ Value) st₂ := by
  obtain ⟨old, hold, htarget⟩ := eval_of_readsAs hread
  refine ⟨old, hold, ?_⟩
  rw [eval, Run.bind_of_ok htarget]
  exact store_of_placesAs hwritten _ _

/-! ### Keys that leave the state as it is -/

/-- The bound target has the values of the keys of the target, which leave the state as it is. -/
inductive Binds (host : Host σ) (st : State σ) : Expr → Expr → Prop
  | local {name : String} (h : name ≠ contextName) : Binds host st (.var name) (.var name)
  | context (name : String) :
      Binds host st (.member (.var contextName) name) (.member (.var contextName) name)
  | member {base bound : Expr} (h : Binds host st base bound) (name : String) :
      Binds host st (.member base name) (.member bound name)
  | index {base bound key : Expr} {k : Value} (h : Binds host st base bound)
      (hkey : key.eval host st = .ok k st) :
      Binds host st (.index base key) (.index bound (.literal k))

theorem Binds.readsAs (h : Binds host st target bound) : ReadsAs host st target bound st := by
  induction h with
  | «local» h => exact .var _ _
  | context name => exact .member (.var _ _) _
  | member _ name ih => exact .member ih name
  | index _ hkey ih => exact .index ih hkey

theorem Binds.placesAs (h : Binds host st target bound) : PlacesAs host st target bound st := by
  induction h with
  | «local» h => exact .local _ h
  | context name => exact .context _ _
  | member _ name ih => exact .member ih name
  | index _ hkey ih => exact .index hkey ih

/-- A bound target has its own keys in every state. -/
theorem Binds.self (h : Binds host st target bound) (s : State σ) : Binds host s bound bound := by
  induction h with
  | «local» h => exact .local h
  | context name => exact .context name
  | member _ name ih => exact .member ih name
  | @index _ _ _ k _ _ ih =>
    refine .index ih ?_
    rw [eval]
    rfl

/-- The operators of compound assignments evaluate both operands, from left to right. -/
theorem eval_binary_of_compound {op : AssignOp} {operator : BinaryOp}
    (hop : op.binary? = some operator) (left right : Expr) :
    (Expr.binary operator left right).eval host = (do
      let v ← left.eval host
      let w ← right.eval host
      Run.ofExcept (Value.applyBinary operator v w) : Run σ Value) := by
  cases op <;> cases hop <;> rw [eval] <;> nofun

theorem eval_set (target value : Expr) :
    (Expr.assign .set target value).eval host = (do
      let new ← value.eval host
      Run.store (← target.place host) new
      pure new : Run σ Value) := by
  rw [eval]
  rfl

/-- **Compound assignments and steps with bound keys.**  When the keys of a target leave the state
as it is, `++` and `--` read and write the element of the bound target; and so does `T op= e`, as
`T = T op e` on the bound target, provided that evaluating `e` changes neither the keys nor the
element. -/
theorem binds_once (h : Binds host st target bound) :
    (∀ op operator value, op.binary? = some operator →
      (∀ v st₁, value.eval host st = .ok v st₁ →
        Binds host st₁ target bound ∧ Run.Agrees (bound.eval host) st st₁) →
      (Expr.assign op target value).eval host st =
        (Expr.assign .set bound (.binary operator bound value)).eval host st) ∧
    ∀ up before, (Expr.step target up before).eval host st = (do
      let old ← bound.eval host
      let new := Value.stepped up old
      bound.assignTo host new
      pure (if before then new else old) : Run σ Value) st := by
  obtain ⟨old, hold, -⟩ := eval_of_readsAs h.readsAs
  constructor
  · intro op operator value hop hkept
    rw [eval_set, eval_binary_of_compound hop]
    cases hvalue : value.eval host st with
    | error e st₁ =>
      rw [eval, Run.bind_of_error hvalue]
      refine (Run.bind_of_error ?_).symm
      rw [Run.bind_of_ok hold]
      exact Run.bind_of_error hvalue
    | ok v st₁ =>
      obtain ⟨hbinds, hagrees⟩ := hkept v st₁ hvalue
      obtain ⟨old', hold', heq⟩ := eval_compound hop hvalue hbinds.readsAs hbinds.placesAs
      -- the element has its value of before, whether it is read before or after the other operand
      obtain rfl : old' = old := by
        obtain ⟨w, hw, hw'⟩ | ⟨e, he, -⟩ := hagrees
        · rw [hold] at hw
          rw [hold'] at hw'
          cases hw
          cases hw'
          rfl
        · rw [hold] at he
          cases he
      have hoperands : (do
          let v ← bound.eval host
          let w ← value.eval host
          Run.ofExcept (Value.applyBinary operator v w) : Run σ Value) st =
            (Run.ofExcept (Value.applyBinary operator old' v) : Run σ Value) st₁ := by
        rw [Run.bind_of_ok hold, Run.bind_of_ok hvalue]
      rw [heq]
      cases hnew : Value.applyBinary operator old' v with
      | error e =>
        rw [hnew] at hoperands
        exact (Run.bind_of_error hoperands).symm
      | ok new =>
        rw [hnew] at hoperands
        rw [Run.bind_of_ok hoperands]
        exact (store_of_placesAs (hbinds.self st₁).placesAs new new).symm
  · intro up before
    obtain ⟨old', hold', heq⟩ := eval_step h.readsAs h.placesAs up before
    rw [heq, Run.bind_of_ok hold']

end Expr

/-- The state in which `a` is a list and `i` a number. -/
def listAndIndex (items : List Value) (i : Int64) : State Unit :=
  { context := {}, locals := [("a", .list items), ("i", .int i)], out := "", host := () }

/-- `$a[$i] += 10` writes the element that it reads. -/
theorem binds_once_variable :
    let before := listAndIndex [.int 1, .int 2, .int 3] 0
    (Expr.index (.var "a") (.var "i")).Binds bareHost before
      (.index (.var "a") (.literal (.int 0))) ∧
    (Expr.assign .add (.index (.var "a") (.var "i")) (.literal (.int 10))).eval bareHost before =
      .ok (.int 11) (listAndIndex [.int 11, .int 2, .int 3] 0) := by
  have hbinds : (Expr.index (.var "a") (.var "i")).Binds bareHost
      (listAndIndex [.int 1, .int 2, .int 3] 0) (.index (.var "a") (.literal (.int 0))) :=
    .index (.local (by decide)) rfl
  refine ⟨hbinds, ((Expr.binds_once hbinds).1 .add .add (.literal (.int 10)) rfl ?_).trans rfl⟩
  rintro v st₁ hvalue
  cases hvalue
  exact ⟨hbinds, .inl ⟨.int 1, rfl, rfl⟩⟩

/-- A key that changes the state is evaluated twice: with `i` at zero, `$a[$i++] += 10` adds to the
first element and writes the second one, and `i` is two afterwards.  With the key bound before it is
the first element that is written, and `i` is one.  In the same way `--$a[$i++]` counts the first
element down and writes the second one. -/
theorem key_counted_twice :
    let before := listAndIndex [.int 1, .int 2, .int 3] 0
    let key := Expr.step (.var "i") true false
    let bound := Expr.index (.var "a") (.literal (.int 0))
    (Expr.assign .add (.index (.var "a") key) (.literal (.int 10))).eval bareHost before =
        .ok (.int 11) (listAndIndex [.int 1, .int 11, .int 3] 2) ∧
      key.eval bareHost before = .ok (.int 0) (listAndIndex [.int 1, .int 2, .int 3] 1) ∧
      (Expr.assign .set bound (.binary .add bound (.literal (.int 10)))).eval bareHost
          (listAndIndex [.int 1, .int 2, .int 3] 1) =
        .ok (.int 11) (listAndIndex [.int 11, .int 2, .int 3] 1) ∧
      (Expr.step (.index (.var "a") key) false true).eval bareHost before =
        .ok (.int 0) (listAndIndex [.int 1, .int 0, .int 3] 2) :=
  ⟨rfl, rfl, rfl, rfl⟩

end Stencil
