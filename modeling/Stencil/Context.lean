import Stencil.Value.Json

/-!
# Render contexts

What a host hands to a template: the variables, which the template reads and writes, the
constants, and the facts of the request and of the session.

## Main definitions

* `Session`, `Context` — the data of one render.
* `Context.set`, `Context.get?`, `Context.remove` — the variables by name.
* `Context.define`, `Context.constant?` — the constants by name.
* `Context.ofJson` — the context of a JSON object.
-/

namespace Stencil

/-- The facts of a session. -/
structure Session where
  /-- Whether a visitor is logged in. -/
  isLogged : Bool
  /-- Who is. -/
  loggedInfo : Value

/-- The data of one render. -/
structure Context where
  /-- The variables, in the order in which they were first set. -/
  vars : Assoc String Value := []
  /-- The constants. -/
  constants : Assoc String Value := []
  /-- The address of the request. -/
  requestUri : String := ""
  /-- The session, if there is one. -/
  session : Option Session := none

namespace Context

/-- The value of a variable. -/
def get? (ctx : Context) (name : String) : Option Value := Assoc.get? ctx.vars name

/-- The context with a variable set. -/
def set (ctx : Context) (name : String) (value : Value) : Context :=
  { ctx with vars := Assoc.insert ctx.vars name value }

/-- The context without a variable. -/
def remove (ctx : Context) (name : String) : Context :=
  { ctx with vars := Assoc.erase ctx.vars name }

/-- The value of a constant. -/
def constant? (ctx : Context) (name : String) : Option Value := Assoc.get? ctx.constants name

/-- Whether a constant is defined. -/
def isDefined (ctx : Context) (name : String) : Bool := Assoc.contains ctx.constants name

/-- The context with a constant defined. -/
def define (ctx : Context) (name : String) (value : Value) : Context :=
  { ctx with constants := Assoc.insert ctx.constants name value }

/-- The context whose variables are the members of a JSON object; of another document, the empty
context. -/
def ofJson (document : Json) : Context :=
  match Value.ofJson document with
  | .map entries => { vars := entries }
  | _ => {}

@[simp] theorem get?_set_self (ctx : Context) (name : String) (value : Value) :
    (ctx.set name value).get? name = some value := Assoc.get?_insert_self _ _ _

theorem get?_set_of_ne (ctx : Context) {name other : String} (h : name ≠ other) (value : Value) :
    (ctx.set name value).get? other = ctx.get? other := Assoc.get?_insert_of_ne _ h _

end Context

end Stencil
