import Stencil.Diagnostic

/-!
# Errors

## Main definitions

* `SyntaxError` — where a compiled template does not parse.
* `RuntimeError` — why a running program stopped.
* `ConfigError` — why a configuration is refused.
* `TemplateError` — every failure of a render, with its `message`, `code` and `help`.
-/

namespace Stencil

/-- A compiled template does not parse. -/
structure SyntaxError where
  /-- What stands there. -/
  found : String
  /-- What could have stood there. -/
  expected : String
  /-- The offset in bytes. -/
  offset : Nat
  /-- The length in bytes. -/
  length : Nat
  deriving DecidableEq

/-- A running program stopped. -/
inductive RuntimeError where
  /-- A function that is not registered and not built in. -/
  | unknownFunction (name : String) : RuntimeError
  /-- A function was given something else than it takes. -/
  | badArguments (name expected : String) : RuntimeError
  /-- An expression that is no place was assigned to. -/
  | invalidAssignment : RuntimeError
  /-- The append form was read. -/
  | appendRead : RuntimeError
  /-- A division or remainder by zero. -/
  | divisionByZero : RuntimeError
  /-- A loop ran longer than allowed. -/
  | iterationLimit (limit : Nat) : RuntimeError
  /-- A function of the host failed. -/
  | host (text : String) : RuntimeError
  deriving DecidableEq

namespace RuntimeError

/-- The wording of the error. -/
def message : RuntimeError → String
  | unknownFunction name => "Unknown function `" ++ name ++ "`"
  | badArguments name expected => "`" ++ name ++ "` expects " ++ expected
  | invalidAssignment => "Cannot assign to this expression"
  | appendRead => "Cannot use `[]` for reading"
  | divisionByZero => "Division by zero"
  | iterationLimit limit => "Loop exceeded " ++ toString limit ++ " iterations"
  | host text => text

/-- The code of the error. -/
def code : RuntimeError → String
  | unknownFunction _ => "xtpl::runtime::unknown_function"
  | badArguments _ _ => "xtpl::runtime::arguments"
  | invalidAssignment => "xtpl::runtime::assignment"
  | appendRead => "xtpl::runtime::append_read"
  | divisionByZero => "xtpl::runtime::division_by_zero"
  | iterationLimit _ => "xtpl::runtime::iteration_limit"
  | host _ => "xtpl::runtime::host"

/-- How to mend the error. -/
def help : RuntimeError → Option String
  | unknownFunction _ => some "register it with `FunctionRegistry::register`"
  | iterationLimit _ => some "raise `max_loop_iterations` if the loop is legitimate"
  | _ => none

end RuntimeError

/-- A configuration is refused. -/
inductive ConfigError where
  /-- The file is no JSON document of the right form. -/
  | malformed : ConfigError
  /-- Includes of depth zero. -/
  | zeroDepth : ConfigError
  /-- An extension that is empty or has a point. -/
  | badExtension (extension : String) : ConfigError
  /-- No entry constant. -/
  | emptyConstant : ConfigError
  /-- An application root that does not exist. -/
  | missingRoot (root : List Char) : ConfigError
  deriving DecidableEq

/-- The wording of the error. -/
def ConfigError.message : ConfigError → String
  | malformed => "not a handler configuration"
  | zeroDepth => "`max_include_depth` must be at least 1"
  | badExtension extension =>
    "`default_extension` must be a bare extension, got `" ++ extension ++ "`"
  | emptyConstant => "`entry_constant` must not be empty"
  | missingRoot root => "application root `" ++ String.ofList root ++ "` does not exist"

/-- A failure of a render. -/
inductive TemplateError where
  /-- The template does not exist. -/
  | sourceNotFound (path : List Char) : TemplateError
  /-- The template has diagnostics, and the policy is strict. -/
  | compile (file : List Char) (diagnostics : List Diagnostic) : TemplateError
  /-- The compiled template does not parse. -/
  | parse (error : SyntaxError) : TemplateError
  /-- The program stopped. -/
  | runtime (error : RuntimeError) : TemplateError
  /-- Templates include each other too deeply. -/
  | includeDepthExceeded (depth : Nat) (path : List Char) : TemplateError
  /-- A file cannot be read or written. -/
  | io (path : List Char) : TemplateError
  /-- The configuration is refused. -/
  | config (error : ConfigError) : TemplateError
  deriving DecidableEq

namespace TemplateError

/-- The wording of the error. -/
def message : TemplateError → String
  | sourceNotFound path => "template file `" ++ String.ofList path ++ "` does not exist"
  | compile file diagnostics =>
    "failed to compile `" ++ String.ofList file ++ "` (" ++ toString diagnostics.length ++
      " diagnostic(s))"
  | parse error => "Unexpected " ++ error.found
  | runtime error => error.message
  | includeDepthExceeded depth path =>
    "include depth " ++ toString depth ++ " exceeded while rendering `" ++ String.ofList path ++ "`"
  | io path => "I/O error on `" ++ String.ofList path ++ "`"
  | config error => "invalid configuration: " ++ error.message

/-- The code of the error. -/
def code : TemplateError → String
  | sourceNotFound _ => "xtpl::source_not_found"
  | compile _ _ => "xtpl::compile"
  | parse _ => "xtpl::script::syntax"
  | runtime error => error.code
  | includeDepthExceeded _ _ => "xtpl::include_depth"
  | io _ => "xtpl::io"
  | config _ => "xtpl::config"

/-- How to mend the error. -/
def help : TemplateError → Option String
  | sourceNotFound _ => some "check the template directory and file name"
  | parse error => some ("Expected " ++ error.expected)
  | runtime error => error.help
  | includeDepthExceeded _ _ => some "templates probably include each other in a cycle"
  | _ => none

end TemplateError

end Stencil
