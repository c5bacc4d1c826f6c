import Stencil.Text.Pattern

/-!
# Options of the command line

A command line has options of the program, a command, options of the command and the template.  The
options of the program may also stand after the command, and there they count for more.  An option
is given once, except single variables.  After two dashes nothing is an option.

## Main definitions

* `Verb` — the commands.
* `OptionName`, `Settings` — the options, and what they were set to.
* `Topic`, `Request` — what a command line asks for.
* `readCommandLine` — the request of a command line; none when it is misused.
-/

namespace Stencil.Command

open Text

/-- The commands. -/
inductive Verb where
  /-- Prints the compiled code of a template. -/
  | compile : Verb
  /-- Prints the output of a template. -/
  | render : Verb
  /-- Prints where a template is kept. -/
  | key : Verb
  deriving DecidableEq

/-- The command of a word. -/
def Verb.ofWord? (word : List Char) : Option Verb :=
  if word = "compile".toList then some compile
  else if word = "render".toList then some render
  else if word = "key".toList then some key
  else none

/-- The options. -/
inductive OptionName where
  | config | root | lenient | verbose | vars | var | twice | help | version
  deriving DecidableEq

namespace OptionName

/-- The long names of the options. -/
def ofWord? (word : List Char) : Option OptionName :=
  [("config".toList, config), ("root".toList, root), ("lenient".toList, lenient),
    ("verbose".toList, verbose), ("vars".toList, vars), ("var".toList, var),
    ("twice".toList, twice), ("help".toList, help), ("version".toList, version)].lookup word

/-- The short names of the options. -/
def ofLetter? (c : Char) : Option OptionName :=
  [('v', verbose), ('h', help), ('V', version)].lookup c

/-- Whether an option may stand before a command (`none`) or after the given one. -/
def allowed (verb : Option Verb) : OptionName → Bool
  | config | root | lenient | verbose | help => true
  | vars | var | twice => verb == some .render
  | version => verb.isNone

/-- Whether an option has a value. -/
def takesValue : OptionName → Bool
  | config | root | vars | var => true
  | _ => false

end OptionName

/-- What options were set to. -/
structure Settings where
  /-- The file with the configuration. -/
  config : Option (List Char) := none
  /-- The root of the application. -/
  root : Option (List Char) := none
  /-- Whether diagnostics are put up with. -/
  lenient : Bool := false
  /-- Whether more is logged. -/
  verbose : Bool := false
  /-- The file with variables. -/
  vars : Option (List Char) := none
  /-- The single variables. -/
  pairs : List (List Char) := []
  /-- Whether the template is rendered twice. -/
  twice : Bool := false
  /-- The template. -/
  template : Option (List Char) := none
  deriving DecidableEq

/-- The settings of two levels put together; the inner one counts for more. -/
def Settings.over (inner outer : Settings) : Settings :=
  { inner with
    config := inner.config.or outer.config
    root := inner.root.or outer.root
    lenient := inner.lenient || outer.lenient
    verbose := inner.verbose || outer.verbose }

/-- What help can be about. -/
inductive Topic where
  /-- The program. -/
  | program : Topic
  /-- A command. -/
  | command (verb : Verb) : Topic
  /-- The help itself. -/
  | help : Topic
  deriving DecidableEq

/-- The topic at a place in the command line: the program, or the command that stands before. -/
def Topic.ofVerb : Option Verb → Topic
  | none => program
  | some verb => command verb

/-- What a command line asks for. -/
inductive Request where
  /-- A command with its settings. -/
  | run (verb : Verb) (settings : Settings) : Request
  /-- The help on a topic. -/
  | help (topic : Topic) : Request
  /-- The version of the program. -/
  | version : Request
  deriving DecidableEq

/-- The settings with an option set to a value; none when it is set already. -/
def Settings.setValue (s : Settings) (option : OptionName) (value : List Char) : Option Settings :=
  match option with
  | .config => if s.config.isSome then none else some { s with config := some value }
  | .root => if s.root.isSome then none else some { s with root := some value }
  | .vars => if s.vars.isSome then none else some { s with vars := some value }
  | .var => some { s with pairs := s.pairs ++ [value] }
  | _ => none

/-- The settings with an option without a value set; none when it is set already. -/
def Settings.setFlag (s : Settings) (option : OptionName) : Option Settings :=
  match option with
  | .lenient => if s.lenient then none else some { s with lenient := true }
  | .verbose => if s.verbose then none else some { s with verbose := true }
  | .twice => if s.twice then none else some { s with twice := true }
  | _ => none

/-- The settings with the template; none when there is one already. -/
def Settings.setTemplate (s : Settings) (template : List Char) : Option Settings :=
  if s.template.isSome then none else some { s with template := some template }

/-- What a word of the command line is. -/
inductive Word where
  /-- Two dashes, after which nothing is an option. -/
  | stop : Word
  /-- An option by its long name, with the value after an equals sign. -/
  | long (name : List Char) (value : Option (List Char)) : Word
  /-- Options by their short names. -/
  | short (letters : List Char) : Word
  /-- Anything else. -/
  | plain : Word

/-- What a word of the command line is. -/
def wordKind : List Char → Word
  | ['-', '-'] => .stop
  | '-' :: '-' :: cs =>
    match breakOn ['='] cs with
    | some (name, value) => .long name (some value)
    | none => .long cs none
  | '-' :: c :: cs => .short (c :: cs)
  | _ => .plain

/-- Whether a word can be the value of an option before it. -/
def isValue (word : List Char) : Bool :=
  match wordKind word with
  | .plain => true
  | _ => false

/-- The outcome of a step through the command line: new settings, or a request that needs nothing
more. -/
inductive Step where
  /-- The words after this one follow. -/
  | go (settings : Settings) : Step
  /-- The word after this one was taken as well. -/
  | skip (settings : Settings) : Step
  /-- The request is known. -/
  | done (request : Request) : Step

/-- An option without a value. -/
def flagStep (verb : Option Verb) (s : Settings) (option : OptionName) : Option Step :=
  if ! option.allowed verb || option.takesValue then none
  else
    match option with
    | .help => some (.done (.help (.ofVerb verb)))
    | .version => some (.done .version)
    | _ => (s.setFlag option).map .go

/-- Options by their short names, none of which has a value. -/
def shortStep (verb : Option Verb) : Settings → List Char → Option Step
  | s, [] => some (.go s)
  | s, c :: cs =>
    match (OptionName.ofLetter? c).bind (flagStep verb s) with
    | some (.go s) => shortStep verb s cs
    | other => other

/-- An option by its long name, with the word after it. -/
def longStep (verb : Option Verb) (s : Settings) (name : List Char) (value : Option (List Char))
    (next : Option (List Char)) : Option Step :=
  match OptionName.ofWord? name with
  | none => none
  | some option =>
    if ! option.takesValue then if value.isSome then none else flagStep verb s option
    else if ! option.allowed verb then none
    else
      match value, next with
      | some v, _ => (s.setValue option v).map .go
      | none, some v => if isValue v then (s.setValue option v).map .skip else none
      | none, none => none

/-- The step at a word that is an option. -/
def optionStep (verb : Option Verb) (s : Settings) (word : List Char) (next : Option (List Char)) :
    Option Step :=
  match wordKind word with
  | .long name value => longStep verb s name value next
  | .short letters => shortStep verb s letters
  | _ => none

/-- The request of a command with settings; the template has to be there. -/
def finish (verb : Verb) (outer s : Settings) : Option Request :=
  if s.template.isSome then some (.run verb (s.over outer)) else none

/-- The settings after words that are no options. -/
def plainWords (s : Settings) (words : List (List Char)) : Option Settings :=
  words.foldlM Settings.setTemplate s

/-- The request of the words after a command, of which the next one is taken already when `skip` is
set. -/
def commandWords (verb : Verb) (outer : Settings) :
    Bool → Settings → List (List Char) → Option Request
  | _, s, [] => finish verb outer s
  | true, s, _ :: rest => commandWords verb outer false s rest
  | false, s, word :: rest =>
    match wordKind word with
    | .stop => (plainWords s rest).bind (finish verb outer)
    | .plain => (s.setTemplate word).bind fun s => commandWords verb outer false s rest
    | _ =>
      match optionStep (some verb) s word rest.head? with
      | some (.go s) => commandWords verb outer false s rest
      | some (.skip s) => commandWords verb outer true s rest
      | some (.done request) => some request
      | none => none

/-- The request of the words after `help`. -/
def helpWords : List (List Char) → Option Request
  | [] => some (.help .program)
  | [word] =>
    if word = "help".toList then some (.help .help)
    else (Verb.ofWord? word).map fun verb => .help (.command verb)
  | _ => none

/-- The request of the words before and after a command. -/
def programWords : Bool → Settings → List (List Char) → Option Request
  | _, _, [] => none
  | true, s, _ :: rest => programWords false s rest
  | false, s, word :: rest =>
    match wordKind word with
    | .stop => none
    | .plain =>
      if word = "help".toList then helpWords rest
      else (Verb.ofWord? word).bind fun verb => commandWords verb s false {} rest
    | _ =>
      match optionStep none s word rest.head? with
      | some (.go s) => programWords false s rest
      | some (.skip s) => programWords true s rest
      | some (.done request) => some request
      | none => none

/-- The request of a command line; none when it is misused. -/
def readCommandLine (words : List (List Char)) : Option Request := programWords false {} words

end Stencil.Command
