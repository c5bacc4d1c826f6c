import Stencil.Command.Options

/-!
# Help texts of the command line

## Main definitions

* `helpText` — the help of the program, of a command and of the help itself.
* `versionText` — the name and the version of the program.
-/

namespace Stencil.Command

/-- Lines of text, each with its end. -/
def lines (ls : List String) : String := ls.foldl (fun s l => s ++ l ++ "\n") ""

/-- The name and the version of the program. -/
def versionText : String := "xtpl 0.1.0\n"

/-- The options of commands that have no others. -/
def sharedOptions : List String :=
  ["Options:",
    "      --config <CONFIG>  JSON handler configuration",
    "      --root <ROOT>      Application root (overrides the configuration file)",
    "      --lenient          Log and skip malformed directives instead of failing",
    "  -v, --verbose          Debug-level logging unless RUST_LOG says otherwise",
    "  -h, --help             Print help"]

/-- The argument of every command. -/
def templateArgument : List String :=
  ["Arguments:", "  <TEMPLATE>  Template path, relative to the application root", ""]

/-- The help of the program. -/
def programHelp : String :=
  lines <|
    ["Compile and render xtpl templates", "", "Usage: xtpl [OPTIONS] <COMMAND>", "", "Commands:",
      "  compile  Print the compiled render script of a template",
      "  render   Render a template and print the HTML",
      "  key      Show the cache key and compiled-file path of a template",
      "  help     Print this message or the help of the given subcommand(s)", ""] ++
    sharedOptions ++ ["  -V, --version          Print version"]

/-- The help of a command that has no options of its own. -/
def plainHelp (about name : String) : String :=
  lines <|
    [about, "", "Usage: xtpl " ++ name ++ " [OPTIONS] <TEMPLATE>", ""] ++ templateArgument ++
      sharedOptions

/-- The help of the command that renders. -/
def renderHelp : String :=
  lines <|
    ["Render a template and print the HTML", "", "Usage: xtpl render [OPTIONS] <TEMPLATE>", ""] ++
    templateArgument ++
    ["Options:",
      "      --config <CONFIG>   JSON handler configuration",
      "      --vars <VARS>       JSON object whose keys become template variables",
      "      --root <ROOT>       Application root (overrides the configuration file)",
      "      --var <NAME=VALUE>  A single variable as `name=value`; " ++
        "the value is JSON when it parses",
      "      --lenient           Log and skip malformed directives instead of failing",
      "      --twice             Render twice and report cache reuse",
      "  -v, --verbose           Debug-level logging unless RUST_LOG says otherwise",
      "  -h, --help              Print help"]

/-- The help of the command that prints help. -/
def helpHelp : String :=
  lines
    ["Print this message or the help of the given subcommand(s)", "",
      "Usage: xtpl help [COMMAND]...", "", "Arguments:",
      "  [COMMAND]...  Print help for the subcommand(s)"]

/-- The help on a topic. -/
def helpText : Topic → String
  | .program => programHelp
  | .command .compile => plainHelp "Print the compiled render script of a template" "compile"
  | .command .render => renderHelp
  | .command .key => plainHelp "Show the cache key and compiled-file path of a template" "key"
  | .help => helpHelp

end Stencil.Command
