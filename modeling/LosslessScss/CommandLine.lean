import LosslessScss.Arguments
import LosslessScss.Json.Reader
import LosslessScss.Output

/-!
# The command-line tool

A call of the tool: its arguments and what the files contain determine its output and its
exit code.  The settings are the initial ones, changed by the settings file and then by the
arguments.  All inputs are read before anything is written; an input that fails writes
nothing, and the next one follows.
-/

namespace LosslessScss

/-- The texts of the files; none for a file that does not exist or is no text. -/
abbrev Files := String → Option String

/-- The deepest nesting of arrays and objects in a settings file. -/
def maxJsonNesting : Nat := 127

namespace Settings

/-- The settings after the options and flags that are given. -/
def override (c : Settings) (a : Arguments) : Settings where
  emission := a.emission.getD c.emission
  positions := c.positions || a.positions
  pretty := c.pretty || a.pretty
  logLevel := a.logLevel.getD c.logLevel

/-- The settings after a settings file, and the unknown keys of the file. -/
def readFile (c : Settings) (files : Files) (path : String) :
    Except SettingsFailure (Settings × List String) :=
  match files path with
  | none => .error (.unreadable path)
  | some text =>
    match Json.ofString? maxJsonNesting text with
    | none => .error (.notJson path)
    | some v =>
      match c.update v with
      | (.error f, _) => .error f
      | (.ok unknown, c) => .ok (c, unknown)

/-- The settings of a call, and the unknown keys of its settings file. -/
def load (files : Files) (a : Arguments) : Except SettingsFailure (Settings × List String) := do
  let (c, unknown) ←
    match a.config with
    | none => pure (initial, [])
    | some path => initial.readFile files path
  return (c.override a, unknown)

end Settings

/-- The output of a call and its exit code. -/
structure Verdict where
  code : Nat
  output : String
  deriving DecidableEq, Repr

namespace CommandLine

/-- The text that a call with `--version` writes. -/
def version : String := "scsstree 0.1.0\n"

/-- The text that a call with `--help` writes. -/
def help : String :=
  "Lossless SCSS parser: inspect the tree or tokens of stylesheets and check round-trips\n\n"
    ++ "Usage: scsstree [OPTIONS] [FILES]...\n\n"
    ++ "Arguments:\n"
    ++ "  [FILES]...  Files to read; standard input when none are given\n\n"
    ++ "Options:\n"
    ++ "      --emit <EMIT>            tree, tokens, source or check\n"
    ++ "      --positions              Include node positions in JSON output\n"
    ++ "      --pretty                 Pretty-print JSON output\n"
    ++ "      --log-level <LOG_LEVEL>  off, error, warn, info, debug or trace\n"
    ++ "      --config <CONFIG>        JSON configuration file; flags take precedence\n"
    ++ "  -h, --help                   Print help\n"
    ++ "  -V, --version                Print version\n"

/-- The names and the texts of the inputs, unless one of them cannot be read.  Without files
it is the standard input. -/
def inputs (files : Files) (stdin : Option String) :
    List String → Option (List (String × String))
  | [] => stdin.map fun text => [("<stdin>", text)]
  | names => names.mapM fun name => (files name).map fun text => (name, text)

/-- What is written for an input. -/
def line (c : Settings) (name output : String) : String :=
  if c.emission = .check then name ++ ": " ++ output ++ "\n" else output ++ "\n"

/-- What is written for the inputs, and whether all of them succeed. -/
def process (c : Settings) : List (String × String) → Verdict
  | [] => ⟨0, ""⟩
  | (name, source) :: rest =>
    let v := process c rest
    match c.output source with
    | .error _ => { v with code := 1 }
    | .ok output => { v with output := line c name output ++ v.output }

/-- The outcome of a call. -/
def run (files : Files) (stdin : Option String) (arguments : List String) : Verdict :=
  match Arguments.ofList arguments with
  | .error .helpWanted => ⟨0, help⟩
  | .error .versionWanted => ⟨0, version⟩
  | .error _ => ⟨2, ""⟩
  | .ok a =>
    match Settings.load files a with
    | .error _ => ⟨1, ""⟩
    | .ok (c, _) =>
      match inputs files stdin a.files with
      | none => ⟨1, ""⟩
      | some inputs => process c inputs

end CommandLine

end LosslessScss
