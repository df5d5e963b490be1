import LosslessScss.Settings

/-!
# Command-line arguments

The arguments of the command-line tool: options with a value, flags, and files.  They are
read from the left, and the first problem met is reported.  A value that follows its option
is judged only when the next option, flag or file comes, or at the end; an argument that is
unknown or has a value too many is reported even before that.
-/

namespace LosslessScss

/-- The arguments of a call of the tool. -/
structure Arguments where
  files : List String
  emission : Option Emission
  positions : Bool
  pretty : Bool
  logLevel : Option LogLevel
  config : Option String
  deriving DecidableEq, Repr

/-- Why a call of the tool does nothing: a value is missing or bad, a flag has a value, an
option or a flag is repeated, an argument is unknown, or help or the version is asked
for. -/
inductive ArgumentFailure where
  | invalidValue
  | tooManyValues
  | repeated
  | unknown
  | helpWanted
  | versionWanted
  deriving DecidableEq, Repr

namespace Arguments

/-- No arguments. -/
def none : Arguments := ⟨[], .none, false, false, .none, .none⟩

/-- What a long name stands for. -/
inductive Name where
  | emit
  | logLevel
  | config
  | positions
  | pretty
  | help
  | version
  deriving DecidableEq, Repr

/-- The meaning of a long name. -/
def name? (s : List Char) : Option Name :=
  match String.ofList s with
  | "emit" => some .emit
  | "log-level" => some .logLevel
  | "config" => some .config
  | "positions" => some .positions
  | "pretty" => some .pretty
  | "help" => some .help
  | "version" => some .version
  | _ => .none

/-- Whether a name is that of an option, which has a value. -/
def Name.hasValue : Name → Bool
  | emit | logLevel | config => true
  | _ => false

/-- What has been read but not judged yet: an option, perhaps with its value; or files, the
last one first. -/
inductive Pending where
  | nothing
  | option (name : Name) (value : Option String)
  | files (names : List String)
  deriving DecidableEq, Repr

/-- The arguments judged so far, what is pending, and whether only files may follow. -/
structure Progress where
  judged : Arguments
  pending : Pending
  onlyFiles : Bool
  deriving DecidableEq, Repr

/-- Sets an option to a value, or a flag. -/
def set (a : Arguments) (name : Name) (value : String) : Except ArgumentFailure Arguments :=
  match name with
  | .emit =>
    if a.emission.isSome then .error .repeated
    else
      match Emission.ofName? value with
      | some e => .ok { a with emission := some e }
      | .none => .error .invalidValue
  | .logLevel =>
    if a.logLevel.isSome then .error .repeated
    else
      match LogLevel.ofName? value with
      | some l => .ok { a with logLevel := some l }
      | .none => .error .invalidValue
  | .config =>
    if a.config.isSome then .error .repeated
    else if value = "" then .error .invalidValue
    else .ok { a with config := some value }
  | .positions => if a.positions then .error .repeated else .ok { a with positions := true }
  | .pretty => if a.pretty then .error .repeated else .ok { a with pretty := true }
  | .help => .error .helpWanted
  | .version => .error .versionWanted

namespace Progress

/-- The arguments after what is pending has been judged. -/
def settle (p : Progress) : Except ArgumentFailure Arguments :=
  match p.pending with
  | .nothing => .ok p.judged
  | .option _ .none => .error .invalidValue
  | .option name (some value) => p.judged.set name value
  | .files names =>
    if names.contains "" then .error .invalidValue
    else .ok { p.judged with files := p.judged.files ++ names.reverse }

/-- The progress after an option or a flag with the given name, and its value if one is
attached. -/
def named (p : Progress) (name : Name) (value : Option String) :
    Except ArgumentFailure Progress :=
  match name.hasValue, value with
  | true, .none => do return { p with judged := ← p.settle, pending := .option name .none }
  | true, some value => do
    return { p with judged := ← (← p.settle).set name value, pending := .nothing }
  | false, .none => do
    return { p with judged := ← (← p.settle).set name "", pending := .nothing }
  | false, some _ => .error .tooManyValues

/-- The progress after an argument that starts with two hyphens, without these. -/
def long (p : Progress) (s : List Char) : Except ArgumentFailure Progress :=
  match name? (s.takeWhile (· != '=')) with
  | .none => .error .unknown
  | some name =>
    match s.dropWhile (· != '=') with
    | [] => p.named name .none
    | _ :: value => p.named name (some (String.ofList value))

/-- The progress after an argument that starts with one hyphen and a letter. -/
def short (p : Progress) (letter : Char) : Except ArgumentFailure Progress :=
  if letter = 'h' then p.named .help .none
  else if letter = 'V' then p.named .version .none
  else .error .unknown

/-- The progress after a file. -/
def file (p : Progress) (name : String) : Except ArgumentFailure Progress :=
  match p.pending with
  | .files names => return { p with pending := .files (name :: names) }
  | _ => do return { p with judged := ← p.settle, pending := .files [name] }

/-- The progress after a value or a file. -/
def plain (p : Progress) (s : String) : Except ArgumentFailure Progress :=
  match p.pending with
  | .option name .none => return { p with pending := .option name (some s) }
  | _ => p.file s

/-- The progress after one more argument. -/
def advance (p : Progress) (argument : String) : Except ArgumentFailure Progress :=
  if p.onlyFiles then p.file argument
  else
    match argument.toList with
    | ['-', '-'] => return { p with onlyFiles := true }
    | '-' :: '-' :: s => p.long s
    | '-' :: letter :: _ => p.short letter
    | _ => p.plain argument

end Progress

/-- The arguments of a call. -/
def ofList (arguments : List String) : Except ArgumentFailure Arguments := do
  let p ← arguments.foldlM Progress.advance ⟨none, .nothing, false⟩
  p.settle

end Arguments

end LosslessScss
