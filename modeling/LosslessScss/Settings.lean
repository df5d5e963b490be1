import LosslessScss.Json.Printer

/-!
# Settings

The settings of the command-line tool and how a JSON value changes them.  The known keys
are applied in a fixed order; an invalid one stops this and leaves the earlier ones
applied.  Unknown keys change nothing and are reported.
-/

namespace LosslessScss

/-- What is written for an input: the syntax tree, the tokens, the source that the tree
stands for, or whether that is the input again. -/
inductive Emission where
  | tree
  | tokens
  | source
  | check
  deriving DecidableEq, Repr

/-- How much is logged. -/
inductive LogLevel where
  | off
  | error
  | warn
  | info
  | debug
  | trace
  deriving DecidableEq, Repr

namespace Emission

/-- Every emission. -/
def all : List Emission := [tree, tokens, source, check]

/-- The name of an emission. -/
def name : Emission → String
  | tree => "tree"
  | tokens => "tokens"
  | source => "source"
  | check => "check"

/-- The emission of a given name. -/
def ofName? (name : String) : Option Emission := all.find? (·.name == name)

theorem ofName?_name (e : Emission) :
  ofName? e.name = some e
  := by
  cases e <;> decide

end Emission

namespace LogLevel

/-- Every level, the quietest first. -/
def all : List LogLevel := [off, error, warn, info, debug, trace]

/-- The name of a level. -/
def name : LogLevel → String
  | off => "off"
  | error => "error"
  | warn => "warn"
  | info => "info"
  | debug => "debug"
  | trace => "trace"

/-- The level of a given name. -/
def ofName? (name : String) : Option LogLevel := all.find? (·.name == name)

theorem ofName?_name (l : LogLevel) :
  ofName? l.name = some l
  := by
  cases l <;> decide

end LogLevel

/-- The settings of the command-line tool. -/
structure Settings where
  emission : Emission
  positions : Bool
  pretty : Bool
  logLevel : LogLevel
  deriving DecidableEq, Repr

/-- Why settings cannot be had: the value of a key is invalid, the settings are no object,
or their file cannot be read or is no JSON text. -/
inductive SettingsFailure where
  | invalidKey (key : String)
  | notAnObject (value : String)
  | unreadable (path : String)
  | notJson (path : String)
  deriving DecidableEq, Repr

/-- The message of a failure. -/
def SettingsFailure.message : SettingsFailure → String
  | invalidKey key => "invalid `" ++ key ++ "`"
  | notAnObject value => "got invalid configuration object " ++ value
  | unreadable path => "could not read configuration file " ++ path
  | notJson path => "invalid JSON in configuration file " ++ path

namespace Settings

/-- The settings at the start: a check, without positions, on one line, with warnings. -/
def initial : Settings := ⟨.check, false, false, .warn⟩

/-- The keys that are known, in the order in which they are applied. -/
def keys : List String := ["emit", "positions", "pretty", "logLevel"]

/-- The name that a value chooses: a text, or the only key of an object if its value is
null. -/
def choice? : Json → Option String
  | .string name => some name
  | .object [(name, .null)] => some name
  | _ => none

/-- The truth value of a value. -/
def flag? : Json → Option Bool
  | .bool b => some b
  | _ => none

/-- The settings after the value of one key has been applied, unless it is invalid. -/
def applyKey? (c : Settings) (key : String) (v : Json) : Option Settings :=
  match key with
  | "emit" => do return { c with emission := ← (choice? v).bind Emission.ofName? }
  | "positions" => do return { c with positions := ← flag? v }
  | "pretty" => do return { c with pretty := ← flag? v }
  | "logLevel" => do return { c with logLevel := ← (choice? v).bind LogLevel.ofName? }
  | _ => some c

/-- Applies the given keys one after another as far as they are among the members, and
tells the first one whose value is invalid. -/
def applyKeys (members : List (String × Json)) (c : Settings) :
    List String → Option SettingsFailure × Settings
  | [] => (none, c)
  | key :: keys =>
    match Json.get? key members with
    | none => applyKeys members c keys
    | some v =>
      match c.applyKey? key v with
      | none => (some (.invalidKey key), c)
      | some c => applyKeys members c keys

/-- Applies a value: its unknown keys, or why it is invalid; and the settings after
that. -/
def update (c : Settings) : Json → Except SettingsFailure (List String) × Settings
  | .object members =>
    match applyKeys members c keys with
    | (some f, c) => (.error f, c)
    | (none, c) => (.ok ((members.map (·.1)).filter fun key => !keys.contains key), c)
  | v => (.error (.notAnObject v.compact), c)

end Settings

end LosslessScss
