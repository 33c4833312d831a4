import ScriptBytecode.Text.Split

/-!
# Command-line arguments

A command has options with a long name and perhaps a short one.  A value is written behind an
option (`--output=x`, `-ox`, `-o=x`) or in the arguments that follow it.  Nothing else is an
argument.  Values that follow an option are taken in when the next option begins or the arguments
end; errors come in that order, except that an argument that cannot be understood is reported at
once.
-/

namespace ScriptBytecode
namespace Command

/-- Why arguments are not carried out. -/
inductive UsageError where
  | missingArgument
  /-- A value is missing, empty or none of the possible ones. -/
  | invalidValue
  /-- A value is not of the form it should have. -/
  | malformedValue
  | unknownArgument
  /-- An option that may be given once is given again. -/
  | repeatedArgument
  /-- A value is written behind an option that takes none. -/
  | unexpectedValue
  | helpRequested
  | versionRequested
deriving DecidableEq, Repr

/-- The name of a usage error's kind in reports. -/
def UsageError.kind : UsageError → String
  | .missingArgument => "MissingRequiredArgument"
  | .invalidValue => "InvalidValue"
  | .malformedValue => "ValueValidation"
  | .unknownArgument => "UnknownArgument"
  | .repeatedArgument => "ArgumentConflict"
  | .unexpectedValue => "TooManyValues"
  | .helpRequested => "DisplayHelp"
  | .versionRequested => "DisplayVersion"

/-- The number of values that an option takes. -/
inductive Arity where
  | none
  | one
  | oneOrMore
deriving DecidableEq, Repr

/-- An option of a command with settings of type `σ`. -/
structure Switch (σ : Type) where
  long : String
  short : Option Char := none
  arity : Arity
  /-- Takes in the values that are given. -/
  apply : List String → σ → Except UsageError σ

/-- The options that every command has. -/
def commonSwitches (σ : Type) : List (Switch σ) :=
  [⟨"help", some 'h', .none, fun _ _ => .error .helpRequested⟩,
    ⟨"version", some 'V', .none, fun _ _ => .error .versionRequested⟩]

/-- The state between two arguments. -/
structure Reading (σ : Type) where
  settings : σ
  /-- An option whose values are the arguments that follow it, with the values so far. -/
  pending : Option (Switch σ × List String) := none

namespace Reading

variable {σ : Type}

/-- Takes in the values of the pending option, of which there has to be one. -/
def settle (reading : Reading σ) : Except UsageError σ :=
  match reading.pending with
  | none => .ok reading.settings
  | some (_, []) => .error .invalidValue
  | some (switch, values) => switch.apply values reading.settings

/-- Takes in an option with the values given along with it. -/
def applyNow (reading : Reading σ) (switch : Switch σ) (values : List String) :
    Except UsageError (Reading σ) := do
  let settings ← reading.settle
  return { settings := ← switch.apply values settings }

/-- Begins an option whose values follow. -/
def await (reading : Reading σ) (switch : Switch σ) : Except UsageError (Reading σ) := do
  return { settings := ← reading.settle, pending := some (switch, []) }

/-- Reads an option by its long name. -/
def long (switches : List (Switch σ)) (reading : Reading σ) (text : String) :
    Except UsageError (Reading σ) :=
  let (name, value?) :=
    match Text.splitFirst? '=' text with
    | some (name, value) => (name, some value)
    | none => (text, none)
  match switches.find? (·.long == name) with
  | none => .error .unknownArgument
  | some switch =>
    match switch.arity, value? with
    | .none, some _ => .error .unexpectedValue
    | .none, none => reading.applyNow switch []
    | _, some value => reading.applyNow switch [value]
    | _, none => reading.await switch

/-- Reads options by their short names.  What follows the name of an option that takes a value is
the value, after an equals sign if there is one. -/
def shorts (switches : List (Switch σ)) : Reading σ → List Char → Except UsageError (Reading σ)
  | reading, [] => .ok reading
  | reading, char :: rest =>
    match switches.find? (·.short == some char) with
    | none => .error .unknownArgument
    | some switch =>
      match switch.arity, rest with
      | .none, rest => do shorts switches (← reading.applyNow switch []) rest
      | _, [] => reading.await switch
      | _, '=' :: value => reading.applyNow switch [String.ofList value]
      | _, value => reading.applyNow switch [String.ofList value]

/-- Reads an argument that is no option: a value of the pending option. -/
def value (reading : Reading σ) (text : String) : Except UsageError (Reading σ) :=
  match reading.pending with
  | some (switch, values) =>
    if values.isEmpty || switch.arity == .oneOrMore then
      .ok { reading with pending := some (switch, values ++ [text]) }
    else .error .unknownArgument
  | none => .error .unknownArgument

/-- Reads the arguments.  After `--` there are only values, and no option takes them. -/
def all (switches : List (Switch σ)) : Reading σ → List String → Except UsageError σ
  | reading, [] => reading.settle
  | reading, "--" :: rest => if rest.isEmpty then reading.settle else .error .unknownArgument
  | reading, argument :: rest =>
    match argument.toList with
    | '-' :: '-' :: name => do all switches (← reading.long switches (String.ofList name)) rest
    | '-' :: char :: chars => do all switches (← reading.shorts switches (char :: chars)) rest
    | _ => do all switches (← reading.value argument) rest

end Reading

/-- Reads the arguments of a command from its settings without arguments. -/
def readArguments {σ : Type} (switches : List (Switch σ)) (settings : σ)
    (arguments : List String) : Except UsageError σ :=
  Reading.all (switches ++ commonSwitches σ) { settings } arguments

/-- A setting that is given at most once. -/
def setOnce {α : Type} (old : Option α) (new : Except UsageError α) :
    Except UsageError (Option α) :=
  if old.isSome then .error .repeatedArgument else new.map some

/-- A flag that is given at most once. -/
def raiseOnce (old : Bool) : Except UsageError Bool :=
  if old then .error .repeatedArgument else .ok true

/-- The only value of an option. -/
def onlyValue (values : List String) : String :=
  values.headD ""

/-- A path, which may not be empty. -/
def readPath (text : String) : Except UsageError String :=
  if text.isEmpty then .error .invalidValue else .ok text

/-- A setting that has to be given. -/
def required {α : Type} : Option α → Except UsageError α
  | some value => .ok value
  | none => .error .missingArgument

end Command
end ScriptBytecode
