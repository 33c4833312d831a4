import ScriptBytecode.Command.FileForm
import ScriptBytecode.Dump
import ScriptBytecode.Listing.Document
import ScriptBytecode.Listing.OfScript
import ScriptBytecode.Script.Read

/-!
# The disassembler

The disassembler makes a dump or a listing from a resource file.
-/

namespace ScriptBytecode
namespace Command
namespace Disassembler

/-- What is made from a file. -/
inductive OutputForm where
  | dump
  | project
deriving DecidableEq, Repr

/-- Reads a form of output by its name. -/
def OutputForm.read : String → Except UsageError OutputForm
  | "text" => .ok .dump
  | "yaml" => .ok .project
  | _ => .error .invalidValue

/-- What the disassembler is asked to do. -/
structure Options where
  input : List String
  output : String
  target : Target := .standard
  raw : Bool := false
  format : OutputForm := .dump
  resource : FileForm := .packed
deriving DecidableEq, Repr

/-- The options given so far. -/
structure Settings where
  input : List String := []
  output : Option String := none
  target : Option Target := none
  raw : Bool := false
  format : Option OutputForm := none
  resource : Option FileForm := none

/-- The switches of the disassembler. -/
def switches : List (Switch Settings) :=
  [⟨"input", some 'i', .oneOrMore, fun values settings =>
      .ok { settings with input := settings.input ++ values }⟩,
    ⟨"output", some 'o', .one, fun values settings => do
      return { settings with output := ← setOnce settings.output (readPath (onlyValue values)) }⟩,
    ⟨"target", some 't', .one, fun values settings => do
      return { settings with
        target := ← setOnce settings.target (readTarget (onlyValue values)) }⟩,
    ⟨"raw", none, .none, fun _ settings => do
      return { settings with raw := ← raiseOnce settings.raw }⟩,
    ⟨"format", none, .one, fun values settings => do
      return { settings with
        format := ← setOnce settings.format (OutputForm.read (onlyValue values)) }⟩,
    ⟨"resource", none, .one, fun values settings => do
      return { settings with
        resource := ← setOnce settings.resource (FileForm.read (onlyValue values)) }⟩]

/-- Reads the arguments of the disassembler. -/
def readOptions (arguments : List String) : Except UsageError Options := do
  let settings ← readArguments switches {} arguments
  if settings.input.isEmpty then throw .missingArgument
  return {
    input := settings.input
    output := ← required settings.output
    target := settings.target.getD .standard
    raw := settings.raw
    format := settings.format.getD .dump
    resource := settings.resource.getD .packed }

/-- What a file is made into, with the name under which it is to be stored. -/
inductive Output where
  | dump (fileName text : String)
  | project (directory : String) (files : Listing.ProjectFiles) (listing : Listing)

/-- Makes a dump or a listing from a file. -/
def disassemble (path : String) (file : Bytes) (resource : FileForm) (format : OutputForm)
    (raw : Bool) : Except Error Output := do
  let segment ← resource.codec.unpack file
  let script ← Script.read segment
  let stem := scriptStem path
  match format with
  | .dump => return .dump (stem ++ ".dump.txt") ((← Dump.ofScript script).text raw)
  | .project => return .project stem {} (← Listing.ofScript script)

end Disassembler
end Command
end ScriptBytecode
