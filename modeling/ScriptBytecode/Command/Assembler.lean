import ScriptBytecode.Command.FileForm
import ScriptBytecode.Listing.Assemble
import ScriptBytecode.Script.Write

/-!
# The assembler

The assembler makes a resource file from a listing.
-/

namespace ScriptBytecode
namespace Command
namespace Assembler

/-- What the assembler is asked to do. -/
structure Options where
  project : String
  output : String
  target : Target := .standard
  optimize : Bool := false
  resource : FileForm := .packed
deriving DecidableEq, Repr

/-- The options given so far. -/
structure Settings where
  project : Option String := none
  output : Option String := none
  target : Option Target := none
  optimize : Bool := false
  resource : Option FileForm := none

/-- The switches of the assembler. -/
def switches : List (Switch Settings) :=
  [⟨"project", some 'p', .one, fun values settings => do
      return { settings with
        project := ← setOnce settings.project (readPath (onlyValue values)) }⟩,
    ⟨"output", some 'o', .one, fun values settings => do
      return { settings with output := ← setOnce settings.output (readPath (onlyValue values)) }⟩,
    ⟨"target", some 't', .one, fun values settings => do
      return { settings with
        target := ← setOnce settings.target (readTarget (onlyValue values)) }⟩,
    ⟨"optimize", none, .none, fun _ settings => do
      return { settings with optimize := ← raiseOnce settings.optimize }⟩,
    ⟨"resource", none, .one, fun values settings => do
      return { settings with
        resource := ← setOnce settings.resource (FileForm.read (onlyValue values)) }⟩]

/-- Reads the arguments of the assembler. -/
def readOptions (arguments : List String) : Except UsageError Options := do
  let settings ← readArguments switches {} arguments
  return {
    project := ← required settings.project
    output := ← required settings.output
    target := settings.target.getD .standard
    optimize := settings.optimize
    resource := settings.resource.getD .packed }

/-- Why a build fails, with the name of the listing if it does not assemble. -/
structure BuildError where
  listing : Option String := none
  cause : Error
deriving DecidableEq, Repr

/-- The wording of a build error. -/
def BuildError.message (error : BuildError) : String :=
  match error.listing with
  | some name => s!"assembling '{name}': " ++ error.cause.message
  | none => error.cause.message

/-- Assembles a listing and packs the script. -/
def build (target : Target) (optimize : Bool) (form : FileForm) (listing : Listing) :
    Except BuildError Bytes := do
  target.ensureSupported.mapError fun cause => { cause }
  let script ← (listing.assemble optimize).mapError fun cause =>
    { listing := some listing.config.name, cause }
  let segment ← script.write.mapError fun cause => { cause }
  (form.codec.pack segment).mapError fun cause => { cause }

end Assembler
end Command
end ScriptBytecode
