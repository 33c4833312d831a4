import ScriptBytecode.Command.Assembler
import ScriptBytecode.Command.Disassembler
import ScriptBytecode.Command.ProjectFile

/-!
# The command line

`assemble` makes a resource file from a project, and `disassemble` makes dumps or projects from
resource files.  The exit code tells whether everything succeeded.
-/

open ScriptBytecode ScriptBytecode.Command

/-- Reports a failure. -/
def reportFailure (message : String) : IO UInt32 := do
  IO.eprintln ("Error: " ++ message)
  return 1

/-- Says why arguments are not carried out. -/
def reportUsage : UsageError → IO UInt32
  | .helpRequested => do
    IO.println "assemble -p PROJECT -o OUTPUT [-t TARGET] [--optimize] [--resource rsc7|raw]"
    IO.println
      ("disassemble -i INPUT... -o OUTPUT [-t TARGET] [--raw] [--format text|yaml] " ++
        "[--resource rsc7|raw]")
    return 0
  | .versionRequested => do
    IO.println "0.1.0"
    return 0
  | error => reportFailure error.kind

/-- Assembles a project. -/
def runAssembler (options : Assembler.Options) : IO UInt32 := do
  match options.target.ensureSupported with
  | .error error => reportFailure error.message
  | .ok () =>
    let some files := readProjectFile? (← IO.FS.readFile options.project)
      | reportFailure ("parsing " ++ options.project)
    let base := directory options.project
    let config ← IO.FS.readFile (base ++ files.configFile)
    let disassembly ← IO.FS.readFile (base ++ files.disassemblyFile)
    let some listing := readListing? config disassembly
      | reportFailure ("parsing the listing of " ++ options.project)
    match Assembler.build options.target options.optimize options.resource listing with
    | .error error => reportFailure error.message
    | .ok file =>
      IO.FS.writeBinFile options.output ⟨file⟩
      return 0

/-- Stores what a file is made into. -/
def storeOutput (base : String) : Disassembler.Output → IO Unit
  | .dump name text => IO.FS.writeFile (base ++ "/" ++ name) text
  | .project name files listing => do
    let path := base ++ "/" ++ name ++ "/"
    IO.FS.createDirAll path
    IO.FS.writeFile (path ++ files.disassemblyFile)
      (Listing.functionsDocument listing.functions).write
    IO.FS.writeFile (path ++ files.configFile) listing.config.toDocument.write
    IO.FS.writeFile (path ++ projectFileName) (writeProjectFile files)

/-- Disassembles one file and tells whether that succeeded. -/
def runFile (options : Disassembler.Options) (path : String) : IO Bool := do
  let file ← IO.FS.readBinFile path
  match Disassembler.disassemble path file.data options.resource options.format options.raw with
  | .ok output =>
    storeOutput options.output output
    return true
  | .error error =>
    IO.eprintln (path ++ ": " ++ error.message)
    return false

/-- Disassembles files. -/
def runDisassembler (options : Disassembler.Options) : IO UInt32 := do
  match options.target.ensureSupported with
  | .error error => reportFailure error.message
  | .ok () =>
    IO.FS.createDirAll options.output
    let succeeded ← options.input.mapM (runFile options)
    let failures := succeeded.count false
    if failures = 0 then return 0
    else reportFailure s!"{failures} of {succeeded.length} scripts failed"

/-- Runs a command. -/
def main (arguments : List String) : IO UInt32 := do
  match arguments with
  | "assemble" :: rest =>
    match Assembler.readOptions rest with
    | .ok options => runAssembler options
    | .error error => reportUsage error
  | "disassemble" :: rest =>
    match Disassembler.readOptions rest with
    | .ok options => runDisassembler options
    | .error error => reportUsage error
  | _ => reportUsage .helpRequested
