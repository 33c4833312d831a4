import ScriptBytecode.Document.Read
import ScriptBytecode.Listing.Document
import ScriptBytecode.Text.Split

/-!
# Project files

A project file names the two files of a listing, one on a line with its key.  The files stand in
the directory of the project file.
-/

namespace ScriptBytecode
namespace Command

/-- The name of the project file in a project directory. -/
def projectFileName : String := "project.toml"

/-- The contents of a project file. -/
def writeProjectFile (files : Listing.ProjectFiles) : String :=
  "config_file = " ++ Document.writeText files.configFile ++ "\n" ++
    "disassembly_file = " ++ Document.writeText files.disassemblyFile ++ "\n"

/-- The value of a key in the lines of a project file. -/
def projectValue? (lines : List String) (key : String) : Option String :=
  lines.findSome? fun line => do
    let (name, value) ← Text.splitFirst? '=' line
    if Text.trim name = key then Document.ofText? value >>= Listing.readText? else none

/-- Reads a project file. -/
def readProjectFile? (text : String) : Option Listing.ProjectFiles := do
  let lines := Text.splitAll '\n' text
  return {
    configFile := ← projectValue? lines "config_file"
    disassemblyFile := ← projectValue? lines "disassembly_file" }

/-- The listing in the texts of its two files. -/
def readListing? (config disassembly : String) : Option Listing := do
  return {
    config := ← Document.ofText? config >>= Listing.Config.ofDocument?
    functions := ← Document.ofText? disassembly >>= Listing.functionsOfDocument? }

/-- The directory of a path, with the slash at its end. -/
def directory (path : String) : String :=
  String.ofList (path.toList.reverse.dropWhile (· ≠ '/')).reverse

end Command
end ScriptBytecode
