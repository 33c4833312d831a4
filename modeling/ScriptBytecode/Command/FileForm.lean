import ScriptBytecode.Command.Arguments
import ScriptBytecode.Resource
import ScriptBytecode.Target

/-!
# Files of the commands

What the commands share: the form of the resource files they read and write, the targets on the
command line, and the names of files.
-/

namespace ScriptBytecode
namespace Command

/-- The form of a resource file on the command line. -/
inductive FileForm where
  | packed
  | raw
deriving DecidableEq, Repr

/-- The codec of a form; a packed file has the version of scripts and no cipher. -/
def FileForm.codec : FileForm → Resource.Codec
  | .packed => .packed {}
  | .raw => .raw

/-- Reads a form by its name. -/
def FileForm.read : String → Except UsageError FileForm
  | "rsc7" => .ok .packed
  | "raw" => .ok .raw
  | _ => .error .invalidValue

/-- Reads a target. -/
def readTarget (text : String) : Except UsageError Target :=
  match Target.ofText? text with
  | some target => .ok target
  | none => .error .malformedValue

/-- The last component of a path.  Slashes and components `.` at the end do not count, and a path
that leads to a parent directory has none. -/
def fileName (path : String) : String :=
  match ((Text.splitAll '/' path).filter fun part => part ≠ "" ∧ part ≠ ".").getLast? with
  | some ".." => ""
  | some name => name
  | none => ""

/-- The name of a file up to its first dot, unless it starts with that dot. -/
def scriptStem (path : String) : String :=
  let name := fileName path
  match Text.splitFirst? '.' name with
  | some (stem, _) => if stem.isEmpty then name else stem
  | none => name

end Command
end ScriptBytecode
