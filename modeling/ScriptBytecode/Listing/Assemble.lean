import ScriptBytecode.CodeUnit
import ScriptBytecode.Listing.Basic
import ScriptBytecode.Listing.Operands
import ScriptBytecode.Script.Basic
import ScriptBytecode.SortByKey
import ScriptBytecode.StringTable

/-!
# Assembling a listing

The functions of a listing are written to a code unit, and its strings to a string table: first
those with an id, in the order of the ids, and after the given length of the segment the others.
-/

namespace ScriptBytecode
namespace Listing

/-- Writes a listed instruction. -/
def writeOrder : Order → UnitM Unit
  | .statement statement => do let _ ← CodeUnit.emit statement
  | .native parameters returns hash => do let _ ← CodeUnit.native parameters returns hash

/-- Writes an item. -/
def writeItem : Item → UnitM Unit
  | .label name => CodeUnit.label name
  | .instruction _ mnemonic operands =>
    match readInstruction mnemonic operands with
    | .ok order => writeOrder order
    | .error error => throw error

/-- An error that arose at an item.  Only malformed data tells where it stands. -/
def locate (function : String) (index : Nat) : Error → Error
  | .malformed cause => .malformed (.atItem function index cause)
  | error => error

/-- Writes the items of a function from an index on. -/
def writeItems (function : String) : (index : Nat) → List Item → UnitM Unit
  | _, [] => pure ()
  | index, item :: rest => fun codeUnit =>
    match writeItem item codeUnit with
    | .ok () codeUnit => writeItems function (index + 1) rest codeUnit
    | .error error codeUnit => .error (locate function index error) codeUnit

/-- Writes a function. -/
def writeFunction (function : Function) : UnitM Unit := do
  CodeUnit.beginFunction function.name
  writeItems function.name 0 function.items
  CodeUnit.endFunction

/-- Writes all functions after the natives that have a fixed place. -/
def writeFunctions (natives : Array UInt64) (functions : List Function) : UnitM Unit := do
  natives.toList.forM fun hash => do let _ ← CodeUnit.nativeIndex hash
  functions.forM writeFunction

/-- Places the strings that have an id, in the given order. -/
def placeStrings : List (Nat × String) → TableM Unit
  | [] => pure ()
  | (id, value) :: rest => do
    StringTable.place id value
    placeStrings rest

/-- Adds the strings that have no id. -/
def addStrings : List String → TableM Unit
  | [] => pure ()
  | value :: rest => do
    let _ ← StringTable.add value
    addStrings rest

/-- Writes the strings of a listing: those that have an id, zeros up to the length of the segment,
and the others. -/
def writeStrings (config : Config) : TableM Unit := do
  let placed := config.strings.filterMap fun entry => entry.id.map fun id => (id, entry.value)
  let unplaced := config.strings.filter (·.id.isNone)
  placeStrings (sortByKey Prod.fst placed)
  modify (·.padTo config.stringsLength)
  addStrings (unplaced.map StringEntry.value)

/-- The string pages of a listing. -/
def stringPages (config : Config) : Except Error (Paged UInt8) :=
  (StringTable.result (writeStrings config) {}).map StringTable.toPages

/-- Assembles a listing, with instructions fused if that is asked for. -/
def assemble (listing : Listing) (fuse : Bool) : Except Error Script := do
  let config := listing.config
  match writeFunctions config.natives listing.functions {} with
  | .error error _ => throw error
  | .ok () codeUnit =>
    let stringPages ← stringPages config
    let linked ← codeUnit.finish fuse
    let script : Script :=
      { argsCount := config.argsCount
        statics := config.statics
        globalsSignature := config.globalsSignature
        globalsBlock := config.globalsBlock
        globalsPages := .ofArray config.globals
        stringPages
        globalBlockHashes := config.globalBlockHashes
        codePages := linked.pages
        natives := linked.natives }
    return script.withName config.name

end Listing
end ScriptBytecode
