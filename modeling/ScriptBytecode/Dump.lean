import ScriptBytecode.Operation.Lift
import ScriptBytecode.Script.Basic
import ScriptBytecode.Text.Quoted

/-!
# Dumps

A dump shows a script to a reader: a summary of its header, its strings and natives, and its code
as lifted operations, each instruction with its bytes if that is asked for.
-/

namespace ScriptBytecode

/-- A script and its lifted code. -/
structure Dump where
  script : Script
  operations : Array LiftedOperation

namespace Dump

/-- Lifts the code of a script. -/
def ofScript (script : Script) : Except Error Dump :=
  (lift script.code script.natives).map (Dump.mk script)

/-- The lines of the summary. -/
def summaryLines (script : Script) : List String :=
  ["name: " ++ script.name,
    "name hash: 0x" ++ Text.hex 8 script.nameHash.toNat,
    s!"code length: 0x{Text.hex 1 script.codeLength} ({script.codePages.pages.size} pages)",
    s!"args: {script.argsCount.toNat}",
    s!"statics: {script.statics.size}",
    s!"globals: {script.globalsLength} (block {script.globalsBlock.toNat}, " ++
      s!"signature 0x{Text.hex 8 script.globalsSignature.toNat})",
    s!"natives: {script.natives.size}",
    "strings length: 0x" ++ Text.hex 1 script.stringsLength]

/-- The line of a string; an empty string has none. -/
def stringLine? (script : Script) (id : Nat) : Option String :=
  match script.string? id with
  | some text =>
    if text.isEmpty then none else some ("  0x" ++ Text.address id ++ ": " ++ Text.quoted text)
  | none => none

/-- The section of the strings, left out if there are none. -/
def stringLines (script : Script) : List String :=
  match script.stringIds.toList with
  | [] => []
  | ids => "" :: "strings:" :: ids.filterMap (stringLine? script)

/-- A number set to the right in a column of at least `width` characters. -/
def column (width value : Nat) : String :=
  let digits := Nat.toDigits 10 value
  String.ofList (List.replicate (width - digits.length) ' ' ++ digits)

/-- The section of the natives, left out if there are none. -/
def nativeLines (script : Script) : List String :=
  match script.natives.toList with
  | [] => []
  | hashes =>
    "" :: "natives:" :: hashes.mapIdx fun index hash =>
      "  " ++ column 4 index ++ ": 0x" ++ Text.hex 16 hash.toNat

/-- The line of the instruction at an address, if there is one. -/
def instructionLine (code : Bytes) (address : Nat) : List String :=
  match Instruction.decode code address with
  | .ok instruction =>
    let bytes := instruction.bytes.toList.map fun byte => Text.hex 2 byte.toNat
    ["        ; " ++ instruction.opcode.mnemonic ++ " [" ++ String.intercalate " " bytes ++ "]"]
  | .error _ => []

/-- Adds the text of an operation, after the line of its instruction if `raw` asks for it and the
operation before belongs to another one. -/
def addOperation (raw : Bool) (code : Bytes) :
    Array String × Option Nat → LiftedOperation → Array String × Option Nat
  | (entries, previous), operation =>
    let entries :=
      if raw && previous != some operation.address then
        entries.appendList (instructionLine code operation.address)
      else entries
    (entries.push operation.text, some operation.address)

/-- What is printed for the code, entry by entry.  The entry of an operation with a name has the
line breaks of the name. -/
def codeEntries (dump : Dump) (raw : Bool) : Array String :=
  (dump.operations.foldl (addOperation raw dump.script.code) (#[], none)).1

/-- Entries with a line break behind each of them. -/
def print (entries : Array String) : String :=
  entries.foldl (fun text entry => text ++ entry ++ "\n") ""

/-- The text of the code. -/
def codeText (dump : Dump) (raw : Bool) : String :=
  print (dump.codeEntries raw)

/-- The text of a dump. -/
def text (dump : Dump) (raw : Bool) : String :=
  print (summaryLines dump.script ++ stringLines dump.script ++ nativeLines dump.script ++
    ["", "code:"]).toArray ++ dump.codeText raw

end Dump
end ScriptBytecode
