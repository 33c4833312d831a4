import ScriptBytecode.Document.Basic
import ScriptBytecode.Listing.Basic

/-!
# Listings as documents

A listing is stored as two documents, one for the data of the script and one for its functions.
Fields that may be missing have their values without arguments then.
-/

namespace ScriptBytecode
namespace Listing

/-- The names of the files in which a listing is stored. -/
structure ProjectFiles where
  configFile : String := "config.yaml"
  disassemblyFile : String := "disassembly.yaml"
deriving DecidableEq, Repr

/-- The document of an array of words. -/
def wordsDocument (words : Array UInt64) : Document :=
  .list (words.toList.map fun word => .number word.toNat)

/-- The document of a number that may be missing. -/
def numberDocument : Option Nat → Document
  | some value => .number value
  | none => .absent

/-- The document of a string. -/
def StringEntry.toDocument (entry : StringEntry) : Document :=
  .record [("id", numberDocument entry.id), ("value", .text entry.value)]

/-- The document of the data of a script. -/
def Config.toDocument (config : Config) : Document :=
  .record
    [("name", .text config.name), ("args_count", .number config.argsCount.toNat),
      ("statics", wordsDocument config.statics),
      ("globals_signature", .number config.globalsSignature.toNat),
      ("globals_block", .number config.globalsBlock.toNat),
      ("globals", wordsDocument config.globals), ("natives", wordsDocument config.natives),
      ("strings", .list (config.strings.map StringEntry.toDocument)),
      ("strings_length", .number config.stringsLength),
      ("global_block_hashes", wordsDocument config.globalBlockHashes)]

/-- The document of an item. -/
def Item.toDocument : Item → Document
  | .label name => .record [("label", .text name)]
  | .instruction address mnemonic operands =>
    .record
      [("address", numberDocument address), ("mnemonic", .text mnemonic),
        ("operands", .list (operands.map .text))]

/-- The document of a function. -/
def Function.toDocument (function : Function) : Document :=
  .record
    [("name", .text function.name), ("address", .number function.address),
      ("items", .list (function.items.map Item.toDocument))]

/-- The document of functions. -/
def functionsDocument (functions : List Function) : Document :=
  .list (functions.map Function.toDocument)

/-- The text of a document. -/
def readText? : Document → Option String
  | .text value => some value
  | _ => none

/-- The number of a document, if it is below a bound. -/
def readNumber? (bound : Nat) : Document → Option Nat
  | .number value => if value < bound then some value else none
  | _ => none

/-- The number of a document, or that there is none. -/
def readNumberOrAbsent? (bound : Nat) : Document → Option (Option Nat)
  | .absent => some none
  | document => (readNumber? bound document).map some

/-- The elements of a list. -/
def readList? {α : Type} (read? : Document → Option α) : Document → Option (List α)
  | .list elements => elements.mapM read?
  | _ => none

/-- The words of a list. -/
def readWords? (document : Document) : Option (Array UInt64) :=
  (readList? (readNumber? 0x10000000000000000) document).map fun words =>
    (words.map UInt64.ofNat).toArray

/-- A field that has to be there. -/
def readField? {α : Type} (document : Document) (name : String) (read? : Document → Option α) :
    Option α :=
  (document.field? name).bind read?

/-- A field that may be missing. -/
def readFieldOr? {α : Type} (document : Document) (name : String) (default : α)
    (read? : Document → Option α) : Option α :=
  match document.field? name with
  | some value => read? value
  | none => some default

/-- The string of a document. -/
def StringEntry.ofDocument? (document : Document) : Option StringEntry := do
  return {
    id := ← readFieldOr? document "id" none (readNumberOrAbsent? 0x100000000)
    value := ← readField? document "value" readText? }

/-- A 32-bit word that is zero if it is missing. -/
def readHalfWord? (document : Document) (name : String) : Option UInt32 :=
  (readFieldOr? document name 0 (readNumber? 0x100000000)).map UInt32.ofNat

/-- The data of a script that a document gives. -/
def Config.ofDocument? (document : Document) : Option Config := do
  return {
    name := ← readField? document "name" readText?
    argsCount := ← readHalfWord? document "args_count"
    statics := ← readFieldOr? document "statics" #[] readWords?
    globalsSignature := ← readHalfWord? document "globals_signature"
    globalsBlock := ← readHalfWord? document "globals_block"
    globals := ← readFieldOr? document "globals" #[] readWords?
    natives := ← readFieldOr? document "natives" #[] readWords?
    strings := ← readFieldOr? document "strings" [] (readList? StringEntry.ofDocument?)
    stringsLength := ← readFieldOr? document "strings_length" 0 (readNumber? 0x100000000)
    globalBlockHashes := ← readFieldOr? document "global_block_hashes" #[] readWords? }

/-- The item of a document: a label if there is the name of one. -/
def Item.ofDocument? (document : Document) : Option Item :=
  match readField? document "label" readText? with
  | some name => some (.label name)
  | none => do
    return .instruction
      (← readFieldOr? document "address" none (readNumberOrAbsent? 0x100000000))
      (← readField? document "mnemonic" readText?)
      (← readFieldOr? document "operands" [] (readList? readText?))

/-- The function of a document. -/
def Function.ofDocument? (document : Document) : Option Function := do
  return {
    name := ← readField? document "name" readText?
    address := ← readFieldOr? document "address" 0 (readNumber? 0x100000000)
    items := ← readField? document "items" (readList? Item.ofDocument?) }

/-- The functions of a document. -/
def functionsOfDocument? : Document → Option (List Function) :=
  readList? Function.ofDocument?

end Listing
end ScriptBytecode
