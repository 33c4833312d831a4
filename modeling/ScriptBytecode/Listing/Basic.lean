import ScriptBytecode.Text.Hex

/-!
# Listings

A listing is the editable form of a script: its data, and its functions as items with mnemonics and
operands in text.  Jumps refer to labels and calls to function names, or to numbers where a target
has no name.
-/

namespace ScriptBytecode
namespace Listing

/-- A string of the string segment. -/
structure StringEntry where
  /-- The offset in the segment; strings without one are added after those that have one. -/
  id : Option Nat := none
  value : String
deriving DecidableEq, Repr

/-- The data of a script apart from its code. -/
structure Config where
  name : String
  argsCount : UInt32 := 0
  statics : Array UInt64 := #[]
  globalsSignature : UInt32 := 0
  globalsBlock : UInt32 := 0
  globals : Array UInt64 := #[]
  /-- The hashes of natives in the order of the table; those that only the code uses follow. -/
  natives : Array UInt64 := #[]
  strings : List StringEntry := []
  /-- The size of the string segment, with the padding after the last string. -/
  stringsLength : Nat := 0
  globalBlockHashes : Array UInt64 := #[]
deriving DecidableEq, Repr

/-- A label or an instruction. -/
inductive Item where
  | label (name : String)
  /-- The address is only a remark. -/
  | instruction (address : Option Nat) (mnemonic : String) (operands : List String)
deriving DecidableEq, Repr

/-- An item on one line.  The address of an instruction, if it has one, stands in front. -/
def Item.line : Item → String
  | .label name => name ++ ":"
  | .instruction address mnemonic operands =>
    (address.map fun address => Text.address address ++ " ").getD "" ++
      String.intercalate " | " (mnemonic :: operands)

/-- A function. -/
structure Function where
  name : String
  /-- The address is only a remark. -/
  address : Nat := 0
  items : List Item
deriving DecidableEq, Repr

end Listing

/-- A script in its editable form. -/
structure Listing where
  config : Listing.Config
  functions : List Listing.Function
deriving DecidableEq, Repr

end ScriptBytecode
