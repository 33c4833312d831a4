import ScriptBytecode.Error
import ScriptBytecode.Text.Blank

/-!
# Reading mnemonics

A mnemonic is read without regard to the blanks around it and to the case of its ASCII letters.
-/

namespace ScriptBytecode
namespace Opcode

/-- The opcode with exactly the given mnemonic. -/
def ofMnemonic? (mnemonic : String) : Option Opcode :=
  all.find? fun opcode => opcode.mnemonic == mnemonic

/-- Reads a mnemonic. -/
def read (text : String) : Except Error Opcode :=
  match ofMnemonic? (String.ofList ((Text.trim text).toList.map Char.toUpper)) with
  | some opcode => .ok opcode
  | none => .error (.malformed (.unknownMnemonic text))

end Opcode
end ScriptBytecode
