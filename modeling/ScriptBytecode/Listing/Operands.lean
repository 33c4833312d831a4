import ScriptBytecode.Binary32.Reading
import ScriptBytecode.Opcode.Mnemonic
import ScriptBytecode.Statement.Basic
import ScriptBytecode.Text.Integer
import ScriptBytecode.Text.Split

/-!
# Reading listed instructions

The operands of a listed instruction are read as the layout of its opcode asks.  A jump, call or
switch case with a number for its target is read as that number, and otherwise as a name.
-/

namespace ScriptBytecode
namespace Listing

/-- What a listed instruction asks for. -/
inductive Order where
  | statement (statement : Statement)
  /-- A call of the native with a hash, whatever its index is. -/
  | native (parameters returns : UInt8) (hash : UInt64)
deriving DecidableEq, Repr

/-- An integer of a range. -/
def readInteger (range : IntegerRange) (text : String) : Except OperandFault Int :=
  match Text.integer? text with
  | some value => if range.holds value then .ok value else .error (.notInteger text range)
  | none => .error (.notInteger text range)

/-- A byte. -/
def readUInt8 (text : String) : Except OperandFault UInt8 :=
  (readInteger .u8 text).map fun value => UInt8.ofNat value.toNat

/-- A signed 16-bit integer. -/
def readInt16 (text : String) : Except OperandFault Int16 :=
  (readInteger .i16 text).map Int16.ofInt

/-- A 16-bit integer. -/
def readUInt16 (text : String) : Except OperandFault UInt16 :=
  (readInteger .u16 text).map fun value => UInt16.ofNat value.toNat

/-- An integer of 32 bits for a field of 24, of which the high bits will be dropped. -/
def readUInt24 (text : String) : Except OperandFault UInt32 :=
  (readInteger .u32 text).map fun value => UInt32.ofNat value.toNat

/-- A word of 32 bits, which may be written as a signed integer. -/
def readWord32 (text : String) : Except OperandFault UInt32 :=
  match Text.integer? text with
  | some value =>
    if -0x80000000 ≤ value ∧ value < 0x100000000 then
      .ok (UInt32.ofNat (value % 0x100000000).toNat)
    else .error (.notWord text)
  | none => .error (.notWord text)

/-- A floating-point number, with blanks around it if one likes. -/
def readFloat (text : String) : Except OperandFault Binary32 :=
  match Binary32.ofText? (Text.trim text) with
  | some value => .ok value
  | none => .error (.notFloat text)

/-- The hash of a native. -/
def readHash (text : String) : Except OperandFault UInt64 :=
  match Text.word? text with
  | some hash => .ok hash
  | none => .error (.notHash text)

/-- A switch case: its value and the text of its target. -/
def readCase (text : String) : Except OperandFault (UInt32 × String) :=
  match Text.splitFirst? ':' text with
  | some (value, target) => (readWord32 value).map fun value => (value, Text.trim target)
  | none => .error (.notCase text)

/-- The operands of a switch.  The targets are offsets if all of them are numbers. -/
def readSwitch (operands : List String) : Except OperandFault Statement := do
  let cases ← operands.mapM readCase
  if !cases.isEmpty && cases.all fun (_, target) => (Text.integer? target).isSome then
    let offsets ← cases.mapM fun (value, target) =>
      (readInt16 target).map fun offset => (value, offset)
    return .switchOffsets offsets
  else return .switch cases

/-- Number of operands that are listed for a layout of fixed size. -/
def operandNumber : OperandLayout → Nat
  | .none => 0
  | .u8u8 => 2
  | .u8u8u8 | .native => 3
  | _ => 1

/-- Reads the operands of an opcode. -/
def readOperands (opcode : Opcode) (operands : List String) : Except OperandFault Order :=
  let plain (operands : Operands) : Order := .statement (.plain opcode operands)
  match opcode.layout, operands with
  | .none, [] => .ok (plain .none)
  | .u8, [value] => return plain (.u8 (← readUInt8 value))
  | .u8u8, [first, second] => return plain (.u8u8 (← readUInt8 first) (← readUInt8 second))
  | .u8u8u8, [first, second, third] =>
    return plain (.u8u8u8 (← readUInt8 first) (← readUInt8 second) (← readUInt8 third))
  | .s16, [value] => return plain (.s16 (← readInt16 value))
  | .u16, [value] => return plain (.u16 (← readUInt16 value))
  | .u24, [value] =>
    if opcode = .call ∧ Text.integer? value = none then .ok (.statement (.call value))
    else return plain (.u24 (← readUInt24 value))
  | .u32, [value] => return plain (.u32 (← readWord32 value))
  | .f32, [value] => return plain (.f32 (← readFloat value))
  | .rel16, [target] =>
    if Text.integer? target = none then .ok (.statement (.jump opcode target))
    else return plain (.rel16 (← readInt16 target))
  | .native, [parameters, returns, hash] =>
    return .native (← readUInt8 parameters) (← readUInt8 returns) (← readHash hash)
  | .enter, [parameters, frameSize] =>
    return .statement (.enter (← readUInt8 parameters) (← readUInt16 frameSize) none)
  | .enter, [parameters, frameSize, name] =>
    return .statement (.enter (← readUInt8 parameters) (← readUInt16 frameSize) (some name))
  | .enter, _ => .error .wrongEnterCount
  | .switch, cases => return .statement (← readSwitch cases)
  | layout, _ => .error (.wrongCount (operandNumber layout))

/-- Reads a listed instruction. -/
def readInstruction (mnemonic : String) (operands : List String) : Except Error Order := do
  let opcode ← Opcode.read mnemonic
  match readOperands opcode operands with
  | .ok order => return order
  | .error fault => throw (.malformed (.badOperands mnemonic operands fault))

end Listing
end ScriptBytecode
