import ScriptBytecode.Binary32.Basic
import ScriptBytecode.Bytes
import ScriptBytecode.Opcode.Basic
import ScriptBytecode.Text.Utf8

/-!
# Operands of an instruction

The operands of an instruction are its bytes after the opcode, divided into fields as the operand
layout says.  Nothing is lost in the division: `Operands.toBytes` gives the bytes back.
-/

namespace ScriptBytecode

/-- The operand fields of an instruction, one constructor per layout. -/
inductive Operands where
  | none
  | u8 (value : UInt8)
  | u8u8 (first second : UInt8)
  | u8u8u8 (first second third : UInt8)
  | s16 (value : Int16)
  | u16 (value : UInt16)
  | u24 (value : UInt32)
  | u32 (value : UInt32)
  | f32 (value : Binary32)
  | rel16 (offset : Int16)
  /-- The packed argument counts and the native index. -/
  | native (counts : UInt8) (index : UInt16)
  /-- Parameter count, frame size and the bytes of the name field. -/
  | enter (parameters : UInt8) (frameSize : UInt16) (nameField : List UInt8)
  /-- The value and the relative offset of every case. -/
  | switch (cases : List (UInt32 × Int16))
deriving DecidableEq, Repr

namespace Operands

/-- The layout that operands belong to. -/
def layout : Operands → OperandLayout
  | .none => .none
  | .u8 .. => .u8
  | .u8u8 .. => .u8u8
  | .u8u8u8 .. => .u8u8u8
  | .s16 .. => .s16
  | .u16 .. => .u16
  | .u24 .. => .u24
  | .u32 .. => .u32
  | .f32 .. => .f32
  | .rel16 .. => .rel16
  | .native .. => .native
  | .enter .. => .enter
  | .switch .. => .switch

/-- The bytes of a switch case. -/
def caseBytes : UInt32 × Int16 → List UInt8
  | (value, offset) => Bytes.ofUInt32 value ++ Bytes.ofUInt16 offset.toUInt16

/-- The bytes of operands.  Only the low 24 bits of a 24-bit operand are stored, and the native
index stands with its high byte first. -/
def toBytes : Operands → List UInt8
  | .none => []
  | .u8 value => [value]
  | .u8u8 first second => [first, second]
  | .u8u8u8 first second third => [first, second, third]
  | .s16 value => Bytes.ofUInt16 value.toUInt16
  | .u16 value => Bytes.ofUInt16 value
  | .u24 value => Bytes.ofUInt24 value
  | .u32 value => Bytes.ofUInt32 value
  | .f32 value => Bytes.ofUInt32 value.bits
  | .rel16 offset => Bytes.ofUInt16 offset.toUInt16
  | .native counts index => counts :: (Bytes.ofUInt16 index).reverse
  | .enter parameters frameSize nameField =>
    parameters :: Bytes.ofUInt16 frameSize ++ UInt8.ofNat nameField.length :: nameField
  | .switch cases => UInt8.ofNat cases.length :: cases.flatMap caseBytes

/-- Reads exactly `count` switch cases. -/
def casesOfBytes? : (count : Nat) → List UInt8 → Option (List (UInt32 × Int16))
  | 0, [] => some []
  | count + 1, value0 :: value1 :: value2 :: value3 :: offset0 :: offset1 :: rest =>
    (casesOfBytes? count rest).map fun cases =>
      (Bytes.toUInt32 value0 value1 value2 value3, (Bytes.toUInt16 offset0 offset1).toInt16) ::
        cases
  | _, _ => Option.none

/-- Divides the bytes after an opcode into the fields of a layout; fails unless there are exactly
as many bytes as the fields take. -/
def ofBytes? : OperandLayout → List UInt8 → Option Operands
  | .none, [] => some .none
  | .u8, [value] => some (.u8 value)
  | .u8u8, [first, second] => some (.u8u8 first second)
  | .u8u8u8, [first, second, third] => some (.u8u8u8 first second third)
  | .s16, [byte0, byte1] => some (.s16 (Bytes.toUInt16 byte0 byte1).toInt16)
  | .u16, [byte0, byte1] => some (.u16 (Bytes.toUInt16 byte0 byte1))
  | .u24, [byte0, byte1, byte2] => some (.u24 (Bytes.toUInt24 byte0 byte1 byte2))
  | .u32, [byte0, byte1, byte2, byte3] => some (.u32 (Bytes.toUInt32 byte0 byte1 byte2 byte3))
  | .f32, [byte0, byte1, byte2, byte3] => some (.f32 ⟨Bytes.toUInt32 byte0 byte1 byte2 byte3⟩)
  | .rel16, [byte0, byte1] => some (.rel16 (Bytes.toUInt16 byte0 byte1).toInt16)
  | .native, [counts, high, low] => some (.native counts (Bytes.toUInt16 low high))
  | .enter, parameters :: frame0 :: frame1 :: nameLength :: nameField =>
    if nameField.length = nameLength.toNat then
      some (.enter parameters (Bytes.toUInt16 frame0 frame1) nameField)
    else Option.none
  | .switch, count :: rest => (casesOfBytes? count.toNat rest).map .switch
  | _, _ => Option.none

/-- The parameter count in the packed counts of a native call. -/
def nativeParameters (counts : UInt8) : UInt8 :=
  counts >>> 2

/-- The return count in the packed counts of a native call. -/
def nativeReturns (counts : UInt8) : UInt8 :=
  counts &&& 3

/-- Packs the low six bits of a parameter count and the low two bits of a return count. -/
def packCounts (parameters returns : UInt8) : UInt8 :=
  (parameters &&& 0x3F) <<< 2 ||| (returns &&& 3)

/-- The name in a name field: without the terminator, which is the last byte whatever it is, and
without the marker bytes 0xFF in front of it.  An empty field holds no name. -/
def enterName? (nameField : List UInt8) : Option String :=
  if nameField.isEmpty then Option.none
  else some (Utf8.decode (nameField.dropLast.dropWhile (· == 0xFF)).toArray)

/-- Greatest number of name bytes in a name field, terminator apart. -/
def maxNameBytes : Nat := 254

/-- The field of an optional name: as much of the name as fits, and a terminator. -/
def nameFieldOf : Option String → List UInt8
  | Option.none => []
  | some name => (Utf8.truncate maxNameBytes name.toList).flatMap String.utf8EncodeChar ++ [0]

/-- The immediate operand of an addressing or arithmetic instruction. -/
def immediate? : Operands → Option Int
  | .u8 value => some value.toNat
  | .s16 value => some value.toInt
  | .u16 value => some value.toNat
  | .u24 value => some value.toNat
  | _ => Option.none

end Operands
end ScriptBytecode
