import ScriptBytecode.Error
import ScriptBytecode.Instruction.Operands

/-!
# Reading instructions

An instruction is read at an address of the code: its opcode byte, then as many operand bytes as
the layout, or the length or count byte among the operands, calls for.  `walk` reads code from its
start, each instruction where the one before it stops, up to the end or the first error.
-/

namespace ScriptBytecode

/-- An instruction at an address. -/
structure Instruction where
  ip : Nat
  opcode : Opcode
  operands : Operands
deriving DecidableEq, Repr

/-- An address as it is stored in 32 bits. -/
def wrapAddress (address : Int) : Nat :=
  (address % 0x100000000).toNat

namespace Instruction

/-- The opcode byte followed by the operand bytes. -/
def bytes (instruction : Instruction) : Bytes :=
  (instruction.opcode.toByte :: instruction.operands.toBytes).toArray

/-- Number of bytes of an instruction. -/
def size (instruction : Instruction) : Nat :=
  instruction.bytes.size

/-- The address after an instruction. -/
def stop (instruction : Instruction) : Nat :=
  instruction.ip + instruction.size

/-- Length of the instruction of an opcode, given access to its bytes, or nothing when the length
or count byte is missing. -/
def length? (opcode : Opcode) (byteAt? : Nat → Option UInt8) : Option Nat :=
  match opcode.layout with
  | .enter => (byteAt? 4).map fun nameLength => 5 + nameLength.toNat
  | .switch => (byteAt? 1).map fun count => 2 + 6 * count.toNat
  | layout => layout.byteSize?

/-- The address a relative offset leads to from the end of a jump. -/
def jumpTarget (ip : Nat) (offset : Int16) : Nat :=
  wrapAddress (ip + 3 + offset.toInt)

/-- The address of a switch case: its offset is relative to the end of the case. -/
def caseTarget (ip index : Nat) (offset : Int16) : Nat :=
  wrapAddress (ip + (2 + 6 * index) + 6 + offset.toInt)

/-- The index, value, offset and target of every case of a switch. -/
def switchCases (ip : Nat) (cases : List (UInt32 × Int16)) :
    List (Nat × UInt32 × Int16 × Nat) :=
  cases.mapIdx fun index (value, offset) => (index, value, offset, caseTarget ip index offset)

/-- Reads the instruction at an address. -/
def decode (code : Bytes) (ip : Nat) : Except Error Instruction :=
  match code[ip]? with
  | none => .error (.malformed (.pastEndOfCode ip code.size))
  | some byte =>
    match Opcode.ofByte? byte with
    | none => .error (.invalidOpcode byte ip)
    | some opcode =>
      match length? opcode (fun index => code[ip + index]?) with
      | none => .error (.truncated opcode ip)
      | some length =>
        let operandBytes := (code.extract (ip + 1) (ip + length)).toList
        match Operands.ofBytes? opcode.layout operandBytes with
        | none => .error (.truncated opcode ip)
        | some operands => .ok ⟨ip, opcode, operands⟩

/-- Reads the instruction at an address, which has to be of a given opcode. -/
def decodeAs (code : Bytes) (ip : Nat) (expected : Opcode) : Except Error Instruction :=
  match code[ip]? with
  | some found =>
    if found ≠ expected.toByte then .error (.opcodeMismatch expected found ip)
    else decode code ip
  | none => decode code ip

end Instruction

/-- A linear walk over code: the instructions up to the end or the first error. -/
structure Walk where
  instructions : Array Instruction
  failure : Option Error

namespace Walk

/-- Walks on from an address.  Every instruction has at least one byte, so a walk of as many steps
as there are bytes left reaches the end. -/
def walkFrom (code : Bytes) : (steps ip : Nat) → (walked : Array Instruction) → Walk
  | 0, _, walked => ⟨walked, none⟩
  | steps + 1, ip, walked =>
    if ip < code.size then
      match Instruction.decode code ip with
      | .ok instruction => walkFrom code steps instruction.stop (walked.push instruction)
      | .error error => ⟨walked, some error⟩
    else ⟨walked, none⟩

end Walk

/-- Walks over code from its start. -/
def walk (code : Bytes) : Walk :=
  Walk.walkFrom code code.size 0 #[]

end ScriptBytecode
