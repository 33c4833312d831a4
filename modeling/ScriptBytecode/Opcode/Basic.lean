/-!
# The instruction set

Every opcode has a byte, a mnemonic, an operand layout and a flow kind.  The constructors of
`Opcode` stand in byte order, so an opcode's byte is its position in that order, and the bytes
from `Opcode.count` on are invalid.
-/

namespace ScriptBytecode

/-- Byte layout of the operands that follow an opcode byte. -/
inductive OperandLayout where
  | none
  | u8
  | u8u8
  | u8u8u8
  | s16
  | u16
  | u24
  | u32
  | f32
  /-- A signed 16-bit offset relative to the end of the instruction. -/
  | rel16
  /-- Packed argument counts, then the native index with its high byte first. -/
  | native
  /-- Parameter count, 16-bit frame size, length of the name field, name field. -/
  | enter
  /-- Case count, then a 32-bit value and a signed 16-bit offset for every case. -/
  | switch
deriving DecidableEq, Repr

namespace OperandLayout

/-- Every layout, the fixed scalar ones first. -/
def all : List OperandLayout :=
  [.none, .u8, .u8u8, .u8u8u8, .s16, .u16, .u24, .u32, .f32, .rel16, .native, .enter, .switch]

/-- The name of a layout. -/
def name : OperandLayout → String
  | .none => "None"
  | .u8 => "U8"
  | .u8u8 => "U8U8"
  | .u8u8u8 => "U8U8U8"
  | .s16 => "S16"
  | .u16 => "U16"
  | .u24 => "U24"
  | .u32 => "U32"
  | .f32 => "F32"
  | .rel16 => "Rel16"
  | .native => "Native"
  | .enter => "Enter"
  | .switch => "Switch"

/-- Size of a whole instruction of this layout, opcode byte included, when it is constant. -/
def byteSize? : OperandLayout → Option Nat
  | .none => some 1
  | .u8 => some 2
  | .u8u8 | .s16 | .u16 | .rel16 => some 3
  | .u8u8u8 | .u24 | .native => some 4
  | .u32 | .f32 => some 5
  | .enter | .switch => Option.none

/-- Number of operands of this layout, when it is constant. -/
def operandCount? : OperandLayout → Option Nat
  | .none => some 0
  | .u8 | .s16 | .u16 | .u24 | .u32 | .f32 | .rel16 => some 1
  | .u8u8 => some 2
  | .u8u8u8 | .native | .enter => some 3
  | .switch => Option.none

end OperandLayout

/-- How an instruction passes control on. -/
inductive Flow where
  /-- Falls through to the next instruction. -/
  | sequential
  | jump
  | call
  | switch
  /-- Leaves the current function. -/
  | other
deriving DecidableEq, Repr

/-- The name of a way to pass control on. -/
def Flow.name : Flow → String
  | .sequential => "Sequential"
  | .jump => "Jump"
  | .call => "Call"
  | .switch => "Switch"
  | .other => "Other"

/-- The opcodes, in byte order. -/
inductive Opcode where
  | localStoreS
  | localU16Load
  | arrayU16Load
  | native
  | string
  | inot
  | storeN
  | vmul
  | pushConstM1
  | pushConst1
  | arrayU16Store
  | ieq
  | fdiv
  | pushConst7
  | staticLoadS
  | localLoadS
  | isub
  | pushConst2
  | vdiv
  | nop
  | imulU8
  | ieqJz
  | fge
  | arrayU8Load
  | ioffsetS16
  | vsub
  | textLabelCopy
  | fmod
  | ine
  | pushConst3
  | imul
  | textLabelAssignString
  | igt
  | pushConstU24
  | enter
  | ileJz
  | fmul
  | pushConstS16
  | globalU24Store
  | ioffsetU8Load
  | staticU24Store
  | textLabelAppendInt
  | globalStoreSr
  | ineg
  | pushConstF3
  | loadN
  | igtJz
  | pushConst0
  | ior
  | fgt
  | store
  | pushConstF7
  | flt
  | ilt
  | i2f
  | pushConstU32
  | f2v
  | call
  | staticU16Load
  | iaddS16
  | switch
  | storeRev
  | staticU24
  | globalStoreS
  | arrayU16
  | drop
  | pushConst4
  | iadd
  | localU16Store
  | f2i
  | staticU16
  | imod
  | pushConstF1
  | ixor
  | globalU16Store
  | localU8
  | pushConstFm1
  | pushConst6
  | staticU8Store
  | staticStoreS
  | leave
  | fsub
  | localStoreSr
  | storeNS
  | staticU8Load
  | throw
  | ioffset
  | fne
  | localU16
  | idiv
  | pushConstF4
  | pushConstF2
  | iaddU8
  | globalU24
  | textLabelAppendString
  | staticU16Store
  | vadd
  | vneg
  | pushConst5
  | arrayU8
  | arrayU8Store
  | fneg
  | localU8Load
  | localU8Store
  | j
  | iand
  | dup
  | staticU24Load
  | ioffsetU8Store
  | pushConstU8
  | catchError
  | pushConstU8U8
  | globalU16Load
  | fadd
  | ineJz
  | pushConstF0
  | staticStoreSr
  | igeJz
  | load
  | ile
  | ioffsetS16Load
  | textLabelAssignInt
  | pushConstF6
  | pushConstU8U8U8
  | pushConstF5
  | feq
  | ige
  | imulS16
  | ioffsetU8
  | stringHash
  | storeNSr
  | globalLoadS
  | fle
  | globalU24Load
  | pushConstF
  | globalU16
  | loadNS
  | staticU8
  | iltJz
  | jz
  | ioffsetS16Store
  | callIndirect
deriving DecidableEq, Repr

namespace Opcode

/-- Number of opcodes; every byte from here on is invalid. -/
def count : Nat := 142

/-- Every opcode, in byte order. -/
def all : Array Opcode := #[
  .localStoreS, .localU16Load, .arrayU16Load, .native, .string, .inot, .storeN, .vmul,
  .pushConstM1, .pushConst1, .arrayU16Store, .ieq, .fdiv, .pushConst7, .staticLoadS, .localLoadS,
  .isub, .pushConst2, .vdiv, .nop, .imulU8, .ieqJz, .fge, .arrayU8Load, .ioffsetS16, .vsub,
  .textLabelCopy, .fmod, .ine, .pushConst3, .imul, .textLabelAssignString, .igt, .pushConstU24,
  .enter, .ileJz, .fmul, .pushConstS16, .globalU24Store, .ioffsetU8Load, .staticU24Store,
  .textLabelAppendInt, .globalStoreSr, .ineg, .pushConstF3, .loadN, .igtJz, .pushConst0, .ior,
  .fgt, .store, .pushConstF7, .flt, .ilt, .i2f, .pushConstU32, .f2v, .call, .staticU16Load,
  .iaddS16, .switch, .storeRev, .staticU24, .globalStoreS, .arrayU16, .drop, .pushConst4, .iadd,
  .localU16Store, .f2i, .staticU16, .imod, .pushConstF1, .ixor, .globalU16Store, .localU8,
  .pushConstFm1, .pushConst6, .staticU8Store, .staticStoreS, .leave, .fsub, .localStoreSr,
  .storeNS, .staticU8Load, .throw, .ioffset, .fne, .localU16, .idiv, .pushConstF4, .pushConstF2,
  .iaddU8, .globalU24, .textLabelAppendString, .staticU16Store, .vadd, .vneg, .pushConst5,
  .arrayU8, .arrayU8Store, .fneg, .localU8Load, .localU8Store, .j, .iand, .dup, .staticU24Load,
  .ioffsetU8Store, .pushConstU8, .catchError, .pushConstU8U8, .globalU16Load, .fadd, .ineJz,
  .pushConstF0, .staticStoreSr, .igeJz, .load, .ile, .ioffsetS16Load, .textLabelAssignInt,
  .pushConstF6, .pushConstU8U8U8, .pushConstF5, .feq, .ige, .imulS16, .ioffsetU8, .stringHash,
  .storeNSr, .globalLoadS, .fle, .globalU24Load, .pushConstF, .globalU16, .loadNS, .staticU8,
  .iltJz, .jz, .ioffsetS16Store, .callIndirect]

/-- The byte that stands for an opcode. -/
def toByte (opcode : Opcode) : UInt8 :=
  UInt8.ofNat opcode.ctorIdx

/-- The opcode that a byte stands for. -/
def ofByte? (byte : UInt8) : Option Opcode :=
  all[byte.toNat]?

/-- The name of an opcode in listings. -/
def mnemonic : Opcode → String
  | .localStoreS => "LOCAL_STORE_S"
  | .localU16Load => "LOCAL_U16_LOAD"
  | .arrayU16Load => "ARRAY_U16_LOAD"
  | .native => "NATIVE"
  | .string => "STRING"
  | .inot => "INOT"
  | .storeN => "STORE_N"
  | .vmul => "VMUL"
  | .pushConstM1 => "PUSH_CONST_M1"
  | .pushConst1 => "PUSH_CONST_1"
  | .arrayU16Store => "ARRAY_U16_STORE"
  | .ieq => "IEQ"
  | .fdiv => "FDIV"
  | .pushConst7 => "PUSH_CONST_7"
  | .staticLoadS => "STATIC_LOAD_S"
  | .localLoadS => "LOCAL_LOAD_S"
  | .isub => "ISUB"
  | .pushConst2 => "PUSH_CONST_2"
  | .vdiv => "VDIV"
  | .nop => "NOP"
  | .imulU8 => "IMUL_U8"
  | .ieqJz => "IEQ_JZ"
  | .fge => "FGE"
  | .arrayU8Load => "ARRAY_U8_LOAD"
  | .ioffsetS16 => "IOFFSET_S16"
  | .vsub => "VSUB"
  | .textLabelCopy => "TEXT_LABEL_COPY"
  | .fmod => "FMOD"
  | .ine => "INE"
  | .pushConst3 => "PUSH_CONST_3"
  | .imul => "IMUL"
  | .textLabelAssignString => "TEXT_LABEL_ASSIGN_STRING"
  | .igt => "IGT"
  | .pushConstU24 => "PUSH_CONST_U24"
  | .enter => "ENTER"
  | .ileJz => "ILE_JZ"
  | .fmul => "FMUL"
  | .pushConstS16 => "PUSH_CONST_S16"
  | .globalU24Store => "GLOBAL_U24_STORE"
  | .ioffsetU8Load => "IOFFSET_U8_LOAD"
  | .staticU24Store => "STATIC_U24_STORE"
  | .textLabelAppendInt => "TEXT_LABEL_APPEND_INT"
  | .globalStoreSr => "GLOBAL_STORE_SR"
  | .ineg => "INEG"
  | .pushConstF3 => "PUSH_CONST_F3"
  | .loadN => "LOAD_N"
  | .igtJz => "IGT_JZ"
  | .pushConst0 => "PUSH_CONST_0"
  | .ior => "IOR"
  | .fgt => "FGT"
  | .store => "STORE"
  | .pushConstF7 => "PUSH_CONST_F7"
  | .flt => "FLT"
  | .ilt => "ILT"
  | .i2f => "I2F"
  | .pushConstU32 => "PUSH_CONST_U32"
  | .f2v => "F2V"
  | .call => "CALL"
  | .staticU16Load => "STATIC_U16_LOAD"
  | .iaddS16 => "IADD_S16"
  | .switch => "SWITCH"
  | .storeRev => "STORE_REV"
  | .staticU24 => "STATIC_U24"
  | .globalStoreS => "GLOBAL_STORE_S"
  | .arrayU16 => "ARRAY_U16"
  | .drop => "DROP"
  | .pushConst4 => "PUSH_CONST_4"
  | .iadd => "IADD"
  | .localU16Store => "LOCAL_U16_STORE"
  | .f2i => "F2I"
  | .staticU16 => "STATIC_U16"
  | .imod => "IMOD"
  | .pushConstF1 => "PUSH_CONST_F1"
  | .ixor => "IXOR"
  | .globalU16Store => "GLOBAL_U16_STORE"
  | .localU8 => "LOCAL_U8"
  | .pushConstFm1 => "PUSH_CONST_FM1"
  | .pushConst6 => "PUSH_CONST_6"
  | .staticU8Store => "STATIC_U8_STORE"
  | .staticStoreS => "STATIC_STORE_S"
  | .leave => "LEAVE"
  | .fsub => "FSUB"
  | .localStoreSr => "LOCAL_STORE_SR"
  | .storeNS => "STORE_N_S"
  | .staticU8Load => "STATIC_U8_LOAD"
  | .throw => "THROW"
  | .ioffset => "IOFFSET"
  | .fne => "FNE"
  | .localU16 => "LOCAL_U16"
  | .idiv => "IDIV"
  | .pushConstF4 => "PUSH_CONST_F4"
  | .pushConstF2 => "PUSH_CONST_F2"
  | .iaddU8 => "IADD_U8"
  | .globalU24 => "GLOBAL_U24"
  | .textLabelAppendString => "TEXT_LABEL_APPEND_STRING"
  | .staticU16Store => "STATIC_U16_STORE"
  | .vadd => "VADD"
  | .vneg => "VNEG"
  | .pushConst5 => "PUSH_CONST_5"
  | .arrayU8 => "ARRAY_U8"
  | .arrayU8Store => "ARRAY_U8_STORE"
  | .fneg => "FNEG"
  | .localU8Load => "LOCAL_U8_LOAD"
  | .localU8Store => "LOCAL_U8_STORE"
  | .j => "J"
  | .iand => "IAND"
  | .dup => "DUP"
  | .staticU24Load => "STATIC_U24_LOAD"
  | .ioffsetU8Store => "IOFFSET_U8_STORE"
  | .pushConstU8 => "PUSH_CONST_U8"
  | .catchError => "CATCH"
  | .pushConstU8U8 => "PUSH_CONST_U8_U8"
  | .globalU16Load => "GLOBAL_U16_LOAD"
  | .fadd => "FADD"
  | .ineJz => "INE_JZ"
  | .pushConstF0 => "PUSH_CONST_F0"
  | .staticStoreSr => "STATIC_STORE_SR"
  | .igeJz => "IGE_JZ"
  | .load => "LOAD"
  | .ile => "ILE"
  | .ioffsetS16Load => "IOFFSET_S16_LOAD"
  | .textLabelAssignInt => "TEXT_LABEL_ASSIGN_INT"
  | .pushConstF6 => "PUSH_CONST_F6"
  | .pushConstU8U8U8 => "PUSH_CONST_U8_U8_U8"
  | .pushConstF5 => "PUSH_CONST_F5"
  | .feq => "FEQ"
  | .ige => "IGE"
  | .imulS16 => "IMUL_S16"
  | .ioffsetU8 => "IOFFSET_U8"
  | .stringHash => "STRINGHASH"
  | .storeNSr => "STORE_N_SR"
  | .globalLoadS => "GLOBAL_LOAD_S"
  | .fle => "FLE"
  | .globalU24Load => "GLOBAL_U24_LOAD"
  | .pushConstF => "PUSH_CONST_F"
  | .globalU16 => "GLOBAL_U16"
  | .loadNS => "LOAD_N_S"
  | .staticU8 => "STATIC_U8"
  | .iltJz => "ILT_JZ"
  | .jz => "JZ"
  | .ioffsetS16Store => "IOFFSET_S16_STORE"
  | .callIndirect => "CALLINDIRECT"

/-- The operands that follow an opcode. -/
def layout : Opcode → OperandLayout
  | .imulU8 | .arrayU8Load | .textLabelAssignString | .ioffsetU8Load | .textLabelAppendInt
  | .localU8 | .staticU8Store | .staticU8Load | .iaddU8 | .textLabelAppendString | .arrayU8
  | .arrayU8Store | .localU8Load | .localU8Store | .ioffsetU8Store | .pushConstU8
  | .textLabelAssignInt | .ioffsetU8 | .staticU8 => .u8
  | .leave | .pushConstU8U8 => .u8u8
  | .pushConstU8U8U8 => .u8u8u8
  | .ioffsetS16 | .pushConstS16 | .iaddS16 | .ioffsetS16Load | .imulS16 | .ioffsetS16Store => .s16
  | .localU16Load | .arrayU16Load | .arrayU16Store | .staticU16Load | .arrayU16 | .localU16Store
  | .staticU16 | .globalU16Store | .localU16 | .staticU16Store | .globalU16Load | .globalU16 => .u16
  | .pushConstU24 | .globalU24Store | .staticU24Store | .call | .staticU24 | .globalU24
  | .staticU24Load | .globalU24Load => .u24
  | .pushConstU32 => .u32
  | .pushConstF => .f32
  | .ieqJz | .ileJz | .igtJz | .j | .ineJz | .igeJz | .iltJz | .jz => .rel16
  | .native => .native
  | .enter => .enter
  | .switch => .switch
  | _ => .none

/-- How an opcode passes control on. -/
def flow : Opcode → Flow
  | .ieqJz | .ileJz | .igtJz | .j | .ineJz | .igeJz | .iltJz | .jz => .jump
  | .call | .callIndirect => .call
  | .switch => .switch
  | .leave | .throw => .other
  | _ => .sequential

/-- Whether an opcode jumps, on a condition or always. -/
def isJump (opcode : Opcode) : Bool :=
  opcode.flow == .jump

/-- Whether an opcode does more than fall through.  Such an opcode may end on the last byte of a
page. -/
def isControlFlow (opcode : Opcode) : Bool :=
  opcode.flow != .sequential

set_option maxRecDepth 4000 in
@[simp] theorem ofByte?_toByte (opcode : Opcode) : ofByte? opcode.toByte = some opcode := by
  cases opcode <;> rfl

theorem toByte_lt_count (opcode : Opcode) : opcode.toByte.toNat < count := by
  cases opcode <;> decide

theorem toByte_injective {left right : Opcode} (sameByte : left.toByte = right.toByte) :
    left = right := by
  have sameOpcode := congrArg ofByte? sameByte
  simpa using sameOpcode

end Opcode
end ScriptBytecode
