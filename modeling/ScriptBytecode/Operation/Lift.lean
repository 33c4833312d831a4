import ScriptBytecode.Instruction.Basic
import ScriptBytecode.Opcode.Family
import ScriptBytecode.Operation.Basic

/-!
# Lifting code

An addressing opcode becomes the computation of its address and the access it makes, a fused
comparison becomes the comparison and a jump on zero, and an immediate form becomes a push and the
arithmetic.  Lifting fails at the first instruction that cannot be read or that has no operation.
-/

namespace ScriptBytecode

/-- The operation of an opcode that stands for one operation without operands. -/
def Opcode.simpleOperation? : Opcode → Option Operation
  | .nop => some .nop
  | .iadd | .ioffset => some .iadd
  | .isub => some .isub
  | .imul => some .imul
  | .idiv => some .idiv
  | .imod => some .imod
  | .inot => some .inot
  | .ineg => some .ineg
  | .ieq => some .iequal
  | .ine => some .inotEqual
  | .igt => some .igreaterThan
  | .ige => some .igreaterOrEqual
  | .ilt => some .ilessThan
  | .ile => some .ilessOrEqual
  | .iand => some .iand
  | .ior => some .ior
  | .ixor => some .ixor
  | .fadd => some .fadd
  | .fsub => some .fsub
  | .fmul => some .fmul
  | .fdiv => some .fdiv
  | .fmod => some .fmod
  | .fneg => some .fneg
  | .feq => some .fequal
  | .fne => some .fnotEqual
  | .fgt => some .fgreaterThan
  | .fge => some .fgreaterOrEqual
  | .flt => some .flessThan
  | .fle => some .flessOrEqual
  | .vadd => some .vadd
  | .vsub => some .vsub
  | .vmul => some .vmul
  | .vdiv => some .vdiv
  | .vneg => some .vneg
  | .i2f => some .intToFloat
  | .f2i => some .floatToInt
  | .f2v => some .floatToVector
  | .dup => some .dup
  | .drop => some .drop
  | .load => some .load
  | .store => some .store
  | .storeRev => some .storeRev
  | .loadN => some .loadN
  | .storeN => some .storeN
  | .string => some .pushStringFromStringTable
  | .stringHash => some .stringHash
  | .textLabelCopy => some .textLabelCopy
  | .callIndirect => some .callIndirect
  | .catchError => some .catchError
  | .throw => some .throw
  | _ => none

/-- The operations of an access to an address on the stack. -/
def Access.operations : Access → List Operation
  | .none => []
  | .load => [.load]
  | .store => [.store]

/-- The operations that compute an address from an immediate. -/
def AddressKind.operations (kind : AddressKind) (immediate : Int) : List Operation :=
  match kind with
  | .local => [.localRef immediate.toNat]
  | .static => [.staticRef immediate.toNat]
  | .global => [.globalRef immediate.toNat]
  | .array => [.arrayItemRef immediate.toNat]
  | .offset => [.pushInt immediate, .iadd]

/-- The operations of an addressing opcode with the given immediate. -/
def AddressForm.operations (form : AddressForm) (immediate : Int) : List Operation :=
  form.kind.operations immediate ++ form.access.operations

/-- The operation of immediate arithmetic. -/
def ImmediateArith.operation : ImmediateArith → Operation
  | .add => .iadd
  | .mul => .imul

namespace Instruction

/-- The operations of an instruction that has operands of its own kind. -/
def operandOperations? (natives : Array UInt64) (instruction : Instruction) :
    Except Error (List Operation) :=
  let ip := instruction.ip
  match instruction.opcode, instruction.operands with
  | .enter, .enter parameters frameSize nameField =>
    .ok [.enter parameters ((frameSize.toNat : Int) - 2) (Operands.enterName? nameField)]
  | .leave, .u8u8 parameters returns => .ok [.leave parameters returns]
  | .pushConstU8, .u8 value => .ok [.pushInt value.toNat]
  | .pushConstU8U8, .u8u8 first second => .ok [.pushInt first.toNat, .pushInt second.toNat]
  | .pushConstU8U8U8, .u8u8u8 first second third =>
    .ok [.pushInt first.toNat, .pushInt second.toNat, .pushInt third.toNat]
  | .pushConstS16, .s16 value => .ok [.pushInt value.toInt]
  | .pushConstU24, .u24 value => .ok [.pushInt value.toNat]
  | .pushConstU32, .u32 value => .ok [.pushInt value.toInt32.toInt]
  | .pushConstF, .f32 value => .ok [.pushFloat value]
  | .native, .native counts index =>
    match natives[index.toNat]? with
    | some hash =>
      .ok [.nativeCall (Operands.nativeParameters counts) (Operands.nativeReturns counts) hash]
    | none => .error (.nativeIndexOutOfRange index.toNat natives.size)
  | .j, .rel16 offset => .ok [.jump (jumpTarget ip offset)]
  | .jz, .rel16 offset => .ok [.jumpIfZero (jumpTarget ip offset)]
  | .call, .u24 target => .ok [.call target.toNat]
  | .switch, .switch cases =>
    .ok [.switch ((switchCases ip cases).map fun (_, value, _, target) =>
      (value.toInt32.toInt, target))]
  | .textLabelAssignString, .u8 size => .ok [.textLabelAssignString size]
  | .textLabelAssignInt, .u8 size => .ok [.textLabelAssignInt size]
  | .textLabelAppendString, .u8 size => .ok [.textLabelAppendString size]
  | .textLabelAppendInt, .u8 size => .ok [.textLabelAppendInt size]
  | opcode, _ => .error (.notImplemented opcode ip)

/-- The operations of an instruction.  The native table gives the hashes of native calls. -/
def operations (natives : Array UInt64) (instruction : Instruction) :
    Except Error (List Operation) :=
  let opcode := instruction.opcode
  match opcode.addressForm?, opcode.immediateArith?, instruction.operands.immediate? with
  | some form, _, some immediate => .ok (form.operations immediate)
  | none, some arith, some immediate => .ok [.pushInt immediate, arith.operation]
  | _, _, _ =>
    match opcode.intConstant?, opcode.floatConstant? with
    | some value, _ => .ok [.pushInt value]
    | none, some value => .ok [.pushFloat value]
    | none, none =>
      match opcode.jumpCompare?.bind Opcode.simpleOperation?, instruction.operands with
      | some compare, .rel16 offset =>
        .ok [compare, .jumpIfZero (jumpTarget instruction.ip offset)]
      | _, _ =>
        match opcode.simpleOperation? with
        | some operation => .ok [operation]
        | none => operandOperations? natives instruction

end Instruction

/-- Lifts code.  Code that is not empty ends with an operation at the address after it. -/
def lift (code : Bytes) (natives : Array UInt64) : Except Error (Array LiftedOperation) := do
  if code.isEmpty then return #[]
  let walk := walk code
  let lifted ← walk.instructions.foldlM
    (fun (lifted : Array LiftedOperation) instruction => do
      let operations ← instruction.operations natives
      return lifted.appendList (operations.map (LiftedOperation.mk instruction.ip)))
    #[]
  match walk.failure with
  | some error => throw error
  | none => return lifted.push ⟨code.size, .endOfScript⟩

/-- Text of lifted code: every operation with a line break behind it. -/
def liftedText (lifted : Array LiftedOperation) : String :=
  lifted.foldl (fun text operation => text ++ operation.text ++ "\n") ""

end ScriptBytecode
