import ScriptBytecode.Operation.Lift
import ScriptBytecode.Proofs.Answers
import ScriptBytecode.Proofs.HeldBytes
import ScriptBytecode.Proofs.Walk

/-!
# Operations read byte by byte

The operations of an instruction can be read off its bytes, one access after the other, without its
operands.  Each access here is checked: there is no answer if it reaches outside of the bytes, or if
it asks for the immediate of a layout that has none.  The bytes of a well-formed instruction answer
all of the accesses, and what is read are the operations of the instruction.
-/

namespace ScriptBytecode

namespace Instruction

/-! ## Accesses -/

/-- The immediate in the bytes of an instruction; only four layouts have one. -/
def immediateAt? (layout : OperandLayout) (bytes : Bytes) : Option Int :=
  match layout with
  | .u8 => bytes[1]?.map fun value => value.toNat
  | .s16 => (bytes.uint16At? 1).map fun value => value.toInt16.toInt
  | .u16 => (bytes.uint16At? 1).map fun value => value.toNat
  | .u24 => (bytes.uint24At? 1).map fun value => value.toNat
  | _ => none

/-- The target of a jump at an address. -/
def jumpTargetAt? (ip : Nat) (bytes : Bytes) : Option Nat :=
  (bytes.uint16At? 1).map fun offset => jumpTarget ip offset.toInt16

/-- The name that a function is entered with, if it has one: the bytes from the fifth up to the
last, which have to be in this order. -/
def enterNameAt? (bytes : Bytes) : Option (Option String) := do
  let nameLength ← bytes[4]?
  if nameLength = 0 then
    return none
  else if 5 ≤ bytes.size - 1 then
    let name := (bytes.extract 5 (bytes.size - 1)).toList.dropWhile (· == 0xFF)
    return some (Utf8.decode name.toArray)
  else none

/-- The value and the target of a case of a switch at an address. -/
def caseAt? (ip : Nat) (bytes : Bytes) (index : Nat) : Option (Int × Nat) := do
  let value ← bytes.uint32At? (2 + 6 * index)
  let offset ← bytes.uint16At? (2 + 6 * index + 4)
  return (value.toInt32.toInt, caseTarget ip index offset.toInt16)

/-- The operations of an opcode that has operands of its own kind. -/
def ownOperationsAt? (natives : Array UInt64) (ip : Nat) (opcode : Opcode) (bytes : Bytes) :
    Option (Except Error (List Operation)) :=
  match opcode with
  | .enter => do
    let parameters ← bytes[1]?
    let frameSize ← bytes.uint16At? 2
    let name ← enterNameAt? bytes
    return .ok [.enter parameters ((frameSize.toNat : Int) - 2) name]
  | .leave => do
    let parameters ← bytes[1]?
    let returns ← bytes[2]?
    return .ok [.leave parameters returns]
  | .pushConstU8 | .pushConstU8U8 | .pushConstU8U8U8 => do
    let values ← (List.range (bytes.size - 1)).mapM fun index => bytes[1 + index]?
    return .ok (values.map fun value => .pushInt value.toNat)
  | .pushConstS16 => (bytes.uint16At? 1).map fun value => .ok [.pushInt value.toInt16.toInt]
  | .pushConstU24 => (bytes.uint24At? 1).map fun value => .ok [.pushInt value.toNat]
  | .pushConstU32 => (bytes.uint32At? 1).map fun value => .ok [.pushInt value.toInt32.toInt]
  | .pushConstF => (bytes.uint32At? 1).map fun bits => .ok [.pushFloat ⟨bits⟩]
  | .native => do
    let counts ← bytes[1]?
    let high ← bytes[2]?
    let low ← bytes[3]?
    let index := (Bytes.toUInt16 low high).toNat
    match natives[index]? with
    | some hash =>
      return .ok
        [.nativeCall (Operands.nativeParameters counts) (Operands.nativeReturns counts) hash]
    | none => return .error (.nativeIndexOutOfRange index natives.size)
  | .j => (jumpTargetAt? ip bytes).map fun target => .ok [.jump target]
  | .jz => (jumpTargetAt? ip bytes).map fun target => .ok [.jumpIfZero target]
  | .call => (bytes.uint24At? 1).map fun target => .ok [.call target.toNat]
  | .switch => do
    let count ← bytes[1]?
    let cases ← (List.range count.toNat).mapM (caseAt? ip bytes)
    return .ok [.switch cases]
  | .textLabelAssignString => bytes[1]?.map fun size => .ok [.textLabelAssignString size]
  | .textLabelAssignInt => bytes[1]?.map fun size => .ok [.textLabelAssignInt size]
  | .textLabelAppendString => bytes[1]?.map fun size => .ok [.textLabelAppendString size]
  | .textLabelAppendInt => bytes[1]?.map fun size => .ok [.textLabelAppendInt size]
  | opcode => some (.error (.notImplemented opcode ip))

/-- The operations of an opcode at an address, read from the bytes of its instruction.  The tables
of opcodes are tried in order. -/
def operationsAt? (natives : Array UInt64) (ip : Nat) (opcode : Opcode) (bytes : Bytes) :
    Option (Except Error (List Operation)) :=
  match opcode.addressForm? with
  | some form =>
    (immediateAt? opcode.layout bytes).map fun immediate => .ok (form.operations immediate)
  | none =>
  match opcode.immediateArith? with
  | some arith =>
    (immediateAt? opcode.layout bytes).map fun immediate =>
      .ok [.pushInt immediate, arith.operation]
  | none =>
  match opcode.intConstant?, opcode.floatConstant? with
  | some value, _ => some (.ok [.pushInt value])
  | none, some value => some (.ok [.pushFloat value])
  | none, none =>
  match opcode.jumpCompare? with
  | some compare =>
    (jumpTargetAt? ip bytes).map fun target =>
      .ok (compare.simpleOperation?.toList ++ [.jumpIfZero target])
  | none =>
  match opcode.simpleOperation? with
  | some operation => some (.ok [operation])
  | none => ownOperationsAt? natives ip opcode bytes

/-! ## What the accesses find -/

open Segment

section Accesses

variable {ip : Nat} {opcode : Opcode}

theorem holds_operands (instruction : Instruction) :
    Holds instruction.bytes 1 instruction.operands.toBytes :=
  ⟨[instruction.opcode.toByte], [], by simp [bytes], rfl⟩

theorem immediateAt?_bytes
    {operands : Operands}
    (fits : operands.Fits) :
    immediateAt? operands.layout (bytes ⟨ip, opcode, operands⟩) = operands.immediate? := by
  have holds := holds_operands ⟨ip, opcode, operands⟩
  cases operands with
  | u8 value =>
      simp [immediateAt?, Operands.layout, Operands.immediate?, bytes, Operands.toBytes]
  | s16 value | u16 value =>
      simp [immediateAt?, Operands.layout, Operands.immediate?, holds.uint16At?_eq]
  | u24 value =>
      simp [immediateAt?, Operands.layout, Operands.immediate?, holds.uint24At?_eq fits]
  | _ => rfl

theorem jumpTargetAt?_bytes
    (offset : Int16) :
    jumpTargetAt? ip (bytes ⟨ip, opcode, .rel16 offset⟩) = some (jumpTarget ip offset) := by
  have holds := holds_operands ⟨ip, opcode, .rel16 offset⟩
  simp [jumpTargetAt?, holds.uint16At?_eq]

/-- The bytes between the length of a name and the terminator are the name. -/
theorem enterNameAt?_bytes
    (parameters : UInt8)
    (frameSize : UInt16)
    {nameField : List UInt8}
    (fits : nameField.length < 256) :
    enterNameAt? (bytes ⟨ip, opcode, .enter parameters frameSize nameField⟩) =
      some (Operands.enterName? nameField) := by
  have isLength : (bytes ⟨ip, opcode, .enter parameters frameSize nameField⟩)[4]? =
      some (UInt8.ofNat nameField.length) := by
    simp [bytes, Operands.toBytes, Bytes.ofUInt16]
  have noLength : UInt8.ofNat nameField.length = 0 ↔ nameField = [] := by
    rw [← UInt8.toNat_inj, UInt8.toNat_ofNat', UInt8.toNat_zero, Nat.mod_eq_of_lt fits,
      List.length_eq_zero_iff]
  have size : (bytes ⟨ip, opcode, .enter parameters frameSize nameField⟩).size =
      5 + nameField.length := by
    simp +arith [bytes, Operands.toBytes, Bytes.ofUInt16]
  have name : ((bytes ⟨ip, opcode, .enter parameters frameSize nameField⟩).extract 5
      (5 + nameField.length - 1)).toList = nameField.dropLast := by
    have count : 5 + nameField.length - 1 - 5 = nameField.length - 1 := by omega
    rw [Array.toList_extract, List.extract_eq_take_drop, List.dropLast_eq_take, count]
    rfl
  unfold enterNameAt? Operands.enterName?
  rw [isLength, size, name]
  by_cases empty : nameField = []
  · simp [empty]
  · have positive := List.length_pos_iff.mpr empty
    have inOrder : 5 ≤ 4 + nameField.length := by omega
    simp [noLength, empty, inOrder]

/-- The bytes of a case stand behind those of the cases before it. -/
theorem caseAt?_bytes
    {cases : List (UInt32 × Int16)} {index : Nat} {value : UInt32} {offset : Int16}
    (isCase : cases[index]? = some (value, offset)) :
    caseAt? ip (bytes ⟨ip, opcode, .switch cases⟩) index =
      some (value.toInt32.toInt, caseTarget ip index offset) := by
  have holds : Holds (bytes ⟨ip, opcode, .switch cases⟩) (2 + 6 * index)
      (Operands.caseBytes (value, offset)) := by
    obtain ⟨inside, isCase⟩ := List.getElem?_eq_some_iff.mp isCase
    have divided : cases.flatMap Operands.caseBytes =
        (cases.take index).flatMap Operands.caseBytes ++ (Operands.caseBytes (value, offset) ++
          (cases.drop (index + 1)).flatMap Operands.caseBytes) := by
      rw [← List.flatMap_cons, ← List.flatMap_append, ← isCase, List.getElem_cons_drop,
        List.take_append_drop]
    refine ⟨opcode.toByte :: UInt8.ofNat cases.length ::
      (cases.take index).flatMap Operands.caseBytes,
      (cases.drop (index + 1)).flatMap Operands.caseBytes, ?_, ?_⟩
    · simp only [bytes, Operands.toBytes, divided, List.cons_append]
    · rw [List.length_cons, List.length_cons, length_flatMap_caseBytes, List.length_take,
        Nat.min_eq_left (Nat.le_of_lt inside)]
      omega
  have target := holds.right.uint16At?_eq
  rw [Bytes.length_ofUInt32] at target
  simp [caseAt?, holds.left.uint32At?_eq, target]

theorem mapM_caseAt?_bytes
    (cases : List (UInt32 × Int16)) :
    (List.range cases.length).mapM (caseAt? ip (bytes ⟨ip, opcode, .switch cases⟩)) =
      some ((switchCases ip cases).map fun case => (case.2.1.toInt32.toInt, case.2.2.2)) := by
  have length : ((switchCases ip cases).map fun case =>
      (case.2.1.toInt32.toInt, case.2.2.2)).length = cases.length := by
    rw [List.length_map, switchCases, List.length_mapIdx]
  rw [← length]
  apply mapM_range_eq_some
  intro index found isFound
  rw [List.getElem?_map, switchCases, List.getElem?_mapIdx, Option.map_map] at isFound
  obtain ⟨case, isCase, rfl⟩ := Option.map_eq_some_iff.mp isFound
  exact caseAt?_bytes isCase

end Accesses

/-! ## What is read -/

section Reads

variable {natives : Array UInt64} {ip : Nat}

theorem ownOperationsAt?_enter
    (parameters : UInt8)
    (frameSize : UInt16)
    {nameField : List UInt8}
    (fits : nameField.length < 256) :
    ownOperationsAt? natives ip .enter
        (bytes ⟨ip, .enter, .enter parameters frameSize nameField⟩) =
      some (.ok [.enter parameters ((frameSize.toNat : Int) - 2)
        (Operands.enterName? nameField)]) := by
  have isParameters : (bytes ⟨ip, .enter, .enter parameters frameSize nameField⟩)[1]? =
      some parameters := by
    simp [bytes, Operands.toBytes]
  have isFrameSize : (bytes ⟨ip, .enter, .enter parameters frameSize nameField⟩).uint16At? 2 =
      some frameSize :=
    Holds.uint16At?_eq ⟨[Opcode.enter.toByte, parameters],
      UInt8.ofNat nameField.length :: nameField, by simp [bytes, Operands.toBytes], rfl⟩
  simp [ownOperationsAt?, isParameters, isFrameSize, enterNameAt?_bytes _ _ fits]

theorem ownOperationsAt?_native
    (counts : UInt8)
    (index : UInt16) :
    ownOperationsAt? natives ip .native (bytes ⟨ip, .native, .native counts index⟩) =
      some (operandOperations? natives ⟨ip, .native, .native counts index⟩) := by
  simp only [ownOperationsAt?, operandOperations?, bytes, Operands.toBytes, Bytes.ofUInt16]
  cases isHash : natives[index.toNat]? <;> simp [isHash]

theorem ownOperationsAt?_switch
    {cases : List (UInt32 × Int16)}
    (fits : cases.length < 256) :
    ownOperationsAt? natives ip .switch (bytes ⟨ip, .switch, .switch cases⟩) =
      some (operandOperations? natives ⟨ip, .switch, .switch cases⟩) := by
  have isCount : (bytes ⟨ip, .switch, .switch cases⟩)[1]? = some (UInt8.ofNat cases.length) := by
    simp [bytes, Operands.toBytes]
  have count : (UInt8.ofNat cases.length).toNat = cases.length := by
    rw [UInt8.toNat_ofNat', Nat.mod_eq_of_lt fits]
  simp only [ownOperationsAt?, isCount, Option.bind_eq_bind, Option.bind_some, count,
    mapM_caseAt?_bytes]
  rfl

/-- The operands of its own kind that an opcode has are all inside of the bytes. -/
theorem ownOperationsAt?_bytes
    {instruction : Instruction}
    (wellFormed : instruction.WellFormed) :
    ownOperationsAt? natives instruction.ip instruction.opcode instruction.bytes =
      some (instruction.operandOperations? natives) := by
  obtain ⟨ip, opcode, operands⟩ := instruction
  obtain ⟨layout, fits⟩ := wellFormed
  have holds := holds_operands ⟨ip, opcode, operands⟩
  simp only at layout fits holds ⊢
  -- The opcodes that are told apart have one layout each, which leaves one kind of operands.
  cases opcode
  case enter =>
    cases operands with
    | enter parameters frameSize nameField => exact ownOperationsAt?_enter parameters frameSize fits
    | _ => cases layout
  case switch =>
    cases operands with
    | switch cases => exact ownOperationsAt?_switch fits
    | _ => cases layout
  case native =>
    cases operands with
    | native counts index => exact ownOperationsAt?_native counts index
    | _ => cases layout
  case j | jz =>
    cases operands with
    | rel16 offset => simp [ownOperationsAt?, operandOperations?, jumpTargetAt?_bytes]
    | _ => cases layout
  case call | pushConstU24 =>
    cases operands with
    | u24 value => simp [ownOperationsAt?, operandOperations?, holds.uint24At?_eq fits]
    | _ => cases layout
  case pushConstS16 =>
    cases operands with
    | s16 value => simp [ownOperationsAt?, operandOperations?, holds.uint16At?_eq]
    | _ => cases layout
  case pushConstU32 =>
    cases operands with
    | u32 value => simp [ownOperationsAt?, operandOperations?, holds.uint32At?_eq]
    | _ => cases layout
  case pushConstF =>
    cases operands with
    | f32 value => simp [ownOperationsAt?, operandOperations?, holds.uint32At?_eq]
    | _ => cases layout
  case leave | pushConstU8U8 =>
    cases operands with
    | u8u8 first second => rfl
    | _ => cases layout
  case pushConstU8U8U8 =>
    cases operands with
    | u8u8u8 first second third => rfl
    | _ => cases layout
  case pushConstU8 | textLabelAssignString | textLabelAssignInt | textLabelAppendString |
      textLabelAppendInt =>
    cases operands with
    | u8 value => rfl
    | _ => cases layout
  all_goals rfl

/-- Opcodes with an address form or immediate arithmetic have a layout with an immediate. -/
theorem exists_immediate?
    {opcode : Opcode} {operands : Operands}
    (layout : operands.layout = opcode.layout)
    (hasImmediate : opcode.addressForm? ≠ none ∨ opcode.immediateArith? ≠ none) :
    ∃ immediate, operands.immediate? = some immediate := by
  have isImmediate : opcode.layout ∈ [OperandLayout.u8, .u16, .u24, .s16] := by
    revert hasImmediate
    cases opcode <;> decide
  rw [← layout] at isImmediate
  exact Operands.exists_immediate? isImmediate

/-- The comparisons inside of fused jumps are operations, and fused jumps have a relative target. -/
theorem exists_simpleOperation?
    {opcode compare : Opcode}
    (isCompare : opcode.jumpCompare? = some compare) :
    opcode.layout = .rel16 ∧ ∃ operation, compare.simpleOperation? = some operation := by
  cases opcode <;> cases isCompare <;> exact ⟨rfl, _, rfl⟩

/-- Reading the bytes of an instruction gives its operations: no read is outside of them, and no
immediate is missing. -/
theorem operationsAt?_bytes
    {instruction : Instruction}
    (wellFormed : instruction.WellFormed) :
    operationsAt? natives instruction.ip instruction.opcode instruction.bytes =
      some (instruction.operations natives) := by
  have own := @ownOperationsAt?_bytes natives instruction wellFormed
  obtain ⟨ip, opcode, operands⟩ := instruction
  obtain ⟨layout, fits⟩ := wellFormed
  simp only at layout fits own ⊢
  have immediates := @immediateAt?_bytes ip opcode operands fits
  rw [layout] at immediates
  unfold operationsAt? operations
  simp only [immediates]
  cases isForm : opcode.addressForm? with
  | some form =>
      obtain ⟨immediate, isImmediate⟩ := exists_immediate? layout (.inl (by simp [isForm]))
      simp [isImmediate]
  | none =>
  cases isArith : opcode.immediateArith? with
  | some arith =>
      obtain ⟨immediate, isImmediate⟩ := exists_immediate? layout (.inr (by simp [isArith]))
      simp [isImmediate]
  | none =>
  cases isInt : opcode.intConstant? with
  | some value => rfl
  | none =>
  cases isFloat : opcode.floatConstant? with
  | some value => rfl
  | none =>
  cases isCompare : opcode.jumpCompare? with
  | some compare =>
      obtain ⟨isRelative, operation, isOperation⟩ := exists_simpleOperation? isCompare
      rw [isRelative] at layout
      cases operands with
      | rel16 offset => simp [isOperation, jumpTargetAt?_bytes]
      | _ => cases layout
  | none =>
  cases isSimple : opcode.simpleOperation? with
  | some operation => simp
  | none => exact own

end Reads
end Instruction
end ScriptBytecode
